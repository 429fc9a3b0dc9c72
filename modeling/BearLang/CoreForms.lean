import BearLang.CoreExpressions

/-!
# Evaluating the forms of the core

What the evaluation of a form comes to, in terms of the evaluations of its
parts: an assignment changes the store at one variable, a body goes from form to
form, and a loop goes round from its test. The code itself stays where it lies.
-/

namespace BearLang.CoreLanguage

open CallPrograms ContextRefinement EqualValues OperandEvaluation OperatorCalls EffectFree
  Assignments

set_option autoImplicit false

section Standing

variable {ctx p q : Ptr} {vars : Nat → Prop} {σ : Store} {s t : State} {v : Simple}

theorem stands_contents (stands : Stands ctx vars σ s) (same : SameContents s t) (closed : Closed t) :
    Stands ctx vars σ t where
  closed := closed
  context := by
    obtain ⟨c, ⟨cell, known, tail, sized, plain⟩, direct⟩ := stands.context
    obtain ⟨d, found, _, _, _, tail'⟩ := same ctx cell known
    exact ⟨c, ⟨d, found, tail'.trans tail, sized, plain⟩, direct⟩
  none_ := keeps_contents same _ _ stands.none_
  true_ := keeps_contents same _ _ stands.true_
  false_ := keeps_contents same _ _ stands.false_
  bound x w value := by
    obtain ⟨inside, m, r, found, held⟩ := stands.bound x w value
    exact ⟨inside, m, r, finds_kept (contexts_kept same) found, keeps_contents same _ _ held⟩

theorem stands_unchanged (stands : Stands ctx vars σ s) (same : Unchanged s t) :
    Stands ctx vars σ t := stands_contents stands same.cells same.closed

theorem branches_kept (kept : Retains ctx vars s t) {n : Nat} {test yes no : Ptr}
    (branches : BranchesAt s n test yes no) : BranchesAt t n test yes no := by
  rcases branches with three | ⟨none_, two⟩
  · exact .inl (list_at_kept kept.words three)
  · exact .inr ⟨none_, list_at_kept kept.words two⟩

mutual
theorem form_kept (kept : Retains ctx vars s t) (f : Form) {p : Ptr} (code : FormAt s ctx vars f p) :
    FormAt t ctx vars f p := by
  cases f with
  | absent =>
      unfold FormAt at code ⊢
      exact code
  | value e =>
      unfold FormAt at code ⊢
      exact expr_kept kept code
  | assign x e =>
      unfold FormAt at code ⊢
      obtain ⟨n, k, q, r, call, cells, name, one⟩ := code
      exact ⟨n, k, q, r, call_kept kept (operator_head_kept kept _) call, cells_kept kept cells,
        ⟨symbol_kept kept name.1, name.2⟩, expr_kept kept one⟩
  | block body =>
      unfold FormAt at code ⊢
      obtain ⟨n, call, inner⟩ := code
      exact ⟨n, call_kept kept (form_head_kept kept _) call, body_kept kept body inner⟩
  | branch test yes no =>
      unfold FormAt at code ⊢
      obtain ⟨n, q, r, u, call, branches, one, left, right⟩ := code
      exact ⟨n, q, r, u, call_kept kept (form_head_kept kept _) call, branches_kept kept branches,
        expr_kept kept one, form_kept kept yes left, form_kept kept no right⟩
  | loop test body =>
      unfold FormAt at code ⊢
      obtain ⟨n, c, call, known, type, one, inner⟩ := code
      obtain ⟨d, found, type', word, word'⟩ := kept.words _ c known
      have car : d.car = c.car := by rw [Cell.car, word]; rfl
      have cdr : d.cdr = c.cdr := by rw [Cell.cdr, word']; rfl
      refine ⟨n, d, call_kept kept (form_head_kept kept _) call, found, type'.trans type, ?_, ?_⟩
      · rw [car]
        exact expr_kept kept one
      · rw [cdr]
        exact body_kept kept body inner
theorem body_kept (kept : Retains ctx vars s t) (b : Body) {q : Ptr} (code : BodyAt s ctx vars b q) :
    BodyAt t ctx vars b q := by
  cases b with
  | last f =>
      unfold BodyAt at code ⊢
      obtain ⟨c, known, type, cdr, inner⟩ := code
      obtain ⟨d, found, type', word, word'⟩ := kept.words _ c known
      have car : d.car = c.car := by rw [Cell.car, word]; rfl
      refine ⟨d, found, type'.trans type, ?_, ?_⟩
      · rw [Cell.cdr, word']
        exact cdr
      · rw [car]
        exact form_kept kept f inner
  | next f rest =>
      unfold BodyAt at code ⊢
      obtain ⟨c, known, type, inner, later⟩ := code
      obtain ⟨d, found, type', word, word'⟩ := kept.words _ c known
      have car : d.car = c.car := by rw [Cell.car, word]; rfl
      have cdr : d.cdr = c.cdr := by rw [Cell.cdr, word']; rfl
      refine ⟨d, found, type'.trans type, ?_, ?_⟩
      · rw [car]
        exact form_kept kept f inner
      · rw [cdr]
        exact body_kept kept rest later
end

/-- A store in the context changes the store at one variable, and nothing else
that a program of the core looks at. -/
theorem stands_assigned (stands : Stands ctx vars σ s) {x : Nat} {key r : Ptr} (inside : vars x)
    (held : Holds s v r) (stored : AssignmentStored ctx key x r s t) (closed : Closed t) :
    Stands ctx vars (σ.set x v) t ∧ Retains ctx vars s t := by
  obtain ⟨c, here, direct⟩ := stands.context
  have stored' := stored
  obtain ⟨b, cell, old, new, isRef, known, tail, sized, plain, change, isPut⟩ := stored'
  subst isRef isPut
  have same : c = old := by
    obtain ⟨cell', known', tail', _⟩ := here
    rw [known] at known'
    cases known'
    rw [tail] at tail'
    cases tail'
    rfl
  have words := keeps_words_put known new
  have retains : Retains (.ref b) vars s (s.put b { cell with tail := .ctx new }) := by
    refine ⟨words, fun q d other held => ⟨d, (State.cell_put_other other _).trans held, rfl⟩, ?_⟩
    intro id q m w outside found
    have other : id ≠ x := fun isVar => outside (isVar ▸ inside)
    exact finds_stored stored other found
  have keeps := keeps_retained retains
  have context := context_put known change plain
  refine ⟨⟨closed, ⟨new, context, ?_⟩, keeps _ _ stands.none_, keeps _ _ stands.true_,
    keeps _ _ stands.false_, ?_⟩, retains⟩
  · rw [change.writeToParent, ← same]
    exact direct
  · intro y w value
    unfold Store.set at value
    by_cases isVar : y = x
    · subst isVar
      rw [if_pos rfl] at value
      cases value
      have slot : new.vals.getD y .null = r := by rw [change.vals, if_pos rfl]
      obtain ⟨m, found⟩ := finds_of_reads context slot (holds_filled held)
      exact ⟨inside, m, r, found, keeps _ _ held⟩
    · rw [if_neg isVar] at value
      obtain ⟨inside', m, q, found, held'⟩ := stands.bound y w value
      exact ⟨inside', m, q, finds_stored stored isVar found, keeps _ _ held'⟩

end Standing

section Assigning

variable {W : World} {ctx p : Ptr} {vars : Nat → Prop} {σ : Store} {s : State} {v : Simple}

def Evaluates (W : World) (ctx : Ptr) (vars : Nat → Prop) (s : State) (p : Ptr) (v : Simple)
    (τ : Store) : Prop :=
  ∃ r t, (∀ site, (runtime W).Runs (blEval site ctx p) s r t) ∧ Holds t v r ∧
    Stands ctx vars τ t ∧ Retains ctx vars s t

theorem closed_evaluated (disciplined : ∀ D, W.Disciplined D) (stands : Stands ctx vars σ s)
    {c : Cell} (known : s.cell p = some c) {site : Site} {r : Ptr} {t : State}
    (run : (runtime W).Runs (blEval site ctx p) s r t) : Closed t :=
  (eval_secluded disciplined stands.closed (away_context stands) (away_known known) run).1

theorem assign_evaluates (disciplined : ∀ D, W.Disciplined D) (stands : Stands ctx vars σ s)
    {x : Nat} {e : Expr} (code : FormAt s ctx vars (.assign x e) p) (value : e.eval σ = some v) :
    Evaluates W ctx vars s p v (σ.set x v) := by
  unfold FormAt at code
  obtain ⟨n, k, key, q, call, cells, name, one⟩ := code
  obtain ⟨s', called, same, _⟩ := call_calls (W := W) call cells s (unchanged_refl stands.closed)
  obtain ⟨r, m, run, held, same', _⟩ := expr_gives disciplined stands one value s' same
  have standsHere := stands_unchanged stands same'
  have retains : Retains ctx vars s m := retains_unchanged same'
  obtain ⟨c, here, direct⟩ := standsHere.context
  obtain ⟨cell, known, tail, sized, plain⟩ := here
  obtain ⟨a, rfl⟩ := State.ref_of_cell known
  have goes : target (.ref a) c = .ref a := by
    unfold target
    rw [direct]
    rfl
  have named := symbol_kept retains name.1
  obtain ⟨keyCell, _, keyKnown, _, _, symId, _⟩ := id named
  obtain ⟨new, change, store⟩ := ctx_set_target (W := W) (v := r)
    (context_at_ctx ⟨cell, known, tail, sized, plain⟩) goes known tail sized keyKnown symId
  have stored : AssignmentStored (.ref a) key x r m (m.put a { cell with tail := .ctx new }) :=
    ⟨a, cell, c, new, rfl, known, tail, sized, plain, change, rfl⟩
  have filled : orNull r = r := value_or_null held
  have operands := list_at_cells (cells_unchanged same cells)
  have operands' := list_at_cells (cells_unchanged same' cells)
  have native : (runtime W).Runs (builtinCode W .set (.ref a) (.ref n)) s' r
      (m.put a { cell with tail := .ctx new }) := by
    change (runtime W).Runs (blOperSet (.ref a) (.ref n)) s' r _
    rw [blOperSet, runs_after (eval_second_runs operands run), runs_after (list_first_runs operands'),
      runs_after store]
    exact runs_pure_self _ _
  have whole : ∀ site, (runtime W).Runs (blEval site (.ref a) p) s r
      (m.put a { cell with tail := .ctx new }) := by
    intro site
    rw [operator_call_runs called site]
    exact ⟨r, native, filled.symm⟩
  obtain ⟨e₀, known₀, _⟩ := call
  have closed := closed_evaluated disciplined stands known₀ (whole .operand)
  obtain ⟨stands', retains'⟩ := stands_assigned standsHere name.2 held stored closed
  exact ⟨r, _, whole, keeps_retained retains' _ _ held, stands', retains_trans retains retains'⟩

end Assigning

section Bodies

variable {W : World} {ctx p q : Ptr} {vars : Nat → Prop} {σ τ : Store} {s t m : State} {v : Simple}
  {site : Site} {out : Bool × Ptr}

theorem body_done (r₀ : Ptr) : (runtime W).Runs (call (.bodyLoop site ctx .null r₀)) s out t ↔
    (false, r₀) = out ∧ s = t := by
  rw [runs_call_iff]
  change (runtime W).Runs (bodyLoop site ctx .null r₀) s out t ↔ _
  rw [bodyLoop, if_pos rfl]
  exact runs_pure

theorem body_turn {c d : Cell} {r : Ptr} (known : s.cell q = some c)
    (run : (runtime W).Runs (blEval site ctx c.car) s r m) (held : Holds m v r)
    (still : m.cell q = some d) (r₀ : Ptr) :
    (runtime W).Runs (call (.bodyLoop site ctx q r₀)) s out t ↔
      (runtime W).Runs (call (.bodyLoop site ctx d.cdr r)) m out t := by
  obtain ⟨cell, there, shape⟩ := id held
  have noError : ¬ cell.type = .error := by cases v <;> simp_all
  rw [runs_call_iff]
  change (runtime W).Runs (bodyLoop site ctx q r₀) s out t ↔ _
  rw [bodyLoop, if_neg (cell_ne_null known), runs_after (runs_load known), runs_after run]
  dsimp only
  rw [if_pos (holds_filled held), runs_after (runs_type_of there), if_neg noError,
    runs_after (runs_load still)]

theorem body_first {c : Cell} {r₀ : Ptr} (known : s.cell q = some c)
    (run : (runtime W).Runs (call (.bodyLoop site ctx q r₀)) s out t) :
    ∃ r m, (runtime W).Runs (blEval site ctx c.car) s r m := by
  rw [runs_call_iff] at run
  change (runtime W).Runs (bodyLoop site ctx q r₀) s out t at run
  rw [bodyLoop, if_neg (cell_ne_null known), runs_after (runs_load known)] at run
  obtain ⟨r, m, first, _⟩ := runs_bind.1 run
  exact ⟨r, m, first⟩

def BodyEvaluates (W : World) (ctx : Ptr) (vars : Nat → Prop) (s : State) (q : Ptr) (v : Simple)
    (τ : Store) : Prop :=
  ∃ r t, (∀ site r₀, (runtime W).Runs (call (.bodyLoop site ctx q r₀)) s (false, r) t) ∧
    Holds t v r ∧ Stands ctx vars τ t ∧ Retains ctx vars s t

theorem last_evaluates {f : Form} (code : BodyAt s ctx vars (.last f) q)
    (one : ∀ {p}, FormAt s ctx vars f p → Evaluates W ctx vars s p v τ) :
    BodyEvaluates W ctx vars s q v τ := by
  unfold BodyAt at code
  obtain ⟨c, known, _, cdr, inner⟩ := code
  obtain ⟨r, t, run, held, stands, retains⟩ := one inner
  obtain ⟨d, found, _, _, word⟩ := retains.words q c known
  have cdr' : d.cdr = .null := by
    rw [Cell.cdr, word]
    exact cdr
  refine ⟨r, t, fun site r₀ => ?_, held, stands, retains⟩
  rw [body_turn known (run site) held found r₀, cdr', body_done]
  exact ⟨rfl, rfl⟩

theorem next_evaluates {f : Form} {rest : Body} {w : Simple} {ρ : Store}
    (code : BodyAt s ctx vars (.next f rest) q)
    (one : ∀ {p}, FormAt s ctx vars f p → Evaluates W ctx vars s p v ρ)
    (two : ∀ {q t}, BodyAt t ctx vars rest q → Stands ctx vars ρ t →
      BodyEvaluates W ctx vars t q w τ) : BodyEvaluates W ctx vars s q w τ := by
  unfold BodyAt at code
  obtain ⟨c, known, _, inner, later⟩ := code
  obtain ⟨r, m, run, held, stands, retains⟩ := one inner
  obtain ⟨d, found, _, _, word⟩ := retains.words q c known
  have cdr : d.cdr = c.cdr := by rw [Cell.cdr, word]; rfl
  obtain ⟨r', t, run', held', stands', retains'⟩ := two (body_kept retains rest later) stands
  refine ⟨r', t, fun site r₀ => ?_, held', stands', retains_trans retains retains'⟩
  rw [body_turn known (run site) held found r₀, cdr]
  exact run' site r

theorem form_head {kind : ValType} {key : Ptr} (head : FormHead s kind key) (other : kind ≠ .symbol) :
    ∃ op, s.cell key = some op ∧ op.type = kind ∧ ∀ ctx, HeadValue W ctx key s key s := by
  obtain ⟨op, known, isForm⟩ := Option.map_eq_some_iff.1 head
  exact ⟨op, known, isForm, fun _ => .other known (isForm ▸ other)⟩

/-- A `do` is its body. -/
theorem block_runs {n : Nat} (call_ : CallAt s (FormHead s .operDo) p n) {r : Ptr} :
    (runtime W).Runs (blEval site ctx p) s r t ↔
      ∃ out, (runtime W).Runs (call (.bodyLoop .doElement ctx (.ref n) nullVal)) s out t ∧
        orNull out.2 = r := by
  obtain ⟨c, known, type, cdr, isForm⟩ := call_
  obtain ⟨op, held, isDo, head⟩ := form_head (W := W) isForm (by decide)
  rw [eval_runs_apply site known type (head ctx), evalApply, runs_after (runs_load held)]
  simp only [isDo]
  rw [runs_after (runs_load known), cdr, runs_bind]
  constructor
  · rintro ⟨out, u, run, rest⟩
    obtain ⟨same, rfl⟩ := runs_pure.1 rest
    exact ⟨out, run, same⟩
  · rintro ⟨out, run, same⟩
    exact ⟨out, t, run, runs_pure.2 ⟨same, rfl⟩⟩

end Bodies

end BearLang.CoreLanguage
