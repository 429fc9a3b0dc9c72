import BearLang.BodyRunner
import BearLang.CoreEvaluation

/-!
# Functions over the core

A call binds the values of its arguments in the context of the function, which
is the same in every call, and then evaluates the body there. So a function
whose body is a program of the core gives what the program gives from the store
that the last call left, with the parameters set.
-/

namespace BearLang.CoreLanguage

open CallPrograms ContextRefinement EqualValues OperandEvaluation EffectFree StructuredPrograms
  ArgumentBinding Assignments Division BodyRunner ContextStores

set_option autoImplicit false

section Binding

variable {s t : State} {vars : Nat → Prop} {ρ : Store} {ids : List Nat} {xs : List Simple}
  {ps : List Ptr} {a x : Nat} {c : Cell} {old : Ctx} {v : Simple}

def Store.bind (σ : Store) : List Nat → List Simple → Store
  | x :: ids, v :: xs => (σ.set x v).bind ids xs
  | _, _ => σ

/-- What the store then says of a variable is in its slot, or was said before. -/
theorem bind_cases (held : List.Forall₂ (Holds s) xs ps) (arity : ids.length = xs.length) (old : Ptr)
    (value : (ρ.bind ids xs) x = some v) :
    x ∈ ids ∧ Holds s v (lastBound (ids.zip ps) x old) ∨ x ∉ ids ∧ ρ x = some v := by
  induction held generalizing ids ρ old with
  | nil =>
      cases ids with
      | nil => exact .inr ⟨List.not_mem_nil, value⟩
      | cons id ids => cases arity
  | @cons w p xs ps first _ ih =>
      cases ids with
      | nil => cases arity
      | cons id ids =>
          rw [List.zip_cons_cons, lastBound]
          rcases ih (Nat.succ.inj arity) (if x = id then p else old) value with
            ⟨mem, later⟩ | ⟨none_, before⟩
          · exact .inl ⟨List.mem_cons_of_mem _ mem, later⟩
          · unfold Store.set at before
            by_cases here : x = id
            · rw [if_pos here] at before
              cases before
              refine .inl ⟨here ▸ List.mem_cons_self, ?_⟩
              rw [if_pos here, last_bound_other]
              · exact first
              · intro pair mem same
                exact none_ (same ▸ (List.of_mem_zip mem).1)
            · rw [if_neg here] at before
              refine .inr ⟨?_, before⟩
              intro mem
              rcases List.mem_cons.1 mem with same | later
              · exact here same
              · exact none_ later

theorem finds_bound (known : s.cell (.ref a) = some c) (tail : c.tail = .ctx old) (sized : Sized old)
    (binds : Binds s t a c old (ids.zip ps)) (other : x ∉ ids) {p w : Ptr} {n : Nat}
    (found : Finds s x p n w) : Finds t x p n w := by
  obtain ⟨others, _, new, ⟨known', _, tail', sized', _⟩, parent, plain, slots⟩ := binds
  have here (c' : Ctx) (at_ : ctxAt s (.ref a) = some c') : c' = old := by
    rw [ctxAt, known, Option.bind_some, Cell.asCtx, tail] at at_
    exact (Option.some.inj at_).symm
  have stays : ctxAt t (.ref a) = some new := by
    rw [ctxAt, known', Option.bind_some, Cell.asCtx, tail']
  have elsewhere {b : Nat} {c' : Ctx} (ne : b ≠ a) (at_ : ctxAt s (.ref b) = some c') :
      ctxAt t (.ref b) = some c' := by
    rw [ctxAt, others _ fun same => ne (Ptr.ref.inj same)]
    exact at_
  have slot : new.vals.getD x .null = old.vals.getD x .null := by
    rw [slots, last_bound_other]
    intro pair mem same
    exact other (same ▸ (List.of_mem_zip mem).1)
  induction found with
  | @here b c' w at_ plainCtx inside value filled =>
      by_cases same : b = a
      · subst same
        rw [here c' at_] at value plainCtx
        have before : old.vals.getD x .null = w := by
          rw [List.getD_eq_getElem?_getD, value, Option.getD_some]
        rw [before] at slot
        obtain ⟨inside', value'⟩ := slot_filled sized' slot filled
        exact .here stays (plain.trans plainCtx) inside' value' filled
      · exact .here (elsewhere same at_) plainCtx inside value filled
  | @above b k c' w at_ plainCtx empty later ih =>
      by_cases same : b = a
      · subst same
        rw [here c' at_] at empty later ih plainCtx
        refine .above stays (plain.trans plainCtx) ?_ (parent ▸ ih)
        exact slot_empty sized' (slot.trans (empty_slot empty sized))
      · exact .above (elsewhere same at_) plainCtx empty ih

theorem stands_bound (stands : Stands (.ref a) vars ρ s) (opened : OpenContext s (.ref a) c old)
    (binds : Binds s t a c old (ids.zip ps)) (inside : ∀ id ∈ ids, vars id)
    (held : List.Forall₂ (Holds s) xs ps) (arity : ids.length = xs.length) (closed : Closed t) :
    Stands (.ref a) vars (ρ.bind ids xs) t ∧ Retains (.ref a) vars s t := by
  obtain ⟨known, type, tail, sized, own⟩ := opened
  obtain ⟨d, ⟨cell, known', tail₀, _, plain⟩, _⟩ := stands.context
  have same : d = old := by
    rw [known] at known'
    cases known'
    rw [tail] at tail₀
    cases tail₀
    rfl
  subst same
  have bound := binds
  obtain ⟨others, _, new, ⟨known', _, tail', sized', own'⟩, parent, plain', slots⟩ := binds
  have elsewhere : ∀ q e, q ≠ .ref a → s.cell q = some e → t.cell q = some e :=
    fun q e other there => (others q other).trans there
  have retains : Retains (.ref a) vars s t := by
    refine ⟨?_, fun q e other there => ⟨e, elsewhere q e other there, rfl⟩, ?_⟩
    · intro q e there
      by_cases here : q = .ref a
      · subst here
        rw [known] at there
        cases there
        exact ⟨_, known', rfl, rfl, rfl⟩
      · exact ⟨e, elsewhere q e here there, rfl, rfl, rfl⟩
    · intro id q m w outside found
      exact finds_bound known tail sized bound (fun mem => outside (inside id mem)) found
  have keeps := keeps_retained retains
  have context : ContextAt t (.ref a) new := ⟨_, known', tail', sized', plain'.trans plain⟩
  refine ⟨⟨closed, ⟨new, context, own'⟩, keeps _ _ stands.none_, keeps _ _ stands.true_,
    keeps _ _ stands.false_, ?_⟩, retains⟩
  intro y w value
  rcases bind_cases held arity (d.vals.getD y .null) value with ⟨mem, value'⟩ | ⟨none_, before⟩
  · rw [← slots y] at value'
    obtain ⟨m, found⟩ := finds_of_reads context rfl (holds_filled value')
    exact ⟨inside y mem, m, _, found, keeps _ _ value'⟩
  · obtain ⟨isVar, m, q, found, value'⟩ := stands.bound y w before
    exact ⟨isVar, m, q, finds_bound known tail sized bound none_ found, keeps _ _ value'⟩

end Binding

section Calls

variable {W : World} {s t : State} {ctx func inner p : Ptr} {vars vars' : Nat → Prop} {σ ρ : Store}
  {ids : List Nat} {xs : List Simple} {es : List Expr}

/-- A function with these parameters, whose body is at `q`. -/
def FunctionAt (s : State) (func inner : Ptr) (ids : List Nat) (q : Ptr) : Prop :=
  (∃ params, FunctionValue s func inner params ids) ∧ ∃ f, s.cell func = some f ∧ f.car = q

/-- A call of the function under a plain name, with these arguments. -/
def AppliesAt (s : State) (ctx : Ptr) (vars : Nat → Prop) (func : Ptr) (es : List Expr) (p : Ptr) :
    Prop :=
  ∃ n operands id m c, s.cell p = some c ∧ c.type = .cons ∧ c.cdr = .ref n ∧
    PlainSymbol s c.car id ∧ Finds s id ctx m func ∧ CellsAt s operands (.ref n) ∧
    List.Forall₂ (fun e operand => ExprAt s ctx vars e operand.2) es operands

theorem function_apart {params : List Ptr} (value : FunctionValue s func inner params ids) :
    func ≠ inner := by
  obtain ⟨⟨f, known, type, _⟩, _, c, d, known', type', _⟩ := value
  intro same
  subst same
  rw [known] at known'
  cases known'
  rw [type] at type'
  cases type'

theorem function_kept {q : Ptr} (kept : Retains inner vars s t) (stands : Stands inner vars ρ t)
    (function : FunctionAt s func inner ids q) : FunctionAt t func inner ids q := by
  obtain ⟨⟨params, value⟩, f, known, car⟩ := function
  have apart := function_apart value
  obtain ⟨⟨f', known', type, listed, points⟩, named, c, d, held, isCtx, _⟩ := value
  rw [known] at known'
  cases known'
  obtain ⟨g, found, type', word, word'⟩ := kept.words func f known
  obtain ⟨g', found', tail⟩ := kept.tails func f apart known
  rw [found] at found'
  cases found'
  obtain ⟨e, there, isCtx', _⟩ := kept.words inner c held
  obtain ⟨new, ⟨e', there', tail', sized, _⟩, direct⟩ := stands.context
  rw [there] at there'
  cases there'
  refine ⟨⟨params, ⟨g, found, type'.trans type, ?_, ?_⟩, sym_ids_kept kept.words named, e, new, there,
    isCtx'.trans isCtx, tail', sized, direct⟩, g, found, ?_⟩
  · rw [Cell.cdr, word']
    exact list_at_kept kept.words listed
  · rw [Cell.innerClosure, tail]
    exact points
  · rw [← car, Cell.car, word]
    rfl

theorem arguments_given (disciplined : ∀ D, W.Disciplined D) (stands : Stands ctx vars σ s)
    {operands : List (Nat × Ptr)}
    (code : List.Forall₂ (fun e operand => ExprAt s ctx vars e operand.2) es operands)
    (values : List.Forall₂ (fun e x => e.eval σ = some x) es xs) :
    List.Forall₂ (fun operand x => Gives W ctx (Unchanged s) operand.2 x) operands xs := by
  induction code generalizing xs with
  | nil =>
      cases values
      exact .nil
  | cons one _ ih =>
      cases values with
      | cons value values => exact .cons (expr_gives disciplined stands one value) (ih values)

/-- A call gets to the body of the function, with the parameters bound. -/
theorem call_reaches (disciplined : ∀ D, W.Disciplined D) (stands : Stands ctx vars σ s)
    (standsInner : Stands inner vars' ρ s) {q : Ptr} (function : FunctionAt s func inner ids q)
    (call_ : AppliesAt s ctx vars func es p)
    (values : List.Forall₂ (fun e x => e.eval σ = some x) es xs) (some_ : es ≠ [])
    (arity : ids.length = xs.length) (inside : ∀ id ∈ ids, vars' id) (site : Site) :
    ∃ t, (runtime W).Reaches (blEval site ctx p) s (runFuncBody func) t ∧
      Stands inner vars' (ρ.bind ids xs) t ∧ Retains inner vars' s t := by
  obtain ⟨n, operands, id, m, c, known, type, cdr, named, found, cells, code⟩ := call_
  have gives := arguments_given disciplined stands code values
  have same : ∀ t, Unchanged s t → CellsAt t operands (.ref n) := fun t same => cells_unchanged same cells
  obtain ⟨one, more, rfl⟩ : ∃ one more, operands = one :: more := by
    cases code with
    | nil => exact absurd rfl some_
    | cons _ _ => exact ⟨_, _, rfl⟩
  have filled : one.2 ≠ .null := by
    cases code with
    | cons first _ => exact expr_filled first
  obtain ⟨A, ps, u, evaluated, list, held, unchanged, _⟩ := list_evaluated disciplined
    (steady_unchanged (away_context stands)) ⟨same, gives⟩ filled (unchanged_refl stands.closed)
  have between := stands_unchanged standsInner unchanged
  have kept : Retains inner vars' s u := retains_unchanged unchanged
  have function' := function_kept kept between function
  obtain ⟨⟨params, ⟨f, known', isFunc, listed, points⟩, ids_, c', d, opened⟩, _⟩ := function'
  obtain ⟨a, isRef⟩ := State.ref_of_cell opened.1
  subst isRef
  have given : ps ≠ [] := by
    intro none_
    subst none_
    cases held
    cases values
    exact some_ rfl
  have enough : ps.length ≤ params.length := by
    have sizes := congrArg List.length ids_
    have sizes' := held.length_eq
    simp only [List.length_map] at sizes
    omega
  obtain ⟨t, bind, binds⟩ := set_params_binds (W := W) opened listed list ids_ enough given
  have expr : ∃ e, u.cell p = some e ∧ e.cdr = .ref n ∧ e.car = c.car ∧ e.type = .cons := by
    obtain ⟨e, there, type', word, word', _⟩ := unchanged.cells p c known
    refine ⟨e, there, ?_, ?_, type'.trans type⟩
    · rw [Cell.cdr, word']
      exact cdr
    · rw [Cell.car, word]
      rfl
  obtain ⟨e, there, cdr', car, isCons⟩ := expr
  have whole : ListAt u (c.car :: one.2 :: more.map Prod.snd) p := by
    obtain ⟨b, rfl⟩ := State.ref_of_cell there
    refine ⟨b, e, rfl, there, isCons, car, ?_⟩
    rw [cdr']
    exact list_at_cells (same u unchanged)
  have headFilled : c.car ≠ .null := by
    obtain ⟨cell, _, held, _⟩ := named
    exact cell_ne_null held
  have head := head_named (W := W) (Names.plain named found)
  obtain ⟨f₀, first, isFunc₀⟩ : ∃ f₀, s.cell func = some f₀ ∧ f₀.type = .funcBl := by
    obtain ⟨⟨_, ⟨f₀, first, type₀, _⟩, _⟩, _⟩ := function
    exact ⟨f₀, first, type₀⟩
  have enter : (runtime W).Runs (enterFunc func) u () u := runs_step rfl
  have long : 1 < (one.2 :: more.map Prod.snd).length + 1 := by simp
  have reached : (runtime W).Reaches (blEval site ctx p) s (runFuncBody func) t := by
    apply reaches_trans (eval_reaches_apply site known type head)
    rw [evalApply]
    apply reaches_after (runs_load first)
    rw [isFunc₀]
    apply reaches_after (runs_load known)
    rw [cdr]
    apply reaches_after (eval_site evaluated)
    apply reaches_after (list_len_runs whole headFilled)
    apply reaches_after enter
    apply reaches_after (runs_load known')
    apply reaches_after (runs_member points u)
    rw [if_pos long]
    exact reaches_after bind (.refl _ _)
  obtain ⟨closed, _⟩ := closed_reached (fun D => D.good) disciplined stands.closed
    (fun D good => safe_eval (good _ (away_context stands)) (good _ (away_known known))) reached
  obtain ⟨after, kept'⟩ := stands_bound between opened binds inside held arity closed
  exact ⟨t, reached, after, retains_trans kept kept'⟩

end Calls

section Bodies

variable {W : World} {s t : State} {ctx func inner p q : Ptr} {vars vars' : Nat → Prop}
  {σ ρ τ : Store} {ids : List Nat} {xs : List Simple} {es : List Expr} {v : Simple}

/-- Forms that are not looked into before they are evaluated, and `if`s that only compute. -/
def Form.Direct : Form → Prop
  | .absent => False
  | .branch _ yes no => yes.Pure ∧ no.Pure
  | _ => True

def Body.Direct : Body → Prop
  | .last form => form.Direct
  | .next form rest => form.Direct ∧ rest.Direct

theorem function_not_null (function : s.typeOf func = some .funcBl) : func ≠ .null := by
  obtain ⟨f, known, _⟩ := Option.map_eq_some_iff.1 function
  exact cell_ne_null known

theorem operator_seen {b : Builtin} {n : Nat} (call_ : CallAt s (OperatorHead s inner vars b) p n)
    (function : s.typeOf func = some .funcBl) : SeenOnly W func inner p s := by
  obtain ⟨c, known, type, _, id, m, w, op, named, _, found, held, native, _⟩ := call_
  obtain ⟨key, there, isSymbol⟩ := named_symbol (Names.plain named found)
  have noIf : key.type ≠ .operIf := by
    rw [isSymbol]
    decide
  have other : w ≠ func := by
    intro same
    subst same
    rw [State.typeOf, held, Option.map_some, native] at function
    cases function
  exact list_seen (function_not_null function) known type there noIf
    (.symbol there isSymbol (ctx_get_named (Names.plain named found)) other)

theorem form_seen {kind : ValType} {n : Nat} (call_ : CallAt s (FormHead s kind) p n)
    (noSymbol : kind ≠ .symbol) (noIf : kind ≠ .operIf) (function : s.typeOf func = some .funcBl) :
    SeenOnly W func inner p s := by
  obtain ⟨c, known, isCons, _, head⟩ := call_
  obtain ⟨op, there, isForm⟩ := Option.map_eq_some_iff.1 head
  exact list_seen (function_not_null function) known isCons there (isForm ▸ noIf)
    (.value there (isForm ▸ noSymbol))

theorem expr_seen {e : Expr} (code : ExprAt s inner vars e p)
    (function : s.typeOf func = some .funcBl) : SeenOnly W func inner p s := by
  cases e with
  | const x =>
      obtain ⟨c, known, shape⟩ := code
      apply atom_seen (function_not_null function) known
      intro isCons
      cases x <;> simp_all
  | var x =>
      obtain ⟨⟨c, _, known, type, _⟩, _⟩ := code
      apply atom_seen (function_not_null function) known
      rw [type]
      decide
  | call op left right =>
      obtain ⟨_, _, _, _, call, _⟩ := code
      exact operator_seen call function
  | negate e =>
      obtain ⟨_, _, call, _⟩ := code
      exact operator_seen call function

/-- The look at an `if` that only computes evaluates it, and adds cells at most. -/
theorem branch_probed (disciplined : ∀ D, W.Disciplined D) {test : Expr} {yes no : Form}
    (computes : yes.Pure ∧ no.Pure) (code : FormAt s inner vars (.branch test yes no) p)
    (stands : Stands inner vars σ s) (ends : EndsIn (Form.branch test yes no).command σ v τ) :
    ∃ c h r d m, s.cell p = some c ∧ c.type = .cons ∧ s.cell c.car = some h ∧ h.type = .operIf ∧
      (runtime W).Runs (blEvalIf true inner p) s r m ∧ m.cell r = some d ∧ d.type ≠ .cons ∧
      Unchanged s m := by
  obtain ⟨b, q, branch, m, form, same, inside, rest⟩ := branch_goes disciplined stands code ends
  have between := stands_unchanged stands same
  have taken : (cond b yes no).Pure := by
    cases b with
    | true => exact computes.1
    | false => exact computes.2
  obtain ⟨r, t, run, ⟨d, held, shape⟩, same'⟩ :=
    pure_evaluates disciplined _ taken inside between rest
  unfold FormAt at code
  obtain ⟨_, _, _, _, ⟨c, known, isCons, _, head⟩, _⟩ := code
  obtain ⟨h, there, isIf⟩ := Option.map_eq_some_iff.1 head
  have probe := ((CallSafety.same_runs_if inner p).runs s r t).2 ((Conditionals.eval_if_runs form).2 (run _))
  have noList : d.type ≠ .cons := by
    cases v <;> simp_all
  exact ⟨c, h, r, d, t, known, isCons, there, isIf, probe, held, noList, unchanged_trans same same'⟩

/-- Such an `if` in the body of a function is passed over as any other expression. -/
theorem branch_passes (disciplined : ∀ D, W.Disciplined D) {test : Expr} {yes no : Form}
    (computes : yes.Pure ∧ no.Pure) (code : FormAt s inner vars (.branch test yes no) p)
    (stands : Stands inner vars σ s) (ends : EndsIn (Form.branch test yes no).command σ v τ) :
    Passes W func inner p s := by
  obtain ⟨c, h, r, d, m, known, isCons, there, isIf, probe, held, noList, same⟩ :=
    branch_probed disciplined computes code stands ends
  exact .branch known isCons there isIf probe held (fun isList => absurd isList noList)
    (.inl same.adds)

theorem direct_looked (disciplined : ∀ D, W.Disciplined D) {f : Form} (direct : f.Direct)
    (code : FormAt s inner vars f p) (function : s.typeOf func = some .funcBl)
    (stands : Stands inner vars σ s) (ends : EndsIn f.command σ v τ) :
    ∃ h m, h ≠ func ∧ (runtime W).Runs (bodyHead inner p) s h m ∧ Unchanged s m := by
  have stays (seen : SeenOnly W func inner p s) :
      ∃ h m, h ≠ func ∧ (runtime W).Runs (bodyHead inner p) s h m ∧ Unchanged s m := by
    obtain ⟨h, apart, run⟩ := seen
    exact ⟨h, s, apart, run, unchanged_refl stands.closed⟩
  cases f with
  | absent => exact direct.elim
  | branch test yes no =>
      obtain ⟨c, h, r, d, m, known, isCons, there, isIf, probe, held, noList, same⟩ :=
        branch_probed disciplined direct code stands ends
      obtain ⟨w, apart, run⟩ := branch_looked (function_not_null function) known isCons there isIf
        probe held fun isList => absurd isList noList
      exact ⟨w, m, apart, run, same⟩
  | value e =>
      unfold FormAt at code
      exact stays (expr_seen code function)
  | assign x e =>
      unfold FormAt at code
      obtain ⟨_, _, _, _, call, _⟩ := code
      exact stays (operator_seen call function)
  | block body =>
      unfold FormAt at code
      obtain ⟨_, call, _⟩ := code
      exact stays (form_seen call (by decide) (by decide) function)
  | loop test body =>
      unfold FormAt at code
      obtain ⟨_, _, call, _⟩ := code
      exact stays (form_seen call (by decide) (by decide) function)

theorem closure_of_function (function : FunctionAt s func inner ids q) :
    ClosureOf s func inner ∧ s.typeOf func = some .funcBl := by
  obtain ⟨⟨_, ⟨f, known, type, _, points⟩, _⟩, _⟩ := function
  exact ⟨⟨f, known, points⟩, Option.map_eq_some_iff.2 ⟨f, known, type⟩⟩

theorem body_not_null {b : Body} {i : Ptr} (code : BodyAt s inner vars b i) : i ≠ .null := by
  cases b with
  | last f =>
      unfold BodyAt at code
      obtain ⟨c, known, _⟩ := code
      exact cell_ne_null known
  | next f rest =>
      unfold BodyAt at code
      obtain ⟨c, known, _⟩ := code
      exact cell_ne_null known

/-- The body of a function gives what its program gives. -/
theorem funcbody_evaluates (disciplined : ∀ D, W.Disciplined D) (b : Body) {s : State} {i : Ptr}
    {σ : Store} (direct : b.Direct) (code : BodyAt s inner vars b i) (stands : Stands inner vars σ s)
    (function : FunctionAt s func inner ids q) (ends : EndsIn b.command σ v τ) :
    ∃ r t, (runtime W).Runs (call (.funcbody func i)) s r t ∧ Holds t v r ∧
      Stands inner vars τ t ∧ Retains inner vars s t := by
  obtain ⟨closure, isFunc⟩ := closure_of_function function
  cases b with
  | last f =>
      unfold BodyAt at code
      unfold Body.command at ends
      obtain ⟨c, known, _, cdr, inside⟩ := code
      obtain ⟨h, m, other, looked, same⟩ :=
        direct_looked disciplined direct inside isFunc stands ends
      have kept : Retains inner vars s m := retains_unchanged same
      obtain ⟨r, t, run, held, after, retains⟩ := form_evaluates disciplined f
        (form_kept kept f inside) (stands_unchanged stands same) ends
      have whole := retains_trans kept retains
      obtain ⟨d, found, _, _, word⟩ := whole.words i c known
      have ended : d.cdr = .null := by
        rw [Cell.cdr, word]
        exact cdr
      have turn := loop_turn known closure looked other (run _) found
      rw [if_pos ended] at turn
      exact ⟨r, t, runs_call (c := .funcbody func i) ((reaches_runs_iff turn).2 (runs_pure_self _ _)),
        held, after, whole⟩
  | next f rest =>
      unfold BodyAt at code
      unfold Body.command at ends
      obtain ⟨c, known, _, inside, later⟩ := code
      cases ends with
      | next one two =>
          obtain ⟨h, m, other, looked, same⟩ :=
            direct_looked disciplined direct.1 inside isFunc stands one
          have kept : Retains inner vars s m := retains_unchanged same
          obtain ⟨r, u, run, held, between, retains⟩ := form_evaluates disciplined f
            (form_kept kept f inside) (stands_unchanged stands same) one
          have turned := retains_trans kept retains
          obtain ⟨d, found, _, _, word⟩ := turned.words i c known
          have cdr : d.cdr = c.cdr := by rw [Cell.cdr, word]; rfl
          have more : d.cdr ≠ .null := by
            rw [cdr]
            exact body_not_null later
          obtain ⟨r', t, run', held', after, retains'⟩ := funcbody_evaluates disciplined rest direct.2
            (body_kept turned rest later) between (function_kept turned between function) two
          have turn := loop_turn known closure looked other (run _) found
          rw [if_neg more, cdr] at turn
          exact ⟨r', t, runs_call (c := .funcbody func i) ((reaches_runs_iff turn).2 run'), held', after,
            retains_trans turned retains'⟩

/-- A call of a function whose body is a program of the core. -/
theorem call_evaluates (disciplined : ∀ D, W.Disciplined D) (stands : Stands ctx vars σ s)
    (standsInner : Stands inner vars' ρ s) (function : FunctionAt s func inner ids q) {b : Body}
    (direct : b.Direct) (code : BodyAt s inner vars' b q) (call_ : AppliesAt s ctx vars func es p)
    (values : List.Forall₂ (fun e x => e.eval σ = some x) es xs) (some_ : es ≠ [])
    (arity : ids.length = xs.length) (inside : ∀ id ∈ ids, vars' id)
    (ends : EndsIn b.command (ρ.bind ids xs) v τ) (site : Site) :
    ∃ r t, (runtime W).Runs (blEval site ctx p) s r t ∧ Holds t v r ∧ Stands inner vars' τ t ∧
      Retains inner vars' s t := by
  obtain ⟨m, reached, begun, retains⟩ := call_reaches disciplined stands standsInner function call_
    values some_ arity inside site
  have function' := function_kept retains begun function
  obtain ⟨r, t, run, held, after, retains'⟩ := funcbody_evaluates disciplined b direct
    (body_kept retains b code) begun function' ends
  obtain ⟨_, f, known, car⟩ := function'
  rw [← car] at run
  exact ⟨r, t, (reaches_runs_iff reached).2 ((run_func_body_iff known).2 run), held, after,
    retains_trans retains retains'⟩

end Bodies

end BearLang.CoreLanguage
