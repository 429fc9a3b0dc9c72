import BearLang.CoreForms

/-!
# The evaluator implements the core

For a program of the core that lies in memory, the evaluator comes back exactly
if the program ends, with the value and the store that the program ends with. A
program without an end keeps the evaluator busy for ever. So what is proved of a
program by the rules of total correctness holds of its evaluation.
-/

namespace BearLang.CoreLanguage

open CallPrograms EqualValues EvaluatedValues OperandEvaluation OperatorCalls EffectFree
  StructuredPrograms Conditionals

set_option autoImplicit false

section Choices

variable {W : World} {ctx p : Ptr} {vars : Nat → Prop} {σ τ : Store} {s t m : State} {v : Simple}
  {site : Site} {b : Bool}

theorem test_eval {e : Expr} : e.test σ = some b ↔ e.eval σ = some (.bool b) := by
  unfold Expr.test
  split
  · next c value =>
      rw [value]
      constructor
      · intro same
        cases same
        rfl
      · intro same
        cases same
        rfl
  · next other =>
      constructor
      · intro none_
        cases none_
      · intro same
        exact absurd same (other b)

theorem bool_cell {r : Ptr} (held : Holds m (.bool b) r) :
    ∃ c, m.cell r = some c ∧ c.type = .bool ∧ c.bVal = some b := by
  obtain ⟨c, known, type, value, _⟩ := held
  exact ⟨c, known, type, value⟩

/-- An `if` of the core, with its condition evaluated. -/
theorem branch_form (disciplined : ∀ D, W.Disciplined D) (stands : Stands ctx vars σ s) {test : Expr}
    {n : Nat} {q r u : Ptr} (call : CallAt s (FormHead s .operIf) p n)
    (branches : BranchesAt s n q r u) (one : ExprAt s ctx vars test q) (tested : test.test σ = some b) :
    ∃ m, IfForm W ctx p s q b (if b then r else u) s m ∧ Unchanged s m := by
  obtain ⟨w, m, run, held, same⟩ := expr_runs disciplined stands one (test_eval.1 tested)
  have retains : Retains ctx vars s m := retains_unchanged same
  obtain ⟨e, known, type, cdr, isForm⟩ := call
  obtain ⟨op, known', isIf, head⟩ := form_head (W := W) isForm (by decide)
  obtain ⟨d, there, isBool, value⟩ := bool_cell held
  have list : ∃ cs, ListAt s (q :: cs) (.ref n) ∧ (if b then r else u)
      = if b then cs.headD .null else cs.tail.headD .null := by
    rcases branches with three | ⟨none_, two⟩
    · exact ⟨[r, u], three, by cases b <;> rfl⟩
    · subst none_
      exact ⟨[r], two, by cases b <;> rfl⟩
  obtain ⟨cs, list, branch⟩ := list
  obtain ⟨e', known'', _, _, word⟩ := retains.words p e known
  have cdr' : e'.cdr = .ref n := by
    rw [Cell.cdr, word]
    exact cdr
  refine ⟨m, ⟨?_, ?_, ?_, ?_⟩, same⟩
  · exact ⟨e, e.car, op, known, type, head ctx, known', isIf⟩
  · exact ⟨e, cs, known, by rw [cdr]; exact list⟩
  · exact ⟨w, d, run _, there, isBool, value⟩
  · exact ⟨e', q, cs, known'', by rw [cdr']; exact list_at_kept retains.words list, branch⟩

/-- The branch that a run of an `if` goes on with. -/
theorem branch_goes (disciplined : ∀ D, W.Disciplined D) (stands : Stands ctx vars σ s) {test : Expr}
    {yes no : Form} (code : FormAt s ctx vars (.branch test yes no) p)
    (ends : EndsIn (Form.branch test yes no).command σ v τ) :
    ∃ b q branch m, IfForm W ctx p s q b branch s m ∧ Unchanged s m ∧
      FormAt m ctx vars (cond b yes no) branch ∧ EndsIn (cond b yes no).command σ v τ := by
  unfold FormAt at code
  unfold Form.command at ends
  obtain ⟨n, q, r, u, call, branches, one, left, right⟩ := code
  cases ends with
  | yes holds run =>
      obtain ⟨m, form, same⟩ := branch_form disciplined stands call branches one holds
      exact ⟨true, q, r, m, form, same, form_kept (retains_unchanged same) yes left, run⟩
  | no fails run =>
      obtain ⟨m, form, same⟩ := branch_form disciplined stands call branches one fails
      exact ⟨false, q, u, m, form, same, form_kept (retains_unchanged same) no right, run⟩

/-- What the branch gives is no code, so it is what the `if` gives. -/
theorem branch_gives {q branch r : Ptr} (form : IfForm W ctx p s q b branch s m)
    (run : ∀ site, (runtime W).Runs (blEval site ctx branch) m r t) (held : Holds t v r) (site : Site) :
    (runtime W).Runs (blEval site ctx p) s r t := by
  obtain ⟨d, there, _⟩ := id held
  rw [if_runs form site]
  exact ⟨r, t, d, run _, there, eval_value_runs held⟩

end Choices

section Pure

variable {W : World} {ctx : Ptr} {vars : Nat → Prop}

/-- Expressions, and the `if`s over them. -/
def Form.Pure : Form → Prop
  | .absent => True
  | .value _ => True
  | .branch _ yes no => yes.Pure ∧ no.Pure
  | _ => False

/-- Such a form changes nothing, wherever it is evaluated. -/
theorem pure_evaluates (disciplined : ∀ D, W.Disciplined D) (f : Form) (computes : f.Pure) {s : State}
    {p : Ptr} {σ τ : Store} {v : Simple} (code : FormAt s ctx vars f p) (stands : Stands ctx vars σ s)
    (ends : EndsIn f.command σ v τ) :
    ∃ r t, (∀ site, (runtime W).Runs (blEval site ctx p) s r t) ∧ Holds t v r ∧ Unchanged s t := by
  cases f with
  | absent =>
      unfold FormAt at code
      unfold Form.command at ends
      cases ends with
      | act made =>
          cases made
          subst code
          exact ⟨nullVal, s, fun site => eval_absent site, stands.none_, unchanged_refl stands.closed⟩
  | value e =>
      unfold FormAt at code
      unfold Form.command at ends
      cases ends with
      | act made =>
          obtain ⟨w, value, same⟩ := Option.map_eq_some_iff.1 made
          cases same
          exact expr_runs disciplined stands code value
  | branch test yes no =>
      obtain ⟨b, q, branch, m, form, same, inside, rest⟩ := branch_goes disciplined stands code ends
      have between := stands_unchanged stands same
      have taken : ∃ r t, (∀ site, (runtime W).Runs (blEval site ctx branch) m r t) ∧ Holds t v r ∧
          Unchanged m t := by
        cases b with
        | true => exact pure_evaluates disciplined yes computes.1 inside between rest
        | false => exact pure_evaluates disciplined no computes.2 inside between rest
      obtain ⟨r, t, run, held, same'⟩ := taken
      exact ⟨r, t, branch_gives form run held, held, unchanged_trans same same'⟩
  | assign x e => exact computes.elim
  | block body => exact computes.elim
  | loop test body => exact computes.elim

end Pure

section Loops

variable {W : World} {ctx p cond : Ptr} {vars : Nat → Prop} {σ τ : Store} {s t m : State}
  {v : Simple} {site : Site} {b : Bool} {test : Expr} {body : Body}

def LoopAt (s : State) (ctx : Ptr) (vars : Nat → Prop) (test : Expr) (body : Body) (p cond : Ptr) :
    Prop :=
  ∃ n c, CallAt s (FormHead s .operWhile) p n ∧ s.cell (.ref n) = some c ∧ c.car = cond ∧
    ExprAt s ctx vars test cond ∧ BodyAt s ctx vars body c.cdr

theorem loop_kept (kept : Retains ctx vars s t) (code : LoopAt s ctx vars test body p cond) :
    LoopAt t ctx vars test body p cond := by
  obtain ⟨n, c, call, known, car, one, inner⟩ := code
  obtain ⟨d, found, _, word, word'⟩ := kept.words _ c known
  have cdr : d.cdr = c.cdr := by rw [Cell.cdr, word']; rfl
  refine ⟨n, d, call_kept kept (form_head_kept kept _) call, found, ?_, expr_kept kept one, ?_⟩
  · rw [← car, Cell.car, word]
    rfl
  · rw [cdr]
    exact body_kept kept body inner

/-- A `while` is its loop. -/
theorem while_runs (code : LoopAt s ctx vars test body p cond) {r : Ptr} :
    (runtime W).Runs (blEval site ctx p) s r t ↔
      (runtime W).Runs (call (.whileLoop ctx p cond)) s r t := by
  obtain ⟨n, c, ⟨e, known, type, cdr, isForm⟩, there, car, _⟩ := code
  obtain ⟨op, held, isWhile, head⟩ := form_head (W := W) isForm (by decide)
  have first : (runtime W).Runs (blListFirst e.cdr) s cond s := by
    rw [cdr, blListFirst, if_neg (cell_ne_null there), runs_after (runs_load there), car]
    exact runs_pure_self _ _
  rw [eval_runs_apply site known type (head ctx), evalApply, runs_after (runs_load held)]
  simp only [isWhile]
  rw [runs_after (runs_load known), runs_after first]

def whileRest (ctx expr cond v : Ptr) : Prog Ptr := do
  let c ← load v
  let b ← member c.bVal
  if b then
    let e ← load expr
    let body ← blListRest e.cdr
    let (stopped, retval) ← call (.bodyLoop .whileBody ctx body .null)
    if stopped then pure retval else call (.whileLoop ctx expr cond)
  else pure nullVal

theorem while_loop_test : whileLoop ctx p cond = blEval .whileCond ctx cond >>= whileRest ctx p cond :=
  rfl

def whileTurn (ctx expr cond body : Ptr) : Prog Ptr := do
  let (stopped, retval) ← call (.bodyLoop .whileBody ctx body .null)
  if stopped then pure retval else call (.whileLoop ctx expr cond)

theorem while_rest_turn {r : Ptr} (held : Holds m (.bool true) r)
    (code : LoopAt m ctx vars test body p cond) : ∃ q, BodyAt m ctx vars body q ∧
      (runtime W).Reaches (whileRest ctx p cond r) m (whileTurn ctx p cond q) m := by
  obtain ⟨n, c, ⟨e, known, _, cdr, _⟩, there, _, _, inner⟩ := code
  obtain ⟨d, known', _, value⟩ := bool_cell held
  have rest : (runtime W).Runs (blListRest e.cdr) m c.cdr m := by
    rw [cdr, blListRest, if_neg (cell_ne_null there), runs_after (runs_load there)]
    exact runs_pure_self _ _
  refine ⟨c.cdr, inner, ?_⟩
  apply reaches_after (runs_load known')
  apply reaches_after (runs_member value m)
  rw [if_pos rfl]
  apply reaches_after (runs_load known)
  apply reaches_after rest
  exact .refl _ _

theorem while_rest_done {r : Ptr} (held : Holds m (.bool false) r) :
    (runtime W).Runs (whileRest ctx p cond r) m nullVal m := by
  obtain ⟨d, known, _, value⟩ := bool_cell held
  rw [whileRest, runs_after (runs_load known), runs_after (runs_member value m),
    if_neg Bool.false_ne_true]
  exact runs_pure_self _ _

theorem loop_evaluates (disciplined : ∀ D, W.Disciplined D)
    (turn : ∀ {q : Ptr} {s : State} {σ τ : Store} {v : Simple}, BodyAt s ctx vars body q →
      Stands ctx vars σ s → EndsIn body.command σ v τ → BodyEvaluates W ctx vars s q v τ)
    (ends : EndsIn (.loop test.test body.command .none) σ v τ) (code : LoopAt s ctx vars test body p cond)
    (stands : Stands ctx vars σ s) :
    ∃ t, (runtime W).Runs (call (.whileLoop ctx p cond)) s nullVal t ∧ v = .none ∧
      Stands ctx vars τ t ∧ Retains ctx vars s t := by
  generalize isLoop : Command.loop test.test body.command .none = c at ends
  induction ends generalizing s with
  | act made => cases isLoop
  | next one two => cases isLoop
  | yes holds run => cases isLoop
  | no fails run => cases isLoop
  | done fails =>
      cases isLoop
      obtain ⟨n, d, _, _, _, one, _⟩ := id code
      obtain ⟨r, m, run, held, same⟩ := expr_runs disciplined stands one (test_eval.1 fails)
      refine ⟨m, ?_, rfl, stands_unchanged stands same, retains_unchanged same⟩
      rw [runs_call_iff]
      change (runtime W).Runs (whileLoop ctx p cond) s nullVal m
      rw [while_loop_test, runs_after (run _)]
      exact while_rest_done held
  | again holds first later _ ih =>
      cases isLoop
      obtain ⟨n, d, _, _, _, one, _⟩ := id code
      obtain ⟨r, m, run, held, same⟩ := expr_runs disciplined stands one (test_eval.1 holds)
      have retains : Retains ctx vars s m := retains_unchanged same
      have here := loop_kept retains code
      obtain ⟨q, inner, reached⟩ := while_rest_turn (W := W) held here
      obtain ⟨w, u, run', _, between, retains'⟩ := turn inner (stands_unchanged stands same) first
      obtain ⟨t, run'', isNone, after, retains''⟩ := ih (loop_kept retains' here) between rfl
      refine ⟨t, ?_, isNone, after, retains_trans retains (retains_trans retains' retains'')⟩
      rw [runs_call_iff]
      change (runtime W).Runs (whileLoop ctx p cond) s nullVal t
      rw [while_loop_test, runs_after (run _), reaches_runs_iff reached, whileTurn,
        runs_after (run' _ _)]
      exact run''

theorem loop_ends (disciplined : ∀ D, W.Disciplined D)
    (turn : ∀ {q : Ptr} {s : State} {σ τ : Store} {v : Simple}, BodyAt s ctx vars body q →
      Stands ctx vars σ s → EndsIn body.command σ v τ → BodyEvaluates W ctx vars s q v τ)
    (back : ∀ {q r₀ : Ptr} {s t : State} {σ : Store} {out : Bool × Ptr}, BodyAt s ctx vars body q →
      Stands ctx vars σ s → ¬ Sticks body.command σ →
      (runtime W).Runs (call (.bodyLoop .whileBody ctx q r₀)) s out t →
      ∃ v τ, EndsIn body.command σ v τ)
    (code : LoopAt s ctx vars test body p cond) (stands : Stands ctx vars σ s)
    (fine : ¬ Sticks (.loop test.test body.command .none) σ) {r : Ptr}
    (run : (runtime W).Runs (call (.whileLoop ctx p cond)) s r t) :
    ∃ v τ, EndsIn (.loop test.test body.command .none) σ v τ := by
  -- every turn leaves one unit of fuel less for the loop behind it
  have each (fuel : Nat) : ∀ s σ, LoopAt s ctx vars test body p cond → Stands ctx vars σ s →
      ¬ Sticks (.loop test.test body.command .none) σ →
      (runtime W).exec fuel (.whileLoop ctx p cond) s = .returned r t →
      ∃ v τ, EndsIn (.loop test.test body.command Simple.none) σ v τ := by
    induction fuel with
    | zero =>
        intro s σ _ _ _ run
        cases run
    | succ fuel ih =>
        intro s σ code stands fine run
        have whole : runWith (runtime W).step ((runtime W).exec fuel) (whileLoop ctx p cond) s =
          .returned r t := run
        rw [while_loop_test] at whole
        obtain ⟨n, d, _, _, _, one, _⟩ := id code
        cases tested : test.test σ with
        | none => exact absurd (.loopTest tested) fine
        | some b =>
            obtain ⟨w, m, evaluated, held, same⟩ :=
              expr_runs disciplined stands one (test_eval.1 tested)
            cases b with
            | false => exact ⟨.none, σ, .done tested⟩
            | true =>
                have rest := returned_after (evaluated _) whole
                have here := loop_kept (retains_unchanged same) code
                have between := stands_unchanged stands same
                obtain ⟨q, inner, reached⟩ := while_rest_turn (W := W) held here
                have left := rest_within_fuel reached rest
                obtain ⟨out, u, first, later⟩ := returned_bind.1 left
                obtain ⟨v, ρ, ends⟩ := back inner between (fun sticks => fine (.turn tested sticks))
                  ⟨fuel, first⟩
                obtain ⟨x, u', run', _, stands', retains'⟩ := turn inner between ends
                obtain ⟨rfl, rfl⟩ := runs_functional ⟨fuel, first⟩ (run' _ _)
                obtain ⟨v', τ, ends'⟩ := ih u ρ (loop_kept retains' here) stands'
                  (fun sticks => fine (.again tested ends sticks)) (exec_of_returned later)
                exact ⟨v', τ, .again tested ends ends'⟩
  obtain ⟨fuel, run⟩ := run
  exact each fuel s σ code stands fine (exec_of_returned run)

end Loops

section Ending

variable {W : World} {ctx : Ptr} {vars : Nat → Prop}

mutual
/-- A form that ends is evaluated to its value and its store. -/
theorem form_evaluates (disciplined : ∀ D, W.Disciplined D) (f : Form) {s : State} {p : Ptr}
    {σ τ : Store} {v : Simple} (code : FormAt s ctx vars f p) (stands : Stands ctx vars σ s)
    (ends : EndsIn f.command σ v τ) : Evaluates W ctx vars s p v τ := by
  cases f with
  | absent =>
      unfold FormAt at code
      unfold Form.command at ends
      cases ends with
      | act made =>
          cases made
          subst code
          exact ⟨nullVal, s, fun site => eval_absent site, stands.none_, stands, retains_refl s⟩
  | value e =>
      unfold FormAt at code
      unfold Form.command at ends
      cases ends with
      | act made =>
          obtain ⟨w, value, same⟩ := Option.map_eq_some_iff.1 made
          cases same
          obtain ⟨r, t, run, held, same⟩ := expr_runs disciplined stands code value
          exact ⟨r, t, run, held, stands_unchanged stands same, retains_unchanged same⟩
  | assign x e =>
      unfold Form.command at ends
      cases ends with
      | act made =>
          obtain ⟨w, value, same⟩ := Option.map_eq_some_iff.1 made
          cases same
          exact assign_evaluates disciplined stands code value
  | block body =>
      unfold FormAt at code
      unfold Form.command at ends
      obtain ⟨n, call, inner⟩ := code
      obtain ⟨r, t, run, held, after, retains⟩ := body_evaluates disciplined body inner stands ends
      refine ⟨r, t, fun site => ?_, held, after, retains⟩
      rw [block_runs call]
      exact ⟨(false, r), run _ _, value_or_null held⟩
  | branch test yes no =>
      obtain ⟨b, q, branch, m, form, same, inside, rest⟩ := branch_goes disciplined stands code ends
      have between := stands_unchanged stands same
      have taken : Evaluates W ctx vars m branch v τ := by
        cases b with
        | true => exact form_evaluates disciplined yes inside between rest
        | false => exact form_evaluates disciplined no inside between rest
      obtain ⟨r, t, run, held, after, retains⟩ := taken
      exact ⟨r, t, branch_gives form run held, held, after,
        retains_trans (retains_unchanged same) retains⟩
  | loop test body =>
      unfold FormAt at code
      unfold Form.command at ends
      obtain ⟨n, c, call, known, _, one, inner⟩ := code
      have loop : LoopAt s ctx vars test body p c.car := ⟨n, c, call, known, rfl, one, inner⟩
      obtain ⟨t, run, isNone, after, retains⟩ :=
        loop_evaluates disciplined (body_evaluates disciplined body) ends loop stands
      subst isNone
      exact ⟨nullVal, t, fun site => (while_runs loop).2 run, after.none_, after, retains⟩
theorem body_evaluates (disciplined : ∀ D, W.Disciplined D) (b : Body) {q : Ptr} {s : State}
    {σ τ : Store} {v : Simple} (code : BodyAt s ctx vars b q) (stands : Stands ctx vars σ s)
    (ends : EndsIn b.command σ v τ) : BodyEvaluates W ctx vars s q v τ := by
  cases b with
  | last f =>
      unfold Body.command at ends
      exact last_evaluates code fun inner => form_evaluates disciplined f inner stands ends
  | next f rest =>
      unfold Body.command at ends
      cases ends with
      | next one two =>
          apply next_evaluates code fun inner => form_evaluates disciplined f inner stands one
          intro q t later between
          exact body_evaluates disciplined rest later between two
end

end Ending

section Returning

variable {W : World} {ctx : Ptr} {vars : Nat → Prop}

mutual
/-- A form that is evaluated to something, and does not stick, ends. -/
theorem form_ends (disciplined : ∀ D, W.Disciplined D) (f : Form) {s t : State} {p r : Ptr}
    {σ : Store} {site : Site} (code : FormAt s ctx vars f p) (stands : Stands ctx vars σ s)
    (fine : ¬ Sticks f.command σ) (run : (runtime W).Runs (blEval site ctx p) s r t) :
    ∃ v τ, EndsIn f.command σ v τ := by
  cases f with
  | absent =>
      unfold Form.command
      exact ⟨.none, σ, .act rfl⟩
  | value e =>
      unfold Form.command at fine ⊢
      cases value : e.eval σ with
      | none => exact absurd (.act (by rw [value]; rfl)) fine
      | some v => exact ⟨v, σ, .act (by rw [value]; rfl)⟩
  | assign x e =>
      unfold Form.command at fine ⊢
      cases value : e.eval σ with
      | none => exact absurd (.act (by rw [value]; rfl)) fine
      | some v => exact ⟨v, σ.set x v, .act (by rw [value]; rfl)⟩
  | block body =>
      unfold FormAt at code
      unfold Form.command at fine ⊢
      obtain ⟨n, call, inner⟩ := code
      obtain ⟨out, run', _⟩ := (block_runs call).1 run
      exact body_ends disciplined body inner stands fine run'
  | branch test yes no =>
      unfold FormAt at code
      unfold Form.command at fine ⊢
      obtain ⟨n, q, r', u, call, branches, one, left, right⟩ := code
      cases tested : test.test σ with
      | none => exact absurd (.test tested) fine
      | some b =>
          obtain ⟨m, form, same⟩ := branch_form disciplined stands call branches one tested
          have between := stands_unchanged stands same
          have retains : Retains ctx vars s m := retains_unchanged same
          obtain ⟨w, t', d, taken, _⟩ := (if_runs form site).1 run
          cases b with
          | true =>
              obtain ⟨v, τ, ends⟩ := form_ends disciplined yes (form_kept retains yes left) between
                (fun sticks => fine (.yes tested sticks)) taken
              exact ⟨v, τ, .yes tested ends⟩
          | false =>
              obtain ⟨v, τ, ends⟩ := form_ends disciplined no (form_kept retains no right) between
                (fun sticks => fine (.no tested sticks)) taken
              exact ⟨v, τ, .no tested ends⟩
  | loop test body =>
      unfold FormAt at code
      unfold Form.command at fine ⊢
      obtain ⟨n, c, call, known, _, one, inner⟩ := code
      have loop : LoopAt s ctx vars test body p c.car := ⟨n, c, call, known, rfl, one, inner⟩
      exact loop_ends disciplined (body_evaluates disciplined body) (body_ends disciplined body) loop
        stands fine ((while_runs loop).1 run)
theorem body_ends (disciplined : ∀ D, W.Disciplined D) (b : Body) {q r₀ : Ptr} {s t : State}
    {σ : Store} {site : Site} {out : Bool × Ptr} (code : BodyAt s ctx vars b q)
    (stands : Stands ctx vars σ s) (fine : ¬ Sticks b.command σ)
    (run : (runtime W).Runs (call (.bodyLoop site ctx q r₀)) s out t) :
    ∃ v τ, EndsIn b.command σ v τ := by
  cases b with
  | last f =>
      unfold BodyAt at code
      unfold Body.command at fine ⊢
      obtain ⟨c, known, _, _, inner⟩ := code
      obtain ⟨w, m, first⟩ := body_first known run
      exact form_ends disciplined f inner stands fine first
  | next f rest =>
      unfold BodyAt at code
      unfold Body.command at fine ⊢
      obtain ⟨c, known, _, inner, later⟩ := code
      obtain ⟨w, m, first⟩ := body_first known run
      obtain ⟨v, ρ, ends⟩ := form_ends disciplined f inner stands
        (fun sticks => fine (.first sticks)) first
      obtain ⟨w', m', run', held, between, retains⟩ :=
        form_evaluates disciplined f inner stands ends
      obtain ⟨d, found, _, _, word⟩ := retains.words q c known
      have cdr : d.cdr = c.cdr := by rw [Cell.cdr, word]; rfl
      have behind := (body_turn known (run' site) held found r₀).1 run
      rw [cdr] at behind
      obtain ⟨v', τ, ends'⟩ := body_ends disciplined rest (body_kept retains rest later) between
        (fun sticks => fine (.rest ends sticks)) behind
      exact ⟨v', τ, .next ends ends'⟩
end

end Returning

section Agreement

variable {W : World} {ctx p : Ptr} {vars : Nat → Prop} {σ : Store} {s : State}

/-- The evaluator comes back exactly if the program ends, and then with the value
and the store the program ends with. -/
theorem evaluator_implements_core (disciplined : ∀ D, W.Disciplined D) (f : Form)
    (code : FormAt s ctx vars f p) (stands : Stands ctx vars σ s) (fine : ¬ Sticks f.command σ)
    (site : Site) :
    ((∃ r t, (runtime W).Runs (blEval site ctx p) s r t) ↔ ∃ v τ, EndsIn f.command σ v τ) ∧
    ∀ v τ, EndsIn f.command σ v τ → ∀ r t, (runtime W).Runs (blEval site ctx p) s r t →
      Holds t v r ∧ Stands ctx vars τ t ∧ Retains ctx vars s t := by
  refine ⟨⟨?_, ?_⟩, ?_⟩
  · intro runs
    obtain ⟨r, t, run⟩ := runs
    exact form_ends disciplined f code stands fine run
  · intro ending
    obtain ⟨v, τ, ends⟩ := ending
    obtain ⟨r, t, run, _⟩ := form_evaluates disciplined f code stands ends
    exact ⟨r, t, run site⟩
  · intro v τ ends r t run
    obtain ⟨r', t', run', held, after, retains⟩ := form_evaluates disciplined f code stands ends
    obtain ⟨rfl, rfl⟩ := runs_functional run (run' site)
    exact ⟨held, after, retains⟩

/-- `(while (lt n 1) (= n (+ n 1)))`, where `n` is 0. -/
def counting : State where
  cells := staticCells ++
    [{ type := .symbol, w0 := .str (text "lt"), w1 := .ofNat 0 },
     { type := .symbol, w0 := .str (text "="), w1 := .ofNat 1 },
     { type := .symbol, w0 := .str (text "+"), w1 := .ofNat 2 },
     { type := .symbol, w0 := .str (text "n"), w1 := .ofNat 3 },
     { type := .operNative, w0 := .code (.builtin .lt) },
     { type := .operNative, w0 := .code (.builtin .set) },
     { type := .operNative, w0 := .code (.builtin .add) }, .mkNumber 0, .mkNumber 1,
     .mkCtx { Ctx.new 8 .null with
       keys := [.ref 7, .ref 8, .ref 9, .ref 10, .null, .null, .null, .null]
       vals := [.ref 11, .ref 12, .ref 13, .ref 14, .null, .null, .null, .null] },
     .mkCons (.ref 15) .null, .mkCons (.ref 10) (.ref 17), .mkCons (.ref 7) (.ref 18),
     .mkCons (.ref 15) .null, .mkCons (.ref 10) (.ref 20), .mkCons (.ref 9) (.ref 21),
     .mkCons (.ref 22) .null, .mkCons (.ref 10) (.ref 23), .mkCons (.ref 8) (.ref 24),
     .mkCons (.ref 25) .null, .mkCons (.ref 19) (.ref 26), .mkCons whileOperVal (.ref 27)]
  symbolTable := [⟨text "n", 10⟩, ⟨text "+", 9⟩, ⟨text "=", 8⟩, ⟨text "lt", 7⟩]
  lastSymId := 4

def countingLoop : Form :=
  .loop (.call .lt (.var 3) (.const (.number 1)))
    (.last (.assign 3 (.call .add (.var 3) (.const (.number 1)))))

def countingStore : Store := fun x => if x = 3 then some (.number 0) else none

theorem counting_stands : Stands (.ref 16) (· = 3) countingStore counting where
  closed := closed_of_check (by decide) (by decide) (by decide)
  context := ⟨_, ⟨_, rfl, rfl, ⟨rfl, rfl⟩, rfl⟩, rfl⟩
  none_ := ⟨_, rfl, rfl, rfl, rfl⟩
  true_ := ⟨_, rfl, rfl, rfl, rfl⟩
  false_ := ⟨_, rfl, rfl, rfl, rfl⟩
  bound x v value := by
    unfold countingStore at value
    split at value
    · next isN =>
        subst isN
        cases value
        exact ⟨rfl, 16, .ref 14, .here rfl rfl (by decide) rfl (by decide), _, rfl, rfl, rfl⟩
    · cases value

theorem counting_code : FormAt counting (.ref 16) (· = 3) countingLoop (.ref 28) := by
  have operator {key : Ptr} {id : Nat} {v : Ptr} {op : Cell} {b : Builtin}
      (symbol : PlainSymbol counting key id) (other : ¬ id = 3) (inside : id < 8)
      (slot : ([Ptr.ref 11, .ref 12, .ref 13, .ref 14, .null, .null, .null, .null] : List Ptr)[id]? =
        some v) (filled : v ≠ .null) (known : counting.cell v = some op) (native : op.type = .operNative)
      (points : op.codePtr = some (.builtin b)) : OperatorHead counting (.ref 16) (· = 3) b key :=
    ⟨id, 16, v, op, symbol, other, .here rfl rfl inside slot filled, known, native, points⟩
  have variable_ : VarAt counting (· = 3) 3 (.ref 10) :=
    ⟨⟨_, _, rfl, rfl, rfl, rfl, by decide, by decide⟩, rfl⟩
  have one : Holds counting (.number 1) (.ref 15) := ⟨_, rfl, rfl, rfl⟩
  have less : OperatorHead counting (.ref 16) (· = 3) .lt (.ref 7) :=
    operator ⟨_, _, rfl, rfl, rfl, rfl, by decide, by decide⟩ (by decide) (by decide) rfl (by decide)
      rfl rfl rfl
  have sets : OperatorHead counting (.ref 16) (· = 3) .set (.ref 8) :=
    operator ⟨_, _, rfl, rfl, rfl, rfl, by decide, by decide⟩ (by decide) (by decide) rfl (by decide)
      rfl rfl rfl
  have adds : OperatorHead counting (.ref 16) (· = 3) .add (.ref 9) :=
    operator ⟨_, _, rfl, rfl, rfl, rfl, by decide, by decide⟩ (by decide) (by decide) rfl (by decide)
      rfl rfl rfl
  have test : ExprAt counting (.ref 16) (· = 3) (.call .lt (.var 3) (.const (.number 1))) (.ref 19) :=
    ⟨18, 17, .ref 10, .ref 15, ⟨_, rfl, rfl, rfl, less⟩, ⟨rfl, _, rfl, rfl, rfl, rfl, _, rfl, rfl, rfl, rfl⟩,
      variable_, one⟩
  have sum : ExprAt counting (.ref 16) (· = 3) (.call .add (.var 3) (.const (.number 1))) (.ref 22) :=
    ⟨21, 20, .ref 10, .ref 15, ⟨_, rfl, rfl, rfl, adds⟩, ⟨rfl, _, rfl, rfl, rfl, rfl, _, rfl, rfl, rfl, rfl⟩,
      variable_, one⟩
  unfold countingLoop FormAt BodyAt FormAt
  exact ⟨27, _, ⟨_, rfl, rfl, rfl, rfl⟩, rfl, rfl, test, _, rfl, rfl, rfl, 24, 23, .ref 10, .ref 22,
    ⟨_, rfl, rfl, rfl, sets⟩, ⟨rfl, _, rfl, rfl, rfl, rfl, _, rfl, rfl, rfl, rfl⟩, variable_, sum⟩

theorem counting_ends :
    EndsIn countingLoop.command countingStore .none (countingStore.set 3 (.number 1)) := by
  unfold countingLoop Form.command Body.command Form.command
  exact .again rfl (.act rfl) (.done rfl)

theorem evaluator_implements_core_counting :
    (∃ r t, (runtime World.bare).Runs (blEval .operand (.ref 16) (.ref 28)) counting r t) ∧
    ∀ r t, (runtime World.bare).Runs (blEval .operand (.ref 16) (.ref 28)) counting r t →
      Holds t .none r ∧ Stands (.ref 16) (· = 3) (countingStore.set 3 (.number 1)) t ∧
        Retains (.ref 16) (· = 3) counting t := by
  have agrees := evaluator_implements_core (W := World.bare) bare_disciplined countingLoop counting_code
    counting_stands (not_sticks_of_ends counting_ends) .operand
  exact ⟨agrees.1.2 ⟨_, _, counting_ends⟩, agrees.2 _ _ counting_ends⟩

end Agreement

end BearLang.CoreLanguage
