import BearLang.Execution
import BearLang.ProgramConduct

/-!
# An evaluation gives a value

`bl_eval` answers with a value or an error, never with `NULL`: what an operator or a
body leaves empty becomes `None`.
-/

namespace BearLang.EvaluatedValues

open CallPrograms

set_option autoImplicit false

/-- The answers that are no null pointer. -/
def filled : Contract bearLang where
  op _ := True
  opAnswer
    | .load p, _ => p ≠ .null
    | .alloc _, answer => answer ≠ .null
    | _, _ => True
  call _ := True
  callAnswer
    | .eval .., answer => answer ≠ .null
    | .evalLoop .., answer => answer ≠ .null
    | .evalConsLoop .., answer => answer ≠ .null
    | .whileLoop .., answer => answer ≠ .null
    | .bodyLoop .., answer => answer.1 = true → answer.2 ≠ .null
    | _, _ => True

section Pieces

variable {α β : Type} {post : α → Prop}

theorem meets_any (program : Prog α) : program.Meets filled fun _ => True := by
  induction program with
  | done v => trivial
  | perform op next ih => exact ⟨trivial, fun answer _ => ih answer⟩
  | invoke c next ih => exact ⟨trivial, fun answer _ => ih answer⟩

theorem meets_after {program : Prog α} {f : α → Prog β} {post : β → Prop}
    (rest : ∀ v, (f v).Meets filled post) : (program >>= f).Meets filled post := by
  rw [meets_bind]
  exact meets_mono (meets_any program) fun v _ => rest v

theorem meets_pure {v : α} (held : post v) : (pure v : Prog α).Meets filled post := held

theorem meets_load {p : Ptr} {f : Cell → Prog α} (rest : p ≠ .null → ∀ c, (f c).Meets filled post) :
    (load p >>= f).Meets filled post :=
  ⟨trivial, fun c there => rest there c⟩

theorem meets_call {c : Call} : (call c).Meets filled (filled.callAnswer c) :=
  ⟨trivial, fun _ held => held⟩

theorem meets_alloc (c : Cell) : (alloc c).Meets filled (· ≠ .null) := ⟨trivial, fun _ held => held⟩

theorem null_val_ne_null : nullVal ≠ .null := by
  simp [nullVal]

theorem or_null_ne_null (p : Ptr) : orNull p ≠ .null := by
  rw [orNull]
  split
  · exact null_val_ne_null
  · assumption

end Pieces

section Evaluator

theorem meets_type_of {α : Type} {post : α → Prop} {p : Ptr} {f : ValType → Prog α}
    (rest : p ≠ .null → ∀ t, (f t).Meets filled post) : (typeOf p >>= f).Meets filled post :=
  meets_load fun there c => rest there c.type

theorem eval_cons_filled (ctx i start last : Ptr) :
    (evalConsLoop ctx i start last).Meets filled (· ≠ .null) := by
  rw [evalConsLoop]
  split
  · refine meets_pure ?_
    split
    · exact null_val_ne_null
    · assumption
  · refine meets_after fun c => meets_after fun retval => meets_type_of fun there t => ?_
    split
    · exact meets_pure there
    · refine meets_after fun new => ?_
      split
      · exact meets_after fun c => meets_call
      · exact meets_after fun _ => meets_after fun c => meets_call

theorem bl_eval_cons_filled (ctx expr : Ptr) : (blEvalCons ctx expr).Meets filled (· ≠ .null) := by
  rw [blEvalCons]
  split
  · exact meets_pure null_val_ne_null
  · exact meets_call (c := .evalConsLoop ctx expr .null .null)

theorem eval_if_filled (probe : Bool) (ctx expr : Ptr) :
    (blEvalIf probe ctx expr).Meets filled (· ≠ .null) := by
  refine meets_after fun e => meets_after fun condExpr => meets_after fun cond => ?_
  refine meets_load fun there c => ?_
  split
  · exact meets_pure there
  · split
    · exact meets_alloc _
    · refine meets_after fun b => meets_after fun e => ?_
      split
      · exact meets_after fun branch => meets_call
      · exact meets_after fun branch => meets_call

theorem body_loop_filled (site : Site) (ctx i retval : Ptr) :
    (bodyLoop site ctx i retval).Meets filled fun answer => answer.1 = true → answer.2 ≠ .null := by
  rw [bodyLoop]
  split
  · exact meets_pure fun stopped => nomatch stopped
  · refine meets_after fun c => meets_after fun value => ?_
    by_cases none_ : value = .null
    · subst none_
      have goes : ¬ ValType.null = ValType.error := by decide
      dsimp only
      rw [if_neg (fun h => h rfl)]
      change (if ValType.null = ValType.error then pure (true, Ptr.null) else do
        let c ← load i
        call (.bodyLoop site ctx c.cdr .null)).Meets filled _
      rw [if_neg goes]
      exact meets_after fun c => meets_call (c := .bodyLoop site ctx c.cdr .null)
    · dsimp only
      rw [if_pos none_]
      refine meets_after fun t => ?_
      split
      · exact meets_pure fun _ => none_
      · exact meets_after fun c => meets_call

theorem while_loop_filled (ctx expr cond : Ptr) :
    (whileLoop ctx expr cond).Meets filled (· ≠ .null) := by
  refine meets_after fun v => meets_after fun c => meets_after fun b => ?_
  split
  · refine meets_after fun e => meets_after fun body => ?_
    rw [meets_bind]
    refine meets_mono (meets_call (c := .bodyLoop .whileBody ctx body .null)) ?_
    rintro ⟨stopped, retval⟩ held
    dsimp only
    split
    · rename_i left
      exact meets_pure (held left)
    · exact meets_call (c := .whileLoop ctx expr cond)
  · exact meets_pure null_val_ne_null

theorem apply_filled (ctx expr car : Ptr) : (evalApply ctx expr car).Meets filled (· ≠ .null) := by
  rw [evalApply]
  refine meets_load fun there c => ?_
  split
  · exact meets_pure there
  · refine meets_after fun e => meets_after fun op => meets_after fun codePtr => ?_
    split
    · exact meets_after fun _ => meets_after fun e => meets_after fun _ => meets_after fun r =>
        meets_pure (or_null_ne_null r)
    · exact meets_after fun e => meets_after fun _ => meets_after fun r =>
        meets_pure (or_null_ne_null r)
  · exact meets_after fun e => meets_after fun r => meets_pure (or_null_ne_null _)
  · refine meets_after fun retval => meets_type_of fun there t => ?_
    split
    · exact meets_pure there
    · exact meets_call (c := .evalLoop ctx retval)
  · exact meets_after fun e => meets_after fun cond => meets_call (c := .whileLoop ctx expr cond)
  · refine meets_after fun e => meets_after fun args => meets_after fun n => meets_after fun _ => ?_
    refine meets_after fun f => meets_after fun inner => ?_
    have rest : (runFuncBody car).Meets filled (· ≠ .null) :=
      meets_after fun _ => meets_after fun f => meets_after fun r => meets_after fun _ =>
        meets_pure (or_null_ne_null r)
    dsimp only
    split
    · exact meets_after fun _ => rest
    · exact rest
  · refine meets_after fun e => meets_after fun o => meets_after fun lexical => ?_
    refine meets_after fun new => meets_after fun _ => meets_after fun n => meets_after fun _ => ?_
    refine meets_after fun o => meets_after fun inner => ?_
    dsimp only
    split
    · refine meets_after fun _ => meets_after fun o => meets_after fun inner => ?_
      refine meets_after fun _ => meets_after fun r => meets_after fun _ => ?_
      exact meets_pure (or_null_ne_null _)
    · refine meets_after fun o => meets_after fun inner => meets_after fun _ => ?_
      exact meets_after fun r => meets_after fun _ => meets_pure (or_null_ne_null _)
  · exact meets_after fun r => meets_pure (or_null_ne_null r)

theorem eval_loop_filled (ctx expr : Ptr) : (evalLoopBody ctx expr).Meets filled (· ≠ .null) := by
  rw [evalLoopBody]
  split
  · exact meets_pure null_val_ne_null
  · rename_i there
    refine meets_after fun e => ?_
    split
    · exact meets_pure there
    · split
      · exact meets_pure null_val_ne_null
      · refine meets_after fun head => ?_
        split
        · refine meets_after fun car => ?_
          split
          · exact meets_after fun name => meets_alloc _
          · exact apply_filled ctx expr car
        · exact apply_filled ctx expr e.car
    · refine meets_after fun symval => ?_
      split
      · exact meets_after fun name => meets_alloc _
      · exact meets_pure (by assumption)
    · exact meets_pure there

theorem eval_body_filled (ctx expr : Ptr) : (evalBody ctx expr).Meets filled (· ≠ .null) := by
  rw [evalBody]
  split
  · exact meets_pure null_val_ne_null
  · exact meets_call (c := .evalLoop ctx expr)

theorem runtime_filled (W : World) : (runtime W).Honours filled := by
  intro c _
  cases c with
  | eval site ctx expr => exact eval_body_filled ctx expr
  | evalLoop ctx expr => exact eval_loop_filled ctx expr
  | evalConsLoop ctx i start last => exact eval_cons_filled ctx i start last
  | bodyLoop site ctx i retval => exact body_loop_filled site ctx i retval
  | whileLoop ctx expr cond => exact while_loop_filled ctx expr cond
  | _ => exact meets_any _

theorem filled_of_runs {W : World} {α : Type} {program : Prog α} {post : α → Prop} {s t : State}
    {v : α} (meets : program.Meets filled post) (run : (runtime W).Runs program s v t) : post v := by
  have keeps (op : Op) (state : State) (answer : op.Answer) (final : State) (_ : True)
      (_ : filled.op op) (_ : True) (stepped : (runtime W).step op state = some (answer, final)) :
      filled.opAnswer op answer ∧ True := by
    refine ⟨?_, trivial⟩
    cases op with
    | load p =>
        rintro rfl
        cases stepped
    | alloc c =>
        cases stepped
        exact fun none_ => nomatch none_
    | _ => trivial
  have ends := contract_invariant (runtime_filled W) keeps (reaches_done_of_runs run)
    (fun _ _ _ => trivial) trivial meets
  exact ends.2

/-- The value of an expression is no null pointer. -/
theorem eval_ne_null {W : World} {site : Site} {ctx expr v : Ptr} {s t : State}
    (run : (runtime W).Runs (blEval site ctx expr) s v t) : v ≠ .null := by
  have meets : (blEval site ctx expr).Meets filled (· ≠ .null) :=
    meets_call (c := .eval site ctx expr)
  have held := filled_of_runs meets run
  exact held

theorem or_null_evaluated {W : World} {site : Site} {ctx expr v : Ptr} {s t : State}
    (run : (runtime W).Runs (blEval site ctx expr) s v t) : orNull v = v :=
  if_neg (eval_ne_null run)

end Evaluator

section Bodies

variable {W : World} {s t : State} {func i v : Ptr}

theorem exec_of_returned {fuel : Nat} {c : Call} {a : c.Answer}
    (run : runWith (runtime W).step ((runtime W).exec fuel) (call c) s = .returned a t) :
    (runtime W).exec fuel c s = .returned a t := by
  simp only [call, runWith] at run
  cases called : (runtime W).exec fuel c s with
  | returned b u =>
      rw [called] at run
      exact run
  | fault =>
      rw [called] at run
      cases run
  | outOfFuel =>
      rw [called] at run
      cases run

/-- The body of a function gives no null pointer. -/
theorem funcbody_ne_null (run : (runtime W).Runs (call (.funcbody func i)) s v t) : v ≠ .null := by
  have each (fuel : Nat) : ∀ i s, (runtime W).exec fuel (.funcbody func i) s = .returned v t →
      v ≠ .null := by
    induction fuel with
    | zero => exact fun i s run => nomatch run
    | succ fuel ih =>
        intro i s run
        have body : runWith (runtime W).step ((runtime W).exec fuel) (funcbodyLoop func i) s =
            .returned v t := run
        obtain ⟨ic, _, _, body⟩ := returned_bind.1 body
        obtain ⟨f, _, _, body⟩ := returned_bind.1 body
        obtain ⟨inner, _, _, body⟩ := returned_bind.1 body
        obtain ⟨symval, _, _, body⟩ := returned_bind.1 body
        split at body
        · obtain ⟨e, _, _, body⟩ := returned_bind.1 body
          obtain ⟨args, _, _, body⟩ := returned_bind.1 body
          obtain ⟨n, _, _, body⟩ := returned_bind.1 body
          obtain ⟨_, _, _, body⟩ := returned_bind.1 body
          obtain ⟨_, _, _, body⟩ := returned_bind.1 body
          obtain ⟨f, _, _, body⟩ := returned_bind.1 body
          split at body
          · obtain ⟨_, _, _, body⟩ := returned_bind.1 body
            obtain ⟨_, _, _, body⟩ := returned_bind.1 body
            exact ih _ _ (exec_of_returned body)
          · obtain ⟨_, _, _, body⟩ := returned_bind.1 body
            exact ih _ _ (exec_of_returned body)
        · obtain ⟨retval, _, evaluated, body⟩ := returned_bind.1 body
          obtain ⟨ic, _, _, body⟩ := returned_bind.1 body
          split at body
          · cases body
            exact eval_ne_null ⟨fuel, evaluated⟩
          · exact ih _ _ (exec_of_returned body)
  obtain ⟨fuel, run⟩ := run
  exact each fuel i s (exec_of_returned run)

/-- Whatever the native operators and lookups do, a run of the program gives no null pointer. -/
def NeverNull (W : World) (program : Prog Ptr) : Prop :=
  ∀ s v t, (runtime W).Runs program s v t → v ≠ .null

/-- The four functions of the evaluator map every absent value to `None`. -/
theorem evaluator_never_null (W : World) :
    (∀ site ctx expr, NeverNull W (blEval site ctx expr)) ∧
    (∀ ctx expr, NeverNull W (blEvalCons ctx expr)) ∧
    (∀ probe ctx expr, NeverNull W (blEvalIf probe ctx expr)) ∧
    ∀ func i, NeverNull W (call (.funcbody func i)) := by
  refine ⟨fun site ctx expr s v t run => eval_ne_null run, fun ctx expr s v t run => ?_,
    fun probe ctx expr s v t run => ?_, fun func i s v t run => funcbody_ne_null run⟩
  · have held := filled_of_runs (bl_eval_cons_filled ctx expr) run
    exact held
  · have held := filled_of_runs (eval_if_filled probe ctx expr) run
    exact held

end Bodies

end BearLang.EvaluatedValues
