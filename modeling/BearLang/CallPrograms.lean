import Mathlib.Control.Basic

/-!
# Programs over operations and procedure calls

A program is a tree of primitive operations and of calls of named procedures.
The procedures may call each other without restriction, so a call is a node of
the tree and not an unfolded body. `exec` runs a tree with an explicit bound on
the depth of calls; `Runs` forgets the bound. Nothing here refers to a
particular machine.
-/

namespace BearLang.CallPrograms

set_option autoImplicit false

/-- The operations and the procedures of a language, with the type of the
answer each of them gives. -/
structure Signature where
  Op : Type
  OpAnswer : Op → Type
  Call : Type
  CallAnswer : Call → Type

inductive Program (S : Signature) (α : Type) : Type where
  | done (value : α)
  | perform (op : S.Op) (next : S.OpAnswer op → Program S α)
  | invoke (call : S.Call) (next : S.CallAnswer call → Program S α)

namespace Program

variable {S : Signature} {α β γ : Type}

@[grind =]
def bind : Program S α → (α → Program S β) → Program S β
  | done value, f => f value
  | perform op next, f => perform op fun answer => (next answer).bind f
  | invoke call next, f => invoke call fun answer => (next answer).bind f

instance : Monad (Program S) where
  pure := done
  bind := bind

@[simp] theorem pure_eq_done (value : α) : (pure value : Program S α) = done value := rfl

@[simp] theorem done_bind (value : α) (f : α → Program S β) : done value >>= f = f value := rfl

@[simp] theorem perform_bind (op : S.Op) (next : S.OpAnswer op → Program S α)
    (f : α → Program S β) :
    perform op next >>= f = perform op fun answer => next answer >>= f := rfl

@[simp] theorem invoke_bind (call : S.Call) (next : S.CallAnswer call → Program S α)
    (f : α → Program S β) :
    invoke call next >>= f = invoke call fun answer => next answer >>= f := rfl

theorem bind_done (program : Program S α) : program >>= done = program := by
  induction program with
  | done value => rfl
  | perform op next ih => simp only [perform_bind, ih]
  | invoke call next ih => simp only [invoke_bind, ih]

theorem bind_assoc (program : Program S α) (f : α → Program S β) (g : β → Program S γ) :
    program >>= f >>= g = program >>= fun value => f value >>= g := by
  induction program with
  | done value => rfl
  | perform op next ih => simp only [perform_bind, ih]
  | invoke call next ih => simp only [invoke_bind, ih]

instance : LawfulMonad (Program S) :=
  LawfulMonad.mk' (Program S) bind_done (fun _ _ => rfl) bind_assoc

end Program

open Program

/-- What a bounded execution ends with. A fault is an operation without a
meaning in the state it is performed in. -/
inductive Outcome (α σ : Type) where
  | returned (value : α) (state : σ)
  | fault
  | outOfFuel

/-- The meaning of the operations, partial where they can fault, and the body
of every procedure. -/
structure Machine (S : Signature) (σ : Type) where
  step : (op : S.Op) → σ → Option (S.OpAnswer op × σ)
  body : (call : S.Call) → Program S (S.CallAnswer call)

section Execution

variable {S : Signature} {σ α β : Type}

@[grind =]
def runWith (step : (op : S.Op) → σ → Option (S.OpAnswer op × σ))
    (callee : (call : S.Call) → σ → Outcome (S.CallAnswer call) σ) :
    Program S α → σ → Outcome α σ
  | done value, state => .returned value state
  | perform op next, state =>
      match step op state with
      | none => .fault
      | some (answer, state) => runWith step callee (next answer) state
  | invoke call next, state =>
      match callee call state with
      | .returned answer state => runWith step callee (next answer) state
      | .fault => .fault
      | .outOfFuel => .outOfFuel

variable (M : Machine S σ)

def Machine.exec : Nat → (call : S.Call) → σ → Outcome (S.CallAnswer call) σ
  | 0, _, _ => .outOfFuel
  | fuel + 1, call, state => runWith M.step (Machine.exec fuel) (M.body call) state

/-- The program started in `state` comes back with `value` in `final`. -/
def Machine.Runs (program : Program S α) (state : σ) (value : α) (final : σ) : Prop :=
  ∃ fuel, runWith M.step (M.exec fuel) program state = .returned value final

variable {M}

theorem run_with_mono {callee callee' : (call : S.Call) → σ → Outcome (S.CallAnswer call) σ}
    (below : ∀ call state value final, callee call state = .returned value final →
      callee' call state = .returned value final)
    (program : Program S α) {state final : σ} {value : α}
    (run : runWith M.step callee program state = .returned value final) :
    runWith M.step callee' program state = .returned value final := by
  induction program generalizing state with
  | done result => exact run
  | perform op next ih =>
      simp only [runWith] at run ⊢
      cases stepped : M.step op state with
      | none => simp [stepped] at run
      | some pair =>
          simp only [stepped] at run ⊢
          exact ih pair.1 run
  | invoke call next ih =>
      simp only [runWith] at run ⊢
      cases called : callee call state with
      | returned answer middle =>
          rw [below call state answer middle called]
          simp only [called] at run
          exact ih answer run
      | fault => simp [called] at run
      | outOfFuel => simp [called] at run

/-- A fault does not go away when the bound is raised. -/
theorem run_with_fault_mono {callee callee' : (call : S.Call) → σ → Outcome (S.CallAnswer call) σ}
    (below : ∀ call state outcome, callee call state = outcome → outcome ≠ .outOfFuel →
      callee' call state = outcome)
    (program : Program S α) {state : σ} (run : runWith M.step callee program state = .fault) :
    runWith M.step callee' program state = .fault := by
  induction program generalizing state with
  | done result => cases run
  | perform op next ih =>
      simp only [runWith] at run ⊢
      cases stepped : M.step op state with
      | none => rfl
      | some pair =>
          simp only [stepped] at run
          exact ih pair.1 run
  | invoke call next ih =>
      simp only [runWith] at run ⊢
      cases called : callee call state with
      | returned answer middle =>
          rw [below call state _ called (by simp)]
          simp only [called] at run
          exact ih answer run
      | fault => rw [below call state _ called (by simp)]
      | outOfFuel => simp [called] at run

theorem exec_succ (fuel : Nat) (call : S.Call) {state final : σ} {value : S.CallAnswer call}
    (run : M.exec fuel call state = .returned value final) :
    M.exec (fuel + 1) call state = .returned value final := by
  induction fuel generalizing call state final with
  | zero => simp [Machine.exec] at run
  | succ fuel ih => exact run_with_mono (fun call _ _ _ => ih call) (M.body call) run

theorem exec_mono {fuel more : Nat} (le : fuel ≤ more) (call : S.Call) {state final : σ}
    {value : S.CallAnswer call} (run : M.exec fuel call state = .returned value final) :
    M.exec more call state = .returned value final := by
  induction le with
  | refl => exact run
  | step _ ih => exact exec_succ _ call ih

theorem run_with_exec_mono {fuel more : Nat} (le : fuel ≤ more) (program : Program S α)
    {state final : σ} {value : α}
    (run : runWith M.step (M.exec fuel) program state = .returned value final) :
    runWith M.step (M.exec more) program state = .returned value final :=
  run_with_mono (fun call _ _ _ => exec_mono le call) program run

@[simp] theorem runs_done {value result : α} {state final : σ} :
    M.Runs (done value) state result final ↔ value = result ∧ state = final := by
  simp [Machine.Runs, runWith]

theorem runs_perform {op : S.Op} {next : S.OpAnswer op → Program S α} {state final : σ}
    {value : α} :
    M.Runs (perform op next) state value final ↔
      ∃ answer middle, M.step op state = some (answer, middle) ∧
        M.Runs (next answer) middle value final := by
  constructor
  · rintro ⟨fuel, run⟩
    simp only [runWith] at run
    cases stepped : M.step op state with
    | none => simp [stepped] at run
    | some pair =>
        simp only [stepped] at run
        exact ⟨pair.1, pair.2, rfl, fuel, run⟩
  · rintro ⟨answer, middle, stepped, fuel, run⟩
    exact ⟨fuel, by simpa only [runWith, stepped] using run⟩

theorem runs_invoke {call : S.Call} {next : S.CallAnswer call → Program S α} {state final : σ}
    {value : α} :
    M.Runs (invoke call next) state value final ↔
      ∃ answer middle, M.Runs (M.body call) state answer middle ∧
        M.Runs (next answer) middle value final := by
  constructor
  · rintro ⟨fuel, run⟩
    simp only [runWith] at run
    cases called : M.exec fuel call state with
    | returned answer middle =>
        simp only [called] at run
        cases fuel with
        | zero => simp [Machine.exec] at called
        | succ fuel => exact ⟨answer, middle, ⟨fuel, called⟩, fuel + 1, run⟩
    | fault => simp [called] at run
    | outOfFuel => simp [called] at run
  · rintro ⟨answer, middle, ⟨inner, called⟩, outer, run⟩
    -- one bound that covers the call and what follows it
    refine ⟨max (inner + 1) outer, ?_⟩
    have calledMore : M.exec (max (inner + 1) outer) call state = .returned answer middle :=
      exec_mono (Nat.le_max_left (inner + 1) outer) call called
    simp only [runWith, calledMore]
    exact run_with_exec_mono (Nat.le_max_right _ _) _ run

theorem runs_bind {program : Program S α} {f : α → Program S β} {state final : σ} {result : β} :
    M.Runs (program >>= f) state result final ↔
      ∃ value middle, M.Runs program state value middle ∧ M.Runs (f value) middle result final := by
  induction program generalizing state with
  | done value =>
      simp only [done_bind, runs_done]
      constructor
      · intro run
        exact ⟨value, state, ⟨rfl, rfl⟩, run⟩
      · rintro ⟨_, _, ⟨rfl, rfl⟩, run⟩
        exact run
  | perform op next ih =>
      simp only [perform_bind, runs_perform, ih]
      constructor
      · rintro ⟨answer, m1, stepped, value, m2, first, second⟩
        exact ⟨value, m2, ⟨answer, m1, stepped, first⟩, second⟩
      · rintro ⟨value, m2, ⟨answer, m1, stepped, first⟩, second⟩
        exact ⟨answer, m1, stepped, value, m2, first, second⟩
  | invoke call next ih =>
      simp only [invoke_bind, runs_invoke, ih]
      constructor
      · rintro ⟨answer, m1, called, value, m2, first, second⟩
        exact ⟨value, m2, ⟨answer, m1, called, first⟩, second⟩
      · rintro ⟨value, m2, ⟨answer, m1, called, first⟩, second⟩
        exact ⟨answer, m1, called, value, m2, first, second⟩

theorem exec_settled_succ (fuel : Nat) (call : S.Call) {state : σ}
    {outcome : Outcome (S.CallAnswer call) σ} (run : M.exec fuel call state = outcome)
    (settled : outcome ≠ .outOfFuel) : M.exec (fuel + 1) call state = outcome := by
  induction fuel generalizing call state with
  | zero => exact absurd run.symm settled
  | succ fuel ih =>
      cases outcome with
      | returned value final => exact exec_succ (fuel + 1) call run
      | fault => exact run_with_fault_mono (fun call _ _ run => ih call run) (M.body call) run
      | outOfFuel => contradiction

theorem runs_functional {program : Program S α} {state first second : σ} {a b : α}
    (left : M.Runs program state a first) (right : M.Runs program state b second) :
    a = b ∧ first = second := by
  obtain ⟨fuel, left⟩ := left
  obtain ⟨more, right⟩ := right
  have left := run_with_exec_mono (Nat.le_max_left fuel more) program left
  have right := run_with_exec_mono (Nat.le_max_right fuel more) program right
  rw [left] at right
  injection right with value state
  exact ⟨value, state⟩

end Execution

end BearLang.CallPrograms
