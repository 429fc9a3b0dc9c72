import BearLang.ProgramReachability

/-!
# Runs with an observer

An observer follows one activation: it notes the operations, goes into some of
the calls, and of the others sees the answer only. Its notes change nothing, so
every run can be observed.
-/

namespace BearLang.CallPrograms

set_option autoImplicit false

open Program

structure Observer (S : Signature) (σ ω : Type) where
  enters : ω → S.Call → Bool
  did : ω → (op : S.Op) → S.OpAnswer op → ω
  called : ω → (call : S.Call) → S.CallAnswer call → σ → ω

variable {S : Signature} {σ ω α β : Type}

section Execution

@[grind =]
def observeWith (M : Machine S σ) (O : Observer S σ ω)
    (callee : (call : S.Call) → σ → Outcome (S.CallAnswer call) σ)
    (inside : (call : S.Call) → σ → ω → Option (S.CallAnswer call × σ × ω)) :
    Program S α → σ → ω → Option (α × σ × ω)
  | done value, state, notes => some (value, state, notes)
  | perform op next, state, notes =>
      match M.step op state with
      | none => none
      | some (answer, state) =>
          observeWith M O callee inside (next answer) state (O.did notes op answer)
  | invoke call next, state, notes =>
      if O.enters notes call then
        match inside call state notes with
        | none => none
        | some (answer, state, notes) => observeWith M O callee inside (next answer) state notes
      else
        match callee call state with
        | .returned answer state =>
            observeWith M O callee inside (next answer) state (O.called notes call answer state)
        | _ => none

def Machine.observe (M : Machine S σ) (O : Observer S σ ω) :
    Nat → (call : S.Call) → σ → ω → Option (S.CallAnswer call × σ × ω)
  | 0, _, _, _ => none
  | fuel + 1, call, state, notes =>
      observeWith M O (M.exec fuel) (Machine.observe M O fuel) (M.body call) state notes

/-- The program comes back with `value` in `final`, and the observer with its
last notes. -/
def Machine.Observed (M : Machine S σ) (O : Observer S σ ω) (program : Program S α) (state : σ)
    (notes : ω) (value : α) (final : σ) (last : ω) : Prop :=
  ∃ fuel, observeWith M O (M.exec fuel) (M.observe O fuel) program state notes =
    some (value, final, last)

end Execution

section Rules

variable {M : Machine S σ} {O : Observer S σ ω} {state final : σ} {notes last : ω}

theorem observe_with_mono {callee callee' : (call : S.Call) → σ → Outcome (S.CallAnswer call) σ}
    {inside inside' : (call : S.Call) → σ → ω → Option (S.CallAnswer call × σ × ω)}
    (below : ∀ call state answer final, callee call state = .returned answer final →
      callee' call state = .returned answer final)
    (within : ∀ call state notes result, inside call state notes = some result →
      inside' call state notes = some result) (program : Program S α) {result : α × σ × ω}
    (run : observeWith M O callee inside program state notes = some result) :
    observeWith M O callee' inside' program state notes = some result := by
  induction program generalizing state notes with
  | done value => exact run
  | perform op next ih =>
      simp only [observeWith] at run ⊢
      cases stepped : M.step op state with
      | none => simp [stepped] at run
      | some pair =>
          simp only [stepped] at run ⊢
          exact ih pair.1 run
  | invoke call next ih =>
      simp only [observeWith] at run ⊢
      split at run
      · rename_i enters
        rw [if_pos enters]
        cases entered : inside call state notes with
        | none => simp [entered] at run
        | some result =>
            rw [within call state notes result entered]
            simp only [entered] at run
            exact ih result.1 run
      · rename_i passes
        rw [if_neg passes]
        cases answered : callee call state with
        | returned answer middle =>
            rw [below call state answer middle answered]
            simp only [answered] at run
            exact ih answer run
        | fault => simp [answered] at run
        | outOfFuel => simp [answered] at run

theorem observe_mono {fuel more : Nat} (le : fuel ≤ more) (call : S.Call) {state : σ} {notes : ω}
    {result : S.CallAnswer call × σ × ω} (run : M.observe O fuel call state notes = some result) :
    M.observe O more call state notes = some result := by
  induction fuel generalizing more call state notes with
  | zero => cases run
  | succ fuel ih =>
      obtain ⟨rest, rfl⟩ := Nat.exists_eq_add_of_le le
      rw [Nat.add_right_comm]
      exact observe_with_mono (fun call _ _ _ => exec_mono (Nat.le_add_right fuel rest) call)
        (fun call _ _ _ => ih (Nat.le_add_right fuel rest) call) _ run

theorem observed_more {fuel more : Nat} (le : fuel ≤ more) {program : Program S α} {value : α}
    (run : observeWith M O (M.exec fuel) (M.observe O fuel) program state notes =
      some (value, final, last)) :
    observeWith M O (M.exec more) (M.observe O more) program state notes =
      some (value, final, last) :=
  observe_with_mono (fun call _ _ _ => exec_mono le call) (fun call _ _ _ => observe_mono le call)
    program run

theorem observed_done {value result : α} :
    M.Observed O (done value) state notes result final last ↔
      value = result ∧ state = final ∧ notes = last := by
  simp [Machine.Observed, observeWith]

theorem observed_perform {op : S.Op} {next : S.OpAnswer op → Program S α} {value : α} :
    M.Observed O (perform op next) state notes value final last ↔
      ∃ answer middle, M.step op state = some (answer, middle) ∧
        M.Observed O (next answer) middle (O.did notes op answer) value final last := by
  constructor
  · rintro ⟨fuel, run⟩
    simp only [observeWith] at run
    cases stepped : M.step op state with
    | none => simp [stepped] at run
    | some pair =>
        simp only [stepped] at run
        exact ⟨pair.1, pair.2, rfl, fuel, run⟩
  · rintro ⟨answer, middle, stepped, fuel, run⟩
    exact ⟨fuel, by simpa only [observeWith, stepped] using run⟩

theorem observed_inside {call : S.Call} {next : S.CallAnswer call → Program S α} {value : α}
    (enters : O.enters notes call = true) :
    M.Observed O (invoke call next) state notes value final last ↔
      ∃ answer middle between, M.Observed O (M.body call) state notes answer middle between ∧
        M.Observed O (next answer) middle between value final last := by
  constructor
  · rintro ⟨fuel, run⟩
    simp only [observeWith, if_pos enters] at run
    cases entered : M.observe O fuel call state notes with
    | none => simp [entered] at run
    | some result =>
        simp only [entered] at run
        cases fuel with
        | zero => cases entered
        | succ fuel => exact ⟨_, _, _, ⟨fuel, entered⟩, fuel + 1, run⟩
  · rintro ⟨answer, middle, between, ⟨inner, entered⟩, outer, run⟩
    refine ⟨max (inner + 1) outer, ?_⟩
    have more : M.observe O (max (inner + 1) outer) call state notes =
        some (answer, middle, between) :=
      observe_mono (Nat.le_max_left (inner + 1) outer) call entered
    simp only [observeWith, if_pos enters, more]
    exact observed_more (Nat.le_max_right _ _) run

theorem observed_outside {call : S.Call} {next : S.CallAnswer call → Program S α} {value : α}
    (passes : O.enters notes call = false) :
    M.Observed O (invoke call next) state notes value final last ↔
      ∃ answer middle, M.Runs (M.body call) state answer middle ∧
        M.Observed O (next answer) middle (O.called notes call answer middle) value final last := by
  have notEntered : ¬ O.enters notes call = true := by simp [passes]
  constructor
  · rintro ⟨fuel, run⟩
    simp only [observeWith, if_neg notEntered] at run
    cases answered : M.exec fuel call state with
    | returned answer middle =>
        simp only [answered] at run
        cases fuel with
        | zero => cases answered
        | succ fuel => exact ⟨answer, middle, ⟨fuel, answered⟩, fuel + 1, run⟩
    | fault => simp [answered] at run
    | outOfFuel => simp [answered] at run
  · rintro ⟨answer, middle, ⟨inner, answered⟩, outer, run⟩
    refine ⟨max (inner + 1) outer, ?_⟩
    have more : M.exec (max (inner + 1) outer) call state = .returned answer middle :=
      exec_mono (Nat.le_max_left (inner + 1) outer) call answered
    simp only [observeWith, if_neg notEntered, more]
    exact observed_more (Nat.le_max_right _ _) run

theorem observed_bind {program : Program S α} {f : α → Program S β} {result : β} :
    M.Observed O (program >>= f) state notes result final last ↔
      ∃ value middle between, M.Observed O program state notes value middle between ∧
        M.Observed O (f value) middle between result final last := by
  induction program generalizing state notes with
  | done value =>
      simp only [done_bind, observed_done]
      constructor
      · intro run
        exact ⟨value, state, notes, ⟨rfl, rfl, rfl⟩, run⟩
      · rintro ⟨_, _, _, ⟨rfl, rfl, rfl⟩, run⟩
        exact run
  | perform op next ih =>
      simp only [perform_bind, observed_perform, ih]
      constructor
      · rintro ⟨answer, m, stepped, value, middle, between, first, second⟩
        exact ⟨value, middle, between, ⟨answer, m, stepped, first⟩, second⟩
      · rintro ⟨value, middle, between, ⟨answer, m, stepped, first⟩, second⟩
        exact ⟨answer, m, stepped, value, middle, between, first, second⟩
  | invoke call next ih =>
      rw [invoke_bind]
      cases entered : O.enters notes call with
      | true =>
          simp only [observed_inside entered, ih]
          constructor
          · rintro ⟨answer, m, w, called, value, middle, between, first, second⟩
            exact ⟨value, middle, between, ⟨answer, m, w, called, first⟩, second⟩
          · rintro ⟨value, middle, between, ⟨answer, m, w, called, first⟩, second⟩
            exact ⟨answer, m, w, called, value, middle, between, first, second⟩
      | false =>
          simp only [observed_outside entered, ih]
          constructor
          · rintro ⟨answer, m, called, value, middle, between, first, second⟩
            exact ⟨value, middle, between, ⟨answer, m, called, first⟩, second⟩
          · rintro ⟨value, middle, between, ⟨answer, m, called, first⟩, second⟩
            exact ⟨answer, m, called, value, middle, between, first, second⟩

theorem run_of_observe_with {fuel : Nat}
    {inside : (call : S.Call) → σ → ω → Option (S.CallAnswer call × σ × ω)}
    (within : ∀ call state notes answer middle between,
      inside call state notes = some (answer, middle, between) →
        M.Runs (M.body call) state answer middle) (program : Program S α) {value : α}
    (run : observeWith M O (M.exec fuel) inside program state notes = some (value, final, last)) :
    M.Runs program state value final := by
  induction program generalizing state notes with
  | done result =>
      simp only [observeWith, Option.some.injEq, Prod.mk.injEq] at run
      exact runs_done.2 ⟨run.1, run.2.1⟩
  | perform op next ih =>
      simp only [observeWith] at run
      cases stepped : M.step op state with
      | none => simp [stepped] at run
      | some pair =>
          simp only [stepped] at run
          exact runs_perform.2 ⟨pair.1, pair.2, stepped, ih pair.1 run⟩
  | invoke call next ih =>
      simp only [observeWith] at run
      split at run
      · cases entered : inside call state notes with
        | none => simp [entered] at run
        | some result =>
            simp only [entered] at run
            exact runs_invoke.2 ⟨_, _, within _ _ _ _ _ _ entered, ih result.1 run⟩
      · cases answered : M.exec fuel call state with
        | returned answer middle =>
            simp only [answered] at run
            cases fuel with
            | zero => cases answered
            | succ fuel => exact runs_invoke.2 ⟨answer, middle, ⟨fuel, answered⟩, ih answer run⟩
        | fault => simp [answered] at run
        | outOfFuel => simp [answered] at run

theorem run_of_observe {fuel : Nat} {call : S.Call} {state middle : σ} {notes between : ω}
    {answer : S.CallAnswer call}
    (entered : M.observe O fuel call state notes = some (answer, middle, between)) :
    M.Runs (M.body call) state answer middle := by
  induction fuel generalizing call state notes middle between with
  | zero => cases entered
  | succ fuel ih => exact run_of_observe_with (fun _ _ _ _ _ _ inner => ih inner) _ entered

theorem runs_of_observed {program : Program S α} {value : α}
    (run : M.Observed O program state notes value final last) :
    M.Runs program state value final := by
  obtain ⟨fuel, run⟩ := run
  exact run_of_observe_with (fun _ _ _ _ _ _ entered => run_of_observe entered) program run

end Rules

section Notes

variable {M : Machine S σ} {O : Observer S σ ω} {state final : σ} {notes last : ω}

/-- What every single note keeps, a run keeps. -/
theorem observed_related {R : ω → ω → Prop} (refl : ∀ w, R w w)
    (trans : ∀ {u v w}, R u v → R v w → R u w) (did : ∀ w op answer, R w (O.did w op answer))
    (called : ∀ w call answer state, R w (O.called w call answer state)) {program : Program S α}
    {value : α} (run : M.Observed O program state notes value final last) : R notes last := by
  have body : ∀ {α : Type} (program : Program S α) {fuel : Nat} {state : σ} {notes : ω} {value : α}
      {final : σ} {last : ω}, (∀ call state notes answer middle between,
        M.observe O fuel call state notes = some (answer, middle, between) → R notes between) →
      observeWith M O (M.exec fuel) (M.observe O fuel) program state notes =
        some (value, final, last) → R notes last := by
    intro α program fuel state notes value final last inner run
    induction program generalizing state notes with
    | done result =>
        simp only [observeWith, Option.some.injEq, Prod.mk.injEq] at run
        rw [run.2.2]
        exact refl last
    | perform op next ih =>
        simp only [observeWith] at run
        cases stepped : M.step op state with
        | none => simp [stepped] at run
        | some pair =>
            simp only [stepped] at run
            exact trans (did notes op pair.1) (ih pair.1 run)
    | invoke call next ih =>
        simp only [observeWith] at run
        split at run
        · cases entered : M.observe O fuel call state notes with
          | none => simp [entered] at run
          | some result =>
              simp only [entered] at run
              exact trans (inner _ _ _ _ _ _ entered) (ih result.1 run)
        · cases answered : M.exec fuel call state with
          | returned answer middle =>
              simp only [answered] at run
              exact trans (called notes call answer middle) (ih answer run)
          | fault => simp [answered] at run
          | outOfFuel => simp [answered] at run
  have inner : ∀ fuel call state notes answer middle between,
      M.observe O fuel call state notes = some (answer, middle, between) → R notes between := by
    intro fuel
    induction fuel with
    | zero => exact fun _ _ _ _ _ _ entered => nomatch entered
    | succ fuel ih => exact fun call _ _ _ _ _ entered => body (M.body call) ih entered
  obtain ⟨fuel, run⟩ := run
  exact body program (inner fuel) run

/-- What the operations and the calls of a contract keep, a program of that
contract keeps. -/
theorem observed_keeps {K : Contract S} {P : ω → Prop}
    (did : ∀ w op answer, P w → P (O.did w op answer))
    (passes : ∀ w call, P w → K.call call → O.enters w call = false)
    (called : ∀ w call answer state, P w → K.call call → P (O.called w call answer state))
    (answers : ∀ op answer, K.opAnswer op answer)
    (results : ∀ call answer, K.callAnswer call answer) {program : Program S α} {post : α → Prop}
    (meets : program.Meets K post) {value : α} (start : P notes)
    (run : M.Observed O program state notes value final last) : P last := by
  induction program generalizing state notes with
  | done result =>
      obtain ⟨_, _, rfl⟩ := observed_done.1 run
      exact start
  | perform op next ih =>
      obtain ⟨answer, middle, _, rest⟩ := observed_perform.1 run
      exact ih answer (meets.2 answer (answers op answer)) (did notes op answer start) rest
  | invoke call next ih =>
      obtain ⟨answer, middle, _, rest⟩ :=
        (observed_outside (passes notes call start meets.1)).1 run
      exact ih answer (meets.2 answer (results call answer))
        (called notes call answer middle start meets.1) rest

end Notes

end BearLang.CallPrograms
