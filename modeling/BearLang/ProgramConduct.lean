import BearLang.ProgramReachability

/-!
# Conduct of programs, and their end

A conduct says in which states an operation may be performed and a procedure may
be called. Contracts are about the text of a program; a conduct is about its
runs: what follows a call starts in the states the call ends in. `Settles` says
that a program comes to an end, with a result or with a fault; `Faultless` that it
does not come to a fault, whether it ends or not.
-/

namespace BearLang.CallPrograms

set_option autoImplicit false

open Program

section Conducts

variable {S : Signature} {σ α β : Type}

structure Conduct (S : Signature) (σ : Type) where
  op : S.Op → σ → Prop
  call : S.Call → σ → Prop
  /-- what may be relied on at every point -/
  always : σ → Prop

/-- The program keeps to the conduct, as far as its own operations and calls go. -/
def Program.Follows (M : Machine S σ) (C : Conduct S σ) : Program S α → σ → Prop
  | done _, _ => True
  | perform op next, state =>
      C.op op state ∧ ∀ answer final, M.step op state = some (answer, final) → C.always final →
        (next answer).Follows M C final
  | invoke call next, state =>
      C.call call state ∧ ∀ answer final, M.Runs (M.body call) state answer final →
        C.always final → (next answer).Follows M C final

variable {M : Machine S σ} {C : Conduct S σ}

theorem follows_bind {program : Program S α} {f : α → Program S β} {state : σ}
    (first : program.Follows M C state) (start : C.always state)
    (rest : ∀ value final, M.Runs program state value final → C.always final →
      (f value).Follows M C final) : (program >>= f).Follows M C state := by
  induction program generalizing state with
  | done value => exact rest value state (runs_done.2 ⟨rfl, rfl⟩) start
  | perform op next ih =>
      refine ⟨first.1, fun answer middle stepped here => ?_⟩
      refine ih answer (first.2 answer middle stepped here) here fun value final run ends => ?_
      exact rest value final (runs_perform.2 ⟨answer, middle, stepped, run⟩) ends
  | invoke call next ih =>
      refine ⟨first.1, fun answer middle called here => ?_⟩
      refine ih answer (first.2 answer middle called here) here fun value final run ends => ?_
      exact rest value final (runs_invoke.2 ⟨answer, middle, called, run⟩) ends

/-- The induction over a run: where every procedure called as the conduct allows
keeps to it, the run does. -/
theorem follows_reached {p₀ : Program S α} {s₀ : σ}
    (each : ∀ call next state, M.Reaches p₀ s₀ (.invoke call next) state → C.call call state →
      (M.body call).Follows M C state)
    (always : ∀ q t, M.Reaches p₀ s₀ q t → C.always t) {p q : Program S α} {s t : σ}
    (origin : M.Reaches p₀ s₀ p s) (reached : M.Reaches p s q t) (start : p.Follows M C s) :
    q.Follows M C t := by
  induction reached with
  | refl => exact start
  | @perform op next state middle final answer rest stepped later ih =>
      have there := reaches_trans origin (.perform stepped (.refl _ _))
      exact ih there (start.2 answer middle stepped (always _ _ there))
  | @invoke call next state final rest later ih =>
      refine ih (reaches_trans origin (.invoke (.refl _ _))) ?_
      exact follows_bind (each call next state origin start.1) (always _ _ origin) start.2

/-- A program whose text keeps to a contract keeps to a conduct that asks for no
more. -/
theorem follows_of_meets {K : Contract S} (ops : ∀ op, K.op op → ∀ state, C.op op state)
    (answers : ∀ op state answer final, M.step op state = some (answer, final) →
      K.opAnswer op answer)
    (calls : ∀ call, K.call call → ∀ state, C.call call state)
    (callAnswers : ∀ call answer, K.callAnswer call answer) {program : Program S α}
    {post : α → Prop} (meets : program.Meets K post) (state : σ) : program.Follows M C state := by
  induction program generalizing state with
  | done value => trivial
  | perform op next ih =>
      refine ⟨ops op meets.1 state, fun answer final stepped _ => ?_⟩
      exact ih answer (meets.2 answer (answers op state answer final stepped)) final
  | invoke call next ih =>
      refine ⟨calls call meets.1 state, fun answer final _ _ => ?_⟩
      exact ih answer (meets.2 answer (callAnswers call answer)) final

end Conducts

section Ends

variable {S : Signature} {σ α β : Type} {M : Machine S σ}

/-- The program comes to an end, with a result or with a fault. -/
def Machine.Settles (M : Machine S σ) (program : Program S α) (state : σ) : Prop :=
  ∃ fuel, runWith M.step (M.exec fuel) program state ≠ .outOfFuel

theorem settles_cases {program : Program S α} {state : σ} (settles : M.Settles program state) :
    (∃ value final, M.Runs program state value final) ∨
      ∃ fuel, runWith M.step (M.exec fuel) program state = .fault := by
  obtain ⟨fuel, ends⟩ := settles
  cases outcome : runWith M.step (M.exec fuel) program state with
  | returned value final => exact .inl ⟨value, final, fuel, outcome⟩
  | fault => exact .inr ⟨fuel, outcome⟩
  | outOfFuel => exact absurd outcome ends

theorem run_with_exec_fault_mono {fuel more : Nat} (le : fuel ≤ more) {program : Program S α}
    {state : σ} (faults : runWith M.step (M.exec fuel) program state = .fault) :
    runWith M.step (M.exec more) program state = .fault := by
  refine run_with_fault_mono (fun call s outcome exec settled => ?_) program faults
  induction le with
  | refl => exact exec
  | @step m _ ih => exact exec_settled_succ m call ih settled

theorem settles_of_runs {program : Program S α} {state final : σ} {value : α}
    (run : M.Runs program state value final) : M.Settles program state := by
  obtain ⟨fuel, run⟩ := run
  exact ⟨fuel, by rw [run]; simp⟩

theorem settles_perform {op : S.Op} {next : S.OpAnswer op → Program S α} {state : σ}
    (rest : ∀ answer final, M.step op state = some (answer, final) →
      M.Settles (next answer) final) : M.Settles (perform op next) state := by
  cases stepped : M.step op state with
  | none => exact ⟨0, by simp [runWith, stepped]⟩
  | some pair =>
      obtain ⟨fuel, ends⟩ := rest pair.1 pair.2 stepped
      exact ⟨fuel, by simpa only [runWith, stepped] using ends⟩

theorem settles_invoke {call : S.Call} {next : S.CallAnswer call → Program S α} {state : σ}
    (body : M.Settles (M.body call) state)
    (rest : ∀ answer final, M.Runs (M.body call) state answer final →
      M.Settles (next answer) final) : M.Settles (invoke call next) state := by
  rcases settles_cases body with ⟨answer, middle, run⟩ | ⟨fuel, faults⟩
  · rcases settles_cases (rest answer middle run) with ⟨value, final, after⟩ | ⟨more, faults⟩
    · exact settles_of_runs (runs_invoke.2 ⟨answer, middle, run, after⟩)
    · obtain ⟨fuel, called⟩ := run
      refine ⟨max (fuel + 1) more, ?_⟩
      have here : M.exec (max (fuel + 1) more) call state = .returned answer middle :=
        exec_mono (Nat.le_max_left _ _) call called
      simp only [runWith, here, run_with_exec_fault_mono (Nat.le_max_right (fuel + 1) more) faults]
      simp
  · refine ⟨fuel + 1, ?_⟩
    have here : M.exec (fuel + 1) call state = .fault := faults
    simp [runWith, here]

theorem run_with_bind {step : (op : S.Op) → σ → Option (S.OpAnswer op × σ)}
    {callee : (call : S.Call) → σ → Outcome (S.CallAnswer call) σ} {program : Program S α}
    {f : α → Program S β} {state : σ} :
    runWith step callee (program >>= f) state =
      match runWith step callee program state with
      | .returned value final => runWith step callee (f value) final
      | .fault => .fault
      | .outOfFuel => .outOfFuel := by
  induction program generalizing state with
  | done value => rfl
  | perform op next ih =>
      simp only [perform_bind, runWith]
      cases step op state with
      | none => rfl
      | some pair => exact ih pair.1
  | invoke call next ih =>
      simp only [invoke_bind, runWith]
      cases callee call state with
      | returned answer middle => exact ih answer
      | fault => rfl
      | outOfFuel => rfl

theorem returned_bind {fuel : Nat} {program : Program S α} {f : α → Program S β} {state final : σ}
    {result : β} : runWith M.step (M.exec fuel) (program >>= f) state = .returned result final ↔
      ∃ value middle, runWith M.step (M.exec fuel) program state = .returned value middle ∧
        runWith M.step (M.exec fuel) (f value) middle = .returned result final := by
  rw [run_with_bind]
  cases runWith M.step (M.exec fuel) program state with
  | returned value middle =>
      constructor
      · exact fun rest => ⟨value, middle, rfl, rest⟩
      · rintro ⟨_, _, first, rest⟩
        cases first
        exact rest
  | fault =>
      constructor
      · exact fun none_ => nomatch none_
      · exact fun ⟨_, _, none_, _⟩ => nomatch none_
  | outOfFuel =>
      constructor
      · exact fun none_ => nomatch none_
      · exact fun ⟨_, _, none_, _⟩ => nomatch none_

/-- What is left of a bounded run after a part whose run is known. -/
theorem returned_after {fuel : Nat} {program : Program S α} {f : α → Program S β}
    {state middle final : σ} {value : α} {result : β} (first : M.Runs program state value middle)
    (whole : runWith M.step (M.exec fuel) (program >>= f) state = .returned result final) :
    runWith M.step (M.exec fuel) (f value) middle = .returned result final := by
  obtain ⟨value', middle', run, rest⟩ := returned_bind.1 whole
  obtain ⟨rfl, rfl⟩ := runs_functional first ⟨fuel, run⟩
  exact rest

theorem settles_bind {program : Program S α} {f : α → Program S β} {state : σ}
    (first : M.Settles program state)
    (rest : ∀ value final, M.Runs program state value final → M.Settles (f value) final) :
    M.Settles (program >>= f) state := by
  rcases settles_cases first with ⟨value, middle, run⟩ | ⟨fuel, faults⟩
  · rcases settles_cases (rest value middle run) with ⟨result, final, after⟩ | ⟨more, faults⟩
    · exact settles_of_runs (runs_bind.2 ⟨value, middle, run, after⟩)
    · obtain ⟨fuel, run⟩ := run
      refine ⟨max fuel more, ?_⟩
      rw [run_with_bind, run_with_exec_mono (Nat.le_max_left fuel more) program run]
      simp only [run_with_exec_fault_mono (Nat.le_max_right fuel more) faults]
      simp
  · refine ⟨fuel, ?_⟩
    rw [run_with_bind, faults]
    simp

theorem settles_first {program : Program S α} {f : α → Program S β} {state : σ}
    (whole : M.Settles (program >>= f) state) : M.Settles program state := by
  obtain ⟨fuel, ends⟩ := whole
  exact ⟨fuel, fun stuck => ends (by rw [run_with_bind, stuck])⟩

/-- Calls each of which comes to another one of them have no end. -/
theorem endless_calls (endless : S.Call → σ → Prop)
    (turn : ∀ call state, endless call state →
      ∀ callee : (call : S.Call) → σ → Outcome (S.CallAnswer call) σ,
        (∀ call state, endless call state → callee call state = .outOfFuel) →
        runWith M.step callee (M.body call) state = .outOfFuel)
    {call : S.Call} {next : S.CallAnswer call → Program S α} {state : σ}
    (start : endless call state) : ¬ M.Settles (.invoke call next) state := by
  have stuck (fuel : Nat) :
      ∀ call state, endless call state → M.exec fuel call state = .outOfFuel := by
    induction fuel with
    | zero => exact fun call state _ => rfl
    | succ fuel ih => exact fun call state held => turn call state held _ ih
  rintro ⟨fuel, ends⟩
  exact ends (by simp only [runWith, stuck fuel call state start])

/-- What is left of a run needs no more fuel than the run. -/
theorem rest_within_fuel {fuel : Nat} {p q : Program S α} {s t final : σ} {value : α}
    (reached : M.Reaches p s q t) (run : runWith M.step (M.exec fuel) p s = .returned value final) :
    runWith M.step (M.exec fuel) q t = .returned value final := by
  induction reached with
  | refl => exact run
  | perform stepped later ih =>
      rw [runWith, stepped] at run
      exact ih run
  | @invoke call next state final rest later ih =>
      refine ih ?_
      cases fuel with
      | zero => cases run
      | succ fuel =>
          rw [runWith] at run
          cases called : M.exec (fuel + 1) call state with
          | returned answer middle =>
              rw [called] at run
              rw [run_with_bind, run_with_exec_mono (Nat.le_succ fuel) (M.body call) called]
              exact run
          | fault =>
              rw [called] at run
              cases run
          | outOfFuel =>
              rw [called] at run
              cases run

/-- Calls each of which reaches another one of them give nothing. -/
theorem no_run_of_turns (turning : S.Call → σ → Prop)
    (turn : ∀ call state, turning call state → ∃ call' next state',
      M.Reaches (M.body call) state (.invoke call' next) state' ∧ turning call' state')
    {call : S.Call} {next : S.CallAnswer call → Program S α} {state final : σ} {value : α}
    (start : turning call state) : ¬ M.Runs (.invoke call next) state value final := by
  have endless (fuel : Nat) : ∀ call state, turning call state → ∀ answer middle,
      M.exec fuel call state ≠ .returned answer middle := by
    induction fuel with
    | zero => exact fun call state _ answer middle run => nomatch run
    | succ fuel ih =>
        intro call state held answer middle run
        obtain ⟨call', next', state', reached, held'⟩ := turn call state held
        have rest := rest_within_fuel reached run
        rw [runWith] at rest
        cases called : M.exec fuel call' state' with
        | returned answer' middle' => exact ih call' state' held' answer' middle' called
        | fault =>
            rw [called] at rest
            cases rest
        | outOfFuel =>
            rw [called] at rest
            cases rest
  rintro ⟨fuel, run⟩
  rw [runWith] at run
  cases called : M.exec fuel call state with
  | returned answer middle => exact endless fuel call state start answer middle called
  | fault =>
      rw [called] at run
      cases run
  | outOfFuel =>
      rw [called] at run
      cases run

end Ends

section Faults

variable {S : Signature} {σ α β : Type} {M : Machine S σ}

/-- The program comes to no fault. -/
def Machine.Faultless (M : Machine S σ) (program : Program S α) (state : σ) : Prop :=
  ∀ fuel, runWith M.step (M.exec fuel) program state ≠ .fault

/-- Within the same bound: no fault in the first part, and none in what follows it. -/
theorem no_fault_bind {fuel : Nat} {program : Program S α} {f : α → Program S β} {state : σ}
    (first : runWith M.step (M.exec fuel) program state ≠ .fault)
    (rest : ∀ value middle, M.Runs program state value middle →
      runWith M.step (M.exec fuel) (f value) middle ≠ .fault) :
    runWith M.step (M.exec fuel) (program >>= f) state ≠ .fault := by
  rw [run_with_bind]
  cases outcome : runWith M.step (M.exec fuel) program state with
  | returned value middle => exact rest value middle ⟨fuel, outcome⟩
  | fault => exact absurd outcome first
  | outOfFuel => simp

theorem faultless_bind {program : Program S α} {f : α → Program S β} {state : σ} :
    M.Faultless (program >>= f) state ↔ M.Faultless program state ∧
      ∀ value middle, M.Runs program state value middle → M.Faultless (f value) middle := by
  constructor
  · intro whole
    constructor
    · intro fuel faults
      apply whole fuel
      rw [run_with_bind, faults]
    · intro value middle run fuel faults
      obtain ⟨more, run⟩ := run
      apply whole (max more fuel)
      rw [run_with_bind, run_with_exec_mono (Nat.le_max_left more fuel) program run]
      exact run_with_exec_fault_mono (Nat.le_max_right more fuel) faults
  · intro parts fuel
    exact no_fault_bind (parts.1 fuel) fun value middle run => parts.2 value middle run fuel

theorem faultless_call {call : S.Call} {state : σ} :
    M.Faultless (.invoke call .done) state ↔ M.Faultless (M.body call) state := by
  have same (fuel : Nat) : runWith M.step (M.exec fuel) (.invoke call .done) state = .fault ↔
      M.exec fuel call state = .fault := by
    rw [runWith]
    cases M.exec fuel call state with
    | returned answer middle => simp [runWith]
    | fault => simp
    | outOfFuel => simp
  constructor
  · intro whole fuel faults
    exact whole (fuel + 1) ((same (fuel + 1)).2 faults)
  · intro body fuel faults
    cases fuel with
    | zero => cases (same 0).1 faults
    | succ fuel => exact body fuel ((same (fuel + 1)).1 faults)

end Faults

end BearLang.CallPrograms
