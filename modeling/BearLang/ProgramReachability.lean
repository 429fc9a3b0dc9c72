import BearLang.CallPrograms

/-!
# Points a run reaches, and what holds at all of them

`Reaches` follows a run step by step, with the bodies of the procedures put in
the place of their calls, so a run that never comes back has its points too.
An invariant is shown once for every operation; a contract says in addition
which operations and calls a program is built from, and is read off its text.
A monitor adds state that only watches.
-/

namespace BearLang.CallPrograms

set_option autoImplicit false

open Program

section Reachability

variable {S : Signature} {σ α β : Type}

/-- `Reaches p s q s'`: started in `s`, the program `p` gets to `s'` with `q`
left to run. -/
inductive Machine.Reaches (M : Machine S σ) :
    Program S α → σ → Program S α → σ → Prop where
  | refl (program : Program S α) (state : σ) : M.Reaches program state program state
  | perform {op : S.Op} {next : S.OpAnswer op → Program S α} {state middle final : σ}
      {answer : S.OpAnswer op} {rest : Program S α}
      (stepped : M.step op state = some (answer, middle))
      (later : M.Reaches (next answer) middle rest final) :
      M.Reaches (.perform op next) state rest final
  | invoke {call : S.Call} {next : S.CallAnswer call → Program S α} {state final : σ}
      {rest : Program S α} (later : M.Reaches (M.body call >>= next) state rest final) :
      M.Reaches (.invoke call next) state rest final

/-- The run of `program` from `state` performs `op` in the state `before`. -/
def Machine.Performs (M : Machine S σ) (program : Program S α) (state : σ) (op : S.Op)
    (before : σ) : Prop :=
  ∃ next, M.Reaches program state (.perform op next) before

variable {M : Machine S σ}

theorem reaches_trans {p q r : Program S α} {s t u : σ} (first : M.Reaches p s q t)
    (second : M.Reaches q t r u) : M.Reaches p s r u := by
  induction first with
  | refl => exact second
  | perform stepped _ ih => exact .perform stepped (ih second)
  | invoke _ ih => exact .invoke (ih second)

theorem reaches_of_run_with (fuel : Nat) {β : Type} (program : Program S α) (f : α → Program S β)
    {state final : σ} {value : α}
    (run : runWith M.step (M.exec fuel) program state = .returned value final) :
    M.Reaches (program >>= f) state (f value) final := by
  -- outer induction on the depth of calls, inner one on the text of the program
  induction fuel generalizing α β state final with
  | zero =>
      induction program generalizing state with
      | done result =>
          cases run
          exact .refl _ _
      | perform op next ih =>
          simp only [runWith] at run
          cases stepped : M.step op state with
          | none => simp [stepped] at run
          | some pair =>
              simp only [stepped] at run
              exact .perform stepped (ih pair.1 run)
      | invoke call next ih => simp [runWith, Machine.exec] at run
  | succ fuel outer =>
      induction program generalizing state with
      | done result =>
          cases run
          exact .refl _ _
      | perform op next ih =>
          simp only [runWith] at run
          cases stepped : M.step op state with
          | none => simp [stepped] at run
          | some pair =>
              simp only [stepped] at run
              exact .perform stepped (ih pair.1 run)
      | invoke call next ih =>
          simp only [runWith] at run
          cases called : M.exec (fuel + 1) call state with
          | returned answer middle =>
              simp only [called] at run
              have body := outer (M.body call) (fun answer => next answer >>= f) called
              exact .invoke (reaches_trans body (ih answer run))
          | fault => simp [called] at run
          | outOfFuel => simp [called] at run

theorem reaches_of_runs {program : Program S α} {f : α → Program S β} {state final : σ}
    {value : α} (run : M.Runs program state value final) :
    M.Reaches (program >>= f) state (f value) final := by
  obtain ⟨fuel, run⟩ := run
  exact reaches_of_run_with fuel program f run

theorem reaches_done_of_runs {program : Program S α} {state final : σ} {value : α}
    (run : M.Runs program state value final) : M.Reaches program state (.done value) final := by
  simpa only [bind_done] using reaches_of_runs (f := done) run

/-- What is left to run gives the result of the whole run. -/
theorem reaches_runs_iff {p q : Program S α} {s t final : σ} {value : α}
    (reached : M.Reaches p s q t) : M.Runs p s value final ↔ M.Runs q t value final := by
  induction reached with
  | refl => rfl
  | perform stepped _ ih =>
      rw [← ih, runs_perform]
      constructor
      · rintro ⟨answer, middle, stepped', run⟩
        rw [stepped] at stepped'
        cases stepped'
        exact run
      · intro run
        exact ⟨_, _, stepped, run⟩
  | invoke _ ih => rw [← ih, runs_invoke, runs_bind]

/-- The calls of a run that ends within the bound, each with the state it is made in. -/
def Machine.calls (M : Machine S σ) : Nat → Program S α → σ → Option (List (S.Call × σ))
  | 0, _, _ => none
  | _ + 1, .done _, _ => some []
  | bound + 1, .perform op next, state =>
      match M.step op state with
      | none => some []
      | some (answer, middle) => M.calls bound (next answer) middle
  | bound + 1, .invoke call next, state =>
      (M.calls bound (M.body call >>= next) state).map ((call, state) :: ·)

theorem performs_later {p q : Program S α} {s t before : σ} {op : S.Op}
    (reached : M.Reaches p s q t) (performed : M.Performs q t op before) :
    M.Performs p s op before := by
  obtain ⟨next, performed⟩ := performed
  exact ⟨next, reaches_trans reached performed⟩

end Reachability

section Contracts

variable {S : Signature} {σ α β : Type}

/-- Which operations and calls are allowed, and what may be assumed of their
answers. -/
structure Contract (S : Signature) where
  op : S.Op → Prop
  opAnswer : (op : S.Op) → S.OpAnswer op → Prop
  call : S.Call → Prop
  callAnswer : (call : S.Call) → S.CallAnswer call → Prop

def Program.Meets (K : Contract S) : Program S α → (α → Prop) → Prop
  | done value, post => post value
  | perform op next, post =>
      K.op op ∧ ∀ answer, K.opAnswer op answer → (next answer).Meets K post
  | invoke call next, post =>
      K.call call ∧ ∀ answer, K.callAnswer call answer → (next answer).Meets K post

/-- Every procedure called as the contract allows answers as it promises. -/
def Machine.Honours (M : Machine S σ) (K : Contract S) : Prop :=
  ∀ call, K.call call → (M.body call).Meets K (K.callAnswer call)

variable {K : Contract S}

@[simp] theorem meets_done {value : α} {post : α → Prop} :
    (done value : Program S α).Meets K post ↔ post value := Iff.rfl

@[simp] theorem meets_perform {op : S.Op} {next : S.OpAnswer op → Program S α}
    {post : α → Prop} :
    (perform op next).Meets K post ↔
      K.op op ∧ ∀ answer, K.opAnswer op answer → (next answer).Meets K post := Iff.rfl

@[simp] theorem meets_invoke {call : S.Call} {next : S.CallAnswer call → Program S α}
    {post : α → Prop} :
    (invoke call next).Meets K post ↔
      K.call call ∧ ∀ answer, K.callAnswer call answer → (next answer).Meets K post := Iff.rfl

theorem meets_bind {program : Program S α} {f : α → Program S β} {post : β → Prop} :
    (program >>= f).Meets K post ↔ program.Meets K fun value => (f value).Meets K post := by
  induction program with
  | done value => rfl
  | perform op next ih => simp only [perform_bind, meets_perform, ih]
  | invoke call next ih => simp only [invoke_bind, meets_invoke, ih]

theorem meets_mono {program : Program S α} {strong weak : α → Prop}
    (meets : program.Meets K strong) (implies : ∀ value, strong value → weak value) :
    program.Meets K weak := by
  induction program with
  | done value => exact implies value meets
  | perform op next ih => exact ⟨meets.1, fun answer ok => ih answer (meets.2 answer ok)⟩
  | invoke call next ih => exact ⟨meets.1, fun answer ok => ih answer (meets.2 answer ok)⟩

/-- The induction over a run, done once: what every allowed and guarded
operation keeps holds at every point of a run that keeps to the contract. Only
the operations on the way to that point need be guarded. -/
theorem contract_invariant_along {M : Machine S σ} {invariant : σ → Prop} {guard : S.Op → σ → Prop}
    (honours : M.Honours K)
    (keeps : ∀ op state answer final, invariant state → K.op op → guard op state →
      M.step op state = some (answer, final) → K.opAnswer op answer ∧ invariant final)
    {p q : Program S α} {s t : σ} {post : α → Prop} (reached : M.Reaches p s q t)
    (guarded : ∀ op next before answer after, M.Reaches p s (.perform op next) before →
      M.step op before = some (answer, after) → M.Reaches (next answer) after q t → guard op before)
    (start : invariant s) (meets : p.Meets K post) :
    invariant t ∧ q.Meets K post := by
  induction reached with
  | refl => exact ⟨start, meets⟩
  | @perform op next state middle final answer rest stepped later ih =>
      have here := guarded op next state answer middle (.refl _ _) stepped later
      have kept := keeps op state answer middle start meets.1 here stepped
      exact ih (fun op next before answer after before' => guarded op next before answer after
        (.perform stepped before')) kept.2 (meets.2 answer kept.1)
  | @invoke call next state final rest later ih =>
      refine ih (fun op next before answer after before' => guarded op next before answer after
        (.invoke before')) start ?_
      rw [meets_bind]
      exact meets_mono (honours call meets.1) meets.2

theorem contract_invariant {M : Machine S σ} {invariant : σ → Prop} {guard : S.Op → σ → Prop}
    (honours : M.Honours K)
    (keeps : ∀ op state answer final, invariant state → K.op op → guard op state →
      M.step op state = some (answer, final) → K.opAnswer op answer ∧ invariant final)
    {p q : Program S α} {s t : σ} {post : α → Prop} (reached : M.Reaches p s q t)
    (guarded : ∀ op before, M.Performs p s op before → guard op before)
    (start : invariant s) (meets : p.Meets K post) :
    invariant t ∧ q.Meets K post :=
  contract_invariant_along honours keeps reached
    (fun op next before _ _ before' _ _ => guarded op before ⟨next, before'⟩) start meets

/-- Without a contract: an invariant that every guarded operation keeps. -/
theorem guarded_invariant {M : Machine S σ} {invariant : σ → Prop} (guard : S.Op → σ → Prop)
    (keeps : ∀ op state answer final, invariant state → guard op state →
      M.step op state = some (answer, final) → invariant final)
    {p q : Program S α} {s t : σ} (reached : M.Reaches p s q t)
    (guarded : ∀ op before, M.Performs p s op before → guard op before)
    (start : invariant s) : invariant t := by
  induction reached with
  | refl => exact start
  | @perform op next state middle final answer rest stepped later ih =>
      have here := guarded op state ⟨next, .refl _ _⟩
      refine ih (fun op before performed => guarded op before ?_)
        (keeps op state answer middle start here stepped)
      exact performs_later (.perform stepped (.refl _ _)) performed
  | invoke later ih =>
      refine ih (fun op before performed => guarded op before ?_) start
      exact performs_later (.invoke (.refl _ _)) performed

end Contracts

section Monitors

variable {S : Signature} {σ γ α : Type}

/-- Watches the operations of a run: from the answer and the state before an
operation it updates a state of its own. -/
def Machine.monitored (M : Machine S σ)
    (observe : (op : S.Op) → S.OpAnswer op → σ → γ → γ) : Machine S (σ × γ) where
  step op pair := (M.step op pair.1).map fun result =>
    (result.1, (result.2, observe op result.1 pair.1 pair.2))
  body := M.body

variable {M : Machine S σ} {observe : (op : S.Op) → S.OpAnswer op → σ → γ → γ}

theorem monitored_step {op : S.Op} {answer : S.OpAnswer op} {pair final : σ × γ} :
    (M.monitored observe).step op pair = some (answer, final) ↔
      M.step op pair.1 = some (answer, final.1) ∧
        final.2 = observe op answer pair.1 pair.2 := by
  simp only [Machine.monitored, Option.map_eq_some_iff, Prod.mk.injEq, Prod.exists]
  constructor
  · rintro ⟨found, next, stepped, rfl, rfl⟩
    exact ⟨stepped, rfl⟩
  · rintro ⟨stepped, watched⟩
    exact ⟨answer, final.1, stepped, rfl, by rw [← watched]⟩

/-- Watching does not change what a run does. -/
theorem reaches_of_monitored {p q : Program S α} {s t : σ × γ}
    (reached : (M.monitored observe).Reaches p s q t) : M.Reaches p s.1 q t.1 := by
  induction reached with
  | refl => exact .refl _ _
  | perform stepped _ ih => exact .perform (monitored_step.1 stepped).1 ih
  | invoke _ ih => exact .invoke ih

theorem reaches_monitored {p q : Program S α} {s t : σ} (reached : M.Reaches p s q t) (g : γ) :
    ∃ h, (M.monitored observe).Reaches p (s, g) q (t, h) := by
  induction reached generalizing g with
  | refl => exact ⟨g, .refl _ _⟩
  | @perform op next state middle final answer rest stepped later ih =>
      obtain ⟨h, reached⟩ := ih (observe op answer state g)
      refine ⟨h, .perform (monitored_step.2 ⟨stepped, rfl⟩) reached⟩
  | invoke later ih =>
      obtain ⟨h, reached⟩ := ih g
      exact ⟨h, .invoke reached⟩

/-- Writes down what it notes of every operation and the state before it. -/
def Machine.logging (M : Machine S σ) (note : S.Op → σ → List γ) : Machine S (σ × List γ) :=
  M.monitored fun op _ state log => log ++ note op state

/-- What is noted of an operation is in the log of the finished run. -/
theorem noted_of_performs {note : S.Op → σ → List γ} {p : Program S α} {op : S.Op}
    {s t before : σ} {v : α} {log final : List γ} (performed : M.Performs p s op before)
    (run : (M.logging note).Runs p (s, log) v (t, final)) : ∀ x ∈ note op before, x ∈ final := by
  intro x mem
  obtain ⟨next, reached⟩ := performed
  have watched : ∃ h, (M.logging note).Reaches p (s, log) (.perform op next) (before, h) :=
    reaches_monitored reached log
  obtain ⟨h, watched⟩ := watched
  obtain ⟨answer, middle, stepped, rest⟩ := runs_perform.1 ((reaches_runs_iff watched).1 run)
  have noted : x ∈ middle.2 := by
    rw [(monitored_step.1 stepped).2]
    exact List.mem_append_right _ mem
  have keeps : ∀ op u answer after, x ∈ u.2 → True →
      (M.logging note).step op u = some (answer, after) → x ∈ after.2 := by
    intro op u answer after held _ stepped
    rw [(monitored_step.1 stepped).2]
    exact List.mem_append_left _ held
  exact guarded_invariant (fun _ _ => True) keeps (reaches_done_of_runs rest)
    (fun _ _ _ => trivial) noted

end Monitors

end BearLang.CallPrograms
