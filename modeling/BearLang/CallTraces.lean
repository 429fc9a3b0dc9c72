import BearLang.ProgramReachability

/-!
# Traces of calls

A trace lists some of the calls that a run makes, in order, with the states before
and after. Which calls are listed, and which are gone into, is up to a mode for
each call. A program that makes no listed call has an empty trace, so the trace of a
program is read off its text from call to call.
-/

namespace BearLang.CallPrograms

set_option autoImplicit false

open Program

inductive Mode where
  | enter
  | note
  | pass
deriving DecidableEq

structure Visit (S : Signature) (σ : Type) where
  call : S.Call
  before : σ
  answer : S.CallAnswer call
  after : σ

variable {S : Signature} {σ α β : Type}

section Traces

/-- The run of the program from one state to the other, with its result and the
calls that are noted. -/
inductive Machine.Traced (M : Machine S σ) (mode : S.Call → Mode) :
    {α : Type} → Program S α → σ → List (Visit S σ) → α → σ → Prop where
  | done {α : Type} (value : α) (state : σ) : M.Traced mode (.done value) state [] value state
  | perform {α : Type} {op : S.Op} {next : S.OpAnswer op → Program S α} {state middle final : σ}
      {answer : S.OpAnswer op} {visits : List (Visit S σ)} {value : α}
      (stepped : M.step op state = some (answer, middle))
      (rest : M.Traced mode (next answer) middle visits value final) :
      M.Traced mode (.perform op next) state visits value final
  | enter {α : Type} {call : S.Call} {next : S.CallAnswer call → Program S α}
      {state middle final : σ} {answer : S.CallAnswer call} {inner outer : List (Visit S σ)}
      {value : α} (enters : mode call = .enter)
      (called : M.Traced mode (M.body call) state inner answer middle)
      (rest : M.Traced mode (next answer) middle outer value final) :
      M.Traced mode (.invoke call next) state (inner ++ outer) value final
  | note {α : Type} {call : S.Call} {next : S.CallAnswer call → Program S α}
      {state middle final : σ} {answer : S.CallAnswer call} {visits : List (Visit S σ)} {value : α}
      (notes : mode call = .note) (called : M.Runs (M.body call) state answer middle)
      (rest : M.Traced mode (next answer) middle visits value final) :
      M.Traced mode (.invoke call next) state (⟨call, state, answer, middle⟩ :: visits) value final
  | pass {α : Type} {call : S.Call} {next : S.CallAnswer call → Program S α}
      {state middle final : σ} {answer : S.CallAnswer call} {visits : List (Visit S σ)} {value : α}
      (passes : mode call = .pass) (called : M.Runs (M.body call) state answer middle)
      (rest : M.Traced mode (next answer) middle visits value final) :
      M.Traced mode (.invoke call next) state visits value final

/-- A noted call has the run that is noted. -/
theorem traced_visit_runs {M : Machine S σ} {mode : S.Call → Mode} {program : Program S α}
    {state final : σ} {visits : List (Visit S σ)} {value : α}
    (traced : M.Traced mode program state visits value final) :
    ∀ visit ∈ visits, M.Runs (M.body visit.call) visit.before visit.answer visit.after := by
  induction traced with
  | done => simp
  | perform _ _ ih => exact ih
  | enter _ _ _ inside after =>
      intro visit mem
      rcases List.mem_append.1 mem with inner | outer
      · exact inside visit inner
      · exact after visit outer
  | note _ called _ ih => exact List.forall_mem_cons.2 ⟨called, ih⟩
  | pass _ _ _ ih => exact ih

end Traces

section Rules

variable {M : Machine S σ} {mode : S.Call → Mode} {state final : σ} {visits : List (Visit S σ)}

theorem traced_done {value result : α} :
    M.Traced mode (done value) state visits result final ↔
      visits = [] ∧ value = result ∧ state = final := by
  constructor
  · intro traced
    cases traced
    exact ⟨rfl, rfl, rfl⟩
  · rintro ⟨rfl, rfl, rfl⟩
    exact .done _ _

theorem traced_perform {op : S.Op} {next : S.OpAnswer op → Program S α} {value : α} :
    M.Traced mode (perform op next) state visits value final ↔
      ∃ answer middle, M.step op state = some (answer, middle) ∧
        M.Traced mode (next answer) middle visits value final := by
  constructor
  · intro traced
    cases traced with
    | perform stepped rest => exact ⟨_, _, stepped, rest⟩
  · rintro ⟨answer, middle, stepped, rest⟩
    exact .perform stepped rest

theorem traced_enter {call : S.Call} {next : S.CallAnswer call → Program S α} {value : α}
    (enters : mode call = .enter) :
    M.Traced mode (invoke call next) state visits value final ↔
      ∃ answer middle inner outer, M.Traced mode (M.body call) state inner answer middle ∧
        M.Traced mode (next answer) middle outer value final ∧ visits = inner ++ outer := by
  constructor
  · intro traced
    cases traced with
    | enter _ called rest => exact ⟨_, _, _, _, called, rest, rfl⟩
    | note notes => exact nomatch enters.symm.trans notes
    | pass passes => exact nomatch enters.symm.trans passes
  · rintro ⟨answer, middle, inner, outer, called, rest, rfl⟩
    exact .enter enters called rest

theorem traced_note {call : S.Call} {next : S.CallAnswer call → Program S α} {value : α}
    (notes : mode call = .note) :
    M.Traced mode (invoke call next) state visits value final ↔
      ∃ answer middle rest, M.Runs (M.body call) state answer middle ∧
        M.Traced mode (next answer) middle rest value final ∧
        visits = ⟨call, state, answer, middle⟩ :: rest := by
  constructor
  · intro traced
    cases traced with
    | enter enters => exact nomatch notes.symm.trans enters
    | note _ called rest => exact ⟨_, _, _, called, rest, rfl⟩
    | pass passes => exact nomatch notes.symm.trans passes
  · rintro ⟨answer, middle, rest, called, later, rfl⟩
    exact .note notes called later

theorem traced_pass {call : S.Call} {next : S.CallAnswer call → Program S α} {value : α}
    (passes : mode call = .pass) :
    M.Traced mode (invoke call next) state visits value final ↔
      ∃ answer middle, M.Runs (M.body call) state answer middle ∧
        M.Traced mode (next answer) middle visits value final := by
  constructor
  · intro traced
    cases traced with
    | enter enters => exact nomatch passes.symm.trans enters
    | note notes => exact nomatch passes.symm.trans notes
    | pass _ called rest => exact ⟨_, _, called, rest⟩
  · rintro ⟨answer, middle, called, rest⟩
    exact .pass passes called rest

theorem traced_bind {program : Program S α} {f : α → Program S β} {result : β} :
    M.Traced mode (program >>= f) state visits result final ↔
      ∃ value middle first second, M.Traced mode program state first value middle ∧
        M.Traced mode (f value) middle second result final ∧ visits = first ++ second := by
  induction program generalizing state visits with
  | done value =>
      simp only [done_bind, traced_done]
      constructor
      · intro traced
        exact ⟨value, state, [], visits, ⟨rfl, rfl, rfl⟩, traced, rfl⟩
      · rintro ⟨_, _, _, second, ⟨rfl, rfl, rfl⟩, traced, rfl⟩
        exact traced
  | perform op next ih =>
      simp only [perform_bind, traced_perform, ih]
      constructor
      · rintro ⟨answer, m, stepped, value, middle, first, second, one, two, rfl⟩
        exact ⟨value, middle, first, second, ⟨answer, m, stepped, one⟩, two, rfl⟩
      · rintro ⟨value, middle, first, second, ⟨answer, m, stepped, one⟩, two, rfl⟩
        exact ⟨answer, m, stepped, value, middle, first, second, one, two, rfl⟩
  | invoke call next ih =>
      rw [invoke_bind]
      cases kind : mode call with
      | enter =>
          simp only [traced_enter kind, ih]
          constructor
          · rintro ⟨answer, m, inner, _, called, ⟨value, middle, first, second, one, two, rfl⟩, rfl⟩
            exact ⟨value, middle, inner ++ first, second, ⟨answer, m, inner, first, called, one, rfl⟩,
              two, (List.append_assoc _ _ _).symm⟩
          · rintro ⟨value, middle, _, second, ⟨answer, m, inner, first, called, one, rfl⟩, two, rfl⟩
            exact ⟨answer, m, inner, first ++ second, called, ⟨value, middle, first, second, one, two,
              rfl⟩, List.append_assoc _ _ _⟩
      | note =>
          simp only [traced_note kind, ih]
          constructor
          · rintro ⟨answer, m, _, called, ⟨value, middle, first, second, one, two, rfl⟩, rfl⟩
            exact ⟨value, middle, _ :: first, second, ⟨answer, m, first, called, one, rfl⟩, two, rfl⟩
          · rintro ⟨value, middle, _, second, ⟨answer, m, first, called, one, rfl⟩, two, rfl⟩
            exact ⟨answer, m, first ++ second, called, ⟨value, middle, first, second, one, two, rfl⟩,
              rfl⟩
      | pass =>
          simp only [traced_pass kind, ih]
          constructor
          · rintro ⟨answer, m, called, value, middle, first, second, one, two, rfl⟩
            exact ⟨value, middle, first, second, ⟨answer, m, called, one⟩, two, rfl⟩
          · rintro ⟨value, middle, first, second, ⟨answer, m, called, one⟩, two, rfl⟩
            exact ⟨answer, m, called, value, middle, first, second, one, two, rfl⟩

theorem runs_of_traced {program : Program S α} {value : α}
    (traced : M.Traced mode program state visits value final) : M.Runs program state value final := by
  induction traced with
  | done value state => exact runs_done.2 ⟨rfl, rfl⟩
  | perform stepped _ ih => exact runs_perform.2 ⟨_, _, stepped, ih⟩
  | enter _ _ _ called ih => exact runs_invoke.2 ⟨_, _, called, ih⟩
  | note _ called _ ih => exact runs_invoke.2 ⟨_, _, called, ih⟩
  | pass _ called _ ih => exact runs_invoke.2 ⟨_, _, called, ih⟩

theorem traced_of_run_with {fuel : Nat} (inside : ∀ call state answer middle,
    M.exec fuel call state = .returned answer middle →
      ∃ visits, M.Traced mode (M.body call) state visits answer middle) (program : Program S α)
    {value : α} (run : runWith M.step (M.exec fuel) program state = .returned value final) :
    ∃ visits, M.Traced mode program state visits value final := by
  induction program generalizing state with
  | done result =>
      cases run
      exact ⟨[], .done _ _⟩
  | perform op next ih =>
      simp only [runWith] at run
      cases stepped : M.step op state with
      | none => simp [stepped] at run
      | some pair =>
          simp only [stepped] at run
          obtain ⟨visits, rest⟩ := ih pair.1 run
          exact ⟨visits, .perform stepped rest⟩
  | invoke call next ih =>
      simp only [runWith] at run
      cases answered : M.exec fuel call state with
      | returned answer middle =>
          simp only [answered] at run
          obtain ⟨outer, rest⟩ := ih answer run
          obtain ⟨inner, called⟩ := inside call state answer middle answered
          have whole := runs_of_traced called
          cases kind : mode call with
          | enter => exact ⟨_, .enter kind called rest⟩
          | note => exact ⟨_, .note kind whole rest⟩
          | pass => exact ⟨_, .pass kind whole rest⟩
      | fault => simp [answered] at run
      | outOfFuel => simp [answered] at run

theorem traced_of_runs (mode : S.Call → Mode) {program : Program S α} {value : α}
    (run : M.Runs program state value final) :
    ∃ visits, M.Traced mode program state visits value final := by
  have inside : ∀ fuel call state answer middle,
      M.exec fuel call state = .returned answer middle →
        ∃ visits, M.Traced mode (M.body call) state visits answer middle := by
    intro fuel
    induction fuel with
    | zero => exact fun _ _ _ _ answered => nomatch answered
    | succ fuel ih =>
        exact fun call _ _ _ answered => traced_of_run_with ih (M.body call) answered
  obtain ⟨fuel, run⟩ := run
  exact traced_of_run_with (inside fuel) program run

/-- A program has one trace, one result and one final state. -/
theorem traced_functional {program : Program S α} {value value' : α} {final' : σ}
    {visits' : List (Visit S σ)} (first : M.Traced mode program state visits value final)
    (second : M.Traced mode program state visits' value' final') :
    visits = visits' ∧ value = value' ∧ final = final' := by
  induction first generalizing visits' final' with
  | done value state =>
      obtain ⟨rfl, rfl, rfl⟩ := traced_done.1 second
      exact ⟨rfl, rfl, rfl⟩
  | perform stepped _ ih =>
      obtain ⟨answer, middle, stepped', rest⟩ := traced_perform.1 second
      rw [stepped] at stepped'
      cases stepped'
      exact ih rest
  | enter enters _ _ ih ih' =>
      obtain ⟨answer, middle, inner, outer, called, rest, rfl⟩ := (traced_enter enters).1 second
      obtain ⟨rfl, rfl, rfl⟩ := ih called
      obtain ⟨rfl, rfl, rfl⟩ := ih' rest
      exact ⟨rfl, rfl, rfl⟩
  | note notes called _ ih =>
      obtain ⟨answer, middle, rest, called', later, rfl⟩ := (traced_note notes).1 second
      obtain ⟨rfl, rfl⟩ := runs_functional called called'
      obtain ⟨rfl, rfl, rfl⟩ := ih later
      exact ⟨rfl, rfl, rfl⟩
  | pass passes called _ ih =>
      obtain ⟨answer, middle, called', rest⟩ := (traced_pass passes).1 second
      obtain ⟨rfl, rfl⟩ := runs_functional called called'
      exact ih rest

/-- The calls of the program are neither noted nor gone into. -/
def Program.Silent (mode : S.Call → Mode) : Program S α → Prop
  | done _ => True
  | perform _ next => ∀ answer, (next answer).Silent mode
  | invoke call next => mode call = .pass ∧ ∀ answer, (next answer).Silent mode

theorem silent_bind {program : Program S α} {f : α → Program S β} (first : program.Silent mode)
    (rest : ∀ value, (f value).Silent mode) : (program >>= f).Silent mode := by
  induction program with
  | done value => exact rest value
  | perform op next ih => exact fun answer => ih answer (first answer)
  | invoke call next ih => exact ⟨first.1, fun answer => ih answer (first.2 answer)⟩

/-- A contract that allows no other calls shows it. -/
theorem silent_of_meets {K : Contract S} (calls : ∀ call, K.call call → mode call = .pass)
    (ops : ∀ op answer, K.opAnswer op answer) (answers : ∀ call answer, K.callAnswer call answer)
    {program : Program S α} {post : α → Prop} (meets : program.Meets K post) :
    program.Silent mode := by
  induction program with
  | done value => trivial
  | perform op next ih => exact fun answer => ih answer (meets.2 answer (ops op answer))
  | invoke call next ih =>
      exact ⟨calls call meets.1, fun answer => ih answer (meets.2 answer (answers call answer))⟩

theorem silent_trace {program : Program S α} (silent : program.Silent mode) {value : α}
    (traced : M.Traced mode program state visits value final) : visits = [] := by
  induction program generalizing state visits with
  | done result => exact (traced_done.1 traced).1
  | perform op next ih =>
      obtain ⟨answer, middle, _, rest⟩ := traced_perform.1 traced
      exact ih answer (silent answer) rest
  | invoke call next ih =>
      obtain ⟨answer, middle, _, rest⟩ := (traced_pass silent.1).1 traced
      exact ih answer (silent.2 answer) rest

/-- The rule for a sequence whose first part has a known run and no trace. -/
theorem traced_after {program : Program S α} {f : α → Program S β} {value : α} {middle : σ}
    {result : β} (silent : program.Silent mode) (run : M.Runs program state value middle) :
    M.Traced mode (program >>= f) state visits result final ↔
      M.Traced mode (f value) middle visits result final := by
  rw [traced_bind]
  constructor
  · rintro ⟨a, m, first, second, one, two, rfl⟩
    have nothing := silent_trace silent one
    subst nothing
    obtain ⟨rfl, rfl⟩ := runs_functional (runs_of_traced one) run
    exact two
  · intro rest
    obtain ⟨first, traced⟩ := traced_of_runs mode run
    have nothing := silent_trace silent traced
    subst nothing
    exact ⟨value, middle, [], visits, traced, rest, rfl⟩

theorem traced_silent {program : Program S α} {f : α → Program S β} {result : β}
    (silent : program.Silent mode) :
    M.Traced mode (program >>= f) state visits result final ↔
      ∃ value middle, M.Runs program state value middle ∧
        M.Traced mode (f value) middle visits result final := by
  constructor
  · intro traced
    obtain ⟨value, middle, first, second, one, two, rfl⟩ := traced_bind.1 traced
    have nothing := silent_trace silent one
    subst nothing
    exact ⟨value, middle, runs_of_traced one, two⟩
  · rintro ⟨value, middle, run, rest⟩
    exact (traced_after silent run).2 rest

end Rules

section Paths

variable {mode : S.Call → Mode} {K : Contract S} {invariant : σ → Prop} {rel : σ → σ → Prop}

/-- What the operations of a trace, the calls that are gone into and those that are
passed over keep to: an invariant, and a relation between earlier and later states. -/
structure Machine.Keeps (M : Machine S σ) (mode : S.Call → Mode) (K : Contract S)
    (invariant : σ → Prop) (rel : σ → σ → Prop) : Prop where
  refl : ∀ s, rel s s
  trans : ∀ {s t u}, rel s t → rel t u → rel s u
  honours : ∀ call, mode call = .enter → K.call call → (M.body call).Meets K (K.callAnswer call)
  steps : ∀ op state answer final, invariant state → K.op op →
    M.step op state = some (answer, final) →
      K.opAnswer op answer ∧ invariant final ∧ rel state final
  passed : ∀ call state answer final, mode call = .pass → K.call call → invariant state →
    M.Runs (M.body call) state answer final →
      K.callAnswer call answer ∧ invariant final ∧ rel state final

/-- The invariant and the relation are kept along the whole trace if the noted calls
keep them. -/
theorem traced_path {M : Machine S σ} (keeps : M.Keeps mode K invariant rel)
    {program : Program S α} {state final : σ} {visits : List (Visit S σ)} {value : α}
    (traced : M.Traced mode program state visits value final)
    (noted : ∀ visit ∈ visits, K.call visit.call → invariant visit.before →
      M.Runs (M.body visit.call) visit.before visit.answer visit.after →
        K.callAnswer visit.call visit.answer ∧ invariant visit.after ∧
          rel visit.before visit.after)
    {post : α → Prop} (start : invariant state) (meets : program.Meets K post) :
    post value ∧ invariant final ∧ rel state final ∧
      ∀ visit ∈ visits, rel state visit.after ∧ rel visit.after final := by
  induction traced with
  | done value state => exact ⟨meets, start, keeps.refl _, fun visit mem => nomatch mem⟩
  | perform stepped _ ih =>
      obtain ⟨answered, here, first⟩ := keeps.steps _ _ _ _ start meets.1 stepped
      obtain ⟨held, ends, later, each⟩ := ih noted here (meets.2 _ answered)
      refine ⟨held, ends, keeps.trans first later, fun visit mem => ?_⟩
      exact ⟨keeps.trans first (each visit mem).1, (each visit mem).2⟩
  | enter enters _ _ inside after =>
      obtain ⟨answered, here, first, each⟩ := inside
        (fun visit mem => noted visit (List.mem_append_left _ mem)) start
        (keeps.honours _ enters meets.1)
      obtain ⟨held, ends, later, each'⟩ := after
        (fun visit mem => noted visit (List.mem_append_right _ mem)) here (meets.2 _ answered)
      refine ⟨held, ends, keeps.trans first later, fun visit mem => ?_⟩
      rcases List.mem_append.1 mem with inner | outer
      · exact ⟨(each visit inner).1, keeps.trans (each visit inner).2 later⟩
      · exact ⟨keeps.trans first (each' visit outer).1, (each' visit outer).2⟩
  | note _ called _ ih =>
      obtain ⟨answered, here, first⟩ := noted _ List.mem_cons_self meets.1 start called
      obtain ⟨held, ends, later, each⟩ := ih
        (fun visit mem => noted visit (List.mem_cons_of_mem _ mem)) here (meets.2 _ answered)
      refine ⟨held, ends, keeps.trans first later, fun visit mem => ?_⟩
      rcases List.mem_cons.1 mem with rfl | mem
      · exact ⟨first, later⟩
      · exact ⟨keeps.trans first (each visit mem).1, (each visit mem).2⟩
  | pass passes called _ ih =>
      obtain ⟨answered, here, first⟩ := keeps.passed _ _ _ _ passes meets.1 start called
      obtain ⟨held, ends, later, each⟩ := ih noted here (meets.2 _ answered)
      refine ⟨held, ends, keeps.trans first later, fun visit mem => ?_⟩
      exact ⟨keeps.trans first (each visit mem).1, (each visit mem).2⟩

end Paths

section Prefixes

variable {M : Machine S σ} {mode : S.Call → Mode} {state final : σ} {before later : List (Visit S σ)}
  {visit : Visit S σ}

/-- The run of the program gets through the visits `before` and then through `visit`,
whether or not it comes back after that. -/
inductive Machine.Makes (M : Machine S σ) (mode : S.Call → Mode) :
    {α : Type} → Program S α → σ → List (Visit S σ) → Visit S σ → Prop where
  | perform {α : Type} {op : S.Op} {next : S.OpAnswer op → Program S α} {state middle : σ}
      {answer : S.OpAnswer op} {before : List (Visit S σ)} {visit : Visit S σ}
      (stepped : M.step op state = some (answer, middle))
      (rest : M.Makes mode (next answer) middle before visit) :
      M.Makes mode (.perform op next) state before visit
  | inside {α : Type} {call : S.Call} {next : S.CallAnswer call → Program S α} {state : σ}
      {before : List (Visit S σ)} {visit : Visit S σ} (enters : mode call = .enter)
      (called : M.Makes mode (M.body call) state before visit) :
      M.Makes mode (.invoke call next) state before visit
  | enter {α : Type} {call : S.Call} {next : S.CallAnswer call → Program S α} {state middle : σ}
      {answer : S.CallAnswer call} {inner outer : List (Visit S σ)} {visit : Visit S σ}
      (enters : mode call = .enter)
      (called : M.Traced mode (M.body call) state inner answer middle)
      (rest : M.Makes mode (next answer) middle outer visit) :
      M.Makes mode (.invoke call next) state (inner ++ outer) visit
  | here {α : Type} {call : S.Call} {next : S.CallAnswer call → Program S α} {state middle : σ}
      {answer : S.CallAnswer call} (notes : mode call = .note)
      (called : M.Runs (M.body call) state answer middle) :
      M.Makes mode (.invoke call next) state [] ⟨call, state, answer, middle⟩
  | note {α : Type} {call : S.Call} {next : S.CallAnswer call → Program S α} {state middle : σ}
      {answer : S.CallAnswer call} {before : List (Visit S σ)} {visit : Visit S σ}
      (notes : mode call = .note) (called : M.Runs (M.body call) state answer middle)
      (rest : M.Makes mode (next answer) middle before visit) :
      M.Makes mode (.invoke call next) state (⟨call, state, answer, middle⟩ :: before) visit
  | pass {α : Type} {call : S.Call} {next : S.CallAnswer call → Program S α} {state middle : σ}
      {answer : S.CallAnswer call} {before : List (Visit S σ)} {visit : Visit S σ}
      (passes : mode call = .pass) (called : M.Runs (M.body call) state answer middle)
      (rest : M.Makes mode (next answer) middle before visit) :
      M.Makes mode (.invoke call next) state before visit

theorem makes_done {value : α} : ¬ M.Makes mode (done value) state before visit := by
  intro made
  cases made

theorem makes_perform {op : S.Op} {next : S.OpAnswer op → Program S α} :
    M.Makes mode (perform op next) state before visit ↔
      ∃ answer middle, M.step op state = some (answer, middle) ∧
        M.Makes mode (next answer) middle before visit := by
  constructor
  · intro made
    cases made with
    | perform stepped rest => exact ⟨_, _, stepped, rest⟩
  · rintro ⟨answer, middle, stepped, rest⟩
    exact .perform stepped rest

theorem makes_enter {call : S.Call} {next : S.CallAnswer call → Program S α}
    (enters : mode call = .enter) :
    M.Makes mode (invoke call next) state before visit ↔
      M.Makes mode (M.body call) state before visit ∨
        ∃ answer middle inner outer, M.Traced mode (M.body call) state inner answer middle ∧
          M.Makes mode (next answer) middle outer visit ∧ before = inner ++ outer := by
  constructor
  · intro made
    cases made with
    | inside _ called => exact .inl called
    | enter _ called rest => exact .inr ⟨_, _, _, _, called, rest, rfl⟩
    | here notes => exact nomatch enters.symm.trans notes
    | note notes => exact nomatch enters.symm.trans notes
    | pass passes => exact nomatch enters.symm.trans passes
  · rintro (called | ⟨answer, middle, inner, outer, called, rest, rfl⟩)
    · exact .inside enters called
    · exact .enter enters called rest

theorem makes_note {call : S.Call} {next : S.CallAnswer call → Program S α}
    (notes : mode call = .note) :
    M.Makes mode (invoke call next) state before visit ↔
      ∃ answer middle, M.Runs (M.body call) state answer middle ∧
        (before = [] ∧ visit = ⟨call, state, answer, middle⟩ ∨
          ∃ rest, M.Makes mode (next answer) middle rest visit ∧
            before = ⟨call, state, answer, middle⟩ :: rest) := by
  constructor
  · intro made
    cases made with
    | inside enters => exact nomatch notes.symm.trans enters
    | enter enters => exact nomatch notes.symm.trans enters
    | here _ called => exact ⟨_, _, called, .inl ⟨rfl, rfl⟩⟩
    | note _ called rest => exact ⟨_, _, called, .inr ⟨_, rest, rfl⟩⟩
    | pass passes => exact nomatch notes.symm.trans passes
  · rintro ⟨answer, middle, called, ⟨rfl, rfl⟩ | ⟨rest, later, rfl⟩⟩
    · exact .here notes called
    · exact .note notes called later

theorem makes_pass {call : S.Call} {next : S.CallAnswer call → Program S α}
    (passes : mode call = .pass) :
    M.Makes mode (invoke call next) state before visit ↔
      ∃ answer middle, M.Runs (M.body call) state answer middle ∧
        M.Makes mode (next answer) middle before visit := by
  constructor
  · intro made
    cases made with
    | inside enters => exact nomatch passes.symm.trans enters
    | enter enters => exact nomatch passes.symm.trans enters
    | here notes => exact nomatch passes.symm.trans notes
    | note notes => exact nomatch passes.symm.trans notes
    | pass _ called rest => exact ⟨_, _, called, rest⟩
  · rintro ⟨answer, middle, called, rest⟩
    exact .pass passes called rest

/-- The visit is made by the first part, or the first part comes back and it is made
by the second. -/
theorem makes_bind {program : Program S α} {f : α → Program S β} :
    M.Makes mode (program >>= f) state before visit ↔ M.Makes mode program state before visit ∨
      ∃ value middle first second, M.Traced mode program state first value middle ∧
        M.Makes mode (f value) middle second visit ∧ before = first ++ second := by
  induction program generalizing state before with
  | done value =>
      constructor
      · intro made
        exact .inr ⟨value, state, [], before, .done _ _, made, rfl⟩
      · rintro (made | ⟨_, _, _, second, traced, made, rfl⟩)
        · exact absurd made makes_done
        · obtain ⟨rfl, rfl, rfl⟩ := traced_done.1 traced
          exact made
  | perform op next ih =>
      simp only [perform_bind, makes_perform, traced_perform, ih]
      constructor
      · rintro ⟨answer, m, stepped, made | ⟨value, middle, first, second, one, two, rfl⟩⟩
        · exact .inl ⟨answer, m, stepped, made⟩
        · exact .inr ⟨value, middle, first, second, ⟨answer, m, stepped, one⟩, two, rfl⟩
      · rintro (⟨answer, m, stepped, made⟩ |
          ⟨value, middle, first, second, ⟨answer, m, stepped, one⟩, two, rfl⟩)
        · exact ⟨answer, m, stepped, .inl made⟩
        · exact ⟨answer, m, stepped, .inr ⟨value, middle, first, second, one, two, rfl⟩⟩
  | invoke call next ih =>
      rw [invoke_bind]
      cases kind : mode call with
      | enter =>
          simp only [makes_enter kind, traced_enter kind, ih]
          constructor
          · rintro (made | ⟨answer, m, inner, outer, called,
              made | ⟨value, middle, first, second, one, two, rfl⟩, rfl⟩)
            · exact .inl (.inl made)
            · exact .inl (.inr ⟨answer, m, inner, outer, called, made, rfl⟩)
            · exact .inr ⟨value, middle, inner ++ first, second,
                ⟨answer, m, inner, first, called, one, rfl⟩, two, (List.append_assoc _ _ _).symm⟩
          · rintro ((made | ⟨answer, m, inner, outer, called, made, rfl⟩) |
              ⟨value, middle, _, second, ⟨answer, m, inner, first, called, one, rfl⟩, two, rfl⟩)
            · exact .inl made
            · exact .inr ⟨answer, m, inner, outer, called, .inl made, rfl⟩
            · exact .inr ⟨answer, m, inner, first ++ second, called,
                .inr ⟨value, middle, first, second, one, two, rfl⟩, List.append_assoc _ _ _⟩
      | note =>
          simp only [makes_note kind, traced_note kind, ih]
          constructor
          · rintro ⟨answer, m, called, ⟨rfl, rfl⟩ | ⟨rest,
              made | ⟨value, middle, first, second, one, two, rfl⟩, rfl⟩⟩
            · exact .inl ⟨answer, m, called, .inl ⟨rfl, rfl⟩⟩
            · exact .inl ⟨answer, m, called, .inr ⟨rest, made, rfl⟩⟩
            · exact .inr ⟨value, middle, _ :: first, second, ⟨answer, m, first, called, one, rfl⟩,
                two, rfl⟩
          · rintro (⟨answer, m, called, ⟨rfl, rfl⟩ | ⟨rest, made, rfl⟩⟩ |
              ⟨value, middle, _, second, ⟨answer, m, first, called, one, rfl⟩, two, rfl⟩)
            · exact ⟨answer, m, called, .inl ⟨rfl, rfl⟩⟩
            · exact ⟨answer, m, called, .inr ⟨rest, .inl made, rfl⟩⟩
            · exact ⟨answer, m, called, .inr ⟨first ++ second,
                .inr ⟨value, middle, first, second, one, two, rfl⟩, rfl⟩⟩
      | pass =>
          simp only [makes_pass kind, traced_pass kind, ih]
          constructor
          · rintro ⟨answer, m, called, made | ⟨value, middle, first, second, one, two, rfl⟩⟩
            · exact .inl ⟨answer, m, called, made⟩
            · exact .inr ⟨value, middle, first, second, ⟨answer, m, called, one⟩, two, rfl⟩
          · rintro (⟨answer, m, called, made⟩ |
              ⟨value, middle, first, second, ⟨answer, m, called, one⟩, two, rfl⟩)
            · exact ⟨answer, m, called, .inl made⟩
            · exact ⟨answer, m, called, .inr ⟨value, middle, first, second, one, two, rfl⟩⟩

theorem silent_makes_nothing {program : Program S α} (silent : program.Silent mode) :
    ¬ M.Makes mode program state before visit := by
  induction program generalizing state with
  | done value => exact makes_done
  | perform op next ih =>
      intro made
      obtain ⟨answer, middle, _, rest⟩ := makes_perform.1 made
      exact ih answer (silent answer) rest
  | invoke call next ih =>
      intro made
      obtain ⟨answer, middle, _, rest⟩ := (makes_pass silent.1).1 made
      exact ih answer (silent.2 answer) rest

theorem makes_silent {program : Program S α} {f : α → Program S β} (silent : program.Silent mode) :
    M.Makes mode (program >>= f) state before visit ↔
      ∃ value middle, M.Runs program state value middle ∧
        M.Makes mode (f value) middle before visit := by
  rw [makes_bind]
  constructor
  · rintro (made | ⟨value, middle, first, second, one, two, rfl⟩)
    · exact absurd made (silent_makes_nothing silent)
    · have nothing := silent_trace silent one
      subst nothing
      exact ⟨value, middle, runs_of_traced one, two⟩
  · rintro ⟨value, middle, run, rest⟩
    obtain ⟨first, traced⟩ := traced_of_runs mode run
    have nothing := silent_trace silent traced
    subst nothing
    exact .inr ⟨value, middle, [], before, traced, rest, rfl⟩

/-- A run makes the visits of its trace. -/
theorem makes_of_traced {program : Program S α} {value : α} {visits : List (Visit S σ)}
    (traced : M.Traced mode program state visits value final)
    (same : visits = before ++ visit :: later) : M.Makes mode program state before visit := by
  induction traced generalizing before later with
  | done value state => simp at same
  | perform stepped _ ih => exact .perform stepped (ih same)
  | enter enters called _ inside after =>
      rcases List.append_eq_append_iff.1 same with ⟨outer, rfl, behind⟩ | ⟨inner, ahead, tail⟩
      · exact .enter enters called (after behind)
      · cases inner with
        | nil =>
            rw [List.append_nil] at ahead
            subst ahead
            have whole := Machine.Makes.enter enters called (@after [] _ tail.symm)
            rwa [List.append_nil] at whole
        | cons first inner =>
            rw [List.cons_append] at tail
            obtain ⟨rfl, _⟩ := List.cons.inj tail
            exact .inside enters (inside ahead)
  | note notes called _ ih =>
      cases before with
      | nil =>
          obtain ⟨rfl, rfl⟩ := List.cons.inj same
          exact .here notes called
      | cons first before =>
          obtain ⟨rfl, behind⟩ := List.cons.inj same
          exact .note notes called (ih behind)
  | pass passes called _ ih => exact .pass passes called (ih same)

/-- The visits that a run makes begin its trace. -/
theorem trace_of_makes {program : Program S α} (made : M.Makes mode program state before visit)
    {visits : List (Visit S σ)} {value : α}
    (traced : M.Traced mode program state visits value final) :
    ∃ later, visits = before ++ visit :: later := by
  induction made generalizing visits final with
  | perform stepped _ ih =>
      obtain ⟨answer, middle, stepped', rest⟩ := traced_perform.1 traced
      rw [stepped] at stepped'
      cases stepped'
      exact ih rest
  | inside enters _ ih =>
      obtain ⟨_, _, inner, outer, called, _, rfl⟩ := (traced_enter enters).1 traced
      obtain ⟨later, rfl⟩ := ih called
      exact ⟨later ++ outer, List.append_assoc _ _ _⟩
  | enter enters called _ ih =>
      obtain ⟨_, _, _, _, called', rest, rfl⟩ := (traced_enter enters).1 traced
      obtain ⟨rfl, rfl, rfl⟩ := traced_functional called called'
      obtain ⟨later, rfl⟩ := ih rest
      exact ⟨later, (List.append_assoc _ _ _).symm⟩
  | here notes called =>
      obtain ⟨_, _, rest, called', _, rfl⟩ := (traced_note notes).1 traced
      obtain ⟨rfl, rfl⟩ := runs_functional called called'
      exact ⟨rest, rfl⟩
  | note notes called _ ih =>
      obtain ⟨_, _, _, called', rest, rfl⟩ := (traced_note notes).1 traced
      obtain ⟨rfl, rfl⟩ := runs_functional called called'
      obtain ⟨later, rfl⟩ := ih rest
      exact ⟨later, rfl⟩
  | pass passes called _ ih =>
      obtain ⟨_, _, called', rest⟩ := (traced_pass passes).1 traced
      obtain ⟨rfl, rfl⟩ := runs_functional called called'
      exact ih rest

theorem makes_noted {program : Program S α} (made : M.Makes mode program state before visit) :
    mode visit.call = .note := by
  induction made with
  | here notes => exact notes
  | perform _ _ ih => exact ih
  | inside _ _ ih => exact ih
  | enter _ _ _ ih => exact ih
  | note _ _ _ ih => exact ih
  | pass _ _ _ ih => exact ih

/-- The visits of a program are calls that its contract allows. -/
theorem makes_allowed {K : Contract S} {program : Program S α} {post : α → Prop}
    (honours : ∀ call, mode call = .enter → K.call call → (M.body call).Meets K (K.callAnswer call))
    (ops : ∀ op answer, K.opAnswer op answer) (answers : ∀ call answer, K.callAnswer call answer)
    (meets : program.Meets K post) (made : M.Makes mode program state before visit) :
    K.call visit.call := by
  induction made with
  | perform _ _ ih => exact ih (meets.2 _ (ops _ _))
  | inside enters _ ih => exact ih (honours _ enters meets.1)
  | enter _ _ _ ih => exact ih (meets.2 _ (answers _ _))
  | here => exact meets.1
  | note _ _ _ ih => exact ih (meets.2 _ (answers _ _))
  | pass _ _ _ ih => exact ih (meets.2 _ (answers _ _))

/-- Along its silent statements the program comes to one that has the property. -/
def Program.ComesTo (mode : S.Call → Mode) (P : Program S α → Prop) : Program S α → Prop
  | done value => P (done value)
  | perform op next => P (perform op next) ∨ ∀ answer, (next answer).ComesTo mode P
  | invoke call next =>
      P (invoke call next) ∨ mode call = .pass ∧ ∀ answer, (next answer).ComesTo mode P

theorem comes_here {P : Program S α → Prop} {program : Program S α} (here : P program) :
    program.ComesTo mode P := by
  cases program with
  | done value => exact here
  | perform op next => exact .inl here
  | invoke call next => exact .inl here

theorem comes_after {P : Program S β → Prop} {program : Program S α} {f : α → Program S β}
    (silent : program.Silent mode) (rest : ∀ value, (f value).ComesTo mode P) :
    (program >>= f).ComesTo mode P := by
  induction program with
  | done value => exact rest value
  | perform op next ih => exact .inr fun answer => ih answer (silent answer)
  | invoke call next ih => exact .inr ⟨silent.1, fun answer => ih answer (silent.2 answer)⟩

/-- A trace of the program is one of what it comes to. -/
theorem traced_comes {P : Program S α → Prop} {program : Program S α} {visits : List (Visit S σ)}
    {value : α} (comes : program.ComesTo mode P)
    (traced : M.Traced mode program state visits value final) :
    ∃ rest middle, P rest ∧ M.Traced mode rest middle visits value final := by
  induction program generalizing state with
  | done result => exact ⟨_, state, comes, traced⟩
  | perform op next ih =>
      rcases comes with here | comes
      · exact ⟨_, state, here, traced⟩
      · obtain ⟨answer, middle, _, later⟩ := traced_perform.1 traced
        exact ih answer (comes answer) later
  | invoke call next ih =>
      rcases comes with here | ⟨passes, comes⟩
      · exact ⟨_, state, here, traced⟩
      · obtain ⟨answer, middle, _, later⟩ := (traced_pass passes).1 traced
        exact ih answer (comes answer) later

/-- A visit of the program is made by what it comes to, and a trace of that is one of
the program. -/
theorem makes_comes {P : Program S α → Prop} {program : Program S α} (comes : program.ComesTo mode P)
    (made : M.Makes mode program state before visit) :
    ∃ rest middle, P rest ∧ M.Makes mode rest middle before visit ∧
      ∀ visits value final, M.Traced mode rest middle visits value final →
        M.Traced mode program state visits value final := by
  induction program generalizing state with
  | done result => exact ⟨_, state, comes, made, fun _ _ _ traced => traced⟩
  | perform op next ih =>
      rcases comes with here | comes
      · exact ⟨_, state, here, made, fun _ _ _ traced => traced⟩
      · obtain ⟨answer, middle, stepped, later⟩ := makes_perform.1 made
        obtain ⟨rest, m, held, made, whole⟩ := ih answer (comes answer) later
        exact ⟨rest, m, held, made, fun _ _ _ traced => .perform stepped (whole _ _ _ traced)⟩
  | invoke call next ih =>
      rcases comes with here | ⟨passes, comes⟩
      · exact ⟨_, state, here, made, fun _ _ _ traced => traced⟩
      · obtain ⟨answer, middle, called, later⟩ := (makes_pass passes).1 made
        obtain ⟨rest, m, held, made, whole⟩ := ih answer (comes answer) later
        exact ⟨rest, m, held, made, fun _ _ _ traced => .pass passes called (whole _ _ _ traced)⟩

end Prefixes

end BearLang.CallPrograms
