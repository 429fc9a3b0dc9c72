import BearLang.HeapRegions
import BearLang.VariableLookup

/-!
# Numbers that are shared

`inc` and `dec` step the number that a variable is bound to in its place.
Assignments, parameters and lists bind the number and make no copy of it, so
every other place that holds it is stepped, too. What nobody can reach any more, such
as the list of the arguments of a call that has bound them, does not count.
-/

namespace BearLang.SharedNumbers

open CallPrograms

set_option autoImplicit false

section Places

/-- Where a value is held: in the slot of a context, or as an element of a list,
which a literal of the program text is, too. -/
inductive Place where
  | slot (ctx : Ptr) (id : Nat)
  | element (cell : Ptr)
deriving DecidableEq, Repr

def Place.content (s : State) : Place → Option Ptr
  | .slot ctx id => (ctxAt s ctx).bind (·.vals[id]?)
  | .element p => (s.cell p).bind fun c => if c.type = .cons then some c.car else none

def number (s : State) (p : Ptr) : Option Int :=
  (s.cell p).bind fun c => if c.type = .number then c.iVal else none

/-- What can be reached from the roots along the pointers of the cells. -/
inductive Reached (s : State) (roots : List Ptr) : Ptr → Prop
  | root {p : Ptr} (given : p ∈ roots) : Reached s roots p
  | behind {p q : Ptr} {c : Cell} (reached : Reached s roots p) (known : s.cell p = some c)
      (points : q ∈ c.pointers) : Reached s roots q

def Place.Live (s : State) (roots : List Ptr) : Place → Prop
  | .slot ctx _ => Reached s roots ctx
  | .element p => Reached s roots p

/-- A set of addresses that holds the roots and is closed under the pointers of its cells
holds all that can be reached. -/
theorem reached_within {s : State} {roots : List Ptr} (inside : Nat → Prop)
    (first : ∀ a, Ptr.ref a ∈ roots → inside a)
    (closed : ∀ a c b, inside a → s.cell (.ref a) = some c → Ptr.ref b ∈ c.pointers → inside b)
    {p : Ptr} (reached : Reached s roots p) : ∀ a, p = .ref a → inside a := by
  induction reached with
  | root given =>
      intro a same
      apply first
      rwa [← same]
  | @behind p q c _ known points ih =>
      intro b same
      rcases State.ref_of_cell known with ⟨a, rfl⟩
      apply closed a c b (ih a rfl) known
      rwa [← same]

/-- The number that is read through a place. -/
def Place.reads (s : State) (place : Place) : Option Int := (place.content s).bind (number s)

/-- A value made by `bl_mk_number`. -/
def NumberAt (s : State) (a : Nat) (i : Int) : Prop :=
  ∃ c, s.cell (.ref a) = some c ∧ c.type = .number ∧ c.w1 = .mpz i

theorem number_read {s : State} {a : Nat} {i : Int} (held : NumberAt s a i) :
    number s (.ref a) = some i := by
  obtain ⟨c, known, type, word⟩ := held
  simp only [number, known, Option.bind_some, if_pos type, Cell.iVal, word]

end Places

section Steps

def stepOf : Builtin → Option Int
  | .inc => some 1
  | .dec => some (-1)
  | _ => none

/-- The expression is `(inc key)` or `(dec key)`. -/
structure StepCall (W : World) (ctx expr key : Ptr) (s : State) (by_ : Int) : Prop where
  call : ∃ h op code c, ListAt s [h, key] expr ∧ HeadValue W ctx h s op s ∧ s.cell op = some c ∧
    c.type = .operNative ∧ c.codePtr = some (.builtin code) ∧ stepOf code = some by_

/-- Evaluated, the call changes the number read through the variable by the step, and the
one read through no other place that can be reached from the context, from the expression
or from what else the run holds. -/
def StepsAlone (W : World) (site : Site) (ctx expr key : Ptr) (x : Place) (s : State)
    (by_ : Int) (else_ : List Ptr) : Prop :=
  ∃ v t i, (runtime W).Runs (blEval site ctx expr) s v t ∧
    (runtime W).Runs (blEval site ctx key) s v s ∧ number s v = some i ∧
    (runtime W).Runs (blEval site ctx key) t v t ∧ number t v = some (i + by_) ∧
    ∀ place : Place, place.Live s (ctx :: expr :: else_) → place ≠ x →
      place.reads t = place.reads s

/-- What the step leaves of the state: a cell other than the number keeps its type
and contents. -/
structure Stepped (s t : State) (a : Nat) (i : Int) : Prop where
  others : ∀ p, p ≠ .ref a → (t.cell p).map (fun c => (c.type, c.w0, c.w1, c.tail)) =
    (s.cell p).map fun c => (c.type, c.w0, c.w1, c.tail)
  number : ∃ c d, s.cell (.ref a) = some c ∧ t.cell (.ref a) = some d ∧ c.type = .number ∧
    d.type = .number ∧ d.tail = c.tail ∧ d.w1 = .mpz i
  table : t.symbolTable = s.symbolTable

variable {W : World} {s t : State} {ctx expr key : Ptr} {a : Nat} {i by_ : Int}

theorem step_variable_runs (by_ : Int) {params : Ptr} {p : Cell} {n id : Nat}
    (known : s.cell params = some p) (first : p.car = key)
    (named : Names s ctx key n id (.ref a)) {c : Cell} (held : s.cell (.ref a) = some c) (word : c.w1 = .mpz i) :
    (runtime W).Runs (stepVariable ctx params by_) s (.ref a)
      (s.put a { c with w1 := .mpz (i + by_) }) := by
  have read : c.iVal = some i := by simp only [Cell.iVal, word]
  have number : (runtime W).Runs (intOf (.ref a)) s i s := by
    rw [intOf, runs_after (runs_load held)]
    exact runs_member read s
  have firstParam : (runtime W).Runs (blListFirst params) s key s := by
    rw [blListFirst, if_neg (cell_ne_null known), runs_after (runs_load known), first]
    exact runs_pure_self _ _
  have stored : (runtime W).Runs (setIVal (.ref a) (i + by_)) s ()
      (s.put a { c with w1 := .mpz (i + by_) }) := by
    have cell : s.cells[a]? = some c := held
    have writable : c.iValWritable = true := by simp only [Cell.iValWritable, word]
    refine runs_step ?_
    simp only [step, State.modify, cell, writable, if_true, Option.map_some]
  rw [stepVariable, runs_after firstParam, runs_after (ctx_get_named named),
    runs_after number, runs_after stored]
  exact runs_pure_self _ _

theorem builtin_steps {code : Builtin} (steps : stepOf code = some by_) (params : Ptr) :
    builtinCode W code ctx params = stepVariable ctx params by_ := by
  cases code <;> simp only [stepOf, reduceCtorEq, Option.some.injEq] at steps
  · subst steps
    rfl
  · subst steps
    rfl

theorem step_call_runs {n id : Nat} (site : Site) (called : StepCall W ctx expr key s by_)
    (named : Names s ctx key n id (.ref a)) (held : NumberAt s a i) :
    ∃ t, (runtime W).Runs (blEval site ctx expr) s (.ref a) t ∧ Stepped s t a (i + by_) := by
  obtain ⟨h, op, code, opCell, list, head, operator, native, points, steps⟩ := called
  obtain ⟨x, e, rfl, known, type, rfl, m, args, rest, arguments, argsType, first, _⟩ := list
  obtain ⟨c, cell, kind, word⟩ := held
  have isNative := eval_reaches_native site known type head operator native points known rest
    (rest ▸ arguments)
  rw [rest] at arguments
  generalize noted : s.put m (args.invokedAs e.car opCell.customData) = s' at isNative
  have bound := State.ref_lt_fresh arguments
  have apart : Ptr.ref a ≠ .ref m := by
    intro same
    rw [same, arguments] at cell
    cases cell
    rw [argsType] at kind
    cases kind
  have argsCell : s'.cell (.ref m) = some (args.invokedAs e.car opCell.customData) := by
    rw [← noted]
    exact State.cell_put_same bound _
  have elsewhere : ∀ p, p ≠ .ref m → s'.cell p = s.cell p := by
    intro p other
    rw [← noted]
    exact State.cell_put_other other _
  have contents : ∀ p, (s'.cell p).map (fun c => (c.type, c.w0, c.w1, c.tail)) =
      (s.cell p).map fun c => (c.type, c.w0, c.w1, c.tail) := by
    intro p
    by_cases same : p = .ref m
    · subst same
      rw [argsCell, arguments]
      rfl
    · rw [elsewhere p same]
  have sameNames : SameNames s s' := by
    refine ⟨fun p c found => ?_, fun p c found symbol => ?_, ?_⟩
    · have kept := contents p
      simp only [ctxAt, Option.bind_eq_some_iff] at found ⊢
      obtain ⟨d, known, member⟩ := found
      rw [known, Option.map_some, Option.map_eq_some_iff] at kept
      obtain ⟨e, known', same⟩ := kept
      refine ⟨e, known', ?_⟩
      simp only [Prod.mk.injEq] at same
      simpa only [Cell.asCtx, same.2.2.2] using member
    · have kept := contents p
      rw [found, Option.map_some, Option.map_eq_some_iff] at kept
      obtain ⟨e, known', same⟩ := kept
      simp only [Prod.mk.injEq] at same
      exact ⟨e, known', same.1, same.2.1, same.2.2.1⟩
    · rw [← noted]
      rfl
  have cell' : s'.cell (.ref a) = some c := by rw [elsewhere _ apart, cell]
  have run := step_variable_runs (W := W) by_ argsCell first (names_kept sameNames named)
    cell' word
  refine ⟨s'.put a { c with w1 := .mpz (i + by_) }, ?_, fun p other => ?_, ?_, ?_⟩
  · rw [reaches_runs_iff isNative]
    have native : (runtime W).Runs (call (.native (.builtin code) ctx (.ref m))) s' (.ref a)
        (s'.put a { c with w1 := .mpz (i + by_) }) := by
      refine runs_call (c := .native (.builtin code) ctx (.ref m)) ?_
      change (runtime W).Runs (builtinCode W code ctx (.ref m)) s' (.ref a) _
      rw [builtin_steps steps]
      exact run
    rw [runs_after native, orNull, if_neg (by simp)]
    exact runs_pure_self _ _
  · rw [State.cell_put_other other, contents]
  · exact ⟨c, _, cell, State.cell_put_same (State.ref_lt_fresh cell') _, kind, kind, rfl, rfl⟩
  · rw [← noted]
    rfl

theorem stepped_context (stepped : Stepped s t a i) (p : Ptr) : ctxAt t p = ctxAt s p := by
  obtain ⟨c, d, known, known', _, _, tail, _⟩ := stepped.number
  by_cases same : p = .ref a
  · subst same
    simp only [ctxAt, known, known', Option.bind_some, Cell.asCtx, tail]
  · have kept := stepped.others p same
    cases found : s.cell p with
    | none =>
        rw [found, Option.map_none, Option.map_eq_none_iff] at kept
        simp only [ctxAt, found, kept]
    | some e =>
        rw [found, Option.map_some, Option.map_eq_some_iff] at kept
        obtain ⟨e', found', view⟩ := kept
        simp only [Prod.mk.injEq] at view
        simp only [ctxAt, found, found', Option.bind_some, Cell.asCtx, view.2.2.2]

theorem stepped_names (stepped : Stepped s t a i) : SameNames s t where
  contexts := fun p c known => (stepped_context stepped p).trans known
  symbols := by
    intro p e found symbol
    obtain ⟨c, _, known, _, kind, _⟩ := stepped.number
    have other : p ≠ .ref a := by
      rintro rfl
      rw [known] at found
      cases found
      rw [kind] at symbol
      cases symbol
    have kept := stepped.others p other
    rw [found, Option.map_some, Option.map_eq_some_iff] at kept
    obtain ⟨e', found', view⟩ := kept
    simp only [Prod.mk.injEq] at view
    exact ⟨e', found', view.1, view.2.1, view.2.2.1⟩
  table := stepped.table

theorem stepped_content (stepped : Stepped s t a i) (place : Place) :
    place.content t = place.content s := by
  cases place with
  | slot p id => simp only [Place.content, stepped_context stepped p]
  | element p =>
      obtain ⟨c, d, known, known', kind, kind', _⟩ := stepped.number
      by_cases same : p = .ref a
      · subst same
        simp only [Place.content, known, known', Option.bind_some, kind, kind']
        rfl
      · have kept := stepped.others p same
        cases found : s.cell p with
        | none =>
            rw [found, Option.map_none, Option.map_eq_none_iff] at kept
            simp only [Place.content, found, kept]
        | some e =>
            rw [found, Option.map_some, Option.map_eq_some_iff] at kept
            obtain ⟨e', found', view⟩ := kept
            simp only [Prod.mk.injEq] at view
            simp only [Place.content, found, found', Option.bind_some, view.1, Cell.car, view.2.1]

theorem stepped_number (stepped : Stepped s t a i) : number t (.ref a) = some i := by
  obtain ⟨_, d, _, known, _, kind, _, word⟩ := stepped.number
  exact number_read ⟨d, known, kind, word⟩

theorem other_number (stepped : Stepped s t a i) {p : Ptr} (other : p ≠ .ref a) :
    number t p = number s p := by
  have kept := stepped.others p other
  cases found : s.cell p with
  | none =>
      rw [found, Option.map_none, Option.map_eq_none_iff] at kept
      simp only [number, found, kept]
  | some e =>
      rw [found, Option.map_some, Option.map_eq_some_iff] at kept
      obtain ⟨e', found', view⟩ := kept
      simp only [Prod.mk.injEq] at view
      simp only [number, found, found', Option.bind_some, view.1, Cell.iVal, view.2.2.1]

/-- A place reads the same if and only if it does not hold the number. -/
theorem reads_same_iff (stepped : Stepped s t a (i + by_)) (held : NumberAt s a i)
    (moves : by_ ≠ 0) (place : Place) :
    place.reads t = place.reads s ↔ place.content s ≠ some (.ref a) := by
  rw [Place.reads, Place.reads, stepped_content stepped]
  constructor
  · intro read holds
    rw [holds, Option.bind_some, Option.bind_some, stepped_number stepped, number_read held] at read
    have moved : i + by_ = i := Option.some.inj read
    omega
  · intro other
    cases content : place.content s with
    | none => rfl
    | some p =>
        rw [Option.bind_some, Option.bind_some]
        apply other_number stepped
        rintro rfl
        exact other content

theorem step_moves {code : Builtin} (steps : stepOf code = some by_) : by_ ≠ 0 := by
  cases code <;> simp only [stepOf, reduceCtorEq, Option.some.injEq] at steps <;> omega

/-- `inc` and `dec` step the variable and nothing else if and only if no other slot and no
list element that can be reached holds the number of the variable. -/
theorem variables_independent_iff {n id : Nat} (site : Site) (else_ : List Ptr)
    (called : StepCall W ctx expr key s by_) (named : Names s ctx key n id (.ref a))
    (held : NumberAt s a i) :
    StepsAlone W site ctx expr key (.slot (.ref n) id) s by_ else_ ↔
      ∀ place : Place, place.Live s (ctx :: expr :: else_) → place ≠ .slot (.ref n) id →
        place.content s ≠ some (.ref a) := by
  have moves : by_ ≠ 0 := by
    rcases called with ⟨_, _, code, _, _, _, _, _, _, steps⟩
    exact step_moves steps
  rcases step_call_runs site called named held with ⟨t, run, stepped⟩
  have before := eval_named (W := W) site named
  have after := eval_named (W := W) site (names_kept (stepped_names stepped) named)
  constructor
  · intro alone place live other
    rcases alone with ⟨v, t', j, run', _, _, _, _, same⟩
    rcases runs_functional run run' with ⟨rfl, rfl⟩
    exact (reads_same_iff stepped held moves place).1 (same place live other)
  · intro unshared
    have same (place : Place) (live : place.Live s (ctx :: expr :: else_))
        (other : place ≠ .slot (.ref n) id) : place.reads t = place.reads s :=
      (reads_same_iff stepped held moves place).2 (unshared place live other)
    exact ⟨.ref a, t, i, run, before, number_read held, after, stepped_number stepped, same⟩

theorem content_inside {place : Place} {v : Ptr} (filled : place.content s = some v) :
    (∃ b c id, place = .slot (.ref b) id ∧ b < s.fresh ∧ ctxAt s (.ref b) = some c ∧
      id < c.vals.length) ∨ ∃ b, place = .element (.ref b) ∧ b < s.fresh := by
  cases place with
  | slot p id =>
      obtain ⟨c, known, slot⟩ := Option.bind_eq_some_iff.1 filled
      obtain ⟨cell, found, _⟩ := Option.bind_eq_some_iff.1 known
      obtain ⟨inside, _⟩ := List.getElem?_eq_some_iff.1 slot
      obtain ⟨b, rfl⟩ := State.ref_of_cell found
      exact .inl ⟨b, c, id, rfl, State.ref_lt_fresh found, known, inside⟩
  | element p =>
      obtain ⟨cell, found, _⟩ := Option.bind_eq_some_iff.1 filled
      obtain ⟨b, rfl⟩ := State.ref_of_cell found
      exact .inr ⟨b, rfl, State.ref_lt_fresh found⟩

/-- `(f (- 7 2))`, `(= y x)` and `(inc x)` in a context with the operators, where `x` is 5 and
`f` is `(fun f (n) (inc n))`. -/
def stepForms : State where
  cells := staticCells ++
    [{ type := .symbol, w0 := .str (text "="), w1 := .ofNat 0 },
     { type := .symbol, w0 := .str (text "inc"), w1 := .ofNat 1 },
     { type := .symbol, w0 := .str (text "x"), w1 := .ofNat 2 },
     { type := .symbol, w0 := .str (text "y"), w1 := .ofNat 3 },
     { type := .symbol, w0 := .str (text "-"), w1 := .ofNat 4 },
     { type := .symbol, w0 := .str (text "f"), w1 := .ofNat 5 },
     { type := .symbol, w0 := .str (text "n"), w1 := .ofNat 6 },
     { type := .operNative, w0 := .code (.builtin .set) },
     { type := .operNative, w0 := .code (.builtin .inc) },
     { type := .operNative, w0 := .code (.builtin .sub) },
     .mkNumber 5,
     .mkCtx { Ctx.new 8 .null with
       keys := [.ref 7, .ref 8, .ref 9, .null, .ref 11, .ref 12, .null, .null]
       vals := [.ref 14, .ref 15, .ref 17, .null, .ref 16, .ref 24, .null, .null] },
     .mkCons (.ref 13) .null,
     .mkCons (.ref 13) .null, .mkCons (.ref 8) (.ref 20), .mkCons (.ref 21) .null,
     .mkCtx (.new 8 (.ref 18)),
     .mkClosure .funcBl (.ref 22) (.ref 19) (.ref 18) (.ref 23) (.ref 12) .null,
     .mkNumber 7, .mkNumber 2, .mkCons (.ref 26) .null, .mkCons (.ref 25) (.ref 27),
     .mkCons (.ref 11) (.ref 28), .mkCons (.ref 29) .null, .mkCons (.ref 12) (.ref 30),
     .mkCons (.ref 9) .null, .mkCons (.ref 10) (.ref 32), .mkCons (.ref 7) (.ref 33),
     .mkCons (.ref 9) .null, .mkCons (.ref 8) (.ref 35)]
  symbolTable := [⟨text "n", 13⟩, ⟨text "f", 12⟩, ⟨text "-", 11⟩, ⟨text "y", 10⟩, ⟨text "x", 9⟩,
    ⟨text "inc", 8⟩, ⟨text "=", 7⟩]
  lastSymId := 7

/-- In the call `(f (- 7 2))` the number 5 is bound to `n` and is an element of the argument
list, which nothing holds: `(inc n)` steps `n` alone. -/
theorem variables_independent_iff_parameter : ∃ args s₁ s₂ argument,
    (runtime World.bare).Runs (blEval .callArguments (.ref 18) (.ref 30)) stepForms args s₁ ∧
      (runtime World.bare).Runs (blSetParams (.ref 23) (.ref 19) args) s₁ () s₂ ∧
      (Place.element args).content s₂ = some argument ∧
      (Place.slot (.ref 23) 6).content s₂ = some argument ∧
      StepsAlone World.bare .funcBody (.ref 23) (.ref 21) (.ref 13) (.slot (.ref 23) 6) s₂ 1
        [.ref 18, .ref 31] := by
  have facts : ∃ args s₁ s₂,
      (runtime World.bare).Runs (blEval .callArguments (.ref 18) (.ref 30)) stepForms args s₁ ∧
      (runtime World.bare).Runs (blSetParams (.ref 23) (.ref 19) args) s₁ () s₂ ∧
      (Place.element args).content s₂ = some (.ref 39) ∧
      (Place.slot (.ref 23) 6).content s₂ = some (.ref 39) ∧
      StepCall World.bare (.ref 23) (.ref 21) (.ref 13) s₂ 1 ∧
      Names s₂ (.ref 23) (.ref 13) 23 6 (.ref 39) ∧ NumberAt s₂ 39 5 ∧ s₂.fresh = 41 ∧
      (∀ a < 41, a < 37 ∨ a = 39 → ∀ q ∈ ((s₂.cell (.ref a)).map Cell.pointers).getD [],
        q ∈ .null :: .wild :: .ref 39 :: (List.range 37).map Ptr.ref) ∧
      (∀ b < 41, ∀ c, ctxAt s₂ (.ref b) = some c → c.vals.length ≤ 8) ∧
      (∀ b < 41, ∀ id < 8, (Place.slot (.ref b) id).content s₂ = some (.ref 39) → b = 23 ∧ id = 6) ∧
      ∀ b < 41, (Place.element (.ref b)).content s₂ = some (.ref 39) → b = 40 :=
    ⟨_, _, _, ⟨20, rfl⟩, ⟨20, rfl⟩, rfl, rfl,
      ⟨.ref 8, .ref 15, .inc, _, ⟨21, _, rfl, rfl, rfl, rfl, 20, _, rfl, rfl, rfl, rfl, rfl⟩,
        .symbol rfl rfl ⟨9, rfl⟩ (by decide), rfl, rfl, rfl, rfl⟩,
      .plain ⟨_, text "n", rfl, rfl, rfl, rfl, by decide, by decide⟩
        (.here rfl rfl (by decide) rfl (by decide)),
      ⟨_, rfl, rfl, rfl⟩, rfl, by decide, by decide, by decide, by decide⟩
  rcases facts with ⟨args, s₁, s₂, evaluated, bound, argument, parameter, called, named, held, size,
    pointers, small, slots, elements⟩
  refine ⟨args, s₁, s₂, .ref 39, evaluated, bound, argument, parameter, ?_⟩
  apply (variables_independent_iff .funcBody _ called named held).2
  intro place live other filled
  have within {p : Ptr} (reached : Reached s₂ [.ref 23, .ref 21, .ref 18, .ref 31] p) :
      ∀ a, p = .ref a → a < 37 ∨ a = 39 := by
    apply reached_within (fun a => a < 37 ∨ a = 39) ?_ ?_ reached
    · simp
    · intro a c b inside known points
      have bound := State.ref_lt_fresh known
      rw [size] at bound
      have listed := pointers a bound inside (.ref b) (by rwa [known])
      simpa [or_comm] using listed
  rcases content_inside filled with ⟨b, c, id, rfl, bound, known, inside⟩ | ⟨b, rfl, bound⟩
  · rw [size] at bound
    rcases slots b bound id (Nat.lt_of_lt_of_le inside (small b bound c known)) filled with ⟨rfl, rfl⟩
    exact other rfl
  · rw [size] at bound
    have dead := elements b bound filled
    have alive := within live b rfl
    omega

/-- After `(= y x)` a step of `x` is a step of `y`. -/
theorem alias_stepped : ∃ s v, (runtime World.bare).Runs (blEval .operand (.ref 18) (.ref 34))
    stepForms v s ∧ ¬ StepsAlone World.bare .operand (.ref 18) (.ref 36) (.ref 9)
      (.slot (.ref 18) 2) s 1 [] := by
  have runs : ∃ s v, (runtime World.bare).Runs (blEval .operand (.ref 18) (.ref 34)) stepForms v s ∧
      (Place.slot (.ref 18) 3).reads s = some 5 ∧
      ∃ w u, (runtime World.bare).Runs (blEval .operand (.ref 18) (.ref 36)) s w u ∧
        (Place.slot (.ref 18) 3).reads u = some 6 :=
    ⟨_, _, ⟨12, rfl⟩, rfl, _, _, ⟨12, rfl⟩, rfl⟩
  rcases runs with ⟨s, v, assigned, five, w, u, stepped, six⟩
  refine ⟨s, v, assigned, ?_⟩
  rintro ⟨w', u', i, run, _, _, _, _, same⟩
  rcases runs_functional run stepped with ⟨rfl, rfl⟩
  have read := same (.slot (.ref 18) 3) (.root List.mem_cons_self) (by decide)
  rw [five, six] at read
  cases read

end Steps

end BearLang.SharedNumbers
