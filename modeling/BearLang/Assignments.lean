import BearLang.VariableLookup

/-!
# Assignments and what they are read as

`bl_oper_set` binds a name where `bl_ctx_set` writes, and `bl_ctx_get` reads it
where it finds it first. In the body of an oper the two places differ: the
assignment goes to the definition context, and the oper's own context is read
first.
-/

namespace BearLang.Assignments

open CallPrograms ContextRefinement SymbolInterning

set_option autoImplicit false

section Slots

/-- A context cell, with arrays of the size it says and without a custom get
function. -/
def ContextAt (s : State) (p : Ptr) (c : Ctx) : Prop :=
  ∃ cell, s.cell p = some cell ∧ cell.tail = .ctx c ∧ Sized c ∧ c.ctxGet = none

variable {s t : State} {p : Ptr} {c : Ctx} {id : Nat} {v : Ptr}

theorem context_at_ctx (known : ContextAt s p c) : ctxAt s p = some c := by
  obtain ⟨cell, found, tail, _⟩ := known
  simp only [ctxAt, found, Option.bind_some, Cell.asCtx, tail]

theorem slot_filled (sized : Sized c) (slot : c.vals.getD id .null = v) (filled : v ≠ .null) :
    id < c.valsCount ∧ c.vals[id]? = some v := by
  rw [List.getD_eq_getElem?_getD] at slot
  cases found : c.vals[id]? with
  | none =>
      rw [found] at slot
      exact absurd slot.symm filled
  | some w =>
      rw [found] at slot
      obtain ⟨inside, _⟩ := List.getElem?_eq_some_iff.1 found
      exact ⟨sized.2 ▸ inside, congrArg some slot⟩

theorem slot_empty (sized : Sized c) (slot : c.vals.getD id .null = .null) : c.Empty id := by
  intro inside
  rw [← sized.2] at inside
  rw [List.getD_eq_getElem?_getD, List.getElem?_eq_getElem inside] at slot
  rw [List.getElem?_eq_getElem inside]
  exact congrArg some slot

theorem empty_slot (empty : c.Empty id) (sized : Sized c) : c.vals.getD id .null = .null := by
  by_cases inside : id < c.valsCount
  · rw [List.getD_eq_getElem?_getD, empty inside]
    rfl
  · exact get_past_end (by rw [sized.2]; exact Nat.not_lt.1 inside)

/-- A context after an operation: it keeps its parent and the redirection of its
assignments, and only a store into a slot changes the slot. -/
theorem context_step {op : Op} {answer : op.Answer} (stepped : step op s = some (answer, t))
    (known : ContextAt s p c) : ∃ d, ContextAt t p d ∧ d.parent = c.parent ∧
      (c.writeToParent = true → d.writeToParent = true) ∧
      ∀ i, (∀ key val, op ≠ .ctxStore p i key val) → d.vals.getD i .null = c.vals.getD i .null := by
  obtain ⟨cell, found, tail, sized, plain⟩ := known
  obtain ⟨new, found', change⟩ := step_cell stepped found
  cases change with
  | same => exact ⟨c, ⟨cell, found', tail, sized, plain⟩, rfl, id, fun _ _ => rfl⟩
  | cdr => exact ⟨c, ⟨_, found', tail, sized, plain⟩, rfl, id, fun _ _ => rfl⟩
  | number => exact ⟨c, ⟨_, found', tail, sized, plain⟩, rfl, id, fun _ _ => rfl⟩
  | invoked => exact ⟨c, ⟨_, found', tail, sized, plain⟩, rfl, id, fun _ _ => rfl⟩
  | line => exact ⟨c, ⟨_, found', tail, sized, plain⟩, rfl, id, fun _ _ => rfl⟩
  | inner q lexical old sym _ closure =>
      rw [tail] at closure
      cases closure
  | mark old _ tail' =>
      rw [tail] at tail'
      cases tail'
      exact ⟨_, ⟨_, found', rfl, sized, plain⟩, rfl, fun _ => rfl, fun _ _ => rfl⟩
  | store i key val old stored _ tail' stores =>
      rw [tail] at tail'
      cases tail'
      obtain ⟨made, stores', spec⟩ := store_spec sized i key val
      rw [stores] at stores'
      cases stores'
      refine ⟨stored, ⟨_, found', rfl, spec.sized, spec.ctxGet.trans plain⟩, spec.parent,
        fun marked => spec.writeToParent.trans marked, ?_⟩
      intro j other
      have ne : j ≠ i := by
        rintro rfl
        exact other key val rfl
      rw [spec.vals, if_neg ne]

end Slots

section Readings

def target (p : Ptr) (c : Ctx) : Ptr := if c.writeToParent then c.parent else p

variable {W : World} {s t : State} {p q key v : Ptr} {id : Nat}

theorem finds_of_reads {c : Ctx} (known : ContextAt s p c) (slot : c.vals.getD id .null = v)
    (filled : v ≠ .null) : ∃ n, Finds s id p n v := by
  have ctx := context_at_ctx known
  obtain ⟨cell, found, _, sized, plain⟩ := known
  obtain ⟨inside, here⟩ := slot_filled sized slot filled
  obtain ⟨n, rfl⟩ := State.ref_of_cell found
  exact ⟨n, .here ctx plain inside here filled⟩

end Readings

section Assigning

/-- `(= key e)` is evaluated: the value of `e` is `v`, which leaves the state `m`,
and the name is still the operand that it was. -/
inductive Assigns (W : World) (ctx expr key : Ptr) (s : State) (v : Ptr) (m : State) : Prop
  | set {op : Ptr} {x c args second first : Cell} {n : Nat} (known : s.cell expr = some x)
      (list : x.type = .cons) (head : HeadValue W ctx x.car s op s) (operator : s.cell op = some c)
      (native : c.type = .operNative) (points : c.codePtr = some (.builtin .set))
      (rest : x.cdr = .ref n) (arguments : s.cell (.ref n) = some args)
      (value : s.cell args.cdr = some second)
      (evaluated : (runtime W).Runs (blEval .operand ctx second.car)
        (s.put n (args.invokedAs x.car c.customData)) v m)
      (still : m.cell (.ref n) = some first) (name : first.car = key)

variable {W : World} {s m : State} {ctx expr key v : Ptr} {id : Nat}

/-- `bl_ctx_set` changes the tail of the context that the assignment goes to. -/
theorem ctx_set_target {c old : Ctx} {cell keyCell : Cell} {b : Nat} (known : ctxAt s ctx = some c)
    (goes : target ctx c = .ref b) (found : s.cell (.ref b) = some cell)
    (tail : cell.tail = .ctx old) (sized : Sized old) (keyFound : s.cell key = some keyCell)
    (symId : keyCell.symId = some id) :
    ∃ new, Stored old new id key v ∧ (runtime W).Runs (blCtxSet ctx key v) s v
      (s.put b { cell with tail := .ctx new }) := by
  obtain ⟨new, stores, stored⟩ := store_spec sized id key v
  refine ⟨new, stored, ?_⟩
  have goes' : (if c.writeToParent = true then c.parent else ctx) = .ref b := goes
  rw [blCtxSet, runs_after (runs_load_at known)]
  simp only [goes']
  rw [runs_after (runs_load keyFound), runs_after (runs_member symId s),
    runs_after (ctx_store_runs found tail stores)]
  exact runs_pure_self _ _

/-- The evaluation of an assignment ends with its store. -/
theorem assignment_runs {t : State} (assigned : Assigns W ctx expr key s v m) (filled : v ≠ .null)
    (stored : (runtime W).Runs (blCtxSet ctx key v) m v t) (site : Site) :
    (runtime W).Runs (blEval site ctx expr) s v t := by
  obtain ⟨known, list, head, operator, native, points, rest, arguments, value, evaluated, still,
    name⟩ := assigned
  rename_i op x c args second first n
  have reached := eval_reaches_native site known list head operator native points known rest
    arguments
  rw [reaches_runs_iff reached]
  generalize noted : s.put n (args.invokedAs x.car c.customData) = s' at evaluated
  have argsCell : s'.cell (.ref n) = some (args.invokedAs x.car c.customData) := by
    rw [← noted]
    exact State.cell_put_same (State.ref_lt_fresh arguments) _
  obtain ⟨second', value', same⟩ : ∃ d, s'.cell args.cdr = some d ∧ d.car = second.car := by
    by_cases self : args.cdr = .ref n
    · rw [self] at value ⊢
      rw [arguments] at value
      cases value
      exact ⟨_, argsCell, rfl⟩
    · refine ⟨second, ?_, rfl⟩
      rw [← noted, State.cell_put_other self]
      exact value
  have cdr : (args.invokedAs x.car c.customData).cdr = args.cdr := rfl
  have operand : (runtime W).Runs (evalSecond ctx (.ref n)) s' v m := by
    have restOf : (runtime W).Runs (blListRest (.ref n)) s' args.cdr s' := by
      rw [blListRest, if_neg (by simp), runs_after (runs_load argsCell), cdr]
      exact runs_pure_self _ _
    have secondOf : (runtime W).Runs (blListSecond (.ref n)) s' second.car s' := by
      rw [blListSecond, if_neg (by simp), runs_after restOf, blListFirst,
        if_neg (cell_ne_null value'), runs_after (runs_load value'), same]
      exact runs_pure_self _ _
    rw [evalSecond, runs_after secondOf]
    exact evaluated
  have nameOf : (runtime W).Runs (blListFirst (.ref n)) m key m := by
    rw [blListFirst, if_neg (by simp), runs_after (runs_load still), name]
    exact runs_pure_self _ _
  have native_ : (runtime W).Runs (call (.native (.builtin .set) ctx (.ref n))) s' v t := by
    refine runs_call (c := .native (.builtin .set) ctx (.ref n)) ?_
    change (runtime W).Runs (blOperSet ctx (.ref n)) s' v t
    rw [blOperSet, runs_after operand, runs_after nameOf, runs_after stored]
    exact runs_pure_self _ _
  rw [runs_after native_, orNull, if_neg filled]
  exact runs_pure_self _ _

theorem context_put {b : Nat} {cell : Cell} {old new : Ctx} (found : s.cell (.ref b) = some cell)
    (stored : Stored old new id key v) (plain : old.ctxGet = none) :
    ContextAt (s.put b { cell with tail := .ctx new }) (.ref b) new :=
  ⟨_, State.cell_put_same (State.ref_lt_fresh found) _, rfl, stored.sized,
    stored.ctxGet.trans plain⟩

structure AssignmentStored (q key : Ptr) (id : Nat) (v : Ptr) (m t : State) : Prop where
  store : ∃ b cell old new, q = .ref b ∧ m.cell q = some cell ∧ cell.tail = .ctx old ∧
    Sized old ∧ old.ctxGet = none ∧ Stored old new id key v ∧
    t = m.put b { cell with tail := .ctx new }

end Assigning

section Paths

variable {s m t : State} {ctx q key v : Ptr} {id : Nat}

/-- A store under another id does not change where a value is found. -/
theorem finds_stored (stored : AssignmentStored q key id v m t) {i n : Nat} (other : i ≠ id)
    {p w : Ptr} (found : Finds m i p n w) : Finds t i p n w := by
  obtain ⟨b, cell, old, new, rfl, held, tail, sized, plain, stored, rfl⟩ := stored
  have size := stored.sized
  have slots : ∀ c : Ctx, ctxAt m (.ref b) = some c → c = old := by
    intro c known
    rw [ctxAt, held, Option.bind_some, Cell.asCtx, tail] at known
    exact (Option.some.inj known).symm
  have stays : ctxAt (m.put b { cell with tail := .ctx new }) (.ref b) = some new := by
    rw [ctxAt, State.cell_put_same (State.ref_lt_fresh held)]
    rfl
  have elsewhere : ∀ {a : Nat} {c : Ctx}, a ≠ b → ctxAt m (.ref a) = some c →
      ctxAt (m.put b { cell with tail := .ctx new }) (.ref a) = some c := by
    intro a c ne known
    rw [ctxAt, State.cell_put_other fun same => ne (Ptr.ref.inj same)]
    exact known
  have slot : new.vals.getD i .null = old.vals.getD i .null := by rw [stored.vals, if_neg other]
  induction found with
  | @here n c w known plainCtx inside value filled =>
      by_cases same : n = b
      · subst same
        rw [slots c known] at value
        have before : old.vals.getD i .null = w := by
          rw [List.getD_eq_getElem?_getD, value, Option.getD_some]
        rw [before] at slot
        obtain ⟨inside', value'⟩ := slot_filled size slot filled
        exact .here stays (stored.ctxGet.trans plain) inside' value' filled
      · exact .here (elsewhere same known) plainCtx inside value filled
  | @above n k c w known plainCtx empty later ih =>
      by_cases same : n = b
      · subst same
        rw [slots c known] at empty later ih
        refine .above stays (stored.ctxGet.trans plain) ?_ (stored.parent ▸ ih)
        exact slot_empty size (slot.trans (empty_slot empty sized))
      · exact .above (elsewhere same known) plainCtx empty ih

variable {W : World} {expr : Ptr}

/-- The body of an oper with the parameter `p`, called with 5: its context is a child
of the one with the operator `=`. The expressions are `(= p 7)` and `(= x 7)`. -/
def operBody : State where
  cells := staticCells ++
    [{ type := .symbol, w0 := .str (text "="), w1 := .ofNat 0 },
     { type := .symbol, w0 := .str (text "p"), w1 := .ofNat 1 },
     { type := .symbol, w0 := .str (text "x"), w1 := .ofNat 2 },
     { type := .operNative, w0 := .code (.builtin .set) },
     .mkNumber 5, .mkNumber 7,
     .mkCtx { Ctx.new 8 .null with
       keys := [.ref 7, .null, .null, .null, .null, .null, .null, .null]
       vals := [.ref 10, .null, .null, .null, .null, .null, .null, .null] },
     .mkCtx { Ctx.new 8 (.ref 13) with
       keys := [.null, .ref 8, .null, .null, .null, .null, .null, .null]
       vals := [.null, .ref 11, .null, .null, .null, .null, .null, .null]
       writeToParent := true },
     .mkCons (.ref 12) .null, .mkCons (.ref 8) (.ref 15), .mkCons (.ref 7) (.ref 16),
     .mkCons (.ref 9) (.ref 15), .mkCons (.ref 7) (.ref 18)]
  symbolTable := [⟨text "x", 9⟩, ⟨text "p", 8⟩, ⟨text "=", 7⟩]
  lastSymId := 3

end Paths

section Failing

variable {W : World} {s m : State} {ctx q expr key v : Ptr} {id : Nat}

/-- What the context binds the name with the id to; nothing is a null pointer. -/
def boundTo (s : State) (p : Ptr) (id : Nat) : Ptr :=
  ((ctxAt s p).map fun c => c.vals.getD id .null).getD .null

theorem bound_to_context {p : Ptr} {c : Ctx} (known : ctxAt s p = some c) (i : Nat) :
    boundTo s p i = c.vals.getD i .null := by
  rw [boundTo, known]
  rfl

/-- The pointers in a context lead to allocated cells. -/
theorem context_away {p : Ptr} {c : Ctx} (closed : Closed s) (known : ctxAt s p = some c) :
    Away [] s c.parent ∧ ∀ i, Away [] s (boundTo s p i) := by
  obtain ⟨cell, found, member⟩ := Option.bind_eq_some_iff.1 known
  obtain ⟨a, rfl⟩ := State.ref_of_cell found
  have holds := closed.confined.cells a cell ⟨State.ref_lt_fresh found, List.not_mem_nil⟩ found
  have slots := slots_of_holds holds member
  refine ⟨slots.parent, fun i => ?_⟩
  rw [bound_to_context known, List.getD_eq_getElem?_getD]
  cases slot : c.vals[i]? with
  | none => exact fun _ same => nomatch same
  | some v => exact slots.vals v (List.mem_of_getElem? slot)

/-- A store into one slot is a change of one binding. -/
theorem bound_to_stored {b : Nat} {cell : Cell} {old new : Ctx} (found : s.cell (.ref b) = some cell)
    (tail : cell.tail = .ctx old) (stored : Stored old new id key v) (p : Ptr) (i : Nat) :
    boundTo (s.put b { cell with tail := .ctx new }) p i =
      if p = .ref b ∧ i = id then v else boundTo s p i := by
  by_cases same : p = .ref b
  · subst same
    have before : ctxAt s (.ref b) = some old := by
      rw [ctxAt, found, Option.bind_some, Cell.asCtx, tail]
    have after : ctxAt (s.put b { cell with tail := .ctx new }) (.ref b) = some new := by
      rw [ctxAt, State.cell_put_same (State.ref_lt_fresh found)]
      rfl
    rw [bound_to_context before, bound_to_context after, stored.vals]
    by_cases named : i = id
    · rw [if_pos named, if_pos ⟨rfl, named⟩]
    · rw [if_neg named, if_neg fun both => named both.2]
  · rw [boundTo, ctxAt, State.cell_put_other same, if_neg fun both => same both.1]
    rfl

/-- `(= key e)`, when `e` gives an error, gives the error, and it leaves every binding
as it is exactly if the name is bound to that error already. -/
theorem failed_assignment_keeps_iff (site : Site) {c d : Ctx} {cell keyCell : Cell}
    (assigned : Assigns W ctx expr key s v m) (fails : m.typeOf v = some .error)
    (keyFound : m.cell key = some keyCell) (symId : keyCell.symId = some id)
    (here : ctxAt m ctx = some c) (goes : target ctx c = q) (above : m.cell q = some cell)
    (tail : cell.tail = .ctx d) (sized : Sized d) :
    ∃ t, (runtime W).Runs (blEval site ctx expr) s v t ∧
      ((∀ p i, boundTo t p i = boundTo m p i) ↔ boundTo m q id = v) := by
  have filled : v ≠ .null := by
    rintro rfl
    cases fails
  obtain ⟨b, rfl⟩ := State.ref_of_cell above
  obtain ⟨new, stored, run⟩ := ctx_set_target (W := W) (v := v) here goes above tail sized keyFound
    symId
  refine ⟨_, assignment_runs assigned filled run site, ?_⟩
  constructor
  · intro same
    have changed := same (.ref b) id
    rw [bound_to_stored above tail stored, if_pos ⟨rfl, rfl⟩] at changed
    exact changed.symm
  · intro already p i
    rw [bound_to_stored above tail stored]
    split
    · rename_i both
      rw [both.1, both.2]
      exact already.symm
    · rfl

/-- `x` is 5, `z` an error, and `y` unbound. The expressions are `(= x y)` and
`(= z z)`. -/
def failing : State where
  cells := staticCells ++
    [{ type := .symbol, w0 := .str (text "="), w1 := .ofNat 0 },
     { type := .symbol, w0 := .str (text "x"), w1 := .ofNat 1 },
     { type := .symbol, w0 := .str (text "z"), w1 := .ofNat 2 },
     { type := .symbol, w0 := .str (text "y"), w1 := .ofNat 3 },
     { type := .operNative, w0 := .code (.builtin .set) },
     .mkNumber 5, .mkErr .divideByZero 0 {},
     .mkCtx { Ctx.new 8 .null with
       keys := [.ref 7, .ref 8, .ref 9, .null, .null, .null, .null, .null]
       vals := [.ref 11, .ref 12, .ref 13, .null, .null, .null, .null, .null] },
     .mkCons (.ref 10) .null, .mkCons (.ref 8) (.ref 15), .mkCons (.ref 7) (.ref 16),
     .mkCons (.ref 9) .null, .mkCons (.ref 9) (.ref 18), .mkCons (.ref 7) (.ref 19)]
  symbolTable := [⟨text "y", 10⟩, ⟨text "z", 9⟩, ⟨text "x", 8⟩, ⟨text "=", 7⟩]
  lastSymId := 4

/-- `(= z z)` -/
theorem failed_assignment_keeps_iff_again : ∃ m t,
    Assigns World.bare (.ref 14) (.ref 20) (.ref 9) failing (.ref 13) m ∧
      (runtime World.bare).Runs (blEval .operand (.ref 14) (.ref 20)) failing (.ref 13) t ∧
      ((∀ p i, boundTo t p i = boundTo m p i) ↔ boundTo m (.ref 14) 2 = .ref 13) := by
  have assigned : ∃ m c cell, Assigns World.bare (.ref 14) (.ref 20) (.ref 9) failing (.ref 13) m ∧
      m.typeOf (.ref 13) = some .error ∧
      m.cell (.ref 9) = some { type := .symbol, w0 := .str (text "z"), w1 := .int 2 } ∧
      ctxAt m (.ref 14) = some c ∧ target (.ref 14) c = .ref 14 ∧ m.cell (.ref 14) = some cell ∧
      cell.tail = .ctx c ∧ Sized c :=
    ⟨_, _, _, .set rfl rfl (.symbol rfl rfl ⟨9, rfl⟩ (by decide)) rfl rfl rfl rfl rfl rfl
      ⟨9, rfl⟩ rfl rfl, rfl, rfl, rfl, rfl, rfl, rfl, rfl, rfl⟩
  obtain ⟨m, c, cell, assigned, fails, keyFound, here, goes, above, tail, sized⟩ := assigned
  obtain ⟨t, run, keeps⟩ := failed_assignment_keeps_iff .operand assigned fails keyFound rfl here
    goes above tail sized
  exact ⟨m, t, assigned, run, keeps⟩

/-- `(= x y)` binds `x` to the error. -/
theorem failed_assignment_stored : ∃ m t,
    Assigns World.bare (.ref 14) (.ref 17) (.ref 8) failing (.ref 21) m ∧
      m.typeOf (.ref 21) = some .error ∧
      (runtime World.bare).Runs (blEval .operand (.ref 14) (.ref 17)) failing (.ref 21) t ∧
      boundTo m (.ref 14) 1 = .ref 12 ∧ boundTo t (.ref 14) 1 = .ref 21 :=
  ⟨_, _, .set rfl rfl (.symbol rfl rfl ⟨9, rfl⟩ (by decide)) rfl rfl rfl rfl rfl rfl
    ⟨9, rfl⟩ rfl rfl, rfl, ⟨20, rfl⟩, rfl, rfl⟩

end Failing

end BearLang.Assignments
