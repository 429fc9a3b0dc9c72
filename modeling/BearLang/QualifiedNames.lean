import BearLang.ContextStores
import BearLang.Handlers
import BearLang.SplitStrings
import BearLang.XmlGenerate

/-!
# Qualified names

A path is looked up by its first name, and the rest of it in the context that this name
leads to. What is looked up last is the last name of the path, in the context that the
rest of the path leads to.
-/

namespace BearLang.QualifiedNames

open CallPrograms ContextRefinement ContextStores OperatorCalls Assignments Handlers Occurrences
  SplitStrings

set_option autoImplicit false

section Names

/-- A name that a path may be made of. -/
structure Component (name : CStr) : Prop where
  filled : name ≠ []
  plain : chr ':' ∉ name
  unquoted : name.head? ≠ some (chr '\'')

def path (names : List CStr) : CStr := (text "::").intercalate names

variable {name rest : CStr} {names : List CStr}

theorem path_single (name : CStr) : path [name] = name := List.intercalate_singleton

theorem path_cons (name : CStr) (some_ : names ≠ []) :
    path (name :: names) = name ++ (text "::" ++ path names) := by
  obtain ⟨next, names, rfl⟩ := List.exists_cons_of_ne_nil some_
  rw [path, List.intercalate_cons_cons, List.append_assoc]
  rfl

theorem path_length (some_ : names ≠ []) :
    (path names).length + 2 = (names.map fun name => name.length + 2).sum := by
  induction names with
  | nil => exact absurd rfl some_
  | cons name names ih =>
      by_cases last : names = []
      · subst last
        rw [path_single]
        simp
      · have rest := ih last
        have width : (text "::").length = 2 := rfl
        rw [path_cons name last, List.map_cons, List.sum_cons, ← rest, List.length_append,
          List.length_append, width]
        omega

theorem path_length_le {part : List CStr} (within : part <:+: names) :
    (path part).length ≤ (path names).length := by
  by_cases empty : part = []
  · subst empty
    exact Nat.zero_le _
  · have some_ : names ≠ [] := by
      rintro rfl
      exact empty (List.eq_nil_of_infix_nil within)
    have whole := path_length some_
    have inner := path_length empty
    obtain ⟨before, after, rfl⟩ := within
    simp only [List.map_append, List.sum_append] at whole
    omega

theorem separator_found (component : Component name) (rest : CStr) :
    strstr (text "::") (name ++ (text "::" ++ rest)) = some name.length := by
  rw [strstr_first]
  refine first_at_append fun j below begins => component.plain ?_
  obtain ⟨more, same⟩ := begins
  rw [List.drop_append_of_le_length (Nat.le_of_lt below)] at same
  have first : some (chr ':') = (name.drop j ++ (text "::" ++ rest)).head? := congrArg List.head? same
  rw [List.head?_append_of_ne_nil _ (by simpa using below), List.head?_drop] at first
  exact List.mem_of_getElem? first.symm

theorem separator_missed (component : Component name) : strstr (text "::") name = none := by
  rw [strstr_first, first_at_none]
  exact fun inside => component.plain (inside.subset (by decide))

theorem head_of_path (component : Component name) (rest : CStr) :
    (name ++ rest).head? ≠ some (chr '\'') := by
  rw [List.head?_append_of_ne_nil _ component.filled]
  exact component.unquoted

end Names

section Slots

variable {W : World} {s t : State} {op : Op}

/-- A context has no value for an id that no symbol has. -/
def SlotsMade (s : State) : Prop :=
  ∀ p c, ctxAt s p = some c → Sized c ∧ ∀ i, s.lastSymId ≤ i → c.vals.getD i .null = .null

/-- A context is made empty, and a value is stored under the id of a symbol. -/
def StoresMade (op : Op) (s : State) : Prop :=
  (∀ cell c, op = .alloc cell → cell.asCtx = some c → Sized c ∧ ∀ i, c.vals.getD i .null = .null) ∧
  ∀ ctx id key val, op = .ctxStore ctx id key val → id < s.lastSymId

/-- Whether the slots of a cell are in order can be computed. -/
def hasSlotsBelow (last : Nat) (cell : Cell) : Bool :=
  match cell.asCtx with
  | some c => decide (Sized c) && (c.vals.drop last).all (· == .null)
  | none => true

theorem slots_made_of_check (checked : s.cells.all (hasSlotsBelow s.lastSymId) = true) :
    SlotsMade s := by
  intro p c known
  obtain ⟨cell, found, member⟩ := Option.bind_eq_some_iff.1 known
  obtain ⟨a, rfl⟩ := State.ref_of_cell found
  have below := List.all_eq_true.1 checked cell (List.mem_of_getElem? found)
  simp only [hasSlotsBelow, member, Bool.and_eq_true, decide_eq_true_eq] at below
  refine ⟨below.1, fun i outside => ?_⟩
  rw [List.getD_eq_getElem?_getD]
  cases slot : c.vals[i]? with
  | none => rfl
  | some v =>
      have mem : v ∈ c.vals.drop s.lastSymId := by
        refine List.mem_of_getElem? (i := i - s.lastSymId) ?_
        rw [List.getElem?_drop, Nat.add_sub_cancel' outside, slot]
      exact eq_of_beq (List.all_eq_true.1 below.2 v mem)

theorem slots_made_initial : SlotsMade State.initial := slots_made_of_check (by decide)

theorem last_sym_id_step {answer : op.Answer} (stepped : step op s = some (answer, t)) :
    s.lastSymId ≤ t.lastSymId := by
  cases step_effect stepped with
  | symbol name _ _ => exact Nat.le_succ _
  | _ => exact Nat.le_refl _

theorem slots_made_step {answer : op.Answer} (made : SlotsMade s) (stores : StoresMade op s)
    (stepped : step op s = some (answer, t)) : SlotsMade t := by
  intro p c known
  have last := last_sym_id_step stepped
  obtain ⟨cell, found, member⟩ := Option.bind_eq_some_iff.1 known
  cases before : s.cell p with
  | none =>
      obtain ⟨a, rfl⟩ := State.ref_of_cell found
      obtain ⟨_, rfl | ⟨name, rfl⟩⟩ := step_made stepped before found
      · obtain ⟨sized, empty⟩ := stores.1 cell c rfl member
        exact ⟨sized, fun i _ => empty i⟩
      · cases member
        exact ⟨⟨rfl, rfl⟩, fun i _ => rfl⟩
  | some old =>
      obtain ⟨new, found', change⟩ := step_cell stepped before
      obtain rfl := Option.some.inj (found.symm.trans found')
      have kept (member : old.asCtx = some c) :
          Sized c ∧ ∀ i, t.lastSymId ≤ i → c.vals.getD i .null = .null := by
        obtain ⟨sized, empty⟩ := made p c (Option.bind_eq_some_iff.2 ⟨old, before, member⟩)
        exact ⟨sized, fun i outside => empty i (Nat.le_trans last outside)⟩
      cases change with
      | same => exact kept member
      | cdr => exact kept member
      | number => exact kept member
      | invoked => exact kept member
      | line => exact kept member
      | inner => cases member
      | mark ctx _ tail =>
          cases member
          obtain ⟨sized, empty⟩ := made p ctx (Option.bind_eq_some_iff.2
            ⟨old, before, by rw [Cell.asCtx, tail]⟩)
          exact ⟨sized, fun i outside => empty i (Nat.le_trans last outside)⟩
      | store id key val ctx stored _ tail set =>
          cases member
          obtain ⟨sized, empty⟩ := made p ctx (Option.bind_eq_some_iff.2
            ⟨old, before, by rw [Cell.asCtx, tail]⟩)
          obtain ⟨other, set', spec⟩ := store_spec sized id key val
          obtain rfl := Option.some.inj (set.symm.trans set')
          have inside := stores.2 p id key val rfl
          refine ⟨spec.sized, fun i outside => ?_⟩
          rw [spec.vals, if_neg (by omega)]
          exact empty i (Nat.le_trans last outside)

/-- Every symbol has an id that was given out. -/
def IdsBelow (s : State) : Prop :=
  ∀ p c, s.cell p = some c → c.type = .symbol → ∃ id, c.symId = some id ∧ id < s.lastSymId

theorem ids_below_initial : IdsBelow State.initial := by
  intro p c found type
  obtain ⟨a, rfl⟩ := State.ref_of_cell found
  have none_ : ∀ cell ∈ staticCells, cell.type ≠ .symbol := by decide
  exact absurd type (none_ c (List.mem_of_getElem? found))

theorem ids_below_step {answer : op.Answer} (below : IdsBelow s) (conduct : storing.op op s)
    (spared : SparesSymbols op s) (stepped : step op s = some (answer, t)) : IdsBelow t := by
  intro p c found type
  cases step_effect stepped with
  | same => exact below p c found type
  | written out => exact below p c found type
  | @stored a old new known change =>
      by_cases here : p = .ref a
      · subst here
        rw [State.cell_put_same (State.ref_lt_fresh known)] at found
        cases found
        have symbol (oldType : old.type = .symbol) : s.typeOf (.ref a) = some .symbol := by
          rw [State.typeOf, known, Option.map_some, oldType]
        have kept := below (.ref a) old known
        cases change with
        | cdr site q => exact absurd (symbol type) spared
        | number i => exact absurd (symbol type) spared
        | _ => exact kept type
      · rw [State.cell_put_other here] at found
        exact below p c found type
  | made new is =>
      subst is
      by_cases here : p = .ref s.fresh
      · subst here
        rw [State.cell_allocated_new] at found
        cases found
        exact absurd type conduct.1
      · rw [cell_allocated_elsewhere here] at found
        exact below p c found type
  | symbol name =>
      by_cases here : p = .ref s.fresh
      · subst here
        have symId := sym_id_entered name s
        rw [symIdOf, found, Option.bind_some] at symId
        exact ⟨s.lastSymId, symId, Nat.lt_succ_self _⟩
      · have old : s.cell p = some c := by
          rw [← cell_allocated_elsewhere here]
          exact found
        obtain ⟨id, symId, less⟩ := below p c old type
        exact ⟨id, symId, Nat.lt_succ_of_lt less⟩

/-- What the code stores goes under the ids of symbols. -/
theorem stores_made_of_storing (below : IdsBelow s) (conduct : storing.op op s)
    (spared : SparesSymbols op s) : StoresMade op s := by
  constructor
  · rintro cell c rfl member
    exact conduct.2 c member
  · rintro ctx id key val rfl
    obtain ⟨k, known, symId⟩ := conduct
    have symbol : s.typeOf key = some .symbol := spared
    rw [State.typeOf, known] at symbol
    obtain ⟨id', symId', less⟩ := below key k known (Option.some.inj symbol)
    rw [symId] at symId'
    cases symId'
    exact less

/-- In a run that spares the symbols the slots of ids that no symbol has stay empty. -/
theorem slots_made_reached (extensions : Storing W) {α : Type} {program rest : Prog α}
    (keeps : Stores W program) (made : SlotsMade s) (below : IdsBelow s)
    (reached : (runtime W).Reaches program s rest t)
    (spared : ∀ op before, (runtime W).Performs program s op before → SparesSymbols op before) :
    SlotsMade t ∧ IdsBelow t := by
  have steps : ∀ op before answer after, SlotsMade before ∧ IdsBelow before →
      storing.op op before ∧ SparesSymbols op before →
      (runtime W).step op before = some (answer, after) → SlotsMade after ∧ IdsBelow after := by
    rintro op before answer after ⟨made, below⟩ ⟨conduct, spared⟩ stepped
    exact ⟨slots_made_step made (stores_made_of_storing below conduct spared) stepped,
      ids_below_step below conduct spared stepped⟩
  refine guarded_invariant (fun op before => storing.op op before ∧ SparesSymbols op before) steps
    reached (fun op before performed => ?_) ⟨made, below⟩
  exact ⟨storing_performed extensions keeps performed, spared op before performed⟩

end Slots

section Interning

variable {W : World} {s t u : State} {name : CStr} {key : Ptr} {id : Nat}

/-- A state in which the symbols are in order. -/
structure Formed (s : State) : Prop where
  sound : Sound s
  closed : Closed s
  ids : SymbolsMade s
  slots : SlotsMade s

/-- The symbol that is found under the name has the name, if there is one. -/
structure Exact (s : State) (name : CStr) : Prop where
  whole : name.length ≤ symKeySize
  unshared : ∀ entry, s.symbolTable.find? (·.key == name) = some entry →
    SymbolInterning.nameOf s (.ref entry.sym) = some name

/-- Later than `s` there may be more symbols and other cells, but nothing is bound that was
not bound in `s`. -/
structure Later (s t : State) : Prop where
  extended : Extends s t
  sound : Sound t
  ids : SymbolsMade t
  last : s.lastSymId ≤ t.lastSymId
  old : ∀ name entry, s.symbolTable.find? (·.key == name) = some entry →
    t.symbolTable.find? (·.key == name) = some entry
  new : ∀ name entry, s.symbolTable.find? (·.key == name) = none →
    t.symbolTable.find? (·.key == name) = some entry →
    SymbolInterning.nameOf t (.ref entry.sym) = some name ∧
      ∃ id, symIdOf t (.ref entry.sym) = some id ∧ s.lastSymId ≤ id
  bound : ∀ p i, boundTo t p i = boundTo s p i

theorem later_refl (sound : Sound s) (ids : SymbolsMade s) : Later s s where
  extended := extends_refl s
  sound := sound
  ids := ids
  last := Nat.le_refl _
  old _ _ found := found
  new _ _ missed found := by
    rw [missed] at found
    cases found
  bound _ _ := rfl

theorem sym_id_extends (extended : Extends s t) (known : symIdOf s key = some id) :
    symIdOf t key = some id := by
  obtain ⟨c, found, symId⟩ := Option.bind_eq_some_iff.1 known
  exact Option.bind_eq_some_iff.2 ⟨c, extended key c found, symId⟩

theorem name_of_extends (extended : Extends s t)
    (known : SymbolInterning.nameOf s key = some name) :
    SymbolInterning.nameOf t key = some name := by
  obtain ⟨c, found, sVal⟩ := Option.bind_eq_some_iff.1 known
  exact Option.bind_eq_some_iff.2 ⟨c, extended key c found, sVal⟩

theorem later_trans (first : Later s t) (second : Later t u) : Later s u where
  extended := extends_trans first.extended second.extended
  sound := second.sound
  ids := second.ids
  last := Nat.le_trans first.last second.last
  old name entry found := second.old name entry (first.old name entry found)
  new name entry missed found := by
    cases between : t.symbolTable.find? (·.key == name) with
    | none =>
        obtain ⟨called, id, named, least⟩ := second.new name entry between found
        exact ⟨called, id, named, Nat.le_trans first.last least⟩
    | some other =>
        obtain rfl := Option.some.inj ((second.old name other between).symm.trans found)
        obtain ⟨called, id, named, least⟩ := first.new name other missed between
        exact ⟨name_of_extends second.extended called, id, sym_id_extends second.extended named, least⟩
  bound p i := (second.bound p i).trans (first.bound p i)

/-- Only a name that fills the whole key can be shared. -/
theorem exact_of_short (sound : Sound s) (short : name.length < symKeySize) : Exact s name where
  whole := Nat.le_of_lt short
  unshared entry found := by
    obtain ⟨mem, key⟩ := SymbolInterning.find_key found
    obtain ⟨whole, named, cut⟩ := sound.keys.cut entry mem
    rw [key] at cut
    have length := congrArg List.length cut
    rw [List.length_take] at length
    rw [named, cut, List.take_of_length_le]
    omega

/-- In a path that is shorter than a key no part is shared. -/
theorem exact_of_short_path {names : List CStr} (sound : Sound s)
    (short : (path names).length < symKeySize) (part : List CStr) (_some : part ≠ [])
    (within : part <:+: names) : Exact s (path part) :=
  exact_of_short sound (Nat.lt_of_le_of_lt (path_length_le within) short)

theorem later_mk_symbol (later : Later s t) (exact_ : Exact s name) :
    Later s (blMkSymbol name t).2 := by
  have made := mk_symbol_made later.ids name
  have extended := mk_symbol_extends name t
  have sound := runs_sound (W := World.bare) later.sound (runs_mk_symbol name t)
  have bound := bound_to_mk_symbol name t
  cases missed : t.symbolTable.find? (·.key == name) with
  | some entry =>
      rw [SymbolInterning.mk_symbol_found missed]
      exact later
  | none =>
      rw [SymbolInterning.mk_symbol_entered missed] at made extended sound bound ⊢
      have whole : name.take symKeySize = name := List.take_of_length_le exact_.whole
      have others {other : CStr} (apart : other ≠ name) :
          (SymbolInterning.entered name t).symbolTable.find? (·.key == other) =
            t.symbolTable.find? (·.key == other) := by
        refine List.find?_cons_of_neg ?_
        rw [whole]
        simpa using fun same => apart same.symm
      refine ⟨extends_trans later.extended extended, sound, made.1,
        Nat.le_succ_of_le later.last, fun other entry found => ?_, fun other entry none_ found => ?_,
        fun p i => (bound p i).trans (later.bound p i)⟩
      · have old := later.old other entry found
        rw [others, old]
        rintro rfl
        rw [missed] at old
        cases old
      · by_cases same : other = name
        · subst same
          have here : (SymbolInterning.entered other t).symbolTable.find? (·.key == other) =
              some ⟨other.take symKeySize, t.fresh⟩ := List.find?_cons_of_pos (by simp [whole])
          rw [here] at found
          cases found
          exact ⟨SymbolInterning.name_of_entered other t, _, sym_id_entered other t, later.last⟩
        · rw [others same] at found
          obtain ⟨called, i, named, least⟩ := later.new other entry none_ found
          exact ⟨name_of_extends extended called, i, sym_id_extends extended named, least⟩

/-- The key is the symbol of the name, with this id. -/
def SymbolOf (t : State) (key : Ptr) (name : CStr) (id : Nat) : Prop :=
  ∃ cell, t.cell key = some cell ∧ cell.type = .symbol ∧ cell.sVal = some name ∧
    cell.symId = some id

/-- The id that the name has in `s`, or that it may be given later. -/
def IdOf (s : State) (name : CStr) (id : Nat) : Prop :=
  (∃ entry, s.symbolTable.find? (·.key == name) = some entry ∧
    symIdOf s (.ref entry.sym) = some id) ∨
  (s.symbolTable.find? (·.key == name) = none ∧ s.lastSymId ≤ id)

theorem mk_symbol_enters (whole : name.length ≤ symKeySize) (t : State) :
    ∃ entry, (blMkSymbol name t).2.symbolTable.find? (·.key == name) = some entry ∧
      (blMkSymbol name t).1 = .ref entry.sym := by
  cases found : t.symbolTable.find? (·.key == name) with
  | some entry =>
      rw [SymbolInterning.mk_symbol_found found]
      exact ⟨entry, found, rfl⟩
  | none =>
      rw [SymbolInterning.mk_symbol_entered found]
      refine ⟨_, List.find?_cons_of_pos ?_, rfl⟩
      rw [List.take_of_length_le whole]
      exact beq_self_eq_true name

theorem name_of_found (exact_ : Exact s name) (later : Later s t) {entry : SymHash}
    (found : t.symbolTable.find? (·.key == name) = some entry) :
    SymbolInterning.nameOf t (.ref entry.sym) = some name := by
  cases before : s.symbolTable.find? (·.key == name) with
  | some old =>
      obtain rfl := Option.some.inj ((later.old name old before).symm.trans found)
      exact name_of_extends later.extended (exact_.unshared old before)
  | none => exact (later.new name entry before found).1

theorem exact_later (exact_ : Exact s name) (later : Later s t) : Exact t name :=
  ⟨exact_.whole, fun _ => name_of_found exact_ later⟩

theorem later_interned (exact_ : Exact s name) (later : Later s t) :
    Later t (blMkSymbol name t).2 :=
  later_mk_symbol (later_refl later.sound later.ids) (exact_later exact_ later)

theorem symbol_made (ids : SymbolsMade s) (later : Later s t) (exact_ : Exact s name) :
    ∃ id, SymbolOf (blMkSymbol name t).2 (blMkSymbol name t).1 name id ∧ IdOf s name id := by
  have after := later_mk_symbol later exact_
  obtain ⟨entry, found, isRef⟩ := mk_symbol_enters exact_.whole t
  rw [isRef]
  have mem := (SymbolInterning.find_key found).1
  obtain ⟨id, named⟩ := after.ids entry mem
  obtain ⟨cell, known, symId⟩ := Option.bind_eq_some_iff.1 named
  obtain ⟨cell', known', type⟩ := Option.map_eq_some_iff.1 (after.sound.symbols entry mem)
  obtain ⟨cell'', known'', sVal⟩ := Option.bind_eq_some_iff.1 (name_of_found exact_ after found)
  obtain rfl := Option.some.inj (known.symm.trans known')
  obtain rfl := Option.some.inj (known.symm.trans known'')
  refine ⟨id, ⟨cell, known, type, sVal, symId⟩, ?_⟩
  cases before : s.symbolTable.find? (·.key == name) with
  | some old =>
      obtain rfl := Option.some.inj ((after.old name old before).symm.trans found)
      obtain ⟨id', named'⟩ := ids old (SymbolInterning.find_key before).1
      obtain rfl := Option.some.inj ((sym_id_extends after.extended named').symm.trans named)
      exact .inl ⟨old, before, named'⟩
  | none =>
      obtain ⟨_, id', named', least⟩ := after.new name entry before found
      obtain rfl := Option.some.inj (named'.symm.trans named)
      exact .inr ⟨before, least⟩

theorem plain_symbol (component : Component name) (symbol : SymbolOf t key name id) :
    PlainSymbol t key id := by
  obtain ⟨cell, known, type, sVal, symId⟩ := symbol
  exact ⟨cell, name, known, type, sVal, symId, component.unquoted, separator_missed component⟩

end Interning

section Lookups

variable {W : World} {s t u : State} {p q key v : Ptr} {c : Ctx} {id i j n : Nat} {name : CStr}

/-- How the look-up of an id ends: with a value, with the custom getter of a context, or at
a cell that is no context. -/
inductive Ending where
  | gives (v : Ptr)
  | asks (number : Nat) (ctx : Ptr)
  | breaks

/-- The look-up of the id from a context comes to the end. -/
inductive Looks (s : State) (id : Nat) : Ptr → Ending → Prop
  | breaks {p : Ptr} (missing : ctxAt s p = none) : Looks s id p .breaks
  | asks {p : Ptr} {c : Ctx} {n : Nat} (known : ctxAt s p = some c) (custom : c.ctxGet = some n) :
      Looks s id p (.asks n p)
  | found {p : Ptr} {c : Ctx} (known : ctxAt s p = some c) (plain : c.ctxGet = none)
      (bound : boundTo s p id ≠ .null) : Looks s id p (.gives (boundTo s p id))
  | absent {p : Ptr} {c : Ctx} (known : ctxAt s p = some c) (plain : c.ctxGet = none)
      (empty : boundTo s p id = .null) (top : c.parent = .null) : Looks s id p (.gives .null)
  | above {p : Ptr} {c : Ctx} {o : Ending} (known : ctxAt s p = some c) (plain : c.ctxGet = none)
      (empty : boundTo s p id = .null) (inner : c.parent ≠ .null) (later : Looks s id c.parent o) :
      Looks s id p o

theorem unmade_unbound (formed : Formed s) (unmade : s.lastSymId ≤ id) (p : Ptr) :
    boundTo s p id = .null := by
  cases known : ctxAt s p with
  | none => rw [boundTo, known]; rfl
  | some c => rw [bound_to_context known, (formed.slots p c known).2 id unmade]

/-- The look-up of a name does not depend on the id it is given. -/
theorem looks_by_name (formed : Formed s) (first : IdOf s name i) (second : IdOf s name j)
    {o : Ending} (looks : Looks s i p o) : Looks s j p o := by
  have same : ∀ q, boundTo s q i = boundTo s q j := by
    rcases first with ⟨entry, found, named⟩ | ⟨missed, unmade⟩
    · rcases second with ⟨entry', found', named'⟩ | ⟨missed, _⟩
      · obtain rfl := Option.some.inj (found.symm.trans found')
        obtain rfl := Option.some.inj (named.symm.trans named')
        exact fun _ => rfl
      · rw [found] at missed
        cases missed
    · rcases second with ⟨entry', found', _⟩ | ⟨_, unmade'⟩
      · rw [missed] at found'
        cases found'
      · exact fun q => (unmade_unbound formed unmade q).trans (unmade_unbound formed unmade' q).symm
  induction looks with
  | breaks missing => exact .breaks missing
  | asks known custom => exact .asks known custom
  | found known plain bound =>
      rw [same] at bound ⊢
      exact .found known plain bound
  | absent known plain empty top => exact .absent known plain (same _ ▸ empty) top
  | above known plain empty inner later ih => exact .above known plain (same _ ▸ empty) inner ih

theorem ctx_at_later (extended : Extends s t) (away : Away [] s p) : ctxAt t p = ctxAt s p := by
  cases p with
  | ref a =>
      have bound := (away a rfl).1
      have known : s.cell (.ref a) = some s.cells[a] := List.getElem?_eq_getElem bound
      rw [ctxAt, ctxAt, extended _ _ known, known]
  | null => rfl
  | wild => rfl

theorem sized_slot (sized : Sized c) (inside : id < c.valsCount) :
    c.vals[id]? = some (c.vals.getD id .null) := by
  have bound : id < c.vals.length := by
    rw [sized.2]
    exact inside
  rw [List.getD_eq_getElem?_getD, List.getElem?_eq_getElem bound, Option.getD_some]

theorem ctx_get_reaches (named : PlainSymbol t key id) (known : ctxAt t p = some c)
    (plain : c.ctxGet = none) :
    (runtime W).Reaches (ctxGetBody p key) t (ctxLookup c p key id) t := by
  obtain ⟨cell, name, found, type, sVal, symId, unquoted, noPath⟩ := named
  have isSymbol : ¬ cell.type ≠ .symbol := fun other => other type
  rw [ctxGetBody, if_neg (cell_ne_null found)]
  refine reaches_after (runs_load_at known) ?_
  simp only [plain]
  refine reaches_after (runs_load found) ?_
  rw [if_neg isSymbol]
  refine reaches_after (runs_member sVal t) ?_
  rw [if_neg unquoted]
  simp only [noPath]
  exact reaches_after (runs_member symId t) (.refl _ _)

/-- Where the slot is empty the parent is asked. -/
theorem lookup_reaches_parent (known : ctxAt t p = some c) (sized : Sized c)
    (empty : boundTo t p id = .null) (inner : c.parent ≠ .null) :
    (runtime W).Reaches (ctxLookup c p key id) t (blCtxGet c.parent key) t := by
  have nothing : ¬ Ptr.null ≠ .null := fun h => h rfl
  rw [bound_to_context known] at empty
  rw [ctxLookup]
  by_cases inside : id < c.valsCount
  · have slot := sized_slot sized inside
    rw [empty] at slot
    rw [if_pos inside]
    refine reaches_after (runs_ctx_val known slot) ?_
    dsimp only
    rw [if_neg nothing, if_pos inner]
    exact .refl _ _
  · rw [if_neg inside]
    refine reaches_after (runs_pure_self Ptr.null t) ?_
    dsimp only
    rw [if_neg nothing, if_pos inner]
    exact .refl _ _

/-- The program does what the end of the look-up says. -/
def EndsAs (W : World) (key : Ptr) (t : State) : Ending → Prog Ptr → Prop
  | .gives v, program => (runtime W).Runs program t v t
  | .asks number ctx, program => (runtime W).Reaches program t (call (.customGet number ctx key)) t
  | .breaks, program => ∀ v u, ¬ (runtime W).Runs program t v u

theorem ends_as_reached {o : Ending} {program rest : Prog Ptr}
    (reached : (runtime W).Reaches program t rest t) (ends : EndsAs W key t o rest) :
    EndsAs W key t o program := by
  cases o with
  | gives v => exact (reaches_runs_iff reached).2 ends
  | asks number ctx => exact reaches_trans reached ends
  | breaks => exact fun v u run => ends v u ((reaches_runs_iff reached).1 run)

theorem get_reaches_lookup (named : PlainSymbol t key id) (known : ctxAt t p = some c)
    (plain : c.ctxGet = none) :
    (runtime W).Reaches (blCtxGet p key) t (ctxLookup c p key id) t :=
  reaches_call (c := .ctxGet p key) (ctx_get_reaches named known plain)

theorem get_reaches_parent (named : PlainSymbol t key id) (known : ctxAt t p = some c)
    (plain : c.ctxGet = none) (sized : Sized c) (empty : boundTo t p id = .null)
    (inner : c.parent ≠ .null) :
    (runtime W).Reaches (blCtxGet p key) t (blCtxGet c.parent key) t :=
  reaches_trans (get_reaches_lookup named known plain)
    (lookup_reaches_parent known sized empty inner)

theorem no_context_faults {α : Type} {f : Ctx → Prog α} {r : α} (missing : ctxAt t p = none) :
    ¬ (runtime W).Runs (loadCtx p >>= f) t r u := by
  intro run
  rw [loadCtx, LawfulMonad.bind_assoc, runs_load_iff] at run
  obtain ⟨cell, known, run⟩ := run
  obtain ⟨c, member, _⟩ := runs_member_iff.1 run
  rw [ctxAt, known, Option.bind_some, member] at missing
  cases missing

/-- As far as the id goes the contexts of `s` are the same in `t`. -/
structure SlotsKept (s t : State) (id : Nat) : Prop where
  missing : ∀ p, Away [] s p → ctxAt s p = none → ctxAt t p = none
  context : ∀ p c, ctxAt s p = some c → ∃ d, ctxAt t p = some d ∧ Sized d ∧ d.parent = c.parent ∧
    d.ctxGet = c.ctxGet ∧ boundTo t p id = boundTo s p id

theorem slots_kept_later (formed : Formed s) (later : Later s t) (id : Nat) : SlotsKept s t id where
  missing _ away missing := (ctx_at_later later.extended away).trans missing
  context p c known := by
    refine ⟨c, ?_, (formed.slots p c known).1, rfl, rfl, later.bound p id⟩
    obtain ⟨cell, found, member⟩ := Option.bind_eq_some_iff.1 known
    exact Option.bind_eq_some_iff.2 ⟨cell, later.extended p cell found, member⟩

theorem get_ends_kept (closed : Closed s) (kept : SlotsKept s t id) (named : PlainSymbol t key id)
    {o : Ending} (away : Away [] s p) (looks : Looks s id p o) :
    EndsAs W key t o (blCtxGet p key) := by
  have isKey : key ≠ .null := by
    obtain ⟨cell, _, isSymbol, _⟩ := named
    exact cell_ne_null isSymbol
  induction looks with
  | breaks missing =>
      intro v u run
      rw [runs_ctx_get, ctxGetBody, if_neg isKey] at run
      exact no_context_faults (kept.missing _ away missing) run
  | asks known custom =>
      obtain ⟨d, there, _, _, getter, _⟩ := kept.context _ _ known
      refine reaches_call (c := .ctxGet _ key) ?_
      change (runtime W).Reaches (ctxGetBody _ key) _ _ _
      rw [ctxGetBody, if_neg isKey]
      refine reaches_after (runs_load_at there) ?_
      simp only [getter.trans custom]
      exact .refl _ _
  | @found p c known plain bound =>
      obtain ⟨d, there, sized, _, getter, same⟩ := kept.context p c known
      refine ends_as_reached (get_reaches_lookup named there (getter.trans plain)) ?_
      rw [← same] at bound ⊢
      rw [bound_to_context there] at bound ⊢
      have inside : id < d.valsCount := by
        by_contra outside
        have length := sized.2
        rw [List.getD_eq_getElem?_getD, List.getElem?_eq_none (by omega)] at bound
        exact bound rfl
      exact (lookup_filled there inside (sized_slot sized inside) bound).2 ⟨rfl, rfl⟩
  | @absent p c known plain empty top =>
      obtain ⟨d, there, sized, parent, getter, same⟩ := kept.context p c known
      refine ends_as_reached (get_reaches_lookup named there (getter.trans plain)) ?_
      rw [← same, bound_to_context there] at empty
      have none_ : d.Empty id := fun inside => empty ▸ sized_slot sized inside
      refine (lookup_empty there none_).2 ?_
      rw [if_neg fun inner => inner (parent.trans top)]
      exact runs_pure_self _ _
  | @above p c o known plain empty inner rest ih =>
      obtain ⟨d, there, sized, parent, getter, same⟩ := kept.context p c known
      have asked := get_reaches_parent (W := W) named there (getter.trans plain) sized
        (same.trans empty) (parent ▸ inner)
      rw [parent] at asked
      exact ends_as_reached asked (ih (context_away closed known).1)

/-- A look-up that never comes to an end gives nothing. -/
theorem endless_kept (closed : Closed s) (kept : SlotsKept s t id) (named : PlainSymbol t key id)
    (away : Away [] s p) (endless : ∀ o, ¬ Looks s id p o) :
    ¬ (runtime W).Runs (blCtxGet p key) t v u := by
  let turning (call : Call) (state : State) : Prop :=
    ∃ q, call = .ctxGet q key ∧ state = t ∧ Away [] s q ∧ ∀ o, ¬ Looks s id q o
  refine no_run_of_turns turning ?_ ⟨p, rfl, rfl, away, endless⟩
  rintro _ _ ⟨q, rfl, rfl, away, endless⟩
  cases known : ctxAt s q with
  | none => exact absurd (.breaks known) (endless _)
  | some c =>
      cases custom : c.ctxGet with
      | some number => exact absurd (.asks known custom) (endless _)
      | none =>
          by_cases bound : boundTo s q id = .null
          · by_cases top : c.parent = .null
            · exact absurd (.absent known custom bound top) (endless _)
            · obtain ⟨d, there, sized, parent, getter, same⟩ := kept.context q c known
              refine ⟨.ctxGet c.parent key, .done, _, ?_, c.parent, rfl, rfl,
                (context_away closed known).1, fun o looks => endless o ?_⟩
              · rw [← parent] at top ⊢
                exact reaches_trans (ctx_get_reaches named there (getter.trans custom))
                  (lookup_reaches_parent there sized (same.trans bound) top)
              · exact .above known custom bound top looks
          · exact absurd (.found known custom bound) (endless _)

/-- `bl_ctx_get` of a name, some symbols later than `s`. -/
theorem get_ends_as (formed : Formed s) (later : Later s t) (named : PlainSymbol t key id)
    {o : Ending} (away : Away [] s p) (looks : Looks s id p o) :
    EndsAs W key t o (blCtxGet p key) :=
  get_ends_kept formed.closed (slots_kept_later formed later id) named away looks

theorem endless_look_up (formed : Formed s) (later : Later s t) (named : PlainSymbol t key id)
    (away : Away [] s p) (endless : ∀ o, ¬ Looks s id p o) :
    ¬ (runtime W).Runs (blCtxGet p key) t v u :=
  endless_kept formed.closed (slots_kept_later formed later id) named away endless

theorem looked_up_away (formed : Formed s) (away : Away [] s p) (looks : Looks s id p (.gives v)) :
    Away [] s v := by
  generalize same : Ending.gives v = o at looks
  induction looks with
  | breaks missing => cases same
  | asks known custom => cases same
  | found known plain bound =>
      cases same
      exact (context_away formed.closed known).2 id
  | absent known plain empty top =>
      cases same
      rintro a ⟨⟩
  | above known plain empty inner rest ih => exact ih (context_away formed.closed known).1 same

theorem asked_getter (looks : Looks s id p (.asks n q)) : ∃ c, ctxAt s q = some c ∧ c.ctxGet = some n := by
  generalize same : Ending.asks n q = o at looks
  induction looks with
  | breaks missing => cases same
  | asks known custom =>
      cases same
      exact ⟨_, known, custom⟩
  | found known plain bound => cases same
  | absent known plain empty top => cases same
  | above known plain empty inner rest ih => exact ih same

end Lookups

section Paths

variable {W : World} {s t t' u : State} {p m ctx : Ptr} {name last : CStr} {names : List CStr}

def nameLookup (ctx : Ptr) (name : CStr) : Prog Ptr := do
  let key ← mkSymbol name
  blCtxGet ctx key

def PlainContext (s : State) (p : Ptr) : Prop :=
  ∃ cell c, s.cell p = some cell ∧ cell.type = .ctx ∧ cell.asCtx = some c ∧ c.ctxGet = none

/-- Where a custom getter gives a plain context for a name, this is a context that was
there before, it is given for the name every time, and nothing is bound. -/
def GettersByName (W : World) (s : State) : Prop :=
  ∀ number q c name t key id m u, ctxAt s q = some c → c.ctxGet = some number → Later s t →
    SymbolOf t key name id → (runtime W).Runs (call (.customGet number q key)) t m u →
    PlainContext u m → PlainContext s m ∧
      ∀ t' key' id', Later s t' → SymbolOf t' key' name id' →
        ∃ u', (runtime W).Runs (call (.customGet number q key')) t' m u' ∧ Later t' u'

/-- Whenever the name is looked up from the context, this is what it stands for. -/
def Answers (W : World) (s : State) (p : Ptr) (name : CStr) (m : Ptr) : Prop :=
  ∀ t, Later s t → ∃ u, (runtime W).Runs (nameLookup p name) t m u ∧ Later t u

/-- From the context the names lead to the module, one after the other. -/
inductive Leads (W : World) (s : State) : Ptr → List CStr → Ptr → Prop
  | here (p : Ptr) : Leads W s p [] p
  | on {p q m : Ptr} {name : CStr} {names : List CStr} (answers : Answers W s p name q)
      (module : PlainContext s q) (rest : Leads W s q names m) : Leads W s p (name :: names) m

/-- The program asks the custom getter of the context for the name. -/
def AsksFor (W : World) (s : State) (program : Prog Ptr) (number : Nat) (ctx : Ptr)
    (name : CStr) : Prop :=
  ∃ key id t, (runtime W).Reaches program s (call (.customGet number ctx key)) t ∧
    SymbolOf t key name id

/-- The two give the same value, or leave it to the same custom getter to give one for the
name. -/
def SameLookUp (W : World) (name : CStr) (s : State) (first : Prog Ptr) (t : State)
    (second : Prog Ptr) : Prop :=
  (∀ v, (∃ u, (runtime W).Runs first s v u) ↔ ∃ u, (runtime W).Runs second t v u) ∨
  ∃ number ctx, AsksFor W s first number ctx name ∧ AsksFor W t second number ctx name

theorem plain_context_at (plain : PlainContext s p) : ∃ c, ctxAt s p = some c ∧ c.ctxGet = none := by
  obtain ⟨cell, c, known, _, member, custom⟩ := plain
  exact ⟨c, Option.bind_eq_some_iff.2 ⟨cell, known, member⟩, custom⟩

theorem plain_context_away (plain : PlainContext s p) : Away [] s p := by
  obtain ⟨cell, _, known, _⟩ := plain
  rintro a rfl
  exact ⟨State.ref_lt_fresh known, List.not_mem_nil⟩

theorem plain_context_ne_null (plain : PlainContext s p) : p ≠ .null := by
  obtain ⟨cell, _, known, _⟩ := plain
  exact cell_ne_null known

theorem plain_context_before (extended : Extends s t) (away : Away [] s p)
    (plain : PlainContext t p) : PlainContext s p := by
  obtain ⟨cell, c, known, shape⟩ := plain
  obtain ⟨a, rfl⟩ := State.ref_of_cell known
  have bound := (away a rfl).1
  have before : s.cell (.ref a) = some s.cells[a] := List.getElem?_eq_getElem bound
  obtain rfl := Option.some.inj ((extended _ _ before).symm.trans known)
  exact ⟨_, c, before, shape⟩

theorem look_up_reaches (formed : Formed s) (later : Later s t) (exact_ : Exact s name) (p : Ptr) :
    ∃ key id t', (runtime W).Reaches (nameLookup p name) t (blCtxGet p key) t' ∧ Later t t' ∧
      SymbolOf t' key name id ∧ IdOf s name id := by
  obtain ⟨id, symbol, ofName⟩ := symbol_made formed.ids later exact_
  exact ⟨_, id, _, reaches_after (runs_mk_symbol name t) (.refl _ _), later_interned exact_ later,
    symbol, ofName⟩

/-- However the look-up of the name ends, it ends so at every later time. -/
theorem look_up_ends (formed : Formed s) (component : Component name) (exact_ : Exact s name)
    (away : Away [] s p) {id : Nat} (ofName : IdOf s name id) {o : Ending} (looks : Looks s id p o)
    (later : Later s t) :
    ∃ key id' t', (runtime W).Reaches (nameLookup p name) t (blCtxGet p key) t' ∧ Later t t' ∧
      SymbolOf t' key name id' ∧ EndsAs W key t' o (blCtxGet p key) := by
  obtain ⟨key, id', t', reached, later', symbol, ofName'⟩ :=
    look_up_reaches (W := W) formed later exact_ p
  exact ⟨key, id', t', reached, later', symbol, get_ends_as formed (later_trans later later')
    (plain_symbol component symbol) away (looks_by_name formed ofName ofName' looks)⟩

theorem answers_of_looks (formed : Formed s) (component : Component name) (exact_ : Exact s name)
    (away : Away [] s p) {id : Nat} (ofName : IdOf s name id) (looks : Looks s id p (.gives m)) :
    Answers W s p name m := by
  intro t later
  obtain ⟨_, _, u, reached, later', _, ends⟩ :=
    look_up_ends (W := W) formed component exact_ away ofName looks later
  exact ⟨u, (reaches_runs_iff reached).2 ends, later'⟩

/-- A name that was once looked up as a module is this module at every later time. -/
theorem answers_of_run (formed : Formed s) (getters : GettersByName W s)
    (component : Component name) (exact_ : Exact s name) (away : Away [] s p) (later : Later s t)
    (run : (runtime W).Runs (nameLookup p name) t m u) (module : PlainContext u m) :
    PlainContext s m ∧ Answers W s p name m := by
  obtain ⟨key, id, t₁, reached, after, symbol, ofName⟩ :=
    look_up_reaches (W := W) formed later exact_ p
  have later₁ := later_trans later after
  have named := plain_symbol component symbol
  have run := (reaches_runs_iff reached).1 run
  by_cases ends : ∃ o, Looks s id p o
  · obtain ⟨o, looks⟩ := ends
    have here := get_ends_as (W := W) formed later₁ named away looks
    cases o with
    | gives v =>
        obtain ⟨rfl, rfl⟩ := runs_functional run here
        exact ⟨plain_context_before later₁.extended (looked_up_away formed away looks) module,
          answers_of_looks formed component exact_ away ofName looks⟩
    | asks number q =>
        obtain ⟨c, known, custom⟩ := asked_getter looks
        obtain ⟨before, answers⟩ := getters number q c name t₁ key id m u known custom later₁ symbol
          ((reaches_runs_iff here).1 run) module
        refine ⟨before, fun t' later' => ?_⟩
        obtain ⟨key', id', t₂, reached', later₂, symbol', there⟩ :=
          look_up_ends (W := W) formed component exact_ away ofName looks later'
        obtain ⟨u', run', later₃⟩ := answers t₂ key' id' (later_trans later' later₂) symbol'
        exact ⟨u', (reaches_runs_iff (reaches_trans reached' there)).2 run',
          later_trans later₂ later₃⟩
    | breaks => exact absurd run (here m u)
  · exact absurd run (endless_look_up formed later₁ named away fun o looks => ends ⟨o, looks⟩)

theorem same_look_up (formed : Formed s) (component : Component name) (exact_ : Exact s name)
    (away : Away [] s p) (first : Later s t) (second : Later s t') :
    SameLookUp W name t (nameLookup p name) t' (nameLookup p name) := by
  obtain ⟨key, id, t₁, reached, after, symbol, ofName⟩ :=
    look_up_reaches (W := W) formed first exact_ p
  have later₁ := later_trans first after
  by_cases ends : ∃ o, Looks s id p o
  · obtain ⟨o, looks⟩ := ends
    have here := get_ends_as (W := W) formed later₁ (plain_symbol component symbol) away looks
    obtain ⟨key', id', t₂, reached', later₂, symbol', there⟩ :=
      look_up_ends (W := W) formed component exact_ away ofName looks second
    cases o with
    | gives v =>
        have run := (reaches_runs_iff reached).2 here
        have run' := (reaches_runs_iff reached').2 there
        refine .inl fun w => ⟨?_, ?_⟩
        · rintro ⟨u, other⟩
          obtain ⟨rfl, rfl⟩ := runs_functional other run
          exact ⟨_, run'⟩
        · rintro ⟨u, other⟩
          obtain ⟨rfl, rfl⟩ := runs_functional other run'
          exact ⟨_, run⟩
    | asks number q =>
        exact .inr ⟨number, q, ⟨key, id, t₁, reaches_trans reached here, symbol⟩,
          ⟨key', id', t₂, reaches_trans reached' there, symbol'⟩⟩
    | breaks =>
        refine .inl fun w => ⟨?_, ?_⟩
        · rintro ⟨u, run⟩
          exact absurd ((reaches_runs_iff reached).1 run) (here w u)
        · rintro ⟨u, run⟩
          exact absurd ((reaches_runs_iff reached').1 run) (there w u)
  · obtain ⟨key', id', t₂, reached', after', symbol', ofName'⟩ :=
      look_up_reaches (W := W) formed second exact_ p
    have later₂ := later_trans second after'
    refine .inl fun w => ⟨?_, ?_⟩
    · rintro ⟨u, run⟩
      refine absurd ((reaches_runs_iff reached).1 run) (endless_look_up formed later₁
        (plain_symbol component symbol) away fun o looks => ends ⟨o, looks⟩)
    · rintro ⟨u, run⟩
      refine absurd ((reaches_runs_iff reached').1 run) (endless_look_up formed later₂
        (plain_symbol component symbol') away fun o looks => ends ⟨o, ?_⟩)
      exact looks_by_name formed ofName' ofName looks

/-- The look-up of a path comes to the look-up of its last name in the module that the names
before it lead to. -/
theorem path_reaches (formed : Formed s) (leads : Leads W s p names m) (plain : PlainContext s p)
    (components : ∀ name ∈ names, Component name)
    (exact_ : ∀ part, part ≠ [] → part <:+ names ++ [last] → Exact s (path part))
    (later : Later s t) :
    ∃ t', Later t t' ∧
      (runtime W).Reaches (nameLookup p (path (names ++ [last]))) t (nameLookup m last) t' := by
  induction leads generalizing t with
  | here p =>
      rw [List.nil_append, path_single]
      exact ⟨t, later_refl later.sound later.ids, .refl _ _⟩
  | @on p q m name names answers module rest ih =>
      have component := components name List.mem_cons_self
      have whole : path (name :: names ++ [last]) = name ++ (text "::" ++ path (names ++ [last])) := by
        rw [List.cons_append, path_cons name (by simp)]
      obtain ⟨key, id, t₁, reached, after, symbol, _⟩ := look_up_reaches (W := W) formed later
        (exact_ (name :: names ++ [last]) (by simp) List.suffix_rfl) p
      have later₁ := later_trans later after
      obtain ⟨u, found, after'⟩ := answers t₁ later₁
      obtain ⟨t', later₂, rest⟩ := ih module (fun other mem => components other (.tail _ mem))
        (fun part some_ suffix => exact_ part some_ (suffix.trans (List.suffix_cons _ _)))
        (later_trans later₁ after')
      refine ⟨t', later_trans after (later_trans after' later₂),
        reaches_trans reached (reaches_call (c := .ctxGet p key) ?_)⟩
      change (runtime W).Reaches (ctxGetBody p key) _ _ _
      obtain ⟨c, known, custom⟩ := plain_context_at plain
      obtain ⟨cell, isKey, type, sVal, _⟩ := symbol
      have known' := (ctx_at_later later₁.extended (plain_context_away plain)).trans known
      rw [ctxGetBody, if_neg (cell_ne_null isKey)]
      refine reaches_after (runs_load_at known') ?_
      simp only [custom]
      refine reaches_after (runs_load isKey) ?_
      rw [if_neg fun other => other type]
      refine reaches_after (runs_member sVal t₁) ?_
      rw [whole, if_neg (head_of_path component _)]
      simp only [separator_found component]
      rw [List.take_left, ← List.drop_drop, List.drop_left]
      have first := reaches_of_runs (f := fun other =>
        if other = .null then pure Ptr.null else nameLookup other (path (names ++ [last]))) found
      rw [nameLookup, LawfulMonad.bind_assoc] at first
      refine reaches_trans first ?_
      rw [if_neg (plain_context_ne_null module)]
      exact rest

/-- A path stands for what its last name stands for in the module before it. -/
theorem answers_of_path (formed : Formed s) (leads : Leads W s p names m)
    (plain : PlainContext s p) (components : ∀ name ∈ names, Component name)
    (exact_ : ∀ part, part ≠ [] → part <:+ names ++ [last] → Exact s (path part)) {q : Ptr}
    (answers : Answers W s m last q) : Answers W s p (path (names ++ [last])) q := by
  intro t later
  obtain ⟨t', later', reached⟩ := path_reaches formed leads plain components exact_ later
  obtain ⟨u, run, after⟩ := answers t' (later_trans later later')
  exact ⟨u, (reaches_runs_iff reached).2 run, later_trans later' after⟩

theorem leads_snoc (leads : Leads W s p names m) {q : Ptr} (answers : Answers W s m name q)
    (module : PlainContext s q) : Leads W s p (names ++ [name]) q := by
  induction leads with
  | here p => exact .on answers module (.here q)
  | on first inner rest ih => exact .on first inner (ih answers)

/-- The names of a path lead to the module that it is looked up as, where all its prefixes
are looked up as modules. -/
theorem leads_of_prefixes (formed : Formed s) (getters : GettersByName W s)
    (plain : PlainContext s ctx) (components : ∀ name ∈ names, Component name)
    (exact_ : ∀ part, part ≠ [] → part <:+: names → Exact s (path part))
    (prefixes : ∀ k, 0 < k → k ≤ names.length → ∃ m t,
      (runtime W).Runs (nameLookup ctx (path (names.take k))) s m t ∧ PlainContext t m) :
    ∃ m, Leads W s ctx names m ∧ PlainContext s m ∧
      (names ≠ [] → ∃ t, (runtime W).Runs (nameLookup ctx (path names)) s m t ∧ Later s t) := by
  induction names using List.reverseRecOn with
  | nil => exact ⟨ctx, .here ctx, plain, fun some_ => absurd rfl some_⟩
  | append_singleton names name ih =>
      have shorter : names <+: names ++ [name] := List.prefix_append _ _
      obtain ⟨m, leads, module, _⟩ := ih (fun other mem => components other (shorter.subset mem))
        (fun part some_ within => exact_ part some_ (within.trans shorter.isInfix))
        fun k pos most => by
          rw [← List.take_append_of_le_length most]
          exact prefixes k pos (by simp; omega)
      obtain ⟨q, t, run, module'⟩ := prefixes (names ++ [name]).length (by simp) (Nat.le_refl _)
      rw [List.take_length] at run
      obtain ⟨t', later, reached⟩ := path_reaches formed leads plain
        (fun other mem => components other (shorter.subset mem))
        (fun part some_ suffix => exact_ part some_ suffix.isInfix)
        (later_refl formed.sound formed.ids)
      obtain ⟨before, answers⟩ := answers_of_run formed getters
        (components name (by simp)) (path_single name ▸ exact_ [name] (by simp) ⟨names, [], by simp⟩)
        (plain_context_away module) later ((reaches_runs_iff reached).1 run) module'
      refine ⟨q, leads_snoc leads answers before, before, fun _ => ?_⟩
      obtain ⟨u, found, after⟩ := answers t' later
      exact ⟨u, (reaches_runs_iff reached).2 found, later_trans later after⟩

/-- A path is looked up as its last name in the module that the rest of the path is looked
up as. -/
theorem path_looked_up_last (formed : Formed s) (getters : GettersByName W s)
    (plain : PlainContext s ctx) (some_ : names ≠ [])
    (components : ∀ name ∈ names ++ [last], Component name)
    (exact_ : ∀ part, part ≠ [] → part <:+: names ++ [last] → Exact s (path part))
    (prefixes : ∀ k, 0 < k → k ≤ names.length → ∃ m t,
      (runtime W).Runs (nameLookup ctx (path (names.take k))) s m t ∧ PlainContext t m) :
    ∃ m t, (runtime W).Runs (nameLookup ctx (path names)) s m t ∧
      SameLookUp W last s (nameLookup ctx (path (names ++ [last]))) t (nameLookup m last) := by
  have shorter : names <+: names ++ [last] := List.prefix_append _ _
  obtain ⟨m, leads, module, found⟩ := leads_of_prefixes formed getters plain
    (fun other mem => components other (shorter.subset mem))
    (fun part some_ within => exact_ part some_ (within.trans shorter.isInfix)) prefixes
  obtain ⟨t, run, later⟩ := found some_
  obtain ⟨t', later', reached⟩ := path_reaches formed leads plain
    (fun other mem => components other (shorter.subset mem))
    (fun part some_ suffix => exact_ part some_ suffix.isInfix)
    (later_refl formed.sound formed.ids)
  refine ⟨m, t, run, ?_⟩
  have same := same_look_up (W := W) formed (components last (by simp))
    (path_single last ▸ exact_ [last] (by simp) ⟨names, [], by simp⟩) (plain_context_away module)
    later' later
  rcases same with same | ⟨number, q, ⟨key, id, u, asked, symbol⟩, there⟩
  · refine .inl fun v => ?_
    rw [← same v]
    simp only [reaches_runs_iff reached]
  · exact .inr ⟨number, q, ⟨key, id, u, reaches_trans reached asked, symbol⟩, there⟩

/-- The getter of the module `xml` gives no contexts. -/
theorem xml_getter_by_name
    (only : ∀ q c number, ctxAt s q = some c → c.ctxGet = some number → W.customGet number = xGet) :
    GettersByName W s := by
  intro number q c name t key id m u known custom later symbol run module
  have made : (runtime W).Runs (xGet q key) t m u := by
    rw [← only q c number known custom]
    exact runs_call_iff.1 run
  obtain ⟨rfl, rfl⟩ := runs_functional made (runs_alloc _ t)
  obtain ⟨cell, _, found, type, _⟩ := module
  rw [State.cell_allocated_new] at found
  cases found
  cases type

/-- The module `a` of the importer has a module `b`, and this has a `v`; the parent of the
importer is the context of the module `xml`. -/
def nestedModules : State where
  cells := staticCells ++
    [{ type := .symbol, w0 := .str (text "a"), w1 := .ofNat 0 },
     { type := .symbol, w0 := .str (text "b"), w1 := .ofNat 1 },
     { type := .symbol, w0 := .str (text "v"), w1 := .ofNat 2 },
     .mkNumber 7,
     .mkCtx { Ctx.new 3 .null with ctxGet := some xGetNumber },
     .mkCtx { Ctx.new 3 (.ref 11) with keys := [.ref 7, .null, .null], vals := [.ref 13, .null, .null] },
     .mkCtx { Ctx.new 3 (.ref 12) with keys := [.null, .ref 8, .null], vals := [.null, .ref 14, .null] },
     .mkCtx { Ctx.new 3 (.ref 13) with keys := [.null, .null, .ref 9], vals := [.null, .null, .ref 10] }]
  symbolTable := [⟨text "v", 9⟩, ⟨text "b", 8⟩, ⟨text "a", 7⟩]
  lastSymId := 3

theorem nested_modules_formed : Formed nestedModules where
  sound := sound_of_names (statics_of_append _ _ _ _) (by decide) (by decide)
  closed := closed_of_check (by decide) (by decide) (by decide)
  ids := List.forall_mem_cons.2 ⟨⟨2, rfl⟩, List.forall_mem_cons.2 ⟨⟨1, rfl⟩,
    List.forall_mem_cons.2 ⟨⟨0, rfl⟩, fun _ mem => absurd mem List.not_mem_nil⟩⟩⟩
  slots := slots_made_of_check (by decide)

/-- The path `a::b::v`. -/
theorem path_looked_up_last_variable : ∃ m t,
    (runtime World.xml).Runs (nameLookup (.ref 12) (path [text "a", text "b"])) nestedModules m t ∧
      SameLookUp World.xml (text "v") nestedModules
        (nameLookup (.ref 12) (path [text "a", text "b", text "v"])) t (nameLookup m (text "v")) := by
  have formed := nested_modules_formed
  have getters : GettersByName World.xml nestedModules :=
    xml_getter_by_name fun _ _ _ _ _ => rfl
  have components : ∀ name ∈ [text "a", text "b"] ++ [text "v"], Component name := by
    intro name mem
    simp only [List.cons_append, List.nil_append, List.mem_cons, List.not_mem_nil, or_false] at mem
    rcases mem with rfl | rfl | rfl <;> exact ⟨by decide, by decide, by decide⟩
  refine path_looked_up_last formed getters ⟨_, _, rfl, rfl, rfl, rfl⟩ (by decide) components
    (exact_of_short_path formed.sound (by decide)) fun k pos most => ?_
  have two : k ≤ 2 := most
  obtain rfl | rfl : k = 1 ∨ k = 2 := by omega
  · exact ⟨.ref 13, _, ⟨9, rfl⟩, ⟨_, _, rfl, rfl, rfl, rfl⟩⟩
  · exact ⟨.ref 14, _, ⟨9, rfl⟩, ⟨_, _, rfl, rfl, rfl, rfl⟩⟩

end Paths

end BearLang.QualifiedNames
