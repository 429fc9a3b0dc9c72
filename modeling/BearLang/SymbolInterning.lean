import BearLang.Machine

/-!
# Interning of names

A run of calls of `bl_mk_symbol`. The name is looked up whole and stored cut to
31 bytes, so a longer name is never found again, and its first 31 bytes find
it. The results of a run are exact when no name meets either case. Which of several
entries with the same 31 bytes is found depends on the expansions of the hash table;
no result here does.
-/

namespace BearLang.SymbolInterning

set_option autoImplicit false

/-- The calls made one after the other, each name with the value it gave. -/
def mkSymbols : List CStr → State → List (CStr × Ptr) × State
  | [], s => ([], s)
  | name :: names, s =>
      let made := blMkSymbol name s
      let later := mkSymbols names made.2
      ((name, made.1) :: later.1, later.2)

def nameOf (s : State) (p : Ptr) : Option CStr := (s.cell p).bind Cell.sVal

/-- Equal names, and only these, gave equal values, and each value has the name
it was made for. -/
def InternsExactly (names : List CStr) (s : State) : Prop :=
  (∀ x ∈ (mkSymbols names s).1, ∀ y ∈ (mkSymbols names s).1, x.2 = y.2 ↔ x.1 = y.1) ∧
    ∀ x ∈ (mkSymbols names s).1, nameOf (mkSymbols names s).2 x.2 = some x.1

instance (names : List CStr) (s : State) : Decidable (InternsExactly names s) := by
  unfold InternsExactly
  infer_instance

/-- The name does not fit into the key of a table entry. -/
def Long (name : CStr) : Prop := symKeySize < name.length

/-- A name that does not fit is followed neither by itself nor by its key. -/
def KeepsApart (earlier later : CStr) : Prop :=
  Long earlier → later ≠ earlier ∧ later ≠ earlier.take symKeySize

section OneCall

theorem mk_symbol_found {name : CStr} {s : State} {entry : SymHash}
    (found : s.symbolTable.find? (·.key == name) = some entry) :
    blMkSymbol name s = (.ref entry.sym, s) := by
  simp only [blMkSymbol, found]

def entered (name : CStr) (s : State) : State :=
  { s.allocated { type := .symbol, w0 := .str name, w1 := .ofNat s.lastSymId } with
    lastSymId := s.lastSymId + 1
    symbolTable := ⟨name.take symKeySize, s.fresh⟩ :: s.symbolTable }

theorem mk_symbol_entered {name : CStr} {s : State}
    (missed : s.symbolTable.find? (·.key == name) = none) :
    blMkSymbol name s = (.ref s.fresh, entered name s) := by
  simp only [blMkSymbol, missed]
  rfl

theorem name_of_entered (name : CStr) (s : State) :
    nameOf (entered name s) (.ref s.fresh) = some name := by
  have new := State.cell_allocated_new s
    { type := .symbol, w0 := .str name, w1 := .ofNat s.lastSymId }
  simp only [nameOf, State.cell, entered] at new ⊢
  rw [new]
  rfl

theorem entered_keeps_name {s : State} {p : Ptr} {old : CStr} (known : nameOf s p = some old)
    (name : CStr) : nameOf (entered name s) p = some old := by
  simp only [nameOf, Option.bind_eq_some_iff] at known ⊢
  obtain ⟨c, cell, held⟩ := known
  exact ⟨c, State.cell_allocated_old cell _, held⟩

theorem mk_symbol_keeps_name {s : State} {p : Ptr} {old : CStr} (known : nameOf s p = some old)
    (name : CStr) : nameOf (blMkSymbol name s).2 p = some old := by
  cases found : s.symbolTable.find? (·.key == name) with
  | some entry => rwa [mk_symbol_found found]
  | none =>
      rw [mk_symbol_entered found]
      exact entered_keeps_name known name

theorem mk_symbols_keep_name {s : State} {p : Ptr} {old : CStr} (names : List CStr)
    (known : nameOf s p = some old) : nameOf (mkSymbols names s).2 p = some old := by
  induction names generalizing s with
  | nil => exact known
  | cons name names ih => exact ih (mk_symbol_keeps_name known name)

theorem name_of_ref_lt {s : State} {a : Nat} {name : CStr} (known : nameOf s (.ref a) = some name) :
    a < s.fresh := by
  simp only [nameOf, Option.bind_eq_some_iff] at known
  obtain ⟨c, cell, _⟩ := known
  exact State.ref_lt_fresh cell

theorem find_key {table : List SymHash} {name : CStr} {entry : SymHash}
    (found : table.find? (·.key == name) = some entry) : entry ∈ table ∧ entry.key = name :=
  ⟨List.mem_of_find?_eq_some found, by simpa using List.find?_some found⟩

theorem take_of_not_long {name : CStr} (short : ¬ Long name) : name.take symKeySize = name :=
  List.take_of_length_le (Nat.not_lt.1 short)

theorem take_ne_of_long {name : CStr} (long : Long name) (other : CStr) :
    other.take symKeySize ≠ name := by
  intro same
  have bound := congrArg List.length same
  simp only [List.length_take] at bound
  unfold Long at long
  omega

end OneCall

section Sufficient

/-- What holds between the calls made so far and the table, as long as no name
met the entry of another. -/
structure Interned (calls : List (CStr × Ptr)) (s : State) : Prop where
  named : ∀ x ∈ calls, nameOf s x.2 = some x.1
  same : ∀ x ∈ calls, ∀ y ∈ calls, x.1 = y.1 → x.2 = y.2
  entered : ∀ x ∈ calls, ∃ entry ∈ s.symbolTable, entry.key = x.1.take symKeySize
  madeFor : ∀ entry ∈ s.symbolTable, ∃ x ∈ calls,
    x.2 = .ref entry.sym ∧ entry.key = x.1.take symKeySize

theorem interned_found {calls : List (CStr × Ptr)} {s : State} (held : Interned calls s)
    {name : CStr} (apart : ∀ x ∈ calls, KeepsApart x.1 name) {entry : SymHash}
    (found : s.symbolTable.find? (·.key == name) = some entry) :
    Interned (calls ++ [(name, .ref entry.sym)]) s := by
  obtain ⟨mem, key⟩ := find_key found
  obtain ⟨x, called, value, cut⟩ := held.madeFor entry mem
  have short : ¬ Long x.1 := fun long => (apart x called long).2 (by rw [← key, cut])
  have whole : x.1 = name := by rw [← take_of_not_long short, ← cut, key]
  have again : (name, Ptr.ref entry.sym) = x := by
    rw [← whole, ← value]
  have known : ∀ y ∈ calls ++ [(name, Ptr.ref entry.sym)], y ∈ calls := by
    intro y mem
    rcases List.mem_append.1 mem with mem | mem
    · exact mem
    · rw [List.mem_singleton.1 mem, again]
      exact called
  exact
    { named := fun y mem => held.named y (known y mem)
      same := fun y first z second => held.same y (known y first) z (known z second)
      entered := fun y mem => held.entered y (known y mem)
      madeFor := fun other mem => by
        obtain ⟨y, called, made⟩ := held.madeFor other mem
        exact ⟨y, List.mem_append_left _ called, made⟩ }

theorem interned_entered {calls : List (CStr × Ptr)} {s : State} (held : Interned calls s)
    {name : CStr} (apart : ∀ x ∈ calls, KeepsApart x.1 name)
    (missed : s.symbolTable.find? (·.key == name) = none) :
    Interned (calls ++ [(name, .ref s.fresh)]) (entered name s) := by
  have unheard : ∀ x ∈ calls, x.1 ≠ name := by
    intro x called same
    by_cases long : Long x.1
    · exact (apart x called long).1 same.symm
    · obtain ⟨entry, mem, key⟩ := held.entered x called
      have hit := List.find?_eq_none.1 missed entry mem
      rw [take_of_not_long long, same] at key
      simp [key] at hit
  refine
    { named := ?named, same := ?same, entered := ?entered, madeFor := ?madeFor }
  case named =>
    intro x mem
    rcases List.mem_append.1 mem with mem | mem
    · exact entered_keeps_name (held.named x mem) name
    · rw [List.mem_singleton.1 mem]
      exact name_of_entered name s
  case same =>
    intro x first y second names
    rcases List.mem_append.1 first with first | first <;>
      rcases List.mem_append.1 second with second | second
    · exact held.same x first y second names
    · rw [List.mem_singleton.1 second] at names
      exact absurd names (unheard x first)
    · rw [List.mem_singleton.1 first] at names
      exact absurd names.symm (unheard y second)
    · rw [List.mem_singleton.1 first, List.mem_singleton.1 second]
  case entered =>
    intro x mem
    rcases List.mem_append.1 mem with mem | mem
    · obtain ⟨entry, old, key⟩ := held.entered x mem
      exact ⟨entry, List.mem_cons_of_mem _ old, key⟩
    · rw [List.mem_singleton.1 mem]
      exact ⟨_, List.mem_cons_self, rfl⟩
  case madeFor =>
    intro entry mem
    rcases List.mem_cons.1 mem with new | old
    · exact ⟨(name, .ref s.fresh), by simp, by rw [new], by rw [new]⟩
    · obtain ⟨x, called, made⟩ := held.madeFor entry old
      exact ⟨x, List.mem_append_left _ called, made⟩

theorem interned_mk_symbol {calls : List (CStr × Ptr)} {s : State} (held : Interned calls s)
    {name : CStr} (apart : ∀ x ∈ calls, KeepsApart x.1 name) :
    Interned (calls ++ [(name, (blMkSymbol name s).1)]) (blMkSymbol name s).2 := by
  cases found : s.symbolTable.find? (·.key == name) with
  | some entry =>
      rw [mk_symbol_found found]
      exact interned_found held apart found
  | none =>
      rw [mk_symbol_entered found]
      exact interned_entered held apart found

theorem interned_mk_symbols (names : List CStr) {calls : List (CStr × Ptr)} {s : State}
    (held : Interned calls s) (apart : ∀ x ∈ calls, ∀ name ∈ names, KeepsApart x.1 name)
    (pairwise : names.Pairwise KeepsApart) :
    Interned (calls ++ (mkSymbols names s).1) (mkSymbols names s).2 := by
  induction names generalizing calls s with
  | nil =>
      rw [mkSymbols, List.append_nil]
      exact held
  | cons name names ih =>
      have step := interned_mk_symbol held fun x mem => apart x mem name List.mem_cons_self
      have rest := List.pairwise_cons.1 pairwise
      have run := ih step (fun x mem later member => ?_) rest.2
      · rw [List.append_assoc] at run
        exact run
      · rcases List.mem_append.1 mem with mem | mem
        · exact apart x mem later (List.mem_cons_of_mem _ member)
        · rw [List.mem_singleton.1 mem]
          exact rest.1 later member

theorem exact_of_interned {names : List CStr} {s : State}
    (held : Interned (mkSymbols names s).1 (mkSymbols names s).2) : InternsExactly names s := by
  refine ⟨fun x first y second => ⟨fun values => ?_, held.same x first y second⟩, held.named⟩
  have left := held.named x first
  have right := held.named y second
  rw [values, right] at left
  exact (Option.some.inj left).symm

end Sufficient

section Necessary

/-- Every entry holds the key of its symbol, and a key that some long name
went by finds a symbol with a long name. -/
structure KeysCut (s : State) : Prop where
  cut : ∀ entry ∈ s.symbolTable, ∃ name, nameOf s (.ref entry.sym) = some name ∧
    entry.key = name.take symKeySize
  longFound : ∀ entry ∈ s.symbolTable, ∀ name, nameOf s (.ref entry.sym) = some name →
    Long name → ∃ found other, s.symbolTable.find? (·.key == entry.key) = some found ∧
      nameOf s (.ref found.sym) = some other ∧ Long other

/-- The table has an entry for a long name under the key. -/
def LongUnder (key : CStr) (s : State) : Prop :=
  ∃ entry ∈ s.symbolTable, entry.key = key ∧
    ∃ name, nameOf s (.ref entry.sym) = some name ∧ Long name

theorem name_of_entered_old {name : CStr} {s : State} (held : KeysCut s) {entry : SymHash}
    (old : entry ∈ s.symbolTable) :
    nameOf (entered name s) (.ref entry.sym) = nameOf s (.ref entry.sym) := by
  obtain ⟨known, named, _⟩ := held.cut entry old
  rw [named]
  exact entered_keeps_name named name

theorem keys_cut_entered {name : CStr} {s : State} (held : KeysCut s)
    (missed : s.symbolTable.find? (·.key == name) = none) : KeysCut (entered name s) := by
  constructor
  · intro entry mem
    rcases List.mem_cons.1 mem with rfl | old
    · exact ⟨name, name_of_entered name s, rfl⟩
    · rw [name_of_entered_old held old]
      exact held.cut entry old
  · intro entry mem found named long
    rcases List.mem_cons.1 mem with rfl | old
    · rw [name_of_entered] at named
      cases named
      exact ⟨_, name, List.find?_cons_of_pos (by simp), name_of_entered name s, long⟩
    · rw [name_of_entered_old held old] at named
      by_cases hit : name.take symKeySize = entry.key
      · -- the new entry hides the old one, so the new name must be long too
        have newLong : Long name := by
          by_contra short
          rw [take_of_not_long short] at hit
          exact List.find?_eq_none.1 missed entry old (by simp [hit])
        exact ⟨_, name, List.find?_cons_of_pos (by simpa using hit), name_of_entered name s,
          newLong⟩
      · obtain ⟨first, other, search, value, isLong⟩ := held.longFound entry old found named long
        refine ⟨first, other, ?_, ?_, isLong⟩
        · rw [← search]
          exact List.find?_cons_of_neg (by simpa using hit)
        · rw [name_of_entered_old held (find_key search).1]
          exact value

theorem keys_cut_mk_symbol {s : State} (held : KeysCut s) (name : CStr) :
    KeysCut (blMkSymbol name s).2 := by
  cases found : s.symbolTable.find? (·.key == name) with
  | some entry => rwa [mk_symbol_found found]
  | none =>
      rw [mk_symbol_entered found]
      exact keys_cut_entered held found

theorem long_under_mk_symbol {s : State} {key : CStr} (under : LongUnder key s) (name : CStr) :
    LongUnder key (blMkSymbol name s).2 := by
  cases found : s.symbolTable.find? (·.key == name) with
  | some entry => rwa [mk_symbol_found found]
  | none =>
      rw [mk_symbol_entered found]
      obtain ⟨entry, mem, same, known, named, long⟩ := under
      exact ⟨entry, List.mem_cons_of_mem _ mem, same, known, entered_keeps_name named name, long⟩

/-- A long name is never found, so making it enters it. -/
theorem long_missed {s : State} (held : KeysCut s) {name : CStr} (long : Long name) :
    s.symbolTable.find? (·.key == name) = none := by
  rw [List.find?_eq_none]
  intro entry mem hit
  obtain ⟨known, _, cut⟩ := held.cut entry mem
  exact take_ne_of_long long known (cut.symm.trans (by simpa using hit))

theorem long_under_made {s : State} (held : KeysCut s) {name : CStr} (long : Long name) :
    LongUnder (name.take symKeySize) (blMkSymbol name s).2 := by
  rw [mk_symbol_entered (long_missed held long)]
  exact ⟨_, List.mem_cons_self, rfl, name, name_of_entered name s, long⟩

/-- The key of a long name gives a symbol of another name. -/
theorem key_misnamed (names : List CStr) {s : State} (held : KeysCut s) {key : CStr}
    (under : LongUnder key s) (asked : key ∈ names) :
    ∃ x ∈ (mkSymbols names s).1, nameOf (mkSymbols names s).2 x.2 ≠ some x.1 := by
  induction names generalizing s with
  | nil => exact absurd asked List.not_mem_nil
  | cons name names ih =>
      rcases List.mem_cons.1 asked with rfl | later
      · obtain ⟨entry, mem, same, known, named, long⟩ := under
        obtain ⟨first, other, search, value, isLong⟩ :=
          held.longFound entry mem known named long
        rw [same] at search
        obtain ⟨_, cut⟩ := find_key search
        obtain ⟨whole, named', cut'⟩ := held.cut first (find_key search).1
        rw [value] at named'
        cases named'
        refine ⟨_, List.mem_cons_self, ?_⟩
        have kept := mk_symbols_keep_name names
          (mk_symbol_keeps_name value key)
        simp only [mkSymbols, mk_symbol_found search] at kept ⊢
        rw [kept]
        intro equal
        cases equal
        exact take_ne_of_long isLong key (cut'.symm.trans cut)
      · obtain ⟨x, mem, wrong⟩ :=
          ih (keys_cut_mk_symbol held name) (long_under_mk_symbol under name) later
        exact ⟨x, List.mem_cons_of_mem _ mem, wrong⟩

/-- A long name made again gives a new symbol. -/
theorem long_made_again (names : List CStr) {s : State} (held : KeysCut s) {name : CStr}
    (long : Long name) {a : Nat} (old : a < s.fresh) (asked : name ∈ names) :
    ∃ x ∈ (mkSymbols names s).1, x.1 = name ∧ x.2 ≠ .ref a := by
  induction names generalizing s with
  | nil => exact absurd asked List.not_mem_nil
  | cons other names ih =>
      rcases List.mem_cons.1 asked with rfl | later
      · refine ⟨_, List.mem_cons_self, rfl, ?_⟩
        rw [mk_symbol_entered (long_missed held long)]
        intro same
        cases same
        exact Nat.lt_irrefl _ old
      · have grown : a < (blMkSymbol other s).2.fresh := by
          cases found : s.symbolTable.find? (·.key == other) with
          | some entry => rwa [mk_symbol_found found]
          | none =>
              rw [mk_symbol_entered found]
              have := State.fresh_allocated s
                { type := .symbol, w0 := .str other, w1 := .ofNat s.lastSymId }
              change a < (s.allocated _).fresh
              omega
        obtain ⟨x, mem, wrong⟩ := ih (keys_cut_mk_symbol held other) grown later
        exact ⟨x, List.mem_cons_of_mem _ mem, wrong⟩

theorem apart_of_exact (names : List CStr) {s : State} (held : KeysCut s)
    (exact : InternsExactly names s) : names.Pairwise KeepsApart := by
  induction names generalizing s with
  | nil => exact List.Pairwise.nil
  | cons name names ih =>
      obtain ⟨iff, named⟩ := exact
      have after := keys_cut_mk_symbol held name
      refine List.pairwise_cons.2 ⟨fun later member long => ⟨?_, ?_⟩, ?_⟩
      · rintro rfl
        have made := mk_symbol_entered (long_missed held long)
        have old : s.fresh < (blMkSymbol later s).2.fresh := by
          rw [made]
          exact name_of_ref_lt (name_of_entered later s)
        obtain ⟨x, mem, same, wrong⟩ := long_made_again names after long old member
        have values := (iff x (List.mem_cons_of_mem _ mem) _ List.mem_cons_self).2 same
        simp only [made] at values
        exact wrong values
      · rintro rfl
        obtain ⟨x, mem, wrong⟩ := key_misnamed names after (long_under_made held long) member
        exact wrong (named x (List.mem_cons_of_mem _ mem))
      · refine ih after ⟨fun x first y second => ?_, fun x mem => ?_⟩
        · exact iff x (List.mem_cons_of_mem _ first) y (List.mem_cons_of_mem _ second)
        · exact named x (List.mem_cons_of_mem _ mem)

end Necessary

/-- From an empty table on, a run of calls is exact if and only if no name of
more than 31 bytes is followed by itself or by its first 31 bytes. -/
theorem interning_exact_iff (names : List CStr) (s : State) (empty : s.symbolTable = []) :
    InternsExactly names s ↔ names.Pairwise KeepsApart := by
  constructor
  · exact apart_of_exact names ⟨by simp [empty], by simp [empty]⟩
  · intro apart
    have start : Interned [] s := ⟨by simp, by simp, by simp, by simp [empty]⟩
    have run := interned_mk_symbols names start (by simp) apart
    exact exact_of_interned run

theorem interning_exact_initial :
    InternsExactly [text "x", text "y", text "x"] State.initial ↔
      [text "x", text "y", text "x"].Pairwise KeepsApart :=
  interning_exact_iff [text "x", text "y", text "x"] State.initial rfl

/-- A name of 32 bytes made twice gives two symbols. -/
theorem interning_not_exact :
    ¬ ∀ (names : List CStr) (s : State), s.symbolTable = [] → (∀ name ∈ names, name ≠ []) →
      InternsExactly names s := by
  intro all
  have twice := all [List.replicate 32 (chr 'a'), List.replicate 32 (chr 'a')] State.initial rfl
    (by decide)
  revert twice
  decide

end BearLang.SymbolInterning
