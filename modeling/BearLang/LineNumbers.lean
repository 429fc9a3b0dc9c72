import BearLang.SourceLines

/-!
# The line numbers that the reader leaves

A list keeps the line on which the reading of it ended. The cell of a symbol is one for
all its occurrences, so after the reading it has the line of the last of them.
-/

namespace BearLang

open CallPrograms SymbolInterning

set_option autoImplicit false

section Marks

def lineOf (s : State) (p : Ptr) : Option Nat := (s.cell p).map Cell.lineNum

def SymbolFor (s : State) (name : CStr) (p : Ptr) : Prop :=
  ∃ entry, s.symbolTable.find? (·.key == name) = some entry ∧ p = .ref entry.sym

def symbolLine (s : State) (name : CStr) : Option Nat :=
  (s.symbolTable.find? (·.key == name)).bind fun entry => lineOf s (.ref entry.sym)

/-- The table is searched by whole names, but keeps them cut. -/
def Short (name : CStr) : Prop := name.length < symKeySize

/-- Lists and symbols stay as they are, list cells even with their lines. -/
structure FormsKept (touched : Ptr → Prop) (s t : State) : Prop where
  kept : Kept touched s t
  lists : ∀ p c, s.cell p = some c → c.type = .cons → ¬ touched p → t.cell p = some c
  symbols : ∀ name p, Short name → SymbolFor s name p → SymbolFor t name p

/-- Between the states the symbols of these lines have been read. -/
structure Marks (touched : Ptr → Prop) (lines : CStr → List Nat) (s t : State) : Prop
    extends FormsKept touched s t where
  marked : ∀ name, Short name →
    symbolLine t name = ((lines name).getLast?).or (symbolLine s name)

variable {s t u : State}

theorem forms_kept_trans {first second both : Ptr → Prop} (left : FormsKept first s t)
    (right : FormsKept second t u) (firstIn : ∀ p, first p → both p)
    (secondIn : ∀ p c, s.cell p = some c → second p → both p) : FormsKept both s u where
  kept := kept_trans left.kept right.kept firstIn secondIn
  lists p c known type untouched :=
    right.lists p c (left.lists p c known type fun hit => untouched (firstIn p hit)) type
      fun hit => untouched (secondIn p c known hit)
  symbols name p short at_ := right.symbols name p short (left.symbols name p short at_)

theorem marks_trans {first second both : Ptr → Prop} {lines more : CStr → List Nat}
    (left : Marks first lines s t) (right : Marks second more t u)
    (firstIn : ∀ p, first p → both p) (secondIn : ∀ p c, s.cell p = some c → second p → both p) :
    Marks both (fun name => lines name ++ more name) s u where
  toFormsKept := forms_kept_trans left.toFormsKept right.toFormsKept firstIn secondIn
  marked name short := by
    rw [right.marked name short, left.marked name short, List.getLast?_append, Option.or_assoc]

/-- What the second part touches is new. -/
theorem marks_new {lines more : CStr → List Nat} {a : Nat} (left : Marks untouched lines s t)
    (right : Marks (· = .ref a) more t u) (new : s.fresh ≤ a) :
    Marks untouched (fun name => lines name ++ more name) s u :=
  marks_trans left right (fun _ no => no) fun p c known same => by
    subst same
    exact absurd (State.ref_lt_fresh known) (Nat.not_lt.2 new)

theorem marks_after {touched : Ptr → Prop} {lines more : CStr → List Nat}
    (left : Marks untouched lines s t) (right : Marks touched more t u) :
    Marks touched (fun name => lines name ++ more name) s u :=
  marks_trans left right (fun _ no => no.elim) fun _ _ _ hit => hit

theorem marks_same {touched : Ptr → Prop} {lines more : CStr → List Nat}
    (marks : Marks touched lines s t) (same : ∀ name, lines name = more name) :
    Marks touched more s t where
  toFormsKept := marks.toFormsKept
  marked name short := by rw [← same name, marks.marked name short]

theorem marks_refl (touched : Ptr → Prop) (s : State) : Marks touched (fun _ => []) s s where
  kept := kept_refl touched s
  lists _ _ known _ _ := known
  symbols _ _ _ at_ := at_
  marked _ _ := rfl

theorem fresh_le_of_marks {lines : CStr → List Nat} (marks : Marks untouched lines s t) :
    s.fresh ≤ t.fresh := fresh_le_of_grows (kept_grows marks.kept)

theorem symbol_line_same (table : t.symbolTable = s.symbolTable)
    (lines : ∀ entry ∈ s.symbolTable, lineOf t (.ref entry.sym) = lineOf s (.ref entry.sym))
    (name : CStr) : symbolLine t name = symbolLine s name := by
  unfold symbolLine
  rw [table]
  cases found : s.symbolTable.find? (·.key == name) with
  | none => rfl
  | some entry => exact lines entry (List.mem_of_find?_eq_some found)

theorem line_allocated {p : Ptr} {c : Cell} (known : s.cell p = some c) (extra : Cell) :
    lineOf (s.allocated extra) p = lineOf s p := by
  rw [lineOf, lineOf, State.cell_allocated_old known, known]

theorem entry_cell (sound : Sound s) {entry : SymHash} (mem : entry ∈ s.symbolTable) :
    ∃ c, s.cell (.ref entry.sym) = some c ∧ c.type = .symbol := by
  simpa only [State.typeOf, Option.map_eq_some_iff] using sound.symbols entry mem

theorem marks_allocated (sound : Sound s) (c : Cell) :
    Marks untouched (fun _ => []) s (s.allocated c) where
  kept := kept_allocated s c
  lists _ _ known _ _ := State.cell_allocated_old known c
  symbols _ _ _ at_ := at_
  marked name _ := by
    refine symbol_line_same (t := s.allocated c) (s := s) rfl (fun entry mem => ?_) name
    obtain ⟨d, known, _⟩ := entry_cell sound mem
    exact line_allocated known c

theorem marks_put {a : Nat} {c new : Cell} (known : s.cell (.ref a) = some c)
    (line : new.lineNum = c.lineNum) : Marks (· = .ref a) (fun _ => []) s (s.put a new) where
  kept := kept_put new
  lists p d found _ other := by rw [State.cell_put_other other, found]
  symbols _ _ _ at_ := at_
  marked name _ := by
    refine symbol_line_same (t := s.put a new) (s := s) rfl (fun entry _ => ?_) name
    unfold lineOf
    by_cases same : Ptr.ref entry.sym = .ref a
    · rw [same, State.cell_put_same (State.ref_lt_fresh known), known, Option.map_some,
        Option.map_some, line]
    · rw [State.cell_put_other same]

theorem marks_line (sound : Sound s) {touched : Ptr → Prop} {a : Nat} {c : Cell}
    (known : s.cell (.ref a) = some c) (noSymbol : c.type ≠ .symbol)
    (list : c.type = .cons → touched (.ref a)) (line : Nat) :
    Marks touched (fun _ => []) s (s.put a { c with lineNum := line }) where
  kept p old found _ := kept_put_line known line p old found id
  lists p d found type other := by
    have apart : p ≠ .ref a := by
      rintro rfl
      rw [known] at found
      cases found
      exact other (list type)
    rw [State.cell_put_other apart, found]
  symbols _ _ _ at_ := at_
  marked name _ := by
    refine symbol_line_same (t := s.put a { c with lineNum := line }) (s := s) rfl
      (fun entry mem => ?_) name
    obtain ⟨d, found, type⟩ := entry_cell sound mem
    have apart : Ptr.ref entry.sym ≠ .ref a := by
      intro same
      rw [same, known] at found
      cases found
      exact noSymbol type
    rw [lineOf, lineOf, State.cell_put_other apart]

end Marks

section Symbols

variable {s : State}

theorem short_of_take {name other : CStr} (short : Short other)
    (same : name.take symKeySize = other) : name = other := by
  have fits : name.length ≤ symKeySize := by
    have size := congrArg List.length same
    simp only [List.length_take] at size
    unfold Short at short
    omega
  rw [← same, List.take_of_length_le fits]

theorem forms_kept_mk_symbol (name : CStr) (s : State) :
    FormsKept untouched s (blMkSymbol name s).2 where
  kept := kept_mk_symbol name s
  lists p c known type _ := by
    cases found : s.symbolTable.find? (·.key == name) with
    | some entry => rwa [mk_symbol_found found]
    | none =>
        rw [mk_symbol_entered found]
        exact State.cell_allocated_old known _
  symbols other p short at_ := by
    cases found : s.symbolTable.find? (·.key == name) with
    | some entry => rwa [mk_symbol_found found]
    | none =>
        rw [mk_symbol_entered found]
        obtain ⟨entry, at_, rfl⟩ := at_
        refine ⟨entry, ?_, rfl⟩
        have differs : (name.take symKeySize == other) = false := by
          rw [beq_eq_false_iff_ne]
          intro same
          obtain rfl := short_of_take short same
          rw [found] at at_
          cases at_
        rw [entered, List.find?_cons, differs]
        exact at_

theorem symbol_for_mk {name : CStr} (short : Short name) :
    SymbolFor (blMkSymbol name s).2 name (blMkSymbol name s).1 := by
  cases found : s.symbolTable.find? (·.key == name) with
  | some entry =>
      rw [mk_symbol_found found]
      exact ⟨entry, found, rfl⟩
  | none =>
      rw [mk_symbol_entered found]
      refine ⟨⟨name.take symKeySize, s.fresh⟩, ?_, rfl⟩
      rw [entered, List.take_of_length_le (Nat.le_of_lt short), List.find?_cons, beq_self_eq_true]

theorem symbol_named (sound : Sound s) {name : CStr} (short : Short name) {p : Ptr}
    (at_ : SymbolFor s name p) : nameOf s p = some name := by
  obtain ⟨entry, found, rfl⟩ := at_
  obtain ⟨mem, key⟩ := find_key found
  obtain ⟨other, named, cut⟩ := sound.keys.cut entry mem
  rw [named, short_of_take short (cut.symm.trans key)]

theorem mk_symbol_apart (sound : Sound s) {name other : CStr} (short : Short other)
    (differs : name ≠ other) {p : Ptr} (at_ : SymbolFor (blMkSymbol name s).2 other p) :
    p ≠ (blMkSymbol name s).1 := by
  have sound' : Sound (blMkSymbol name s).2 :=
    runs_sound sound (runs_mk_symbol (W := World.bare) name s)
  have named := symbol_named sound' short at_
  rintro rfl
  cases found : s.symbolTable.find? (·.key == name) with
  | some entry =>
      rw [mk_symbol_found found] at named
      obtain ⟨mem, key⟩ := find_key found
      obtain ⟨whole, known, cut⟩ := sound.keys.cut entry mem
      simp only [named, Option.some.injEq] at known
      rw [← known, key, List.take_of_length_le (Nat.le_of_lt short)] at cut
      exact differs cut
  | none =>
      rw [mk_symbol_entered found] at named
      simp only [name_of_entered, Option.some.injEq] at named
      exact differs named

theorem symbol_line_for {name : CStr} {p : Ptr} (at_ : SymbolFor s name p) :
    symbolLine s name = lineOf s p := by
  obtain ⟨entry, found, rfl⟩ := at_
  rw [symbolLine, found, Option.bind_some]

theorem symbol_line_mk (sound : Sound s) {name other : CStr} (short : Short other)
    (differs : name ≠ other) : symbolLine (blMkSymbol name s).2 other = symbolLine s other := by
  cases found : s.symbolTable.find? (·.key == name) with
  | some entry => rw [mk_symbol_found found]
  | none =>
      rw [mk_symbol_entered found]
      have other' : (name.take symKeySize == other) = false := by
        rw [beq_eq_false_iff_ne]
        exact fun same => differs (short_of_take short same)
      rw [symbolLine, symbolLine]
      simp only [entered, List.find?_cons, other']
      cases held : s.symbolTable.find? (·.key == other) with
      | none => rfl
      | some entry =>
          obtain ⟨c, known, _⟩ := entry_cell sound (find_key held).1
          exact line_allocated known _

/-- Reading a symbol puts its line on the one cell that all its occurrences share. -/
theorem marks_symbol (sound : Sound s) (name : CStr) {a : Nat} {c : Cell}
    (made : (blMkSymbol name s).1 = .ref a) (known : (blMkSymbol name s).2.cell (.ref a) = some c)
    (type : c.type = .symbol) (line : Nat) :
    Marks untouched (fun other => if name = other then [line] else []) s
      ((blMkSymbol name s).2.put a { c with lineNum := line }) where
  kept := kept_untouched_trans (kept_mk_symbol name s) (kept_put_line known line)
  lists p d found list _ := by
    have held := (forms_kept_mk_symbol name s).lists p d found list id
    have apart : p ≠ .ref a := by
      rintro rfl
      rw [known] at held
      cases held
      rw [type] at list
      cases list
    rw [State.cell_put_other apart, held]
  symbols other p short at_ := (forms_kept_mk_symbol name s).symbols other p short at_
  marked other short := by
    by_cases same : name = other
    · subst same
      have at_ := symbol_for_mk (s := s) short
      have later : SymbolFor ((blMkSymbol name s).2.put a { c with lineNum := line }) name
          (.ref a) := by
        rw [made] at at_
        exact at_
      rw [symbol_line_for later, lineOf, State.cell_put_same (State.ref_lt_fresh known), if_pos rfl]
      rfl
    · rw [if_neg same, ← symbol_line_mk sound short same]
      change symbolLine ((blMkSymbol name s).2.put a { c with lineNum := line }) other =
        symbolLine (blMkSymbol name s).2 other
      cases held : (blMkSymbol name s).2.symbolTable.find? (·.key == other) with
      | none =>
          have held' : ((blMkSymbol name s).2.put a { c with lineNum := line }).symbolTable.find?
              (·.key == other) = none := held
          rw [symbolLine, symbolLine, held, held']
          rfl
      | some entry =>
          have at_ : SymbolFor (blMkSymbol name s).2 other (.ref entry.sym) := ⟨entry, held, rfl⟩
          have apart := mk_symbol_apart sound short same at_
          rw [made] at apart
          have later : SymbolFor ((blMkSymbol name s).2.put a { c with lineNum := line }) other
            (.ref entry.sym) := ⟨entry, held, rfl⟩
          rw [symbol_line_for later, symbol_line_for at_, lineOf, lineOf, State.cell_put_other apart]

end Symbols

section Forms

def TokenType.value : TokenType → ValType
  | .lparen => .cons
  | .rparen => .listEnd
  | .string => .string
  | .integer => .number
  | .symbol => .symbol
  | .ifToken => .operIf
  | .doToken => .operDo
  | .whileToken => .operWhile
  | .docstring => .docstring

/-- The value of a token; a short symbol is the one in the table. -/
structure AtomAt (s : State) (t : Token) (p : Ptr) (c : Cell) : Prop where
  known : s.cell p = some c
  type : c.type = t.type.value
  isAtom : c.atom.isSome
  symbol : t.type = .symbol → Short t.text → SymbolFor s t.text p

mutual

/-- The pointer holds the form, with the line on its first cell on which a list ends. -/
def PlacedAt (s : State) (lo : Nat) : Placed → Ptr → Prop
  | .atom t _, p => ∃ c, AtomAt s t p c
  | .list _ inner last, p => ∃ c, ConsAt s lo p c ∧ c.lineNum = last ∧
      ((inner = [] ∧ c.car = .null ∧ c.cdr = .null) ∨ (inner ≠ [] ∧ AllPlaced s lo inner p))

def AllPlaced (s : State) (lo : Nat) : List Placed → Ptr → Prop
  | [], p => p = .null
  | f :: items, p => ∃ c, ConsAt s lo p c ∧ PlacedAt s lo f c.car ∧ AllPlaced s lo items c.cdr

end

/-- The list that `read_list` gives back: whatever line is stored on it, it holds the
forms. -/
def ListPlaced (s : State) (lo : Nat) (inner : List Placed) (p : Ptr) : Prop :=
  ∃ a c, p = .ref a ∧ lo ≤ a ∧ s.cell p = some c ∧ c.type = .cons ∧
    ∀ first last, PlacedAt (s.put a { c with lineNum := last }) lo (.list first inner last) p

variable {s t : State} {lo : Nat}

theorem atom_no_list {t : Token} {p : Ptr} {c : Cell} (at_ : AtomAt s t p c) : c.type ≠ .cons := by
  obtain ⟨a, atom⟩ := Option.isSome_iff_exists.1 at_.isAtom
  exact atom_not_cons atom

theorem list_cell_kept {touched : Ptr → Prop} (kept : FormsKept touched s t)
    (away : ∀ a c, s.cell (.ref a) = some c → touched (.ref a) → c.type = .cons ∧ a < lo)
    {p : Ptr} {c : Cell} (at_ : ConsAt s lo p c) : ConsAt t lo p c := by
  obtain ⟨a, rfl, bound, known, type⟩ := at_
  have untouched : ¬ touched (.ref a) := fun hit => by
    have := (away a c known hit).2
    omega
  exact ⟨a, rfl, bound, kept.lists _ c known type untouched, type⟩

mutual

/-- A form stays where it is, with its lines, while list cells in front of it change. -/
theorem placed_kept {touched : Ptr → Prop} (kept : FormsKept touched s t)
    (away : ∀ a c, s.cell (.ref a) = some c → touched (.ref a) → c.type = .cons ∧ a < lo) :
    ∀ (f : Placed) (p : Ptr), PlacedAt s lo f p → PlacedAt t lo f p
  | .atom token line, p, held => by
      simp only [PlacedAt] at held ⊢
      obtain ⟨c, at_⟩ := held
      have untouched : ¬ touched p := fun hit => by
        obtain ⟨b, rfl⟩ := State.ref_of_cell at_.known
        exact atom_no_list at_ (away b c at_.known hit).1
      obtain ⟨new, found, same⟩ := kept.kept p c at_.known untouched
      exact ⟨new, found, (same_but_line_type same).trans at_.type,
        (same_but_line_atom same) ▸ at_.isAtom,
        fun symbol short => kept.symbols _ _ short (at_.symbol symbol short)⟩
  | .list first inner last, p, held => by
      simp only [PlacedAt] at held ⊢
      obtain ⟨c, at_, line, empty | ⟨filled, all⟩⟩ := held
      · exact ⟨c, list_cell_kept kept away at_, line, .inl empty⟩
      · exact ⟨c, list_cell_kept kept away at_, line,
          .inr ⟨filled, all_placed_kept kept away inner p all⟩⟩

theorem all_placed_kept {touched : Ptr → Prop} (kept : FormsKept touched s t)
    (away : ∀ a c, s.cell (.ref a) = some c → touched (.ref a) → c.type = .cons ∧ a < lo) :
    ∀ (items : List Placed) (p : Ptr), AllPlaced s lo items p → AllPlaced t lo items p
  | [], p, held => by
      simp only [AllPlaced] at held ⊢
      exact held
  | f :: items, p, held => by
      simp only [AllPlaced] at held ⊢
      obtain ⟨c, at_, first, rest⟩ := held
      exact ⟨c, list_cell_kept kept away at_, placed_kept kept away f c.car first,
        all_placed_kept kept away items c.cdr rest⟩

end

mutual

theorem placed_lower {lower : Nat} (le : lower ≤ lo) :
    ∀ (f : Placed) (p : Ptr), PlacedAt s lo f p → PlacedAt s lower f p
  | .atom token line, p, held => by
      simp only [PlacedAt] at held ⊢
      exact held
  | .list first inner last, p, held => by
      simp only [PlacedAt] at held ⊢
      obtain ⟨c, at_, line, empty | ⟨filled, all⟩⟩ := held
      · exact ⟨c, cons_at_lower le at_, line, .inl empty⟩
      · exact ⟨c, cons_at_lower le at_, line, .inr ⟨filled, all_placed_lower le inner p all⟩⟩

theorem all_placed_lower {lower : Nat} (le : lower ≤ lo) :
    ∀ (items : List Placed) (p : Ptr), AllPlaced s lo items p → AllPlaced s lower items p
  | [], p, held => by
      simp only [AllPlaced] at held ⊢
      exact held
  | f :: items, p, held => by
      simp only [AllPlaced] at held ⊢
      obtain ⟨c, at_, first, rest⟩ := held
      exact ⟨c, cons_at_lower le at_, placed_lower le f c.car first,
        all_placed_lower le items c.cdr rest⟩

end

theorem placed_untouched (kept : FormsKept untouched s t) {f : Placed} {p : Ptr}
    (held : PlacedAt s lo f p) : PlacedAt t lo f p :=
  placed_kept kept (fun _ _ _ no => no.elim) f p held

theorem placed_cell {f : Placed} {p : Ptr} (held : PlacedAt s lo f p) :
    ∃ a c, p = .ref a ∧ s.cell p = some c ∧ c.type ≠ .listEnd := by
  cases f with
  | atom token line =>
      simp only [PlacedAt] at held
      obtain ⟨c, at_⟩ := held
      obtain ⟨a, rfl⟩ := State.ref_of_cell at_.known
      refine ⟨a, c, rfl, at_.known, fun type => ?_⟩
      have isAtom := at_.isAtom
      simp [Cell.atom, type] at isAtom
  | list first inner last =>
      simp only [PlacedAt] at held
      obtain ⟨c, ⟨a, rfl, _, known, type⟩, _⟩ := held
      exact ⟨a, c, rfl, known, by rw [type]; decide⟩

end Forms

section Reading

variable (W : World) (file : CStr)

/-- `read_form` builds the form, stands behind it, and leaves the lines of its symbols. -/
def ReadsPlaced (input : CStr) (f : Placed) (rest : CStr) : Prop :=
  ∀ (s : State) (sc : Scanner), Sound s → Standing file sc → sc.input = input →
    ∃ p s' sc', (runtime W).Runs (readFormBody W.slash sc) s (p, sc') s' ∧ Standing file sc' ∧
      sc'.input = rest ∧ Marks untouched (fun name => f.lines name) s s' ∧ PlacedAt s' s.fresh f p

/-- `read_list` builds the list of the forms. -/
def ReadsInner (input : CStr) (items : List Placed) (rest : CStr) : Prop :=
  ∀ (s : State) (sc : Scanner), Sound s → Standing file sc → sc.input = input →
    ∃ p s' sc', (runtime W).Runs (readList sc) s (p, sc') s' ∧ Standing file sc' ∧
      sc'.input = rest ∧ Marks untouched (fun name => linesOf name items) s s' ∧
      ListPlaced s' s.fresh items p

/-- The loop of `read_list` links the forms to the last cell of the list. -/
def ReadsOn (input : CStr) (items : List Placed) (rest : CStr) : Prop :=
  ∀ (s : State) (sc : Scanner) (a : Nat) (c : Cell), Sound s → Standing file sc →
    sc.input = input → s.cell (.ref a) = some c → c.type = .cons → c.cdr = .null →
    ∃ s' sc' c', (runtime W).Runs (readListLoop sc (.ref a)) s sc' s' ∧ Standing file sc' ∧
      sc'.input = rest ∧ Marks (· = .ref a) (fun name => linesOf name items) s s' ∧
      s'.cell (.ref a) = some c' ∧ c'.type = .cons ∧ c'.car = c.car ∧
      AllPlaced s' s.fresh items c'.cdr

variable {W : World} {file : CStr} {input from_ middle rest : CStr} {t : Token}

def Token.lines (t : Token) (line : Nat) (name : CStr) : List Nat :=
  if t.type = .symbol ∧ t.text = name then [line] else []

/-- `read_form` has the value of the token, and the line is still to be stored. -/
def GivesToken (W : World) (t : Token) (s : State) (sc : Scanner) : Prop :=
  ∃ a c s₁, (runtime W).Runs (readToken W.slash t.type sc) s (.ref a, sc) s₁ ∧
    AtomAt s₁ t (.ref a) c ∧
      ∀ line, Marks untouched (t.lines line) s (s₁.put a { c with lineNum := line })

theorem no_symbol_lines (kind : t.type ≠ .symbol) (line : Nat) (name : CStr) :
    t.lines line name = [] := if_neg fun both => kind both.1

theorem token_new {s : State} (sound : Sound s) {c : Cell} {sc : Scanner}
    (type : c.type = t.type.value) (isAtom : c.atom.isSome) (kind : t.type ≠ .symbol)
    (run : readToken W.slash t.type sc = alloc c >>= fun p => pure (p, sc)) :
    GivesToken W t s sc := by
  have known := State.cell_allocated_new s c
  have allocated := runs_alloc (W := W) c s
  obtain ⟨a, value⟩ := Option.isSome_iff_exists.1 isAtom
  have noSymbol : c.type ≠ .symbol := by
    rw [type]
    cases same : t.type <;> simp_all [TokenType.value]
  refine ⟨s.fresh, c, s.allocated c, ?_, ⟨known, type, isAtom, fun symbol => absurd symbol kind⟩,
    fun line => ?_⟩
  · rw [run, runs_after allocated]
    exact runs_pure_self _ _
  · have stored : Marks untouched (fun _ => []) _ _ := marks_line (runs_sound sound allocated)
      known noSymbol (fun list => absurd list (atom_not_cons value)) line
    refine marks_same (marks_after (marks_allocated sound c) stored) fun name => ?_
    rw [no_symbol_lines kind]
    rfl

theorem token_static {s : State} (sound : Sound s) {a : Nat} {c : Cell} {sc : Scanner}
    (initial : State.initial.cell (.ref a) = some c) (type : c.type = t.type.value)
    (isAtom : ∀ new : Cell, new.type = c.type → new.atom.isSome) (kind : t.type ≠ .symbol)
    (run : readToken W.slash t.type sc = pure (.ref a, sc)) : GivesToken W t s sc := by
  obtain ⟨found, known, same, _⟩ := sound.statics (.ref a) c initial
  have atom := isAtom found same
  obtain ⟨value, held⟩ := Option.isSome_iff_exists.1 atom
  have noSymbol : found.type ≠ .symbol := by
    rw [same, type]
    cases which : t.type <;> simp_all [TokenType.value]
  refine ⟨a, found, s, ?_, ⟨known, same.trans type, atom, fun symbol => absurd symbol kind⟩,
    fun line => ?_⟩
  · rw [run]
    exact runs_pure_self _ _
  · refine marks_same (marks_line sound known noSymbol
      (fun list => absurd list (atom_not_cons held)) line) fun name => ?_
    rw [no_symbol_lines kind]

theorem token_symbol {s : State} (sound : Sound s) (kind : t.type = .symbol) {sc : Scanner}
    (text : sc.yytext = t.text) : GivesToken W t s sc := by
  obtain ⟨named, type, _⟩ := mk_symbol_interns sound t.text
  simp only [State.typeOf, Option.map_eq_some_iff] at type
  obtain ⟨c, known, type⟩ := type
  obtain ⟨a, made⟩ : ∃ a, (blMkSymbol t.text s).1 = .ref a := by
    cases made : (blMkSymbol t.text s).1 with
    | null =>
        rw [made] at known
        cases known
    | wild =>
        rw [made] at known
        cases known
    | ref a => exact ⟨a, rfl⟩
  simp only [nameOf, known, Option.bind_some] at named
  rw [made] at known
  refine ⟨a, c, (blMkSymbol t.text s).2, ?_, ⟨known, ?_, ?_, fun _ short => ?_⟩, fun line => ?_⟩
  · rw [kind, readToken, text, runs_after (runs_mk_symbol t.text s), made]
    exact runs_pure_self _ _
  · rw [type, kind]
    rfl
  · simp only [Cell.atom, type, named, Option.map_some, Option.isSome_some]
  · rw [← made]
    exact symbol_for_mk short
  · refine marks_same (marks_symbol sound t.text made known type line) fun name => ?_
    simp only [Token.lines, kind, true_and]

theorem gives_token {s : State} (sound : Sound s) (noOpen : t.type ≠ .lparen)
    (noClose : t.type ≠ .rparen) {sc : Scanner} (text : sc.yytext = t.text) :
    GivesToken W t s sc := by
  cases kind : t.type with
  | lparen => exact absurd kind noOpen
  | rparen => exact absurd kind noClose
  | symbol => exact token_symbol sound kind text
  | string =>
      exact token_new sound (c := .mkStr (unescape W.slash t.text)) (by rw [kind]; rfl) rfl
        (by rw [kind]; decide) (by rw [kind, readToken, text]; rfl)
  | integer =>
      exact token_new sound (c := .mkNumber (mpzSetStr t.text)) (by rw [kind]; rfl) rfl
        (by rw [kind]; decide) (by rw [kind, readToken, text]; rfl)
  | docstring =>
      exact token_new sound (c := .mkDocstr t.text) (by rw [kind]; rfl) rfl
        (by rw [kind]; decide) (by rw [kind, readToken, text])
  | ifToken =>
      exact token_static sound (a := 3) (c := { type := .operIf }) rfl (by rw [kind]; rfl)
        (fun new type => by simp [Cell.atom, type]) (by rw [kind]; decide) (by rw [kind]; rfl)
  | doToken =>
      exact token_static sound (a := 4) (c := { type := .operDo }) rfl (by rw [kind]; rfl)
        (fun new type => by simp [Cell.atom, type]) (by rw [kind]; decide) (by rw [kind]; rfl)
  | whileToken =>
      exact token_static sound (a := 6) (c := { type := .operWhile }) rfl (by rw [kind]; rfl)
        (fun new type => by simp [Cell.atom, type]) (by rw [kind]; decide) (by rw [kind]; rfl)

/-- An atom is read, and the line on which it was read is stored on its cell. -/
theorem reads_placed_atom (next : Next input from_ t middle) (noOpen : t.type ≠ .lparen)
    (noClose : t.type ≠ .rparen) :
    ReadsPlaced W file input (.atom t (lineAt file from_)) middle := by
  intro s sc sound standing same
  rw [← same] at next
  obtain ⟨sc₁, lexed, text, left, stands⟩ := yylex_next next standing
  obtain ⟨a, c, s₁, run, at_, marks⟩ := gives_token (W := W) sound noOpen noClose text
  have marks := marks sc₁.lineno
  refine ⟨.ref a, s₁.put a { c with lineNum := sc₁.lineno }, sc₁, ?_, stands, left, ?_, ?_⟩
  · rw [readFormBody, lexed]
    simp only
    rw [runs_after run, runs_after (runs_set_line at_.known sc₁.lineno)]
    exact runs_pure_self _ _
  · refine marks_same marks fun name => ?_
    simp only [Token.lines, Placed.lines]
    by_cases symbol : t.type = .symbol ∧ t.text = name
    · -- the counter stands behind the symbol, on the line of the symbol
      obtain ⟨before, whole, _⟩ := standing
      rw [if_pos symbol, if_pos symbol, standing_line stands, left,
        next_line next ⟨before, whole.symm⟩ (.inl symbol.1)]
    · rw [if_neg symbol, if_neg symbol]
  · simp only [PlacedAt]
    exact ⟨_, State.cell_put_same (State.ref_lt_fresh at_.known) _, at_.type, at_.isAtom,
      fun symbol short => at_.symbol symbol short⟩

/-- A list in parentheses gets the line on which the reading of it has ended. -/
theorem reads_placed_list {inside : CStr} {inner : List Placed} (next : Next input from_ t inside)
    (opens : t.type = .lparen) (within : ReadsInner W file inside inner middle) :
    ReadsPlaced W file input (.list (lineAt file from_) inner (lineAt file middle)) middle := by
  intro s sc sound standing same
  rw [← same] at next
  obtain ⟨sc₁, lexed, _, left, stands⟩ := yylex_next next standing
  obtain ⟨p, s₁, sc₂, run, stands₂, left₂, marks, a, c, rfl, bound, known, type, held⟩ :=
    within s sc₁ sound stands left
  have noSymbol : c.type ≠ .symbol := by
    rw [type]
    decide
  have line : Marks (· = .ref a) (fun _ => []) s₁ (s₁.put a { c with lineNum := sc₂.lineno }) :=
    marks_line (runs_sound sound run) known noSymbol (fun _ => by rfl) sc₂.lineno
  refine ⟨.ref a, s₁.put a { c with lineNum := sc₂.lineno }, sc₂, ?_, stands₂, left₂, ?_, ?_⟩
  · rw [readFormBody, lexed, opens]
    simp only [readToken]
    rw [runs_after run, runs_after (runs_set_line known sc₂.lineno)]
    exact runs_pure_self _ _
  · refine marks_same (marks_new marks line bound) fun name => ?_
    rw [Placed.lines, List.append_nil]
  · rw [standing_line stands₂, left₂]
    exact held _ _

theorem placed_end_runs {s : State} {sc : Scanner} (ends : Lexes sc.input [])
    (standing : Standing file sc) :
    ∃ sc', (runtime W).Runs (call (.readForm sc)) s (.null, sc') s ∧ Standing file sc' ∧
      sc'.input = [] := by
  obtain ⟨sc', lexed, left, stands⟩ := yylex_end ends standing
  refine ⟨sc', ?_, stands, left⟩
  rw [runs_read_form, readFormBody, lexed]
  exact runs_pure_self _ _

theorem placed_close_runs {s : State} {sc : Scanner} (sound : Sound s)
    (next : Next sc.input from_ t rest) (closes : t.type = .rparen) (standing : Standing file sc) :
    ∃ sc' s' c, (runtime W).Runs (call (.readForm sc)) s (endListVal, sc') s' ∧ Standing file sc' ∧
      sc'.input = rest ∧ Marks untouched (fun _ => []) s s' ∧ s'.cell endListVal = some c ∧
      c.type = .listEnd := by
  obtain ⟨sc', lexed, _, left, stands⟩ := yylex_next next standing
  obtain ⟨c, known, kind, _⟩ := sound.statics endListVal { type := .listEnd } rfl
  have type : c.type = .listEnd := kind
  refine ⟨sc', s.put 5 { c with lineNum := sc'.lineno }, _, ?_, stands, left,
    marks_line sound known (by rw [type]; decide) (fun list => ?_) _,
    State.cell_put_same (State.ref_lt_fresh known) _, type⟩
  · rw [runs_read_form, readFormBody, lexed, closes]
    simp only [readToken]
    rw [pure_bind, endListVal, runs_after (runs_set_line known sc'.lineno)]
    exact runs_pure_self _ _
  · rw [type] at list
    cases list

theorem empty_placed_runs {s : State} (sound : Sound s) {lo : Nat} (bound : lo ≤ s.fresh)
    (sc : Scanner) :
    ∃ p s', (runtime W).Runs (alloc (.mkCons .null .null) >>= fun p => pure (p, sc)) s (p, sc) s' ∧
      Marks untouched (fun _ => []) s s' ∧ ListPlaced s' lo [] p := by
  have known := State.cell_allocated_new s (.mkCons .null .null)
  refine ⟨.ref s.fresh, s.allocated (.mkCons .null .null), ?_, marks_allocated sound _, s.fresh, _,
    rfl, bound, known, rfl, fun first last => ?_⟩
  · rw [runs_after (runs_alloc _ s)]
    exact runs_pure_self _ _
  · simp only [PlacedAt]
    exact ⟨_, ⟨s.fresh, rfl, bound, State.cell_put_same (State.ref_lt_fresh known) _, rfl⟩, rfl,
      .inl ⟨trivial, rfl, rfl⟩⟩

theorem reads_inner_stop (ends : Lexes input []) : ReadsInner W file input [] [] := by
  intro s sc sound standing same
  rw [← same] at ends
  obtain ⟨sc', run, stands, left⟩ := placed_end_runs (W := W) (s := s) ends standing
  obtain ⟨p, s', listRun, marks, held⟩ :=
    empty_placed_runs (W := W) sound (Nat.le_refl s.fresh) sc'
  refine ⟨p, s', sc', ?_, stands, left, marks_same marks fun _ => rfl, held⟩
  rw [readList, runs_after run]
  simp only [if_true]
  exact listRun

theorem reads_inner_close (next : Next input from_ t rest) (closes : t.type = .rparen) :
    ReadsInner W file input [] rest := by
  intro s sc sound standing same
  rw [← same] at next
  obtain ⟨sc', s₁, c, run, stands, left, marks, known, type⟩ :=
    placed_close_runs (W := W) sound next closes standing
  obtain ⟨p, s', listRun, marks', held⟩ := empty_placed_runs (W := W) (runs_sound sound run)
    (fresh_le_of_marks marks) sc'
  refine ⟨p, s', sc', ?_, stands, left, marks_same (marks_after marks marks') fun _ => rfl, held⟩
  rw [readList, runs_after run]
  have notNull : endListVal ≠ .null := by decide
  simp only [if_neg notNull]
  rw [runs_after (runs_type_of known), if_pos type]
  exact listRun

theorem reads_on_stop (ends : Lexes input []) : ReadsOn W file input [] [] := by
  intro s sc a c sound standing same known type cdr
  rw [← same] at ends
  obtain ⟨sc', run, stands, left⟩ := placed_end_runs (W := W) (s := s) ends standing
  refine ⟨s, sc', c, ?_, stands, left, marks_same (marks_refl _ s) fun _ => rfl, known, type, rfl,
    ?_⟩
  · rw [readListLoop, runs_after run]
    simp only [if_true]
    exact runs_pure_self _ _
  · simp only [AllPlaced]
    exact cdr

theorem reads_on_close (next : Next input from_ t rest) (closes : t.type = .rparen) :
    ReadsOn W file input [] rest := by
  intro s sc a c sound standing same known type cdr
  rw [← same] at next
  obtain ⟨sc', s₁, e, run, stands, left, marks, found, kind⟩ :=
    placed_close_runs (W := W) sound next closes standing
  refine ⟨s₁, sc', c, ?_, stands, left, ?_, marks.lists _ c known type id, type, rfl, ?_⟩
  · rw [readListLoop, runs_after run]
    have notNull : endListVal ≠ .null := by decide
    simp only [if_neg notNull]
    rw [runs_after (runs_type_of found), if_pos kind]
    exact runs_pure_self _ _
  · exact marks_same (marks_trans marks (marks_refl (· = .ref a) s₁) (fun _ no => no.elim)
      fun _ _ _ hit => hit) fun _ => rfl
  · simp only [AllPlaced]
    exact cdr

theorem reads_inner_cons {f : Placed} {items : List Placed}
    (first : ReadsPlaced W file input f middle) (later : ReadsOn W file middle items rest) :
    ReadsInner W file input (f :: items) rest := by
  intro s sc sound standing same
  obtain ⟨p, s₁, sc₁, run, stands, left, marks, held⟩ := first s sc sound standing same
  have sound₁ := runs_sound sound run
  obtain ⟨b, e, rfl, found, kind⟩ := placed_cell held
  have bound := fresh_le_of_marks marks
  have allocRun := runs_alloc (W := W) (.mkCons (.ref b) .null) s₁
  have allocated := marks_allocated sound₁ (.mkCons (.ref b) .null)
  obtain ⟨s', sc', c', loopRun, stands', left', marks', last, type, car, all⟩ :=
    later (s₁.allocated (.mkCons (.ref b) .null)) sc₁ s₁.fresh (.mkCons (.ref b) .null)
      (runs_sound sound₁ allocRun) stands left (State.cell_allocated_new s₁ _) rfl
      (Cell.mk_cons_cdr _ _)
  have marks₁ := marks_new allocated marks' (Nat.le_refl s₁.fresh)
  refine ⟨.ref s₁.fresh, s', sc', ?_, stands', left', ?_, s₁.fresh, c', rfl, bound, last, type,
    fun line number => ?_⟩
  · rw [readList, runs_after (runs_read_form.2 run)]
    have notNull : Ptr.ref b ≠ .null := by simp
    simp only [if_neg notNull]
    rw [runs_after (runs_type_of found), if_neg kind, runs_after allocRun,
      runs_after (runs_read_list_loop.2 loopRun)]
    exact runs_pure_self _ _
  · exact marks_same (marks_after marks marks₁) fun name => by rw [linesOf]; rfl
  · have noSymbol : c'.type ≠ .symbol := by
      rw [type]
      decide
    have sound' := runs_sound (runs_sound sound₁ allocRun) (runs_read_list_loop.2 loopRun)
    have lined : Marks (· = .ref s₁.fresh) (fun _ => []) s'
        (s'.put s₁.fresh { c' with lineNum := number }) :=
      marks_line sound' last noSymbol (fun _ => by rfl) number
    have now := State.cell_put_same (State.ref_lt_fresh last) { c' with lineNum := number }
    simp only [PlacedAt]
    refine ⟨_, ⟨s₁.fresh, rfl, bound, now, type⟩, rfl, .inr ⟨List.cons_ne_nil _ _, ?_⟩⟩
    simp only [AllPlaced]
    refine ⟨_, ⟨s₁.fresh, rfl, bound, now, type⟩, ?_, ?_⟩
    · change PlacedAt _ _ f c'.car
      rw [car, Cell.mk_cons_car]
      exact placed_untouched (marks_new marks₁ lined (Nat.le_refl s₁.fresh)).toFormsKept held
    · -- the rest of the list is behind its first cell
      refine all_placed_lower ?_ items c'.cdr (all_placed_kept lined.toFormsKept
        (fun a c known same => ?_) items c'.cdr all)
      · rw [State.fresh_allocated]
        omega
      · cases same
        rw [last] at known
        cases known
        rw [State.fresh_allocated]
        exact ⟨type, Nat.lt_succ_self _⟩

theorem reads_on_cons {f : Placed} {items : List Placed} (first : ReadsPlaced W file input f middle)
    (later : ReadsOn W file middle items rest) : ReadsOn W file input (f :: items) rest := by
  intro s sc a c sound standing same known type cdr
  obtain ⟨p, s₁, sc₁, run, stands, left, marks, held⟩ := first s sc sound standing same
  have sound₁ := runs_sound sound run
  obtain ⟨b, e, rfl, foundForm, kind⟩ := placed_cell held
  have known₁ := marks.lists _ c known type id
  have bound := fresh_le_of_marks marks
  have older := State.ref_lt_fresh known
  have allocRun := runs_alloc (W := W) (.mkCons (.ref b) .null) s₁
  have known₂ := State.cell_allocated_old known₁ (.mkCons (.ref b) .null)
  have linkRun := runs_set_cdr (W := W) known₂ .build (.ref s₁.fresh)
  have sound₂ := runs_sound sound₁ allocRun
  have linked : Marks (· = .ref a) (fun _ => []) (s₁.allocated (.mkCons (.ref b) .null))
      ((s₁.allocated (.mkCons (.ref b) .null)).put a { c with w1 := .ofPtr (.ref s₁.fresh) }) :=
    marks_put known₂ rfl
  have apart : Ptr.ref s₁.fresh ≠ .ref a := by
    intro same
    cases same
    omega
  have new := (State.cell_put_other apart { c with w1 := .ofPtr (.ref s₁.fresh) }).trans
    (State.cell_allocated_new s₁ (.mkCons (.ref b) .null))
  obtain ⟨s', sc', c', loopRun, stands', left', marks', last, type', car', all⟩ :=
    later _ sc₁ s₁.fresh (.mkCons (.ref b) .null) (runs_sound sound₂ linkRun) stands left new rfl
      (Cell.mk_cons_cdr _ _)
  have here := State.cell_put_same (State.ref_lt_fresh known₂)
    { c with w1 := .ofPtr (.ref s₁.fresh) }
  have final := marks'.lists _ _ here type apart.symm
  -- of the cells of `s₁` only the one at `a` has changed
  have marks₁ : Marks (· = .ref a) _ s₁ s' :=
    marks_trans (marks_after (marks_allocated sound₁ _) linked) marks' (fun _ hit => hit)
      fun q old known same => by
        subst same
        exact absurd (State.ref_lt_fresh known) (Nat.lt_irrefl _)
  refine ⟨s', sc', { c with w1 := .ofPtr (.ref s₁.fresh) }, ?_, stands', left', ?_, final, type,
    rfl, ?_⟩
  · rw [readListLoop, runs_after (runs_read_form.2 run)]
    have notNull : Ptr.ref b ≠ .null := by simp
    simp only [if_neg notNull]
    rw [runs_after (runs_type_of foundForm), if_neg kind, runs_after allocRun, runs_after linkRun]
    exact runs_read_list_loop.2 loopRun
  · exact marks_same (marks_after marks marks₁) fun name => by rw [linesOf]; rfl
  · simp only [AllPlaced]
    refine ⟨c', ⟨s₁.fresh, rfl, bound, last, type'⟩, ?_, ?_⟩
    · rw [car', Cell.mk_cons_car]
      refine placed_kept marks₁.toFormsKept (fun b' c' found same => ?_) f _ held
      cases same
      rw [known₁] at found
      cases found
      exact ⟨type, older⟩
    · refine all_placed_lower ?_ items c'.cdr all
      rw [State.fresh_put, State.fresh_allocated]
      omega

/-- On every file `read_list` and its loop build what `Layout` says, and leave the lines
that stand in the file. -/
theorem reads_layout {items : List Placed} (layout : Layout file input items rest) :
    ReadsInner W file input items rest ∧ ReadsOn W file input items rest := by
  induction layout with
  | stop ends => exact ⟨reads_inner_stop ends, reads_on_stop ends⟩
  | close next closes => exact ⟨reads_inner_close next closes, reads_on_close next closes⟩
  | atom next noOpen noClose _ ih =>
      have first : ReadsPlaced W file _ _ _ := reads_placed_atom next noOpen noClose
      exact ⟨reads_inner_cons first ih.2, reads_on_cons first ih.2⟩
  | list next opens _ _ inside later =>
      have first := reads_placed_list next opens inside.1
      exact ⟨reads_inner_cons first later.2, reads_on_cons first later.2⟩

end Reading

end BearLang
