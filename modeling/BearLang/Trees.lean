import BearLang.StateInvariants
import BearLang.Tokens
import Mathlib.Data.List.Find

/-!
# Trees of forms

What a text says, apart from the heap: atoms and lists. `Denotes` says that a
pointer holds a tree, in cells from a given address on, and `Forms` which trees
`read_list` takes from a list of tokens. A symbol is the one that interning
finds, so the names known so far go along.
-/

namespace BearLang

open CallPrograms SymbolInterning

set_option autoImplicit false

inductive Atom where
  | integer (i : Int)
  | symbol (name : CStr)
  | string (s : CStr)
  | docstring (s : CStr)
  | ifOper | doOper | whileOper
deriving DecidableEq, Repr

inductive Datum where
  | atom (a : Atom)
  | list (items : List Datum)

section Heap

def Cell.atom (c : Cell) : Option Atom :=
  match c.type with
  | .number => c.iVal.map .integer
  | .symbol => c.sVal.map .symbol
  | .string => c.sVal.map .string
  | .docstring => c.sVal.map .docstring
  | .operIf => some .ifOper
  | .operDo => some .doOper
  | .operWhile => some .whileOper
  | _ => none

/-- A list cell at or behind the address `lo`. -/
def ConsAt (s : State) (lo : Nat) (p : Ptr) (c : Cell) : Prop :=
  ∃ a, p = .ref a ∧ lo ≤ a ∧ s.cell p = some c ∧ c.type = .cons

mutual

/-- The pointer holds the tree, with all its list cells from `lo` on. -/
def Denotes (s : State) (lo : Nat) : Datum → Ptr → Prop
  | .atom a, p => ∃ c, s.cell p = some c ∧ c.atom = some a
  | .list items, p =>
      (items = [] ∧ ∃ c, ConsAt s lo p c ∧ c.car = .null ∧ c.cdr = .null) ∨
        (items ≠ [] ∧ DenotesAll s lo items p)

def DenotesAll (s : State) (lo : Nat) : List Datum → Ptr → Prop
  | [], p => p = .null
  | d :: items, p => ∃ c, ConsAt s lo p c ∧ Denotes s lo d c.car ∧ DenotesAll s lo items c.cdr

end

/-- The same cell, except for the line it was read from. -/
def SameButLine (c d : Cell) : Prop := d = { c with lineNum := d.lineNum }

theorem same_but_line_trans {c d e : Cell} (first : SameButLine c d) (second : SameButLine d e) :
    SameButLine c e := by
  unfold SameButLine at *
  rw [second, first]

theorem same_but_line_type {c d : Cell} (same : SameButLine c d) : d.type = c.type := by rw [same]

theorem same_but_line_car {c d : Cell} (same : SameButLine c d) : d.car = c.car := by
  rw [same]
  rfl

theorem same_but_line_cdr {c d : Cell} (same : SameButLine c d) : d.cdr = c.cdr := by
  rw [same]
  rfl

theorem same_but_line_atom {c d : Cell} (same : SameButLine c d) : d.atom = c.atom := by
  rw [same]
  rfl

/-- Every cell stays as it is, except those that may be touched, and lines. -/
def Kept (touched : Ptr → Prop) (s t : State) : Prop :=
  ∀ p c, s.cell p = some c → ¬ touched p → ∃ new, t.cell p = some new ∧ SameButLine c new

theorem kept_refl (touched : Ptr → Prop) (s : State) : Kept touched s s :=
  fun _ c known _ => ⟨c, known, rfl⟩

theorem kept_trans {first second both : Ptr → Prop} {s t u : State} (left : Kept first s t)
    (right : Kept second t u) (firstIn : ∀ p, first p → both p)
    (secondIn : ∀ p c, s.cell p = some c → second p → both p) : Kept both s u := by
  intro p c known untouched
  obtain ⟨middle, found, same⟩ := left p c known fun hit => untouched (firstIn p hit)
  obtain ⟨last, found', same'⟩ :=
    right p middle found fun hit => untouched (secondIn p c known hit)
  exact ⟨last, found', same_but_line_trans same same'⟩

theorem atom_not_cons {c : Cell} {a : Atom} (atom : c.atom = some a) : c.type ≠ .cons := by
  intro type
  simp [Cell.atom, type] at atom

theorem cons_at_kept {s t : State} {lo : Nat} {touched : Ptr → Prop} (kept : Kept touched s t)
    (away : ∀ a c, s.cell (.ref a) = some c → touched (.ref a) → c.type = .cons ∧ a < lo)
    {p : Ptr} {c : Cell} (at_ : ConsAt s lo p c) :
    ∃ new, ConsAt t lo p new ∧ SameButLine c new := by
  obtain ⟨a, rfl, bound, known, type⟩ := at_
  have untouched : ¬ touched (.ref a) := fun hit => by
    have := (away a c known hit).2
    omega
  obtain ⟨new, found, same⟩ := kept _ c known untouched
  exact ⟨new, ⟨a, rfl, bound, found, (same_but_line_type same).trans type⟩, same⟩

mutual

/-- A tree stays where it is while list cells in front of it change. -/
theorem denotes_kept {s t : State} {lo : Nat} {touched : Ptr → Prop} (kept : Kept touched s t)
    (away : ∀ a c, s.cell (.ref a) = some c → touched (.ref a) → c.type = .cons ∧ a < lo) :
    ∀ (d : Datum) (p : Ptr), Denotes s lo d p → Denotes t lo d p
  | .atom a, p, held => by
      simp only [Denotes] at held ⊢
      obtain ⟨c, known, atom⟩ := held
      have untouched : ¬ touched p := fun hit => by
        obtain ⟨b, rfl⟩ := State.ref_of_cell known
        exact atom_not_cons atom (away b c known hit).1
      obtain ⟨new, found, same⟩ := kept p c known untouched
      exact ⟨new, found, (same_but_line_atom same).trans atom⟩
  | .list items, p, held => by
      simp only [Denotes] at held ⊢
      rcases held with ⟨empty, c, at_, car, cdr⟩ | ⟨filled, all⟩
      · obtain ⟨new, found, same⟩ := cons_at_kept kept away at_
        exact .inl ⟨empty, new, found, (same_but_line_car same).trans car,
          (same_but_line_cdr same).trans cdr⟩
      · exact .inr ⟨filled, denotes_all_kept kept away items p all⟩

theorem denotes_all_kept {s t : State} {lo : Nat} {touched : Ptr → Prop} (kept : Kept touched s t)
    (away : ∀ a c, s.cell (.ref a) = some c → touched (.ref a) → c.type = .cons ∧ a < lo) :
    ∀ (items : List Datum) (p : Ptr), DenotesAll s lo items p → DenotesAll t lo items p
  | [], p, held => by
      simp only [DenotesAll] at held ⊢
      exact held
  | d :: items, p, held => by
      simp only [DenotesAll] at held ⊢
      obtain ⟨c, at_, first, rest⟩ := held
      obtain ⟨new, found, same⟩ := cons_at_kept kept away at_
      refine ⟨new, found, ?_, ?_⟩
      · rw [same_but_line_car same]
        exact denotes_kept kept away d c.car first
      · rw [same_but_line_cdr same]
        exact denotes_all_kept kept away items c.cdr rest

end

theorem cons_at_lower {s : State} {lo lower : Nat} (le : lower ≤ lo) {p : Ptr} {c : Cell}
    (at_ : ConsAt s lo p c) : ConsAt s lower p c := by
  obtain ⟨a, same, bound, known⟩ := at_
  exact ⟨a, same, Nat.le_trans le bound, known⟩

mutual

theorem denotes_lower {s : State} {lo lower : Nat} (le : lower ≤ lo) :
    ∀ (d : Datum) (p : Ptr), Denotes s lo d p → Denotes s lower d p
  | .atom a, p, held => by
      simp only [Denotes] at held ⊢
      exact held
  | .list items, p, held => by
      simp only [Denotes] at held ⊢
      rcases held with ⟨empty, c, at_, ends⟩ | ⟨filled, all⟩
      · exact .inl ⟨empty, c, cons_at_lower le at_, ends⟩
      · exact .inr ⟨filled, denotes_all_lower le items p all⟩

theorem denotes_all_lower {s : State} {lo lower : Nat} (le : lower ≤ lo) :
    ∀ (items : List Datum) (p : Ptr), DenotesAll s lo items p → DenotesAll s lower items p
  | [], p, held => by
      simp only [DenotesAll] at held ⊢
      exact held
  | d :: items, p, held => by
      simp only [DenotesAll] at held ⊢
      obtain ⟨c, at_, first, rest⟩ := held
      exact ⟨c, cons_at_lower le at_, denotes_lower le d c.car first,
        denotes_all_lower le items c.cdr rest⟩

end

end Heap

section Names

/-- The names of the symbol table, the newest first. -/
def knownNames (s : State) : List CStr :=
  s.symbolTable.map fun entry => (nameOf s (.ref entry.sym)).getD []

/-- Interning by name: what is known under the key is taken for the name. -/
def internName (known : List CStr) (name : CStr) : CStr × List CStr :=
  match known.find? fun other => other.take symKeySize == name with
  | some other => (other, known)
  | none => (name, name :: known)

theorem known_names_grows {s t : State} (sound : Sound s) (grown : Grows s t)
    (table : t.symbolTable = s.symbolTable) : knownNames t = knownNames s := by
  unfold knownNames
  rw [table]
  refine List.map_congr_left fun entry mem => ?_
  obtain ⟨name, known, _⟩ := sound.keys.cut entry mem
  rw [known, name_of_grows grown known]

theorem find_known {s : State} (sound : Sound s) (name : CStr) :
    (knownNames s).find? (fun other => other.take symKeySize == name) =
      (s.symbolTable.find? (·.key == name)).map fun entry =>
        (nameOf s (.ref entry.sym)).getD [] := by
  unfold knownNames
  rw [List.find?_map]
  congr 1
  refine List.find?_congr fun entry mem => ?_
  obtain ⟨other, known, key⟩ := sound.keys.cut entry mem
  simp only [Function.comp, known, Option.getD_some, key]

/-- `bl_mk_symbol` gives the symbol that interning by name says. -/
theorem mk_symbol_interns {s : State} (sound : Sound s) (name : CStr) :
    nameOf (blMkSymbol name s).2 (blMkSymbol name s).1 = some (internName (knownNames s) name).1 ∧
      (blMkSymbol name s).2.typeOf (blMkSymbol name s).1 = some .symbol ∧
      knownNames (blMkSymbol name s).2 = (internName (knownNames s) name).2 := by
  have search := find_known sound name
  unfold internName
  cases found : s.symbolTable.find? (·.key == name) with
  | some entry =>
      have mem := (find_key found).1
      obtain ⟨other, known, _⟩ := sound.keys.cut entry mem
      rw [found, Option.map_some, known, Option.getD_some] at search
      rw [mk_symbol_found found, search]
      exact ⟨known, sound.symbols entry mem, rfl⟩
  | none =>
      rw [found, Option.map_none] at search
      rw [mk_symbol_entered found, search]
      have grown : Grows s (entered name s) := grows_allocated s _
      refine ⟨name_of_entered name s, ?_, ?_⟩
      · have new := State.cell_allocated_new s
          { type := .symbol, w0 := .str name, w1 := .ofNat s.lastSymId }
        exact congrArg (Option.map Cell.type) new
      · have first : (nameOf (entered name s) (.ref s.fresh)).getD [] = name := by
          rw [name_of_entered, Option.getD_some]
        have rest : s.symbolTable.map
            (fun entry => (nameOf (entered name s) (.ref entry.sym)).getD []) = knownNames s := by
          refine List.map_congr_left fun entry mem => ?_
          obtain ⟨other, known, _⟩ := sound.keys.cut entry mem
          rw [known, entered_keeps_name known name]
        exact congrArg₂ List.cons first rest

end Names

end BearLang
