import BearLang.Rendering

/-!
# What is printed of a tree

`bl_ser_sexp` on a value that the reader has built, as a function of the tree
that the value denotes, and the sameness of two values.
-/

namespace BearLang

open CallPrograms SymbolInterning

set_option autoImplicit false

section Printed

/-- `do`, `while` and docstrings have no case in `bl_ser_sexp`. -/
def Atom.printed : Atom → CStr
  | .integer i => mpzGetStr i
  | .symbol name => name
  | .string s => quote :: (s ++ [quote])
  | .docstring _ => []
  | .ifOper => text "if"
  | .doOper => []
  | .whileOper => []

mutual

def Datum.printed : Datum → CStr
  | .atom a => a.printed
  | .list [] => text "()"
  | .list (d :: items) => chr '(' :: (d.printed ++ Datum.printedRest items)

/-- What follows an element of a list. -/
def Datum.printedRest : List Datum → CStr
  | [] => [chr ')']
  | d :: items => chr ' ' :: (d.printed ++ Datum.printedRest items)

end

/-- The text that the loop of the serialiser adds. -/
def Datum.spaced : List Datum → CStr
  | [] => []
  | d :: items => d.printed ++ (chr ' ' :: Datum.spaced items)

/-- The last blank becomes the closing parenthesis. -/
theorem spaced_closed (d : Datum) (items : List Datum) :
    (Datum.spaced (d :: items)).dropLast ++ [chr ')'] = d.printed ++ Datum.printedRest items := by
  induction items generalizing d with
  | nil =>
      simp only [Datum.spaced, Datum.printedRest]
      rw [List.dropLast_append_of_ne_nil (List.cons_ne_nil _ _)]
      simp
  | cons e items ih =>
      have later := ih e
      have filled : Datum.spaced (e :: items) ≠ [] := by simp [Datum.spaced]
      have blank : chr ' ' :: Datum.spaced (e :: items) ≠ [] := List.cons_ne_nil _ _
      rw [Datum.spaced, Datum.printedRest, ← later, List.dropLast_append_of_ne_nil blank,
        List.dropLast_cons_of_ne_nil filled, List.append_assoc, List.cons_append]

end Printed

section Serialiser

variable {W : World} {s : State} {lo : Nat}

theorem runs_ser_sexp {p : Ptr} {out : CStr} {s' : State} :
    (runtime W).Runs (blSerSexp p) s out s' ↔ (runtime W).Runs (serSexpBody p) s out s' :=
  runs_call_iff (c := .serSexp p)

theorem runs_ser_loop {L : Ptr} {acc out : CStr} {s' : State} :
    (runtime W).Runs (call (.serLoop L acc)) s out s' ↔
      (runtime W).Runs (serLoop L acc) s out s' :=
  runs_call_iff (c := .serLoop L acc)

theorem prints_atom {a : Atom} {p : Ptr} {c : Cell} (known : s.cell p = some c)
    (atom : c.atom = some a) : (runtime W).Runs (blSerSexp p) s a.printed s := by
  have notNull : p ≠ .null := by
    rintro rfl
    cases known
  rw [runs_ser_sexp, serSexpBody, if_neg notNull, runs_after (runs_load known)]
  unfold Cell.atom at atom
  cases type : c.type <;> simp only [type, reduceCtorEq, Option.map_eq_some_iff] at atom ⊢
  case number =>
    obtain ⟨i, value, rfl⟩ := atom
    rw [runs_after (runs_member value s)]
    exact runs_pure_self _ _
  case symbol =>
    obtain ⟨name, value, rfl⟩ := atom
    exact runs_member value s
  case string =>
    obtain ⟨str, value, rfl⟩ := atom
    rw [runs_after (runs_member value s)]
    exact runs_pure_self _ _
  case docstring =>
    obtain ⟨str, _, rfl⟩ := atom
    exact runs_pure_self _ _
  case operIf =>
    cases atom
    exact runs_pure_self _ _
  case operDo =>
    cases atom
    exact runs_pure_self _ _
  case operWhile =>
    cases atom
    exact runs_pure_self _ _

theorem prints_naked_string {str : CStr} {p : Ptr} {c : Cell} (known : s.cell p = some c)
    (type : c.type = .string) (held : c.sVal = some str) :
    (runtime W).Runs (blSerNakedSexp p) s str s := by
  have atom : c.atom = some (.string str) := by
    simp only [Cell.atom, type, held, Option.map_some]
  have printed : (Atom.string str).printed = text "\"" ++ str ++ text "\"" := rfl
  have bare : ((text "\"" ++ str ++ text "\"").drop 1).dropLast = str := by
    simp [text]
  rw [blSerNakedSexp, runs_after (prints_atom known atom), runs_after (runs_type_of known),
    if_pos type, printed, bare]
  exact runs_pure_self _ _

mutual

theorem prints_datum : ∀ (d : Datum) (p : Ptr), Denotes s lo d p →
    (runtime W).Runs (blSerSexp p) s d.printed s
  | .atom a, p, held => by
      simp only [Denotes] at held
      obtain ⟨c, known, atom⟩ := held
      exact prints_atom known atom
  | .list [], p, held => by
      simp only [Denotes] at held
      rcases held with ⟨_, c, ⟨a, rfl, _, known, type⟩, car, _⟩ | ⟨filled, _⟩
      · rw [runs_ser_sexp, serSexpBody, if_neg (by simp), runs_after (runs_load known)]
        simp only [type, if_pos car]
        exact runs_pure_self _ _
      · exact absurd rfl filled
  | .list (d :: items), p, held => by
      simp only [Denotes, DenotesAll] at held
      rcases held with ⟨empty, _⟩ | ⟨_, c, ⟨a, rfl, bound, known, type⟩, first, rest⟩
      · cases empty
      · obtain ⟨b, e, same, _⟩ := denotes_cell first
        have carFilled : c.car ≠ .null := by rw [same]; simp
        have whole : DenotesAll s lo (d :: items) (.ref a) := by
          simp only [DenotesAll]
          exact ⟨c, ⟨a, rfl, bound, known, type⟩, first, rest⟩
        have looped := prints_all (d :: items) (.ref a) whole (text "(")
        rw [runs_ser_sexp, serSexpBody, if_neg (by simp), runs_after (runs_load known)]
        simp only [type, if_neg carFilled]
        rw [runs_after looped, runs_pure]
        refine ⟨?_, rfl⟩
        have filled : Datum.spaced (d :: items) ≠ [] := by simp [Datum.spaced]
        rw [List.dropLast_append_of_ne_nil filled, List.append_assoc, Datum.printed]
        exact congrArg (chr '(' :: ·) (spaced_closed d items)

theorem prints_all : ∀ (items : List Datum) (L : Ptr), DenotesAll s lo items L → ∀ acc : CStr,
    (runtime W).Runs (call (.serLoop L acc)) s (acc ++ Datum.spaced items) s
  | [], L, held, acc => by
      simp only [DenotesAll] at held
      rw [runs_ser_loop, serLoop, if_pos held, Datum.spaced, List.append_nil]
      exact runs_pure_self _ _
  | d :: items, L, held, acc => by
      simp only [DenotesAll] at held
      obtain ⟨c, ⟨a, rfl, _, known, _⟩, first, rest⟩ := held
      have printed := prints_datum d c.car first
      have later := prints_all items c.cdr rest (acc ++ d.printed ++ text " ")
      rw [runs_ser_loop, serLoop, if_neg (by simp), runs_after (runs_load known),
        runs_after printed, Datum.spaced]
      have shape : acc ++ (d.printed ++ (chr ' ' :: Datum.spaced items)) =
          acc ++ d.printed ++ text " " ++ Datum.spaced items := by
        simp [text]
      rw [shape]
      exact later

end

end Serialiser

section Sameness

/-- The same structure: equal atoms, and cells whose parts are the same. -/
inductive Alike (s : State) : Ptr → Ptr → Prop where
  | null : Alike s .null .null
  | atom {p q : Ptr} {c e : Cell} {a : Atom} (left : s.cell p = some c) (right : s.cell q = some e)
      (first : c.atom = some a) (second : e.atom = some a) : Alike s p q
  | cons {p q : Ptr} {c e : Cell} (left : s.cell p = some c) (right : s.cell q = some e)
      (first : c.type = .cons) (second : e.type = .cons) (cars : Alike s c.car e.car)
      (cdrs : Alike s c.cdr e.cdr) : Alike s p q

variable {s : State} {lo lo' : Nat}

mutual

theorem alike_of_denotes : ∀ (d : Datum) (p q : Ptr), Denotes s lo d p → Denotes s lo' d q →
    Alike s p q
  | .atom a, p, q, left, right => by
      simp only [Denotes] at left right
      obtain ⟨c, known, first⟩ := left
      obtain ⟨e, known', second⟩ := right
      exact .atom known known' first second
  | .list items, p, q, left, right => by
      simp only [Denotes] at left right
      rcases left with ⟨empty, c, ⟨a, rfl, _, known, type⟩, car, cdr⟩ | ⟨filled, all⟩
      · rcases right with ⟨_, e, ⟨b, rfl, _, known', type'⟩, car', cdr'⟩ | ⟨filled, _⟩
        · refine .cons known known' type type' ?_ ?_
          · rw [car, car']
            exact .null
          · rw [cdr, cdr']
            exact .null
        · exact absurd empty filled
      · rcases right with ⟨empty, _⟩ | ⟨_, all'⟩
        · exact absurd empty filled
        · exact alike_of_denotes_all items p q all all'

theorem alike_of_denotes_all : ∀ (items : List Datum) (p q : Ptr), DenotesAll s lo items p →
    DenotesAll s lo' items q → Alike s p q
  | [], p, q, left, right => by
      simp only [DenotesAll] at left right
      rw [left, right]
      exact .null
  | d :: items, p, q, left, right => by
      simp only [DenotesAll] at left right
      obtain ⟨c, ⟨a, rfl, _, known, type⟩, first, rest⟩ := left
      obtain ⟨e, ⟨b, rfl, _, known', type'⟩, first', rest'⟩ := right
      exact .cons known known' type type' (alike_of_denotes d _ _ first first')
        (alike_of_denotes_all items _ _ rest rest')

end

theorem alike_atom {p q : Ptr} {c : Cell} {a : Atom} (alike : Alike s p q)
    (known : s.cell p = some c) (atom : c.atom = some a) :
    ∃ e, s.cell q = some e ∧ e.atom = some a := by
  cases alike with
  | null => cases known
  | atom left right first second =>
      rw [known] at left
      cases left
      rw [atom] at first
      cases first
      exact ⟨_, right, second⟩
  | cons left _ first =>
      rw [known] at left
      cases left
      exact absurd first (atom_not_cons atom)

theorem alike_cons {p q : Ptr} {c : Cell} (alike : Alike s p q) (known : s.cell p = some c)
    (type : c.type = .cons) :
    ∃ e, s.cell q = some e ∧ e.type = .cons ∧ Alike s c.car e.car ∧ Alike s c.cdr e.cdr := by
  cases alike with
  | null => cases known
  | atom left _ first =>
      rw [known] at left
      cases left
      exact absurd type (atom_not_cons first)
  | cons left right first second cars cdrs =>
      rw [known] at left
      cases left
      exact ⟨_, right, second, cars, cdrs⟩

theorem alike_null {q : Ptr} (alike : Alike s .null q) : q = .null := by
  cases alike with
  | null => rfl
  | atom left => cases left
  | cons left => cases left

theorem denotes_not_null {d : Datum} (held : Denotes s lo d .null) : False := by
  obtain ⟨a, c, same, _⟩ := denotes_cell held
  cases same

mutual

/-- A value holds one tree only, also up to sameness. -/
theorem datum_of_alike : ∀ (d e : Datum) (p q : Ptr), Denotes s lo d p → Denotes s lo' e q →
    Alike s p q → d = e
  | .atom a, e, p, q, left, right, alike => by
      simp only [Denotes] at left
      obtain ⟨c, known, atom⟩ := left
      obtain ⟨c', known', atom'⟩ := alike_atom alike known atom
      cases e with
      | atom b =>
          simp only [Denotes] at right
          obtain ⟨c'', known'', atom''⟩ := right
          rw [known'] at known''
          cases known''
          rw [atom'] at atom''
          cases atom''
          rfl
      | list items =>
          obtain ⟨c'', known'', type⟩ := Option.map_eq_some_iff.1 (type_of_denotes_list right)
          rw [known'] at known''
          cases known''
          exact absurd type (atom_not_cons atom')
  | .list items, e, p, q, left, right, alike => by
      obtain ⟨c, known, type⟩ := Option.map_eq_some_iff.1 (type_of_denotes_list left)
      obtain ⟨c', known', type', cars, cdrs⟩ := alike_cons alike known type
      cases e with
      | atom b =>
          simp only [Denotes] at right
          obtain ⟨c'', known'', atom''⟩ := right
          rw [known'] at known''
          cases known''
          exact absurd type' (atom_not_cons atom'')
      | list others =>
          simp only [Denotes] at left right
          rcases left with ⟨rfl, d, ⟨a, rfl, _, held, _⟩, car, _⟩ | ⟨_, all⟩
          · rcases right with ⟨rfl, _⟩ | ⟨filled, all'⟩
            · rfl
            · cases others with
              | nil => exact absurd rfl filled
              | cons f others =>
                  simp only [DenotesAll] at all'
                  obtain ⟨c'', ⟨b, rfl, _, held', _⟩, first, _⟩ := all'
                  rw [known] at held
                  cases held
                  rw [known'] at held'
                  cases held'
                  rw [car] at cars
                  rw [alike_null cars] at first
                  exact (denotes_not_null first).elim
          · rcases right with ⟨rfl, f, ⟨b, rfl, _, held', _⟩, car', _⟩ | ⟨_, all'⟩
            · cases items with
              | nil => rfl
              | cons d items =>
                  simp only [DenotesAll] at all
                  obtain ⟨c'', ⟨a, rfl, _, held, _⟩, first, _⟩ := all
                  rw [known] at held
                  cases held
                  rw [known'] at held'
                  cases held'
                  obtain ⟨a', c₂, same, found, _⟩ := denotes_cell first
                  rw [car', same] at cars
                  cases cars with
                  | atom _ right => cases right
                  | cons _ right => cases right
            · rw [data_of_alike items others p q all all' alike]

theorem data_of_alike : ∀ (items others : List Datum) (p q : Ptr), DenotesAll s lo items p →
    DenotesAll s lo' others q → Alike s p q → items = others
  | [], others, p, q, left, right, alike => by
      simp only [DenotesAll] at left
      rw [left] at alike
      cases others with
      | nil => rfl
      | cons e others =>
          simp only [DenotesAll] at right
          obtain ⟨c, ⟨b, rfl, _⟩, _⟩ := right
          cases alike_null alike
  | d :: items, others, p, q, left, right, alike => by
      simp only [DenotesAll] at left
      obtain ⟨c, ⟨a, rfl, _, known, type⟩, first, rest⟩ := left
      obtain ⟨c', known', _, cars, cdrs⟩ := alike_cons alike known type
      cases others with
      | nil =>
          simp only [DenotesAll] at right
          rw [right] at known'
          cases known'
      | cons e others =>
          simp only [DenotesAll] at right
          obtain ⟨c'', ⟨b, rfl, _, known'', _⟩, first', rest'⟩ := right
          rw [known'] at known''
          cases known''
          rw [datum_of_alike d e _ _ first first' cars, data_of_alike items others _ _ rest rest' cdrs]

end

end Sameness

end BearLang
