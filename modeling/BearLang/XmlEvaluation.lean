import BearLang.ArgumentBinding
import BearLang.Printing
import BearLang.VariableLookup
import BearLang.XmlGenerate

/-!
# Evaluating markup

A tree of calls of the `xml` module in the heap evaluates to the text of the tree.
An evaluation changes little of what was there: a call without arguments gets
`None` for its arguments, and names are interned.
-/

namespace BearLang.XmlTrees

open CallPrograms SymbolInterning

set_option autoImplicit false

section Memory

def SymbolAt (s : State) (name : CStr) (p : Ptr) : Prop :=
  ∃ c, s.cell p = some c ∧ c.type = .symbol ∧ c.sVal = some name

def StringAt (s : State) (str : CStr) (p : Ptr) : Prop :=
  ∃ c, s.cell p = some c ∧ c.type = .string ∧ c.sVal = some str

def ListCell (s : State) (p car cdr : Ptr) : Prop :=
  ∃ c, s.cell p = some c ∧ c.type = .cons ∧ c.car = car ∧ c.cdr = cdr

mutual

/-- The pointer holds the expression: a string, a clause `(@ 'name "value")` or a
call of a member of `x`. -/
def ItemAt (s : State) : Item → Ptr → Prop
  | .leaf str, p => StringAt s str p
  | .attr name value, p => ∃ head clause quoted rest str, ListCell s p head clause ∧
      SymbolAt s (text "@") head ∧ ListCell s clause quoted rest ∧
      SymbolAt s (chr '\'' :: name) quoted ∧ ListCell s rest str .null ∧ StringAt s value str
  | .element tag items, p => ∃ head args, ListCell s p head args ∧
      SymbolAt s (text "x::" ++ tag) head ∧
      ((items = [] ∧ (args = .null ∨ args = nullVal)) ∨ (items ≠ [] ∧ ItemsAt s items args))

def ItemsAt (s : State) : List Item → Ptr → Prop
  | [], p => p = .null
  | item :: items, p => ∃ q rest, ListCell s p q rest ∧ ItemAt s item q ∧ ItemsAt s items rest

end

mutual

/-- The names that the evaluation of the expression interns. -/
def Item.interns : Item → List CStr
  | .attr name _ => [name]
  | .leaf _ => []
  | .element tag items => text "x" :: tag :: internsOf items

def internsOf : List Item → List CStr
  | [] => []
  | item :: items => item.interns ++ internsOf items

end

/-- What is found in the table under the name has this name, and not a longer one. -/
def FindsOwn (s : State) (name : CStr) : Prop :=
  ∀ entry ∈ s.symbolTable, entry.key = name → nameOf s (.ref entry.sym) = some name

/-- The name is not the key of a longer one among the names. -/
def NoKeyOf (names : List CStr) (name : CStr) : Prop :=
  ∀ other ∈ names, other.take symKeySize = name → other = name

/-- The context gives the context of the `xml` module for the name `x`. -/
structure Scene (s : State) (ctx xml : Ptr) : Prop where
  plain : ∃ c, ctxAt s ctx = some c ∧ c.ctxGet = none
  bound : ∃ key id n, Interned s (text "x") key ∧ PlainSymbol s key id ∧ Finds s id ctx n xml
  module : ∃ c, ctxAt s xml = some c ∧ c.ctxGet = some xGetNumber

end Memory

section Frame

/-- What an evaluation leaves of a state: all but the ends of lists that are only a
symbol, and a table in which further names may be. -/
structure Keeps (names : List CStr) (s t : State) : Prop where
  grown : Grows s t
  rest : ∀ p c d, s.cell p = some c → t.cell p = some d → d.tail = c.tail ∧
    (d.w1 = c.w1 ∨ (c.type = .cons ∧ c.w1 = .zero ∧ d.w1 = .ofPtr nullVal ∧
      ∀ h, s.cell c.car = some h → h.type = .symbol))
  interned : ∀ key, Interned s (text "x") key → Interned t (text "x") key
  own : ∀ name, NoKeyOf names name → FindsOwn s name → FindsOwn t name

variable {names : List CStr} {s t u : State}

theorem keeps_refl (s : State) : Keeps names s s where
  grown := grows_refl s
  rest := fun p c d known known' => by
    rw [known] at known'
    cases known'
    exact ⟨rfl, .inl rfl⟩
  interned := fun _ found => found
  own := fun _ _ finds => finds

theorem keeps_trans (first : Keeps names s t) (second : Keeps names t u) : Keeps names s u where
  grown := grows_trans first.grown second.grown
  rest := by
    intro p c e known last
    obtain ⟨d, middle, type, word⟩ := first.grown p c known
    obtain ⟨tail, words⟩ := first.rest p c d known middle
    obtain ⟨tail', words'⟩ := second.rest p d e middle last
    refine ⟨tail'.trans tail, ?_⟩
    rcases words with same | ⟨isCons, zero, filled, bare⟩
    · rcases words' with same' | ⟨isCons', zero', filled', bare'⟩
      · exact .inl (same'.trans same)
      · refine .inr ⟨type ▸ isCons', same ▸ zero', filled', fun h held => ?_⟩
        have sameCar : d.car = c.car := by rw [Cell.car, Cell.car, word]
        obtain ⟨h', held', type', _⟩ := first.grown _ h held
        exact type'.symm.trans (bare' h' (sameCar ▸ held'))
    · rcases words' with same' | ⟨_, zero', _⟩
      · exact .inr ⟨isCons, zero, same'.trans filled, bare⟩
      · rw [filled] at zero'
        cases zero'
  interned := fun key found => second.interned key (first.interned key found)
  own := fun name apart finds => second.own name apart (first.own name apart finds)

theorem symbol_at_grows (grown : Grows s t) {name : CStr} {p : Ptr} (at_ : SymbolAt s name p) :
    SymbolAt t name p := by
  obtain ⟨c, known, type, named⟩ := at_
  obtain ⟨d, found, type', word⟩ := grown p c known
  exact ⟨d, found, type'.trans type, by rw [Cell.sVal, word]; exact named⟩

theorem string_at_grows (grown : Grows s t) {str : CStr} {p : Ptr} (at_ : StringAt s str p) :
    StringAt t str p := by
  obtain ⟨c, known, type, held⟩ := at_
  obtain ⟨d, found, type', word⟩ := grown p c known
  exact ⟨d, found, type'.trans type, by rw [Cell.sVal, word]; exact held⟩

theorem cdr_of_w1 {c d : Cell} (same : d.w1 = c.w1) : d.cdr = c.cdr := by
  rw [Cell.cdr, Cell.cdr, same]

theorem w1_of_cdr_null {c : Cell} (empty : c.cdr = .null) : c.w1 = .zero := by
  unfold Cell.cdr Word.ptr at empty
  split at empty
  · assumption
  · cases empty
  · cases empty

theorem cdr_of_w1_zero {c : Cell} (zero : c.w1 = .zero) : c.cdr = .null := by
  rw [Cell.cdr, zero]
  rfl

/-- A list cell is as before, if it is not the end of a list or its element is no
symbol. -/
theorem list_cell_keeps (keeps : Keeps names s t) {p car cdr : Ptr} (cell : ListCell s p car cdr)
    (fixed : cdr ≠ .null ∨ ∃ h, s.cell car = some h ∧ h.type ≠ .symbol) : ListCell t p car cdr := by
  obtain ⟨c, known, type, isCar, isCdr⟩ := cell
  obtain ⟨d, found, type', word⟩ := keeps.grown p c known
  have car' : d.car = car := by rw [Cell.car, word]; exact isCar
  refine ⟨d, found, type'.trans type, car', ?_⟩
  rcases (keeps.rest p c d known found).2 with same | ⟨_, zero, _, bare⟩
  · exact (cdr_of_w1 same).trans isCdr
  · rcases fixed with more | ⟨h, held, other⟩
    · exact absurd (isCdr.symm.trans (cdr_of_w1_zero zero)) more
    · exact absurd (bare h (isCar ▸ held)) other

theorem list_cell_ne_null {p car cdr : Ptr} (cell : ListCell s p car cdr) : p ≠ .null := by
  obtain ⟨c, known, _⟩ := cell
  exact cell_ne_null known

theorem item_at_cell (item : Item) {p : Ptr} (at_ : ItemAt s item p) :
    ∃ h, s.cell p = some h ∧ h.type ≠ .symbol := by
  have notSymbol {h : Cell} {kind : ValType} (type : h.type = kind) (other : kind ≠ .symbol) :
      h.type ≠ .symbol := fun same => other (type.symm.trans same)
  cases item with
  | leaf str =>
      obtain ⟨c, known, type, _⟩ := at_
      exact ⟨c, known, notSymbol type (by decide)⟩
  | attr name value =>
      obtain ⟨_, _, _, _, _, ⟨c, known, type, _⟩, _⟩ := at_
      exact ⟨c, known, notSymbol type (by decide)⟩
  | element tag items =>
      obtain ⟨_, _, ⟨c, known, type, _⟩, _⟩ := at_
      exact ⟨c, known, notSymbol type (by decide)⟩

mutual

theorem item_at_keeps : ∀ (item : Item) {p : Ptr}, Keeps names s t → ItemAt s item p →
    ItemAt t item p
  | .leaf _, _, keeps, at_ => string_at_grows keeps.grown at_
  | .attr _ _, _, keeps, ⟨head, clause, quoted, rest, str, outer, at_, first, name, last, value⟩ => by
      have filled := list_cell_ne_null first
      have filled' := list_cell_ne_null last
      have string : ∃ h, s.cell str = some h ∧ h.type ≠ .symbol :=
        item_at_cell (.leaf _) value
      exact ⟨head, clause, quoted, rest, str, list_cell_keeps keeps outer (.inl filled),
        symbol_at_grows keeps.grown at_, list_cell_keeps keeps first (.inl filled'),
        symbol_at_grows keeps.grown name, list_cell_keeps keeps last (.inr string),
        string_at_grows keeps.grown value⟩
  | .element _ items, p, keeps, ⟨head, args, outer, name, inner⟩ => by
      have name' := symbol_at_grows keeps.grown name
      rcases inner with ⟨empty, none_⟩ | ⟨some_, inner⟩
      · obtain ⟨c, known, type, isCar, isCdr⟩ := outer
        obtain ⟨d, found, type', word⟩ := keeps.grown p c known
        refine ⟨head, d.cdr, ⟨d, found, type'.trans type, ?_, rfl⟩, name', .inl ⟨empty, ?_⟩⟩
        · rw [Cell.car, word]
          exact isCar
        · rcases (keeps.rest p c d known found).2 with same | ⟨_, _, filled, _⟩
          · rw [cdr_of_w1 same, isCdr]
            exact none_
          · right
            rw [Cell.cdr, filled]
            rfl
      · have more : args ≠ .null := by
          cases items with
          | nil => exact absurd rfl some_
          | cons item items =>
              obtain ⟨_, _, cell, _⟩ := inner
              exact list_cell_ne_null cell
        exact ⟨head, args, list_cell_keeps keeps outer (.inl more), name',
          .inr ⟨some_, items_at_keeps items keeps inner⟩⟩

theorem items_at_keeps : ∀ (items : List Item) {p : Ptr}, Keeps names s t → ItemsAt s items p →
    ItemsAt t items p
  | [], _, _, at_ => at_
  | item :: items, _, keeps, ⟨q, rest, cell, at_, others⟩ =>
      ⟨q, rest, list_cell_keeps keeps cell (.inr (item_at_cell item at_)), item_at_keeps item keeps at_,
        items_at_keeps items keeps others⟩

end

theorem ctx_at_keeps (keeps : Keeps names s t) (p : Ptr) (c : Ctx) (known : ctxAt s p = some c) :
    ctxAt t p = some c := by
  obtain ⟨cell, found, member⟩ := Option.bind_eq_some_iff.1 known
  obtain ⟨d, found', _⟩ := keeps.grown p cell found
  have tail := (keeps.rest p cell d found found').1
  refine Option.bind_eq_some_iff.2 ⟨d, found', ?_⟩
  rw [Cell.asCtx, tail]
  exact member

theorem scene_keeps (keeps : Keeps names s t) {ctx xml : Ptr} (scene : Scene s ctx xml) :
    Scene t ctx xml := by
  obtain ⟨⟨c, known, plain⟩, ⟨key, id, n, interned, named, found⟩, ⟨m, module, get⟩⟩ := scene
  refine ⟨⟨c, ctx_at_keeps keeps ctx c known, plain⟩, ⟨key, id, n, keeps.interned key interned, ?_,
    finds_kept (ctx_at_keeps keeps) found⟩, ⟨m, ctx_at_keeps keeps xml m module, get⟩⟩
  refine plain_symbol_kept (fun p c known type => ?_) named
  obtain ⟨d, found, type', word⟩ := keeps.grown p c known
  refine ⟨d, found, type', word, ?_⟩
  rcases (keeps.rest p c d known found).2 with same | ⟨isCons, _⟩
  · exact same
  · exact absurd (type.symm.trans isCons) (by decide)

theorem finds_own_grows (grown : Grows s t) (table : t.symbolTable = s.symbolTable) {name : CStr}
    (finds : FindsOwn s name) : FindsOwn t name := by
  intro entry mem key
  rw [table] at mem
  exact name_of_grows grown (finds entry mem key)

theorem interned_same (table : t.symbolTable = s.symbolTable) {name : CStr} {key : Ptr}
    (interned : Interned s name key) : Interned t name key := by
  obtain ⟨entry, found, isRef⟩ := interned
  exact ⟨entry, table ▸ found, isRef⟩

theorem keeps_allocated (s : State) (c : Cell) : Keeps names s (s.allocated c) where
  grown := grows_allocated s c
  rest := fun p d e known known' => by
    rw [State.cell_allocated_old known] at known'
    cases known'
    exact ⟨rfl, .inl rfl⟩
  interned := fun _ => interned_same rfl
  own := fun _ _ => finds_own_grows (grows_allocated s c) rfl

theorem keeps_mk_symbol {name : CStr} (made : name ∈ names) (s : State) :
    Keeps names s (blMkSymbol name s).2 := by
  cases found : s.symbolTable.find? (·.key == name) with
  | some entry =>
      rw [mk_symbol_found found]
      exact keeps_refl s
  | none =>
      rw [mk_symbol_entered found]
      have grown : Grows s (entered name s) := grows_allocated s _
      refine ⟨grown, fun p c d known known' => ?_, fun key interned => ?_, fun other apart finds => ?_⟩
      · have same : (entered name s).cell p = some c := State.cell_allocated_old known _
        rw [same] at known'
        cases known'
        exact ⟨rfl, .inl rfl⟩
      · obtain ⟨entry, search, isRef⟩ := interned
        refine ⟨entry, ?_, isRef⟩
        have other : ¬ (name.take symKeySize == text "x") = true := by
          intro same
          have cut : name.take symKeySize = text "x" := by simpa using same
          have whole : name = text "x" := by
            have length := congrArg List.length cut
            rw [List.length_take] at length
            have short : name.length ≤ symKeySize := by
              have one : (text "x").length = 1 := rfl
              have size : symKeySize = 31 := rfl
              omega
            rwa [List.take_of_length_le short] at cut
          rw [whole] at found
          rw [found] at search
          cases search
        have skip : (⟨name.take symKeySize, s.fresh⟩ :: s.symbolTable).find? (·.key == text "x") =
            s.symbolTable.find? (·.key == text "x") := List.find?_cons_of_neg other
        exact skip.trans search
      · intro entry mem key
        rcases List.mem_cons.1 mem with rfl | old
        · rw [← apart name made key]
          exact name_of_entered name s
        · exact name_of_grows grown (finds entry old key)

/-- A store that changes no type, no word and no other member but marks of calls. -/
theorem keeps_put {a : Nat} {c new : Cell} (known : s.cell (.ref a) = some c)
    (type : new.type = c.type) (word : new.w0 = c.w0) (tail : new.tail = c.tail)
    (link : new.w1 = c.w1 ∨ (c.type = .cons ∧ c.w1 = .zero ∧ new.w1 = .ofPtr nullVal ∧
      ∀ h, s.cell c.car = some h → h.type = .symbol)) : Keeps names s (s.put a new) where
  grown := grows_put known type word
  rest := fun p d e held held' => by
    by_cases same : p = .ref a
    · subst same
      rw [known] at held
      cases held
      rw [State.cell_put_same (State.ref_lt_fresh known)] at held'
      cases held'
      exact ⟨tail, link⟩
    · rw [State.cell_put_other same, held] at held'
      cases held'
      exact ⟨rfl, .inl rfl⟩
  interned := fun _ => interned_same rfl
  own := fun _ _ => finds_own_grows (grows_put known type word) rfl

theorem keeps_put_new {s0 : State} (keeps : Keeps names s0 s) {a : Nat} {c new : Cell}
    (later : s0.fresh ≤ a) (known : s.cell (.ref a) = some c) (type : new.type = c.type)
    (word : new.w0 = c.w0) : Keeps names s0 (s.put a new) where
  grown := grows_trans keeps.grown (grows_put known type word)
  rest := fun p d e held held' => by
    have other : p ≠ .ref a := by
      rintro rfl
      exact Nat.lt_irrefl _ (Nat.lt_of_lt_of_le (State.ref_lt_fresh held) later)
    rw [State.cell_put_other other] at held'
    exact keeps.rest p d e held held'
  interned := fun key found => interned_same rfl (keeps.interned key found)
  own := fun name apart finds =>
    finds_own_grows (grows_put known type word) rfl (keeps.own name apart finds)

end Frame

section Lists

variable {W : World} {α : Type} {s t : State} {lo : Nat}

/-- A list of values made by the generator, in cells from `lo` on. -/
def ListOf (P : State → α → Ptr → Prop) (lo : Nat) (s : State) : List α → Ptr → Prop
  | [], p => p = .null
  | x :: xs, p => ∃ a q rest, p = .ref a ∧ lo ≤ a ∧ ListCell s p q rest ∧ P s x q ∧
      ListOf P lo s xs rest

def PairAt (s : State) (pair : CStr × CStr) (p : Ptr) : Prop :=
  ∃ quoted rest str c, ListCell s p quoted rest ∧ SymbolAt s pair.1 quoted ∧
    s.cell rest = some c ∧ c.car = str ∧ StringAt s pair.2 str

/-- Only the end of one list was linked to a new cell. -/
structure Linked (s t : State) (a : Nat) (q : Ptr) : Prop where
  others : ∀ p c, p ≠ .ref a → s.cell p = some c → t.cell p = some c
  last : ∃ c, s.cell (.ref a) = some c ∧ c.type = .cons ∧ c.w1 = .zero ∧
    t.cell (.ref a) = some { c with w1 := .ofPtr q }

theorem linked_grows {a : Nat} {q : Ptr} (linked : Linked s t a q) : Grows s t := by
  intro p c known
  by_cases same : p = .ref a
  · subst same
    obtain ⟨d, held, _, _, after⟩ := linked.last
    rw [held] at known
    cases known
    exact ⟨_, after, rfl, rfl⟩
  · exact ⟨c, linked.others p c same known, rfl, rfl⟩

theorem list_cell_linked {a : Nat} {q p car cdr : Ptr} (linked : Linked s t a q)
    (cell : ListCell s p car cdr) (fixed : cdr ≠ .null ∨ p ≠ .ref a) : ListCell t p car cdr := by
  obtain ⟨c, known, type, isCar, isCdr⟩ := cell
  have other : p ≠ .ref a := by
    rcases fixed with more | other
    · rintro rfl
      obtain ⟨d, held, _, zero, _⟩ := linked.last
      rw [held] at known
      cases known
      exact more (isCdr.symm.trans (cdr_of_w1_zero zero))
    · exact other
  exact ⟨c, linked.others p c other known, type, isCar, isCdr⟩

theorem pair_at_linked {a : Nat} {q p : Ptr} {pair : CStr × CStr} (linked : Linked s t a q)
    (at_ : PairAt s pair p) : PairAt t pair p := by
  obtain ⟨quoted, rest, str, c, cell, name, known, car, value⟩ := at_
  have grown := linked_grows linked
  obtain ⟨d, found, _, word⟩ := grown rest c known
  exact ⟨quoted, rest, str, d, list_cell_linked linked cell (.inl (cell_ne_null known)),
    symbol_at_grows grown name, found, by rw [Cell.car, word]; exact car,
    string_at_grows grown value⟩

theorem pair_at_keeps {names : List CStr} {p : Ptr} {pair : CStr × CStr} (keeps : Keeps names s t)
    (at_ : PairAt s pair p) : PairAt t pair p := by
  obtain ⟨quoted, rest, str, c, cell, name, known, car, value⟩ := at_
  obtain ⟨d, found, _, word⟩ := keeps.grown rest c known
  exact ⟨quoted, rest, str, d, list_cell_keeps keeps cell (.inl (cell_ne_null known)),
    symbol_at_grows keeps.grown name, found, by rw [Cell.car, word]; exact car,
    string_at_grows keeps.grown value⟩

variable {P : State → α → Ptr → Prop}

theorem list_of_keeps {names : List CStr} (keeps : Keeps names s t) {xs : List α} {p : Ptr}
    (cell : ∀ x q, P s x q → ∃ h, s.cell q = some h ∧ h.type ≠ .symbol)
    (kept : ∀ x q, P s x q → P t x q) (list : ListOf P lo s xs p) : ListOf P lo t xs p := by
  induction xs generalizing p with
  | nil => exact list
  | cons x xs ih =>
      obtain ⟨a, q, rest, isRef, bound, outer, value, others⟩ := list
      exact ⟨a, q, rest, isRef, bound, list_cell_keeps keeps outer (.inr (cell x q value)),
        kept x q value, ih others⟩

/-- Linking the end of a list leaves lists of another sort of values. -/
theorem list_of_linked {a : Nat} {q : Ptr} (linked : Linked s t a q) {xs : List α} {p : Ptr}
    (other : ∀ x p, P s x p → ¬ ∃ rest, ListCell s (.ref a) p rest)
    (kept : ∀ x p, P s x p → P t x p) (list : ListOf P lo s xs p) : ListOf P lo t xs p := by
  induction xs generalizing p with
  | nil => exact list
  | cons x xs ih =>
      obtain ⟨b, v, rest, isRef, bound, outer, value, others⟩ := list
      refine ⟨b, v, rest, isRef, bound, list_cell_linked linked outer (.inr ?_), kept x v value,
        ih others⟩
      rintro rfl
      exact other x v value ⟨rest, outer⟩

theorem last_cell_runs {xs : List α} {p : Ptr} (some_ : xs ≠ []) (list : ListOf P lo s xs p) :
    ∃ a v x, (runtime W).Runs (call (.lastCell p)) s (.ref a) s ∧ lo ≤ a ∧
      ListCell s (.ref a) v .null ∧ P s x v ∧
      ∀ {t : State} {n : Nat} {y : α} {w : Ptr}, Linked s t a (.ref n) → lo ≤ n →
        ListCell t (.ref n) w .null → P t y w → (∀ x v, P s x v → P t x v) →
        ListOf P lo t (xs ++ [y]) p := by
  induction xs generalizing p with
  | nil => exact absurd rfl some_
  | cons x xs ih =>
      obtain ⟨b, v, rest, rfl, bound, outer, value, others⟩ := list
      have cell := outer
      obtain ⟨c, known, type, car, cdr⟩ := cell
      cases xs with
      | nil =>
          have empty : rest = .null := others
          subst empty
          refine ⟨b, v, x, ?_, bound, outer, value, @fun t n y w linked later new last kept => ?_⟩
          · refine runs_call (c := .lastCell (.ref b)) ?_
            change (runtime W).Runs (lastCellLoop (.ref b)) s (.ref b) s
            rw [lastCellLoop, runs_after (runs_load known), if_pos cdr]
            exact runs_pure_self _ _
          · obtain ⟨d, held, _, _, after⟩ := linked.last
            rw [known] at held
            cases held
            exact ⟨b, v, .ref n, rfl, bound, ⟨_, after, type, car, rfl⟩, kept x v value,
              n, w, .null, rfl, later, new, last, rfl⟩
      | cons x' xs =>
          obtain ⟨a, v', y, run, later, last, held, further⟩ := ih (by simp) others
          have more : rest ≠ .null := by
            obtain ⟨_, _, _, rfl, _⟩ := others
            simp
          refine ⟨a, v', y, ?_, later, last, held, fun linked behind new value' kept => ?_⟩
          · refine runs_call (c := .lastCell (.ref b)) ?_
            change (runtime W).Runs (lastCellLoop (.ref b)) s (.ref a) s
            rw [lastCellLoop, runs_after (runs_load known), if_neg (by rw [cdr]; exact more), cdr]
            exact run
          · exact ⟨b, v, rest, rfl, bound, list_cell_linked linked outer (.inl more),
              kept x v value, further linked behind new value' kept⟩

/-- What the generator collects: evaluations and links leave it what it is. -/
structure Collectable (P : State → α → Ptr → Prop) : Prop where
  cell : ∀ {s x p}, P s x p → ∃ h, s.cell p = some h ∧ h.type ≠ .symbol
  keeps : ∀ {names s t x p}, Keeps names s t → P s x p → P t x p
  linked : ∀ {s t a q x p}, Linked s t a q → P s x p → P t x p

theorem strings_collectable : Collectable StringAt where
  cell := fun at_ => item_at_cell (.leaf _) at_
  keeps := fun keeps at_ => string_at_grows keeps.grown at_
  linked := fun linked at_ => string_at_grows (linked_grows linked) at_

theorem pairs_collectable : Collectable PairAt where
  cell := fun ⟨_, _, _, _, ⟨c, known, type, _⟩, _⟩ => by
    refine ⟨c, known, fun symbol => ?_⟩
    exact absurd (type.symm.trans symbol) (by decide)
  keeps := pair_at_keeps
  linked := pair_at_linked

theorem no_string_pair {str : CStr} {pair : CStr × CStr} {p : Ptr} (string : StringAt s str p)
    (isPair : PairAt s pair p) : False := by
  obtain ⟨c, known, type, _⟩ := string
  obtain ⟨_, _, _, _, ⟨d, found, kind, _⟩, _⟩ := isPair
  rw [known] at found
  cases found
  exact absurd (type.symm.trans kind) (by decide)

theorem list_cell_new (s : State) (v : Ptr) :
    ListCell (s.allocated (.mkCons v .null)) (.ref s.fresh) v .null :=
  ⟨_, State.cell_allocated_new s _, rfl, Cell.mk_cons_car v .null, Cell.mk_cons_cdr v .null⟩

/-- A value is appended to one list of the generator; the other stays. -/
theorem append_runs {β : Type} {Q : State → β → Ptr → Prop} {names : List CStr} {s0 : State}
    (collects : Collectable P) (others : Collectable Q)
    (apart : ∀ {x y p}, P s x p → Q s y p → False) (keeps : Keeps names s0 s) {xs : List α}
    {ys : List β} {x : α} {L M val : Ptr} (list : ListOf P s0.fresh s xs L)
    (other : ListOf Q s0.fresh s ys M) (value : P s x val) :
    ∃ L' t, (runtime W).Runs (blListAppend L val) s L' t ∧ Keeps names s0 t ∧
      ListOf P s0.fresh t (xs ++ [x]) L' ∧ ListOf Q s0.fresh t ys M := by
  have made : Keeps names s (s.allocated (.mkCons val .null)) := keeps_allocated s _
  have later := fresh_le_of_grows keeps.grown
  by_cases empty : xs = []
  · subst empty
    have none_ : L = .null := list
    subst none_
    refine ⟨.ref s.fresh, s.allocated (.mkCons val .null), ?_, keeps_trans keeps made,
      ⟨s.fresh, val, .null, rfl, later, list_cell_new s val, collects.keeps made value, rfl⟩,
      list_of_keeps made (fun _ _ => others.cell) (fun _ _ => others.keeps made) other⟩
    rw [blListAppend, if_pos rfl]
    exact runs_alloc _ s
  · obtain ⟨a, v, y, run, bound, last, held, further⟩ := last_cell_runs (W := W) empty list
    have filled : L ≠ .null := by
      cases xs with
      | nil => exact absurd rfl empty
      | cons x xs =>
          obtain ⟨_, _, _, rfl, _⟩ := list
          simp
    have lastCell := last
    obtain ⟨c, known, type, car, cdr⟩ := lastCell
    have old := State.cell_allocated_old known (.mkCons val .null)
    have aOld := State.ref_lt_fresh known
    have linked : Linked s ((s.allocated (.mkCons val .null)).put a
        { c with w1 := .ofPtr (.ref s.fresh) }) a (.ref s.fresh) :=
      ⟨fun p d other known => by
          rw [State.cell_put_other other]
          exact State.cell_allocated_old known _,
        c, known, type, w1_of_cdr_null cdr, State.cell_put_same (State.ref_lt_fresh old) _⟩
    have new : ListCell ((s.allocated (.mkCons val .null)).put a
        { c with w1 := .ofPtr (.ref s.fresh) }) (.ref s.fresh) val .null := by
      obtain ⟨d, found, shape⟩ := list_cell_new s val
      refine ⟨d, ?_, shape⟩
      rw [State.cell_put_other fun same => Nat.ne_of_gt aOld (Ptr.ref.inj same)]
      exact found
    have kept : Keeps names s0 ((s.allocated (.mkCons val .null)).put a
        { c with w1 := .ofPtr (.ref s.fresh) }) :=
      keeps_put_new (keeps_trans keeps made) bound old rfl rfl
    refine ⟨L, _, ?_, kept,
      further linked later new (collects.linked linked value) (fun _ _ => collects.linked linked),
      list_of_linked linked (fun z p isQ ⟨rest, cell⟩ => ?_) (fun _ _ => others.linked linked) other⟩
    · rw [blListAppend, if_neg filled, runs_after run, runs_after (runs_alloc _ s),
        runs_after (runs_set_cdr old .append (.ref s.fresh))]
      exact runs_pure_self _ _
    · obtain ⟨d, found, _, car', _⟩ := cell
      rw [known] at found
      cases found
      rw [← car', car] at isQ
      exact apart held isQ

end Lists

section Clauses

variable {W : World} {s t : State} {ctx : Ptr} {names : List CStr}

theorem eval_string_runs (site : Site) {str : CStr} {p : Ptr} (at_ : StringAt s str p) :
    (runtime W).Runs (blEval site ctx p) s p s := by
  obtain ⟨c, known, type, _⟩ := at_
  rw [runs_eval, evalBody, if_neg (cell_ne_null known)]
  refine runs_call (c := .evalLoop ctx p) ?_
  change (runtime W).Runs (evalLoopBody ctx p) s p s
  rw [evalLoopBody, if_neg (cell_ne_null known), runs_after (runs_load known), type]
  exact runs_pure_self _ _

theorem naked_string_runs {str : CStr} {p : Ptr} (at_ : StringAt s str p) :
    (runtime W).Runs (blSerNakedSexp p) s str s := by
  obtain ⟨c, known, type, held⟩ := at_
  exact prints_naked_string known type held

theorem mk_symbol_at (sound : Sound s) {name : CStr} (finds : FindsOwn s name) :
    SymbolAt (blMkSymbol name s).2 name (blMkSymbol name s).1 := by
  cases found : s.symbolTable.find? (·.key == name) with
  | some entry =>
      rw [mk_symbol_found found]
      obtain ⟨mem, key⟩ := find_key found
      obtain ⟨c, known, type⟩ := Option.map_eq_some_iff.1 (sound.symbols entry mem)
      obtain ⟨d, known', held⟩ := Option.bind_eq_some_iff.1 (finds entry mem key)
      rw [known] at known'
      cases known'
      exact ⟨c, known, type, held⟩
  | none =>
      rw [mk_symbol_entered found]
      exact ⟨_, State.cell_allocated_new s _, rfl, rfl⟩

theorem ctx_get_quoted {c : Ctx} (known : ctxAt s ctx = some c) (plain : c.ctxGet = none)
    {name : CStr} {p : Ptr} (quoted : SymbolAt s (chr '\'' :: name) p) :
    (runtime W).Runs (blCtxGet ctx p) s (blMkSymbol name s).1 (blMkSymbol name s).2 := by
  obtain ⟨k, found, type, held⟩ := quoted
  rw [runs_ctx_get, ctxGetBody, if_neg (cell_ne_null found), runs_after (runs_load_at known)]
  simp only [plain]
  have head : (chr '\'' :: name).head? = some (chr '\'') := rfl
  rw [runs_after (runs_load found), if_neg (fun other => other type), runs_after (runs_member held s),
    if_pos head]
  exact runs_mk_symbol name s

/-- Two cells are made for a pair, and then linked. -/
theorem pair_made {s0 : State} (keeps : Keeps names s0 s) {name value : CStr} {q str : Ptr}
    (named : SymbolAt s name q) (held : StringAt s value str) :
    PairAt ((s.allocated (.mkCons q .null)).collected (.ref s.fresh) str) (name, value)
        (.ref s.fresh) ∧
      Keeps names s0 ((s.allocated (.mkCons q .null)).collected (.ref s.fresh) str) := by
  have first := State.cell_allocated_new s (.mkCons q .null)
  have old := State.cell_allocated_old first (.mkCons str .null)
  have apart : Ptr.ref (s.allocated (.mkCons q .null)).fresh ≠ .ref s.fresh := by
    intro same
    have bound := State.ref_lt_fresh first
    have equal := Ptr.ref.inj same
    omega
  have keeps' : Keeps names s0 (((s.allocated (.mkCons q .null)).allocated (.mkCons str .null)).put
      s.fresh (.mkCons q (.ref (s.allocated (.mkCons q .null)).fresh))) :=
    keeps_put_new (keeps_trans (keeps_trans keeps (keeps_allocated s _)) (keeps_allocated _ _))
      (fresh_le_of_grows keeps.grown) old rfl rfl
  have grown : Grows s (((s.allocated (.mkCons q .null)).allocated (.mkCons str .null)).put s.fresh
      (.mkCons q (.ref (s.allocated (.mkCons q .null)).fresh))) :=
    grows_trans (grows_trans (grows_allocated s _) (grows_allocated _ _)) (grows_put old rfl rfl)
  rw [collected_behind first]
  refine ⟨⟨q, .ref (s.allocated (.mkCons q .null)).fresh, str, .mkCons str .null,
    ⟨_, State.cell_put_same (State.ref_lt_fresh old) _, rfl, Cell.mk_cons_car q _,
      Cell.mk_cons_cdr q _⟩, symbol_at_grows grown named, ?_, Cell.mk_cons_car str .null,
    string_at_grows grown held⟩, keeps'⟩
  rw [State.cell_put_other apart]
  exact State.cell_allocated_new _ _

/-- A clause evaluates to the list of its name and its value. -/
theorem eval_clause_runs (site : Site) (sound : Sound s) {c : Ctx} (known : ctxAt s ctx = some c)
    (plain : c.ctxGet = none) {name value : CStr} (made : name ∈ names) (apart : NoKeyOf names name)
    (finds : FindsOwn s name) {clause quoted rest str : Ptr} (first : ListCell s clause quoted rest)
    (isQuoted : SymbolAt s (chr '\'' :: name) quoted) (last : ListCell s rest str .null)
    (string : StringAt s value str) :
    ∃ v t, (runtime W).Runs (blEval site ctx clause) s v t ∧ PairAt t (name, value) v ∧
      Keeps names s t := by
  -- the head is looked up, and then evaluated again as the first element
  have run1 := ctx_get_quoted (W := W) known plain isQuoted
  have keeps1 := keeps_mk_symbol made s
  have sym1 := mk_symbol_at sound finds
  generalize (blMkSymbol name s).1 = q1, (blMkSymbol name s).2 = s1 at run1 keeps1 sym1
  have sound1 := runs_sound sound run1
  have known1 := ctx_at_keeps keeps1 ctx c known
  have quoted1 := symbol_at_grows keeps1.grown isQuoted
  have finds1 := keeps1.own name apart finds
  have run2 := ctx_get_quoted (W := W) known1 plain quoted1
  have keeps2 := keeps_mk_symbol made s1
  have sym2 := mk_symbol_at sound1 finds1
  generalize (blMkSymbol name s1).1 = q2, (blMkSymbol name s1).2 = s2 at run2 keeps2 sym2
  have fixed : ∃ h, s.cell str = some h ∧ h.type ≠ .symbol := item_at_cell (.leaf value) string
  have more := list_cell_ne_null last
  have keeps12 := keeps_trans keeps1 keeps2
  obtain ⟨e, foundClause, isCons, car, cdr⟩ := first
  obtain ⟨c1, known1', _, car1, cdr1⟩ :=
    list_cell_keeps keeps1 ⟨e, foundClause, isCons, car, cdr⟩ (.inl more)
  obtain ⟨c2, known2, _, _, cdr2⟩ :=
    list_cell_keeps keeps12 ⟨e, foundClause, isCons, car, cdr⟩ (.inl more)
  obtain ⟨d2, knownRest, _, carRest, cdrRest⟩ := list_cell_keeps keeps12 last (.inr fixed)
  obtain ⟨k1, knownSym1, typeSym1, _⟩ := sym1
  obtain ⟨k2, knownSym2, typeSym2, _⟩ := id sym2
  obtain ⟨q, foundQuoted, typeQuoted, _⟩ := isQuoted
  obtain ⟨q', foundQuoted1, typeQuoted1, _⟩ := quoted1
  -- the loop over the two elements
  have string3 : StringAt (s2.allocated (.mkCons q2 .null)) value str :=
    string_at_grows (grows_trans keeps12.grown (grows_allocated s2 _)) string
  obtain ⟨sc, knownStr, typeStr, _⟩ := id string3
  have link := collected_behind (State.cell_allocated_new s2 (.mkCons q2 .null)) str
  have restOld := State.cell_allocated_old (State.cell_allocated_old knownRest (.mkCons q2 .null))
    (.mkCons str .null)
  have otherRest : rest ≠ .ref s2.fresh := by
    rintro rfl
    exact Nat.lt_irrefl _ (State.ref_lt_fresh knownRest)
  have second : (runtime W).Runs (evalConsLoop ctx rest (.ref s2.fresh) (.ref s2.fresh))
      (s2.allocated (.mkCons q2 .null)) (.ref s2.fresh)
      ((s2.allocated (.mkCons q2 .null)).collected (.ref s2.fresh) str) := by
    have elem : ((s2.allocated (.mkCons q2 .null)).collected (.ref s2.fresh) str).cell rest =
        some d2 := by
      rw [link, State.cell_put_other otherRest]
      exact restOld
    refine eval_cons_turn _ (State.cell_allocated_old knownRest _) ?_ knownStr
      (fun isError => absurd (typeStr.symm.trans isError) (by decide))
      (.inr ⟨s2.fresh, q2, rfl, State.cell_allocated_new s2 _⟩) elem ?_
    · rw [carRest]
      exact eval_string_runs .listElement string3
    · rw [if_neg (by simp), cdrRest, evalConsLoop, if_pos rfl, if_neg (by simp)]
      exact runs_pure_self _ _
  have whole : (runtime W).Runs (blEvalCons ctx clause) s1 (.ref s2.fresh)
      ((s2.allocated (.mkCons q2 .null)).collected (.ref s2.fresh) str) := by
    rw [blEvalCons, if_neg (cell_ne_null known1')]
    refine runs_call (c := .evalConsLoop ctx clause .null .null) ?_
    refine eval_cons_turn .null known1' ?_ knownSym2
      (fun isError => absurd (typeSym2.symm.trans isError) (by decide)) (.inl rfl)
      (State.cell_allocated_old known2 _) ?_
    · rw [car1]
      exact eval_symbol_runs foundQuoted1 typeQuoted1 run2 (cell_ne_null knownSym2)
    · rw [if_pos rfl, cdr2]
      exact second
  have head : HeadValue W ctx e.car s q1 s1 := by
    rw [car]
    exact .symbol foundQuoted typeQuoted run1 (cell_ne_null knownSym1)
  refine ⟨.ref s2.fresh, _, (eval_runs_apply site foundClause isCons head).2
    (ArgumentBinding.apply_evaluates_list knownSym1 (by rw [typeSym1]; decide) whole (by simp)),
    pair_made keeps12 sym2 (string_at_grows keeps12.grown string)⟩

end Clauses

end BearLang.XmlTrees
