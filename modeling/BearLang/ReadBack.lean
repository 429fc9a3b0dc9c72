import BearLang.PrintedTokens

/-!
# Atoms that were read, and reading them again

Where the atoms of a tree come from when a text was read, and what becomes of
each of them when the printed tree is read. The names known by then are those
known before, so a symbol comes back unless a longer name hides it.
-/

namespace BearLang

open CallPrograms SymbolInterning

set_option autoImplicit false

variable {slash : Bool}

section Origin

theorem cut_suffix (input : CStr) : (cut input).2 <:+ input := by
  unfold cut
  split <;> exact List.drop_suffix _ _

theorem token_cut {input : CStr} {tokens : List Token} (lexes : Lexes input tokens) :
    ∀ t ∈ tokens, ∃ part rest, part <:+ input ∧ cut part = (some t, rest) := by
  induction lexes with
  | stop =>
      intro t mem
      cases mem
  | @skip c input rest tokens skipped _ ih =>
      intro t mem
      obtain ⟨part, left, inside, found⟩ := ih t mem
      have shorter := cut_suffix (c :: input)
      rw [skipped] at shorter
      exact ⟨part, left, inside.trans shorter, found⟩
  | @token c input rest u tokens found _ ih =>
      intro t mem
      rcases List.mem_cons.1 mem with rfl | mem
      · exact ⟨_, rest, List.suffix_refl _, found⟩
      · obtain ⟨part, left, inside, found'⟩ := ih t mem
        have shorter := cut_suffix (c :: input)
        rw [found] at shorter
        exact ⟨part, left, inside.trans shorter, found'⟩

/-- What holds of the names that are known and of what every token adds to them
holds of all atoms. -/
theorem forms_atoms {known after : List CStr} {tokens rest : List Token} {items : List Datum}
    (forms : Forms slash known tokens items rest after) (invariant : List CStr → Prop)
    (P : Token → Prop) {R : Atom → Prop}
    (each : ∀ t k a b, P t → invariant k → t.atom slash k = some (a, b) → R a ∧ invariant b)
    (all : ∀ t ∈ tokens, P t) (start : invariant known) :
    (∀ a ∈ Datum.allAtoms items, R a) ∧ invariant after ∧ ∀ t ∈ rest, P t := by
  induction forms with
  | stop => exact ⟨fun a mem => absurd mem List.not_mem_nil, start, all⟩
  | close known rest closes =>
      exact ⟨fun a mem => absurd mem List.not_mem_nil, start,
        fun t mem => all t (List.mem_cons_of_mem _ mem)⟩
  | atom value _ ih =>
      have first := each _ _ _ _ (all _ List.mem_cons_self) start value
      have later := ih (fun t mem => all t (List.mem_cons_of_mem _ mem)) first.2
      refine ⟨fun a mem => ?_, later.2⟩
      simp only [Datum.allAtoms, Datum.atoms, List.mem_append, List.mem_singleton] at mem
      rcases mem with rfl | mem
      · exact first.1
      · exact later.1 a mem
  | list _ _ _ inside later =>
      have inner := inside (fun t mem => all t (List.mem_cons_of_mem _ mem)) start
      have outer := later inner.2.2 inner.2.1
      refine ⟨fun a mem => ?_, outer.2⟩
      simp only [Datum.allAtoms, Datum.atoms, List.mem_append] at mem
      rcases mem with mem | mem
      · exact inner.1 a mem
      · exact outer.1 a mem

theorem forest_atoms {known after : List CStr} {tokens : List Token} {d : Datum}
    (forest : Forest slash known tokens [d] after) (invariant : List CStr → Prop)
    (P : Token → Prop) {R : Atom → Prop}
    (each : ∀ t k a b, P t → invariant k → t.atom slash k = some (a, b) → R a ∧ invariant b)
    (all : ∀ t ∈ tokens, P t) (start : invariant known) : ∀ a ∈ d.atoms, R a := by
  have forms := forms_of_forest forest (.stop after)
  rw [List.append_nil, List.append_nil] at forms
  have result := (forms_atoms forms invariant P each all start).1
  simpa only [Datum.allAtoms, List.append_nil] using result

theorem unescape_mem {s : CStr} {c : Byte} (mem : c ∈ unescape slash s) :
    c ≠ backslash ∧ (c ∈ s ∨ c = newline ∨ c = 9) := by
  have line : newline ≠ backslash := by decide
  have tab : (9 : Byte) ≠ backslash := by decide
  induction s generalizing slash with
  | nil => cases mem
  | cons d rest ih =>
      rw [unescape] at mem
      split at mem
      · have later := ih mem
        exact ⟨later.1, later.2.imp (List.mem_cons_of_mem _) id⟩
      · rename_i other
        split at mem
        · rcases List.mem_cons.1 mem with rfl | mem
          · exact ⟨line, .inr (.inl rfl)⟩
          · have later := ih mem
            exact ⟨later.1, later.2.imp (List.mem_cons_of_mem _) id⟩
        · split at mem
          · rcases List.mem_cons.1 mem with rfl | mem
            · exact ⟨tab, .inr (.inr rfl)⟩
            · have later := ih mem
              exact ⟨later.1, later.2.imp (List.mem_cons_of_mem _) id⟩
          · rcases List.mem_cons.1 mem with rfl | mem
            · exact ⟨other, .inl List.mem_cons_self⟩
            · have later := ih mem
              exact ⟨later.1, later.2.imp (List.mem_cons_of_mem _) id⟩

/-- A string that was read: without backslashes and zeros, and without quotes if
the input had no backslash to escape one. -/
def ReadString (plain : Prop) : Atom → Prop
  | .string s => backslash ∉ s ∧ (∀ c ∈ s, c ≠ 0) ∧ (plain → quote ∉ s)
  | _ => True

theorem read_string {input : CStr} {tokens : List Token} (lexes : Lexes input tokens) {t : Token}
    (mem : t ∈ tokens) {known between : List CStr} {a : Atom}
    (value : t.atom slash known = some (a, between)) : ReadString (backslash ∉ input) a := by
  obtain ⟨part, rest, inside, found⟩ := token_cut lexes t mem
  unfold Token.atom at value
  cases kind : t.type <;> simp only [kind, reduceCtorEq, Option.some.injEq, Prod.mk.injEq] at value
  case string =>
    obtain ⟨rfl, _⟩ := value
    have fromCut := string_of_cut found kind
    refine ⟨fun has => (unescape_mem has).1 rfl, fun c has => ?_, fun plain has => ?_⟩
    · rcases (unescape_mem has).2 with old | rfl | rfl
      · exact fromCut.1 c old
      · decide
      · decide
    · rcases (unescape_mem has).2 with old | line | tab
      · exact fromCut.2 (fun slash => plain (inside.subset slash)) old
      · exact absurd line (by decide)
      · exact absurd tab (by decide)
  all_goals
    obtain ⟨rfl, _⟩ := value
    trivial

/-- The names that are known and do not fit into a key are names of symbols that
the lexer knows. -/
def LongLexable (known : List CStr) : Prop := ∀ name ∈ known, Long name → SymbolName name

def Atom.Lexable : Atom → Prop
  | .symbol name => SymbolName name
  | _ => True

theorem intern_lexable {known : List CStr} (lexable : LongLexable known) {name : CStr}
    (isName : SymbolName name) :
    SymbolName (internName known name).1 ∧ LongLexable (internName known name).2 := by
  unfold internName
  cases found : known.find? fun other => other.take symKeySize == name with
  | some other =>
      refine ⟨?_, lexable⟩
      by_cases long : Long other
      · exact lexable other (List.mem_of_find?_eq_some found) long
      · have hit := List.find?_some found
        rw [take_of_not_long long, beq_iff_eq] at hit
        simpa only [hit] using isName
  | none =>
      refine ⟨isName, fun other mem long => ?_⟩
      rcases List.mem_cons.1 mem with rfl | mem
      · exact isName
      · exact lexable other mem long

theorem read_lexable {input : CStr} {tokens : List Token} (lexes : Lexes input tokens) {t : Token}
    (mem : t ∈ tokens) {known between : List CStr} {a : Atom} (lexable : LongLexable known)
    (value : t.atom slash known = some (a, between)) : a.Lexable ∧ LongLexable between := by
  obtain ⟨part, rest, _, found⟩ := token_cut lexes t mem
  unfold Token.atom at value
  cases kind : t.type <;> simp only [kind, reduceCtorEq, Option.some.injEq, Prod.mk.injEq] at value
  case symbol =>
    obtain ⟨rfl, rfl⟩ := value
    exact intern_lexable lexable (symbol_name_of_cut found kind)
  all_goals
    obtain ⟨rfl, rfl⟩ := value
    exact ⟨trivial, lexable⟩

theorem intern_known (known : List CStr) (name : CStr) :
    (internName known name).1 ∈ (internName known name).2 ∧
      known ⊆ (internName known name).2 := by
  unfold internName
  cases found : known.find? fun other => other.take symKeySize == name with
  | some other => exact ⟨List.mem_of_find?_eq_some found, fun _ mem => mem⟩
  | none => exact ⟨List.mem_cons_self, fun _ mem => List.mem_cons_of_mem _ mem⟩

def Atom.NameIn (known : List CStr) : Atom → Prop
  | .symbol name => name ∈ known
  | _ => True

theorem name_in_mono {known more : List CStr} (sub : known ⊆ more) {a : Atom}
    (inside : a.NameIn known) : a.NameIn more := by
  cases a with
  | symbol name => exact sub inside
  | _ => trivial

theorem token_names {t : Token} {known between : List CStr} {a : Atom}
    (value : t.atom slash known = some (a, between)) : a.NameIn between ∧ known ⊆ between := by
  unfold Token.atom at value
  cases kind : t.type <;> simp only [kind, reduceCtorEq, Option.some.injEq, Prod.mk.injEq] at value
  case symbol =>
    obtain ⟨rfl, rfl⟩ := value
    exact intern_known known t.text
  all_goals
    obtain ⟨rfl, rfl⟩ := value
    exact ⟨trivial, fun _ mem => mem⟩

/-- The names of all symbols that were read are known afterwards. -/
theorem forms_names {known after : List CStr} {tokens rest : List Token} {items : List Datum}
    (forms : Forms slash known tokens items rest after) :
    (∀ a ∈ Datum.allAtoms items, a.NameIn after) ∧ known ⊆ after := by
  induction forms with
  | stop => exact ⟨fun a mem => absurd mem List.not_mem_nil, fun _ mem => mem⟩
  | close => exact ⟨fun a mem => absurd mem List.not_mem_nil, fun _ mem => mem⟩
  | atom value _ ih =>
      have first := token_names value
      refine ⟨fun a mem => ?_, fun _ mem => ih.2 (first.2 mem)⟩
      simp only [Datum.allAtoms, Datum.atoms, List.mem_append, List.mem_singleton] at mem
      rcases mem with rfl | mem
      · exact name_in_mono ih.2 first.1
      · exact ih.1 a mem
  | list _ _ _ inside later =>
      refine ⟨fun a mem => ?_, fun _ mem => later.2 (inside.2 mem)⟩
      simp only [Datum.allAtoms, Datum.atoms, List.mem_append] at mem
      rcases mem with mem | mem
      · exact name_in_mono later.2 (inside.1 a mem)
      · exact later.1 a mem

end Origin

section Again

/-- What an atom must be like to come back from its printed text, when the names
are known: something is printed, a name is no key of a longer one, and a string
has no quote, and no `n` or `t` that the starting value of `slash` changes. -/
def Atom.Faithful (slash : Bool) (known : List CStr) : Atom → Prop
  | .integer _ => True
  | .symbol name => SymbolName name ∧ ∀ other ∈ known, Long other → other.take symKeySize ≠ name
  | .string s => quote ∉ s ∧ (slash = true → chr 'n' ∉ s ∧ chr 't' ∉ s)
  | .ifOper => True
  | .docstring _ => False
  | .doOper => False
  | .whileOper => False

def Datum.Faithful (slash : Bool) (known : List CStr) (d : Datum) : Prop :=
  ∀ a ∈ d.atoms, a.Faithful slash known

theorem unescape_same_iff {s : CStr} (plain : backslash ∉ s) :
    unescape slash s = s ↔ (slash = true → chr 'n' ∉ s ∧ chr 't' ∉ s) := by
  have letterN : chr 'n' ≠ newline := by decide
  have letterT : chr 't' ≠ 9 := by decide
  cases slash with
  | false => simp [unescape_plain plain]
  | true =>
      induction s with
      | nil => simp [unescape]
      | cons c rest ih =>
          simp only [List.mem_cons, not_or] at plain
          rw [unescape, if_neg fun same => plain.1 same.symm]
          by_cases isN : c = chr 'n'
          · rw [if_pos ⟨isN, rfl⟩, isN]
            simp [letterN.symm]
          · rw [if_neg fun both => isN both.1]
            by_cases isT : c = chr 't'
            · rw [if_pos ⟨isT, rfl⟩, isT]
              simp [letterT.symm]
            · rw [if_neg fun both => isT both.1]
              simp only [List.cons.injEq, true_and, ih plain.2, List.mem_cons, not_or]
              simp only [Ne.symm isN, Ne.symm isT, not_false_eq_true, true_and]

/-- The names known while the printed text is read: the same, in some order, and
the first one under the key of a long name is a long one. -/
structure Recalls (base known : List CStr) : Prop where
  same : ∀ name, name ∈ known ↔ name ∈ base
  longFirst : ∀ long ∈ known, Long long → ∀ found,
    known.find? (fun other => other.take symKeySize == long.take symKeySize) = some found →
      Long found

theorem recalls_intern {base known : List CStr} (recalls : Recalls base known) {name : CStr}
    (mem : name ∈ base) : Recalls base (internName known name).2 := by
  unfold internName
  cases missed : known.find? fun other => other.take symKeySize == name with
  | some other => exact recalls
  | none =>
      have long : Long name := by
        by_contra short
        have hit := List.find?_eq_none.1 missed name ((recalls.same name).2 mem)
        rw [take_of_not_long short, beq_self_eq_true] at hit
        exact hit rfl
      constructor
      · intro other
        rw [List.mem_cons, recalls.same]
        constructor
        · intro either
          rcases either with rfl | old
          · exact mem
          · exact old
        · exact .inr
      · intro other inside isLong found search
        cases hit : name.take symKeySize == other.take symKeySize with
        | true =>
            simp only [List.find?_cons, hit] at search
            cases search
            exact long
        | false =>
            simp only [List.find?_cons, hit] at search
            rcases List.mem_cons.1 inside with rfl | old
            · rw [beq_self_eq_true] at hit
              cases hit
            · exact recalls.longFirst other old isLong found search

/-- A known name is interned as itself unless a longer one hides it. -/
theorem intern_same_iff {base known : List CStr} (recalls : Recalls base known) (name : CStr) :
    (internName known name).1 = name ↔
      ∀ other ∈ base, Long other → other.take symKeySize ≠ name := by
  unfold internName
  cases found : known.find? fun other => other.take symKeySize == name with
  | none =>
      simp only [true_iff]
      intro other inside _ same
      have hit := List.find?_eq_none.1 found other ((recalls.same other).2 inside)
      exact hit (beq_iff_eq.2 same)
  | some first =>
      have hit := List.find?_some found
      rw [beq_iff_eq] at hit
      have known₁ := (recalls.same first).1 (List.mem_of_find?_eq_some found)
      constructor
      · intro same other inside long hides
        have same : first = name := same
        rw [← hides] at found
        have isLong := recalls.longFirst other ((recalls.same other).2 inside) long first found
        have size := congrArg List.length hit
        rw [same, List.length_take] at size
        rw [same] at isLong
        unfold Long at isLong
        omega
      · intro unhidden
        by_contra other
        by_cases long : Long first
        · exact unhidden first known₁ long hit
        · rw [take_of_not_long long] at hit
          exact other hit

/-- What is read for the tokens of one tree: at most one form, and the tree
itself exactly if it is faithful. -/
def Rereads (slash : Bool) (base known : List CStr) (tokens : List Token) (data : List Datum)
    (atoms : List Atom) : Prop :=
  ∃ items between, Recalls base between ∧ items.length ≤ data.length ∧
    (items = data ↔ ∀ a ∈ atoms, a.Faithful slash base) ∧
    ∀ {later : List Token} {more : List Datum} {after : List CStr},
      Forest slash between later more after →
        Forest slash known (tokens ++ later) (items ++ more) after

variable {base known : List CStr}

theorem rereads_silent (recalls : Recalls base known) {a : Atom}
    (silent : ¬ a.Faithful slash base) :
    Rereads slash base known [] [.atom a] [a] := by
  refine ⟨[], known, recalls, Nat.zero_le _, ?_, fun later => later⟩
  constructor
  · intro same
    cases same
  · intro all
    exact absurd (all a List.mem_cons_self) silent

theorem rereads_token {a b : Atom} {t : Token} (between : List CStr)
    (value : t.atom slash known = some (b, between)) (recalls : Recalls base between)
    (same : b = a ↔ a.Faithful slash base) :
    Rereads slash base known [t] [.atom a] [a] := by
  refine ⟨[.atom b], between, recalls, Nat.le_refl _, ?_, fun later => .atom value later⟩
  simp only [List.cons.injEq, Datum.atom.injEq, and_true, List.mem_singleton, forall_eq]
  exact same

theorem rereads_atom (recalls : Recalls base known) {a : Atom} (readable : a.Readable)
    (named : a.NameIn base) : Rereads slash base known a.token.toList [.atom a] [a] := by
  cases a with
  | integer i =>
      refine rereads_token (b := .integer i) known ?_ recalls ⟨fun _ => trivial, fun _ => rfl⟩
      simp only [Token.atom, mpz_set_get]
  | symbol name =>
      refine rereads_token (internName known name).2 rfl (recalls_intern recalls named) ?_
      rw [Atom.symbol.injEq, intern_same_iff recalls name]
      exact ⟨fun unhidden => ⟨readable, unhidden⟩, fun faithful => faithful.2⟩
  | string s =>
      refine rereads_token known rfl recalls ?_
      rw [Atom.string.injEq, unescape_same_iff readable.2.1]
      exact ⟨fun plain => ⟨readable.1, plain⟩, fun faithful => faithful.2⟩
  | ifOper => exact rereads_token known rfl recalls ⟨fun _ => trivial, fun _ => rfl⟩
  | docstring s => exact rereads_silent recalls id
  | doOper => exact rereads_silent recalls id
  | whileOper => exact rereads_silent recalls id

mutual

theorem rereads_datum : ∀ (d : Datum) {known : List CStr}, Recalls base known →
    (∀ a ∈ d.atoms, a.Readable) → (∀ a ∈ d.atoms, a.NameIn base) →
      Rereads slash base known d.tokens [d] d.atoms
  | .atom a, known, recalls, readable, named => by
      simp only [Datum.tokens, Datum.atoms]
      exact rereads_atom recalls (readable a List.mem_cons_self) (named a List.mem_cons_self)
  | .list items, known, recalls, readable, named => by
      obtain ⟨inner, between, recalls', _, same, within⟩ :=
        rereads_all items recalls readable named
      refine ⟨[.list inner], between, recalls', Nat.le_refl _, ?_, fun later => ?_⟩
      · rw [Datum.atoms, ← same]
        simp
      · have closed := within (.nothing between)
        rw [List.append_nil, List.append_nil] at closed
        simp only [Datum.tokens, List.cons_append, List.append_assoc, List.nil_append]
        exact .list rfl closed rfl later

theorem rereads_all : ∀ (data : List Datum) {known : List CStr}, Recalls base known →
    (∀ a ∈ Datum.allAtoms data, a.Readable) → (∀ a ∈ Datum.allAtoms data, a.NameIn base) →
      Rereads slash base known (Datum.allTokens data) data (Datum.allAtoms data)
  | [], known, recalls, _, _ => by
      refine ⟨[], known, recalls, Nat.le_refl _, ?_, fun later => later⟩
      simp [Datum.allAtoms]
  | d :: data, known, recalls, readable, named => by
      simp only [Datum.allAtoms, List.mem_append] at readable named
      obtain ⟨first, middle, recalls₁, few, same, reads⟩ := rereads_datum d recalls
        (fun a mem => readable a (.inl mem)) (fun a mem => named a (.inl mem))
      obtain ⟨rest, between, recalls₂, fewer, same', reads'⟩ := rereads_all data recalls₁
        (fun a mem => readable a (.inr mem)) (fun a mem => named a (.inr mem))
      simp only [List.length_singleton] at few
      refine ⟨first ++ rest, between, recalls₂, by simp; omega, ?_, fun later => ?_⟩
      · -- both parts must be there in full
        have split : first ++ rest = d :: data ↔ first = [d] ∧ rest = data := by
          constructor
          · intro whole
            have size := congrArg List.length whole
            simp only [List.length_append, List.length_cons] at size
            exact List.append_inj whole (by simp; omega)
          · intro both
            rw [both.1, both.2]
            rfl
        rw [split, same, same']
        simp only [Datum.allAtoms, List.mem_append]
        constructor
        · intro both a mem
          exact mem.elim (both.1 a) (both.2 a)
        · intro all
          exact ⟨fun a mem => all a (.inl mem), fun a mem => all a (.inr mem)⟩
      · simp only [Datum.allTokens, List.append_assoc]
        exact reads (reads' later)

end

end Again

end BearLang
