import BearLang.ReadBack

/-!
# Serialise, then parse

A value that was read comes back from its printed text exactly if everything in
it is printed, no string in it has a quote, and no symbol in it is hidden by a
longer name.
-/

namespace BearLang

open CallPrograms SymbolInterning

set_option autoImplicit false

variable {W : World} {s : State}

section Reading

/-- The forms of a text, whatever it is: none, a stray closing parenthesis, or
one form whose atoms come from the tokens. -/
theorem reads_some (known : List CStr) (tokens : List Token) :
    tokens = [] ∨ (∃ t rest, tokens = t :: rest ∧ t.type = .rparen) ∨
      ∃ d rest after, ReadsForm W known tokens d rest after ∧
        ∀ (invariant : List CStr → Prop) {R : Atom → Prop},
          (∀ t ∈ tokens, ∀ k a b, invariant k → t.atom W.slash k = some (a, b) →
            R a ∧ invariant b) → invariant known → (∀ a ∈ d.atoms, R a) ∧ invariant after := by
  cases tokens with
  | nil => exact .inl rfl
  | cons t tokens =>
      right
      rcases @atom_or_parenthesis W.slash known t with opens | closes | ⟨a, after, value⟩
      · obtain ⟨items, rest, after, forms, _⟩ := forms_exist W.slash _ known tokens le_rfl
        refine .inr ⟨.list items, rest, after, reads_list_form opens (reads_forms forms).1, ?_⟩
        intro invariant R each start
        have all := forms_atoms forms invariant (· ∈ tokens)
          (fun u k a b mem => each u (List.mem_cons_of_mem _ mem) k a b) (fun _ mem => mem) start
        exact ⟨all.1, all.2.1⟩
      · exact .inl ⟨t, tokens, rfl, closes⟩
      · refine .inr ⟨.atom a, tokens, after, reads_atom value, ?_⟩
        intro invariant R each start
        have single := each t List.mem_cons_self known a after start value
        refine ⟨fun b mem => ?_, single.2⟩
        rw [List.mem_singleton.1 mem]
        exact single.1

theorem reads_one {known after : List CStr} {tokens : List Token} {d : Datum}
    (forest : Forest W.slash known tokens [d] after) (rest : List Token) :
    ReadsForm W known (tokens ++ rest) d rest after := by
  cases forest with
  | atom value later =>
      cases later
      exact reads_atom value
  | list opens within closes later =>
      cases later
      have forms := forms_of_forest within (.close _ rest closes)
      rw [List.append_nil] at forms
      rw [List.cons_append, List.append_assoc]
      exact reads_list_form opens (reads_forms forms).1

def NoForm (s : State) (p : Ptr) : Prop :=
  ∃ c, s.cell p = some c ∧ c.atom = none ∧ c.type ≠ .cons

/-- Without a form to read the result is `None` or the mark for the end of a
list. -/
theorem parse_sexp_no_form (sound : Sound s) {written : CStr}
    (nothing : tokensOf written = [] ∨ ∃ t rest, tokensOf written = t :: rest ∧ t.type = .rparen) :
    ∃ p s', (runtime W).Runs (blParseSexp written) s p s' ∧ knownNames s' = knownNames s ∧
      Kept untouched s s' ∧ NoForm s' p := by
  have lexes : Lexes (scannerOf written).input (tokensOf written) := lexes_tokens_of written
  rcases nothing with empty | ⟨t, rest, tokens, closes⟩
  · rw [empty] at lexes
    have ended := (end_runs (W := W) (s := s) lexes).1
    obtain ⟨c, found, type, _⟩ := sound.statics nullVal { type := .null } rfl
    refine ⟨nullVal, s, ?_, rfl, kept_refl _ s, c, found, ?_, ?_⟩
    · rw [blParseSexp, runs_after ended]
      exact runs_pure_self _ _
    · simp only [Cell.atom, type]
    · rw [type]
      decide
  · rw [tokens] at lexes
    obtain ⟨s', c, run, ends, kept, found, type⟩ :=
      close_runs (W := W) closes sound lexes
    refine ⟨endListVal, s', ?_, ends.known, kept, c, found, ?_, ?_⟩
    · rw [blParseSexp, runs_after run]
      exact runs_pure_self _ _
    · simp only [Cell.atom, type]
    · rw [type]
      decide

end Reading

section RoundTrip

def RoundTrips (W : World) (s : State) (v : Ptr) : Prop :=
  ∃ out v' s', (runtime W).Runs (blSerSexp v) s out s ∧
    (runtime W).Runs (blParseSexp out) s v' s' ∧ Alike s' v v'

/-- No tree has the structure of such a value. -/
theorem not_alike_no_form {lo : Nat} {d : Datum} {p q : Ptr} (held : Denotes s lo d p)
    (noForm : NoForm s q) : ¬ Alike s p q := by
  obtain ⟨c, found, noAtom, noCons⟩ := noForm
  intro alike
  cases alike with
  | null => exact denotes_not_null held
  | atom _ right _ second =>
      rw [found] at right
      cases right
      rw [noAtom] at second
      cases second
  | cons _ right _ second =>
      rw [found] at right
      cases right
      exact noCons second

theorem printed_of_round_trip {lo : Nat} {d : Datum} {v : Ptr} (held : Denotes s lo d v)
    (trip : RoundTrips W s v) :
    ∃ v' s', (runtime W).Runs (blParseSexp d.printed) s v' s' ∧ Alike s' v v' := by
  obtain ⟨out, v', s', printed, parsed, alike⟩ := trip
  obtain ⟨rfl, _⟩ := runs_functional printed (prints_datum d v held)
  exact ⟨v', s', parsed, alike⟩

theorem no_round_trip (sound : Sound s) {lo : Nat} {d : Datum} {v : Ptr} (held : Denotes s lo d v)
    (nothing : tokensOf d.printed = [] ∨
      ∃ t rest, tokensOf d.printed = t :: rest ∧ t.type = .rparen) : ¬ RoundTrips W s v := by
  intro trip
  obtain ⟨v', s', parsed, alike⟩ := printed_of_round_trip held trip
  obtain ⟨q, t, parsed', _, kept, noForm⟩ := parse_sexp_no_form (W := W) sound nothing
  obtain ⟨rfl, rfl⟩ := runs_functional parsed parsed'
  exact not_alike_no_form (denotes_untouched kept held) noForm alike

/-- When the forms in the printed text are known, so is whether the value comes
back. -/
theorem round_trips_iff_items (sound : Sound s) {lo : Nat} {d : Datum} {v : Ptr}
    (held : Denotes s lo d v) {items : List Datum} {after : List CStr}
    (forest : Forest W.slash (knownNames s) (tokensOf d.printed) items after)
    (few : items.length ≤ 1) : RoundTrips W s v ↔ items = [d] := by
  cases items with
  | nil =>
      have nothing : tokensOf d.printed = [] := by
        generalize tokensOf d.printed = tokens at forest
        cases forest
        rfl
      constructor
      · intro trip
        exact absurd trip (no_round_trip sound held (.inl nothing))
      · intro same
        cases same
  | cons e items =>
      have single : items = [] := by
        simp only [List.length_cons] at few
        exact List.length_eq_zero_iff.1 (by omega)
      subst single
      have reads := reads_one forest []
      rw [List.append_nil] at reads
      obtain ⟨q, s', parsed, _, kept, held'⟩ := parse_sexp_of_reads sound reads
      have old := denotes_untouched kept held
      constructor
      · intro trip
        obtain ⟨v', t, parsed', alike⟩ := printed_of_round_trip held trip
        obtain ⟨rfl, rfl⟩ := runs_functional parsed' parsed
        rw [datum_of_alike d e v v' old held' alike]
      · intro same
        cases same
        exact ⟨d.printed, q, s', prints_datum d v held, parsed, alike_of_denotes d v q old held'⟩

end RoundTrip

section Main

theorem recalls_of_sound (sound : Sound s) : Recalls (knownNames s) (knownNames s) := by
  refine ⟨fun _ => Iff.rfl, fun name mem long found search => ?_⟩
  obtain ⟨entry, inTable, rfl⟩ := List.mem_map.1 mem
  obtain ⟨name, known, key⟩ := sound.keys.cut entry inTable
  rw [known, Option.getD_some] at long search
  obtain ⟨first, other, hit, value, isLong⟩ := sound.keys.longFound entry inTable name known long
  rw [find_known sound, ← key, hit, Option.map_some, value, Option.getD_some] at search
  cases search
  exact isLong

theorem faithful_readable {known : List CStr} {plain : Prop} {a : Atom}
    (faithful : a.Faithful W.slash known) (read : ReadString plain a) : a.Readable := by
  cases a with
  | symbol name => exact faithful.1
  | string str => exact ⟨faithful.1, read.1, read.2.1⟩
  | _ => trivial

/-- For a tree whose printed tokens are known, faithfulness decides. -/
theorem round_trips_iff_faithful (sound : Sound s) {lo : Nat} {d : Datum} {v : Ptr}
    (held : Denotes s lo d v) (readable : ∀ a ∈ d.atoms, a.Readable)
    (named : ∀ a ∈ d.atoms, a.NameIn (knownNames s)) :
    RoundTrips W s v ↔ d.Faithful W.slash (knownNames s) := by
  have reread : Rereads W.slash (knownNames s) (knownNames s) d.tokens [d] d.atoms :=
    rereads_datum d (recalls_of_sound sound) readable named
  obtain ⟨items, between, _, few, same, reads⟩ := reread
  have forest := reads (.nothing between)
  rw [List.append_nil, List.append_nil, ← tokens_of_printed readable] at forest
  rw [round_trips_iff_items sound held forest few, same]
  rfl

mutual

theorem printed_mem : ∀ (d : Datum) {c : Byte}, c ∈ d.printed →
    c ∈ text "() " ∨ ∃ a ∈ d.atoms, c ∈ a.printed
  | .atom a, c, mem => .inr ⟨a, List.mem_cons_self, mem⟩
  | .list [], c, mem => by
      refine .inl (List.mem_of_mem_take (i := 2) ?_)
      exact mem
  | .list (d :: items), c, mem => by
      simp only [Datum.printed, List.mem_cons, List.mem_append] at mem
      rcases mem with rfl | mem | mem
      · exact .inl (by decide)
      · rcases printed_mem d mem with sep | ⟨a, inside, mem⟩
        · exact .inl sep
        · exact .inr ⟨a, List.mem_append_left _ inside, mem⟩
      · rcases printed_rest_mem items mem with sep | ⟨a, inside, mem⟩
        · exact .inl sep
        · exact .inr ⟨a, List.mem_append_right _ inside, mem⟩

theorem printed_rest_mem : ∀ (items : List Datum) {c : Byte}, c ∈ Datum.printedRest items →
    c ∈ text "() " ∨ ∃ a ∈ Datum.allAtoms items, c ∈ a.printed
  | [], c, mem => by
      rw [List.mem_singleton.1 mem]
      exact .inl (by decide)
  | d :: items, c, mem => by
      simp only [Datum.printedRest, List.mem_cons, List.mem_append] at mem
      rcases mem with rfl | mem | mem
      · exact .inl (by decide)
      · rcases printed_mem d mem with sep | ⟨a, inside, mem⟩
        · exact .inl sep
        · exact .inr ⟨a, List.mem_append_left _ inside, mem⟩
      · rcases printed_rest_mem items mem with sep | ⟨a, inside, mem⟩
        · exact .inl sep
        · exact .inr ⟨a, List.mem_append_right _ inside, mem⟩

end

theorem symbol_name_plain {name : CStr} (lexable : SymbolName name) : backslash ∉ name := by
  intro mem
  rcases lexable with ⟨_, chars, _⟩ | ⟨l, rfl, _, chars⟩
  · exact symbol_char_ne (chars _ mem) (by decide) rfl
  · rcases List.mem_cons.1 mem with same | mem
    · exact absurd same (by decide)
    · exact symbol_char_ne (chars _ mem) (by decide) rfl

/-- The printed text has no backslash: none gets into a string that is read. -/
theorem printed_plain {d : Datum} {plain : Prop} (lexable : ∀ a ∈ d.atoms, a.Lexable)
    (strings : ∀ a ∈ d.atoms, ReadString plain a) : backslash ∉ d.printed := by
  intro mem
  rcases printed_mem d mem with sep | ⟨a, inside, mem⟩
  · exact absurd sep (by decide)
  · have name := lexable a inside
    have str := strings a inside
    cases a with
    | integer i =>
        have like : numberLike (mpzGetStr i) = true := by
          rw [← printed_integer_text]
          exact number_like_integer _
        have char := (number_like_symbol_chars like).2 _ mem
        exact symbol_char_ne char (by decide) rfl
    | symbol name' => exact symbol_name_plain name mem
    | string body =>
        have noQuote : backslash ≠ quote := by decide
        simp only [Atom.printed, List.mem_cons, List.mem_append, List.not_mem_nil, or_false,
          noQuote, false_or] at mem
        exact str.1 mem
    | docstring body => cases mem
    | ifOper => exact absurd mem (by decide)
    | doOper => cases mem
    | whileOper => cases mem

/-- A tree that comes back has no quote in its strings. -/
theorem no_quote_of_round_trip (sound : Sound s) {lo : Nat} {d : Datum} {v : Ptr}
    (held : Denotes s lo d v) (plain : backslash ∉ d.printed) (trip : RoundTrips W s v) :
    ∀ a ∈ d.atoms, ReadString True a := by
  rcases reads_some (W := W) (knownNames s) (tokensOf d.printed) with
    nothing | closes | ⟨e, rest, after, reads, each⟩
  · exact absurd trip (no_round_trip sound held (.inl nothing))
  · exact absurd trip (no_round_trip sound held (.inr closes))
  · obtain ⟨v', s', parsed, alike⟩ := printed_of_round_trip held trip
    obtain ⟨q, t, parsed', _, kept, held'⟩ := parse_sexp_of_reads sound reads
    obtain ⟨rfl, rfl⟩ := runs_functional parsed parsed'
    rw [datum_of_alike d e v _ (denotes_untouched kept held) held' alike]
    refine (each (fun _ => True) (fun t mem k a b _ value => ⟨?_, trivial⟩) trivial).1
    have read := read_string (lexes_tokens_of d.printed) mem value
    cases a with
    | string str => exact ⟨read.1, read.2.1, fun _ => read.2.2 plain⟩
    | _ => trivial

theorem read_names {known after : List CStr} {tokens : List Token} {d : Datum}
    (forest : Forest W.slash known tokens [d] after) : ∀ a ∈ d.atoms, a.NameIn after := by
  have forms := forms_of_forest forest (.stop after)
  rw [List.append_nil, List.append_nil] at forms
  have named := (forms_names forms).1
  simpa only [Datum.allAtoms, List.append_nil] using named

/-- A faithful tree comes back. When all longer names that were known are names
of symbols, no other tree does. -/
theorem serialise_round_trips_iff (W : World) (s : State) (reachable : Reachable W s)
    (written : CStr) {head rest : List Token} {d : Datum} {after : List CStr}
    (tokens : tokensOf written = head ++ rest)
    (form : Forest W.slash (knownNames s) head [d] after) {v : Ptr} {s₁ : State}
    (run : (runtime W).Runs (blParseSexp written) s v s₁) :
    (d.Faithful W.slash after → RoundTrips W s₁ v) ∧
      (LongLexable (knownNames s) → RoundTrips W s₁ v → d.Faithful W.slash after) := by
  have sound := sound_of_reachable reachable
  have reads := reads_one form rest
  rw [← tokens] at reads
  obtain ⟨p, t, found, names, _, held⟩ := parse_sexp_of_reads sound reads
  obtain ⟨rfl, rfl⟩ := runs_functional run found
  have sound₁ := runs_sound sound run
  have named := read_names form
  rw [← names] at named ⊢
  have lexes := lexes_tokens_of written
  have inside : ∀ t ∈ head, t ∈ tokensOf written := by
    intro t mem
    rw [tokens]
    exact List.mem_append_left rest mem
  have strings : ∀ a ∈ d.atoms, ReadString (backslash ∉ written) a :=
    forest_atoms form (fun _ => True) (· ∈ head)
      (fun t k a b mem _ value => ⟨read_string lexes (inside t mem) value, trivial⟩)
      (fun _ mem => mem) trivial
  constructor
  · intro faithful
    have readable : ∀ a ∈ d.atoms, a.Readable :=
      fun a mem => faithful_readable (faithful a mem) (strings a mem)
    exact (round_trips_iff_faithful sound₁ held readable named).2 faithful
  · intro longLexable trip
    have lexable : ∀ a ∈ d.atoms, a.Lexable :=
      forest_atoms form LongLexable (· ∈ head)
        (fun t k a b mem longs value => read_lexable lexes (inside t mem) longs value)
        (fun _ mem => mem) longLexable
    have quotes := no_quote_of_round_trip sound₁ held (printed_plain lexable strings) trip
    have readable : ∀ a ∈ d.atoms, a.Readable := by
      intro a mem
      have name := lexable a mem
      have str := quotes a mem
      cases a with
      | symbol n => exact name
      | string b => exact ⟨str.2.2 trivial, str.1, str.2.1⟩
      | _ => trivial
    exact (round_trips_iff_faithful sound₁ held readable named).1 trip

theorem serialise_round_trips_call :
    ∃ v s₁, (runtime World.bare).Runs (blParseSexp (text "(f -1 \"a\")")) State.initial v s₁ ∧
      RoundTrips World.bare s₁ v := by
  let inside : List Token := [⟨.symbol, text "f"⟩, ⟨.integer, text "-1"⟩, ⟨.string, text "a"⟩]
  have tokens : tokensOf (text "(f -1 \"a\")") = (openToken :: (inside ++ [closeToken])) ++ [] := by
    decide
  have within : Forest false [] inside
      [.atom (.symbol (text "f")), .atom (.integer (-1)), .atom (.string (text "a"))]
      [text "f"] := .atom rfl (.atom rfl (.atom rfl (.nothing _)))
  have form : Forest World.bare.slash (knownNames State.initial)
      (openToken :: (inside ++ [closeToken])) [.list _] [text "f"] :=
    .list rfl within rfl (.nothing _)
  have reads := reads_one form []
  rw [← tokens] at reads
  obtain ⟨v, s₁, run, _⟩ := parse_sexp_of_reads sound_initial reads
  have name : SymbolName (text "f") :=
    .inl ⟨by decide, all_symbol_chars (by decide), by decide, fun k => by cases k <;> decide⟩
  have faithful : Datum.Faithful false [text "f"]
      (.list [.atom (.symbol (text "f")), .atom (.integer (-1)), .atom (.string (text "a"))]) := by
    intro a mem
    simp only [Datum.atoms, Datum.allAtoms, List.cons_append, List.nil_append, List.mem_cons,
      List.not_mem_nil, or_false] at mem
    rcases mem with rfl | rfl | rfl
    · refine ⟨name, fun other known long => ?_⟩
      rw [List.mem_singleton.1 known] at long
      exact absurd long (by unfold Long; decide)
    · trivial
    · exact ⟨by decide, fun no => absurd no (by decide)⟩
  exact ⟨v, s₁, run, (serialise_round_trips_iff World.bare State.initial (reachable_initial _) _
    tokens form run).1 faithful⟩

/-- `do` is read as an atom and printed as nothing. -/
theorem do_not_printed :
    ¬ ∀ (W : World) (s : State), Reachable W s → ∀ (written : CStr) (head rest : List Token)
      (d : Datum) (after : List CStr), tokensOf written = head ++ rest →
        Forest W.slash (knownNames s) head [d] after → ∀ (v : Ptr) (s₁ : State),
          (runtime W).Runs (blParseSexp written) s v s₁ → RoundTrips W s₁ v := by
  intro all
  let doToken : Token := ⟨.doToken, text "do"⟩
  have tokens : tokensOf (text "do") = [doToken] ++ [] := by decide
  have form : Forest World.bare.slash (knownNames State.initial) [doToken] [.atom .doOper] [] :=
    .atom rfl (.nothing _)
  have reads := reads_one form []
  rw [← tokens] at reads
  obtain ⟨v, s₁, run, _, _, held⟩ := parse_sexp_of_reads sound_initial reads
  have trip := all World.bare State.initial (reachable_initial _) _ _ _ _ _ tokens form v s₁ run
  exact no_round_trip (runs_sound sound_initial run) held (.inl rfl) trip

end Main

end BearLang
