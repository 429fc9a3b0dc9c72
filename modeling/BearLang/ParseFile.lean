import BearLang.ReaderCorrectness

/-!
# Files and their parentheses

`bl_parse_file` is `read_list` on the whole file, and `read_list` ends its list
alike at the end of the file and at a closing parenthesis. So it comes back
with a list for every file, and no file is rejected.
-/

namespace BearLang

open CallPrograms

set_option autoImplicit false

variable {W : World} {s s' : State} {p : Ptr}

theorem parse_file_runs (sound : Sound s) {contents : CStr} {items : List Datum}
    {rest : List Token} {after : List CStr}
    (forms : Forms W.slash (knownNames s) (tokensOf contents) items rest after) :
    ∃ p s', (runtime W).Runs (blParseFile contents) s p s' ∧ knownNames s' = after ∧
      Denotes s' s.fresh (.list items) p := by
  obtain ⟨p, s', sc', run, ends, _, held⟩ :=
    (reads_forms forms).1 s (scannerOf contents) sound rfl (lexes_tokens_of contents)
  refine ⟨p, s', ?_, ends.known, held⟩
  rw [blParseFile, runs_after run]
  exact runs_pure_self _ _

theorem type_of_denotes_list {lo : Nat} {items : List Datum}
    (held : Denotes s lo (.list items) p) : s.typeOf p = some .cons := by
  have found : ∃ c, ConsAt s lo p c := by
    simp only [Denotes] at held
    rcases held with ⟨_, c, at_, _⟩ | ⟨filled, all⟩
    · exact ⟨c, at_⟩
    · cases items with
      | nil => exact absurd rfl filled
      | cons d items =>
          simp only [DenotesAll] at all
          obtain ⟨c, at_, _⟩ := all
          exact ⟨c, at_⟩
  obtain ⟨c, a, rfl, _, known, type⟩ := found
  simp only [State.typeOf, known, Option.map_some, type]

/-- Whatever the file holds, the result is a list. -/
theorem parse_file_gives_list (sound : Sound s) {contents : CStr}
    (run : (runtime W).Runs (blParseFile contents) s p s') : s'.typeOf p = some .cons := by
  obtain ⟨items, rest, after, forms, _⟩ :=
    forms_exist W.slash _ (knownNames s) (tokensOf contents) le_rfl
  obtain ⟨q, t, found, _, held⟩ := parse_file_runs sound forms
  obtain ⟨rfl, rfl⟩ := runs_functional run found
  exact type_of_denotes_list held

/-- An unbalanced file gives an error, a balanced one all its forms in order. -/
def RejectsUnbalanced (W : World) (s : State) (contents : CStr) : Prop :=
  (balanced (tokensOf contents) = false → ∃ p s',
    (runtime W).Runs (blParseFile contents) s p s' ∧ s'.typeOf p = some .error) ∧
  (balanced (tokensOf contents) = true → ∃ items after p s',
    Forest W.slash (knownNames s) (tokensOf contents) items after ∧
      (runtime W).Runs (blParseFile contents) s p s' ∧ Denotes s' s.fresh (.list items) p)

/-- A balanced file is read whole; no unbalanced file is rejected. -/
theorem rejects_unbalanced_iff (W : World) (s : State) (reachable : Reachable W s)
    (contents : CStr) :
    RejectsUnbalanced W s contents ↔ balanced (tokensOf contents) = true := by
  have sound := sound_of_reachable reachable
  constructor
  · rintro ⟨rejected, _⟩
    by_contra uneven
    obtain ⟨p, s', run, error⟩ := rejected (Bool.eq_false_iff.2 uneven)
    rw [parse_file_gives_list sound run] at error
    cases error
  · intro even
    refine ⟨fun uneven => absurd (even.symm.trans uneven) Bool.true_eq_false.mp, fun _ => ?_⟩
    obtain ⟨items, after, forest⟩ :=
      (balanced_iff_forest W.slash (knownNames s) (tokensOf contents)).1 even
    have forms := forms_of_forest forest (.stop after)
    rw [List.append_nil, List.append_nil] at forms
    obtain ⟨p, s', run, _, held⟩ := parse_file_runs sound forms
    exact ⟨items, after, p, s', forest, run, held⟩

theorem reachable_initial (W : World) : Reachable W State.initial :=
  ⟨Unit, .done (), .done (), .refl _ _⟩

theorem rejects_unbalanced_two_forms :
    RejectsUnbalanced World.bare State.initial (text "(a b) c") ↔
      balanced (tokensOf (text "(a b) c")) = true :=
  rejects_unbalanced_iff World.bare State.initial (reachable_initial _) (text "(a b) c")

/-- In `a ) b` the closing parenthesis has no opener, and `b` is lost. -/
theorem unbalanced_file_read :
    ¬ ∀ (W : World) (s : State), Reachable W s → ∀ contents, RejectsUnbalanced W s contents := by
  intro all
  obtain ⟨rejected, _⟩ := all World.bare State.initial (reachable_initial _) (text "a ) b")
  obtain ⟨p, s', run, error⟩ := rejected (by decide)
  rw [parse_file_gives_list sound_initial run] at error
  cases error

end BearLang
