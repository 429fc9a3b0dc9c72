import BearLang.SplitStrings
import BearLang.XmlEvaluation

/-!
# Escaping markup

`xml::escape` puts entities in the place of the brackets with two calls of
`str_replace`, and loses what that loses: a bracket at the end of the string is left
out, or left in if it is all there is.
-/

namespace BearLang.XmlEscape

open CallPrograms OperatorCalls Occurrences SplitStrings XmlTrees

set_option autoImplicit false

section Texts

variable {s r a b : CStr}

/-- A part of an escaped text: a character that is kept, or an entity. -/
inductive Mark where
  | kept (c : Byte)
  | lt
  | gt
deriving DecidableEq

def Mark.shown : Mark → CStr
  | .kept c => [c]
  | .lt => text "&lt;"
  | .gt => text "&gt;"

def Mark.meant : Mark → Byte
  | .kept c => c
  | .lt => chr '<'
  | .gt => chr '>'

/-- No bracket is left in the text, and with the brackets put back in the place of the
entities it is the string. -/
def EscapeOf (s r : CStr) : Prop :=
  chr '<' ∉ r ∧ chr '>' ∉ r ∧
    ∃ marks : List Mark, r = marks.flatMap Mark.shown ∧ s = marks.map Mark.meant

/-- What a character is shown as. -/
def entity (c : Byte) : CStr :=
  if c = chr '<' then text "&lt;" else if c = chr '>' then text "&gt;" else [c]

def markOf (c : Byte) : Mark := if c = chr '<' then .lt else if c = chr '>' then .gt else .kept c

theorem mark_of_shown (c : Byte) : (markOf c).shown = entity c := by
  rw [markOf, entity]
  split
  · rfl
  · split
    · rfl
    · rfl

theorem mark_of_meant (c : Byte) : (markOf c).meant = c := by
  rw [markOf]
  split
  · rename_i same
    exact same.symm
  · split
    · rename_i same
      exact same.symm
    · rfl

theorem no_bracket_in_entity (c : Byte) : chr '<' ∉ entity c ∧ chr '>' ∉ entity c := by
  rw [entity]
  split
  · decide
  · split
    · decide
    · rename_i other other'
      exact ⟨by simpa using Ne.symm other, by simpa using Ne.symm other'⟩

theorem escape_of_iff : EscapeOf s r ↔ r = s.flatMap entity := by
  constructor
  · rintro ⟨noLt, noGt, marks, rfl, rfl⟩
    rw [List.flatMap_map]
    refine List.flatMap_congr fun mark mem => ?_
    cases mark with
    | kept c =>
        have inside : c ∈ marks.flatMap Mark.shown :=
          List.mem_flatMap.2 ⟨.kept c, mem, List.mem_singleton_self c⟩
        have other : c ≠ chr '<' := fun same => noLt (same ▸ inside)
        have other' : c ≠ chr '>' := fun same => noGt (same ▸ inside)
        change [c] = entity c
        rw [entity, if_neg other, if_neg other']
    | lt => rfl
    | gt => rfl
  · rintro rfl
    have absent (bracket : Byte) (free : ∀ c, bracket ∉ entity c) :
        bracket ∉ s.flatMap entity := by
      intro inside
      obtain ⟨c, _, mem⟩ := List.mem_flatMap.1 inside
      exact free c mem
    refine ⟨absent _ fun c => (no_bracket_in_entity c).1,
      absent _ fun c => (no_bracket_in_entity c).2, s.map markOf, ?_, ?_⟩
    · rw [List.flatMap_map]
      exact List.flatMap_congr fun c _ => (mark_of_shown c).symm
    · rw [List.map_map]
      exact (List.map_id'' mark_of_meant s).symm

/-- What `str_replace` loses: the word that is the whole string, or the new word at
the end. -/
theorem replaced_cases (some_ : a ≠ []) : replacedPieces a b s = replaceAll a b s ∨ s = a ∨
    replacedPieces a b s ++ b = replaceAll a b s := by
  by_cases occurs : a <:+: s
  · by_cases same : s = a
    · exact .inr (.inl same)
    · have filled : s ≠ [] := by
        rintro rfl
        exact some_ (List.infix_nil.1 occurs)
      have longer : ¬ s.length ≤ a.length := fun short => short_free short same occurs
      rw [replacedPieces, if_pos occurs, splitPieces, if_neg longer, ← join_cut_replaces some_]
      rcases trimmed_cases filled some_ with ⟨whole, _⟩ | ⟨more, whole, _⟩
      · exact .inl (by rw [whole])
      · right
        right
        conv_rhs => rw [whole]
        rw [intercalate_concat more, List.append_nil]
  · left
    rw [replacedPieces, if_neg occurs, replace_all_none (first_at_none.2 occurs)]

/-- A letter is replaced everywhere exactly if it is not the last one. -/
theorem replaces_letter_iff {x : Byte} (some_ : b ≠ []) (other : b ≠ [x]) :
    ReplacesAll s [x] b ↔ s.getLast? ≠ some x := by
  rw [ReplacesAll, List.singleton_infix_iff, Ne, Ne, last_cut_letter]
  by_cases inside : x ∈ s
  · have filled : s ≠ [] := List.ne_nil_of_mem inside
    have whole : s = [x] → s.getLast? = some x := by
      rintro rfl
      rfl
    simp only [inside, some_, filled, Ne.symm other, not_true_eq_false, false_or, or_false,
      and_false]
    exact ⟨And.right, fun last => ⟨fun same => last (whole same), last⟩⟩
  · simp only [inside, not_false_eq_true, true_or, true_iff]
    exact fun last => inside (List.mem_of_getLast? last)

def escapedText (s : CStr) : CStr :=
  replacedPieces (text ">") (text "&gt;") (replacedPieces (text "<") (text "&lt;") s)

theorem entities_replaced (s : CStr) :
    replaceAll (text ">") (text "&gt;") (replaceAll (text "<") (text "&lt;") s) =
      s.flatMap entity := by
  rw [show text "<" = [chr '<'] from rfl, show text ">" = [chr '>'] from rfl, replace_all_letter,
    replace_all_letter, List.flatMap_assoc]
  refine List.flatMap_congr fun c _ => ?_
  rw [entity]
  by_cases lt : c = chr '<'
  · subst lt
    decide
  · by_cases gt : c = chr '>'
    · subst gt
      decide
    · simp [lt, gt]

theorem last_kept (other : s.getLast? ≠ some (chr '<')) :
    (replaceAll (text "<") (text "&lt;") s).getLast? = s.getLast? := by
  rw [show text "<" = [chr '<'] from rfl, replace_all_letter]
  rcases List.eq_nil_or_concat s with rfl | ⟨init, c, rfl⟩
  · rfl
  · have kept : c ≠ chr '<' := by simpa using other
    simp [kept]

/-- The second pass makes nothing shorter than it found it, and what is lost in the
first pass is lost for good. -/
theorem escape_short {u : CStr} (whole : u ++ text "&lt;" = replaceAll (text "<") (text "&lt;") s) :
    replacedPieces (text ">") (text "&gt;") u ≠ s.flatMap entity := by
  intro same
  have sizes : (replacedPieces (text ">") (text "&gt;") u).length ≤
      (replaceAll (text ">") (text "&gt;") u).length := by
    rcases replaced_cases (b := text "&gt;") (s := u) (show text ">" ≠ [] by decide)
      with equal | rfl | longer
    · exact Nat.le_of_eq (congrArg _ equal)
    · decide
    · rw [← longer, List.length_append]
      exact Nat.le_add_right _ _
  rw [same, ← entities_replaced, ← whole] at sizes
  rw [show text ">" = [chr '>'] from rfl, replace_all_letter, replace_all_letter,
    List.flatMap_append, List.length_append] at sizes
  have extra : ((text "&lt;").flatMap fun c => if c = chr '>' then text "&gt;" else [c]).length =
      4 := by decide
  omega

/-- Escaping is right for a string that does not end in a bracket, and for no other. -/
theorem escaped_text_iff :
    EscapeOf s (escapedText s) ↔ s.getLast? ≠ some (chr '<') ∧ s.getLast? ≠ some (chr '>') := by
  have first : replacedPieces (text "<") (text "&lt;") s = replaceAll (text "<") (text "&lt;") s ↔
      s.getLast? ≠ some (chr '<') :=
    (replaced_pieces_iff (by decide)).trans (replaces_letter_iff (by decide) (by decide))
  rw [escape_of_iff, escapedText]
  by_cases last : s.getLast? = some (chr '<')
  · refine iff_of_false ?_ fun right => right.1 last
    rcases replaced_cases (b := text "&lt;") (s := s) (show text "<" ≠ [] by decide)
      with equal | rfl | longer
    · exact absurd last (first.1 equal)
    · decide
    · exact escape_short longer
  · rw [first.2 last, ← entities_replaced, replaced_pieces_iff (by decide),
      show text ">" = [chr '>'] from rfl, replaces_letter_iff (by decide) (by decide), last_kept last]
    exact ⟨fun right => ⟨last, right⟩, And.right⟩

end Texts

section Runs

variable {W : World} {ctx params v : Ptr} {s m : State} {str : CStr}

/-- `xml::escape` of a string gives a new string, which escapes it exactly if it does
not end in a bracket. -/
theorem escape_removes_markup_iff (operands : (runtime W).Runs (blEval .operand ctx params) s v m)
    {c : Cell} (list : m.cell v = some c) (first : StringAt m str c.car) :
    ∃ r q t, (runtime W).Runs (xmlEscape ctx params) s q t ∧ StringAt t r q ∧
      (EscapeOf str r ↔ str.getLast? ≠ some (chr '<') ∧ str.getLast? ≠ some (chr '>')) := by
  obtain ⟨d, known, _, held⟩ := first
  obtain ⟨t, run, _⟩ := replace_runs (W := W) m (show text "<" ≠ [] by decide) str (text "&lt;")
  obtain ⟨u, run', _⟩ := replace_runs (W := W) t (show text ">" ≠ [] by decide)
    (replacedPieces (text "<") (text "&lt;") str) (text "&gt;")
  have head : (runtime W).Runs (blListFirst v) m c.car m := by
    rw [blListFirst, if_neg (cell_ne_null list), runs_after (runs_load list)]
    exact runs_pure_self _ _
  have value : (runtime W).Runs (strOf c.car) m str m := by
    rw [strOf, runs_after (runs_load known)]
    exact runs_member held m
  refine ⟨escapedText str, .ref u.fresh, u.allocated (.mkStr (escapedText str)), ?_,
    ⟨_, State.cell_allocated_new u _, rfl, rfl⟩, escaped_text_iff⟩
  rw [xmlEscape, runs_after operands, runs_after head, runs_after value, runs_after run,
    runs_after (runs_member rfl t), runs_after run', runs_after (runs_member rfl u)]
  exact runs_alloc _ u

/-- The operands `("a<b")` and `("a<")`. -/
def twoTexts : State where
  cells := staticCells ++
    [.mkStr (text "a<b"), .mkCons (.ref 7) .null, .mkStr (text "a<"), .mkCons (.ref 9) .null,
     .mkCtx (Ctx.new 8 .null)]

/-- The string `a<b`. -/
theorem escape_removes_markup_iff_inner : ∃ r q t,
    (runtime World.xml).Runs (xmlEscape (.ref 11) (.ref 8)) twoTexts q t ∧ StringAt t r q ∧
      (EscapeOf (text "a<b") r ↔
        (text "a<b").getLast? ≠ some (chr '<') ∧ (text "a<b").getLast? ≠ some (chr '>')) := by
  have operands : ∃ v m c, (runtime World.xml).Runs (blEval .operand (.ref 11) (.ref 8)) twoTexts
      v m ∧ m.cell v = some c ∧ StringAt m (text "a<b") c.car :=
    ⟨_, _, _, ⟨9, rfl⟩, rfl, _, rfl, rfl, rfl⟩
  obtain ⟨v, m, c, operands, list, first⟩ := operands
  exact escape_removes_markup_iff operands list first

/-- The bracket at the end of `a<` is gone. -/
theorem last_bracket_lost : ∃ q t,
    (runtime World.xml).Runs (xmlEscape (.ref 11) (.ref 10)) twoTexts q t ∧
      StringAt t (text "a") q ∧ ¬ EscapeOf (text "a<") (text "a") :=
  ⟨_, _, ⟨9, rfl⟩, ⟨_, rfl, rfl, rfl⟩, fun right => absurd (escape_of_iff.1 right) (by decide)⟩

end Runs

end BearLang.XmlEscape
