import BearLang.EqualValues
import BearLang.FiniteLists
import BearLang.Occurrences
import BearLang.SharedConstants
import Mathlib.Data.List.Forall2

/-!
# Cutting strings at a separator

`split_str` cuts at the occurrences that `strstr` finds from left to right, and leaves
an empty last piece out. A string that is not longer than the separator is not cut at
all, which is wrong for the separator itself. `str_replace` joins the pieces again, so
an occurrence at the end of the string is lost. With an empty separator every match is
at the beginning of what is left, and the loop goes on for ever.
-/

namespace BearLang.SplitStrings

open CallPrograms OperatorCalls EqualValues ListGraphs Occurrences

set_option autoImplicit false

section Pieces

variable {s sep a b : CStr} {pieces rest : List CStr}

theorem strstr_first (needle s : CStr) : strstr needle s = firstAt needle s := by
  induction s with
  | nil => rfl
  | cons c rest ih => rw [strstr, firstAt, ih]

/-- The pieces without an empty last one. -/
def trimmed (pieces : List CStr) : List CStr :=
  if pieces.getLast? = some [] then pieces.dropLast else pieces

/-- The pieces that `split_str` gives of a string that is not empty. -/
def splitPieces (sep s : CStr) : List CStr :=
  if s.length ≤ sep.length then [s] else trimmed (cutAll sep s)

theorem trimmed_cons (piece : CStr) (more : rest ≠ []) :
    trimmed (piece :: rest) = piece :: trimmed rest := by
  obtain ⟨next, rest, rfl⟩ := List.exists_cons_of_ne_nil more
  rw [trimmed, trimmed, List.getLast?_cons_cons]
  split
  · rfl
  · rfl

theorem mem_of_trimmed {piece : CStr} (mem : piece ∈ trimmed pieces) : piece ∈ pieces := by
  rw [trimmed] at mem
  split at mem
  · exact List.dropLast_subset pieces mem
  · exact mem

/-- Either nothing is left out, or an empty piece that is not the only one. -/
theorem trimmed_cases (some_ : s ≠ []) (some_' : sep ≠ []) :
    (trimmed (cutAll sep s) = cutAll sep s ∧ (cutAll sep s).getLast? ≠ some []) ∨
      (trimmed (cutAll sep s) ≠ [] ∧ cutAll sep s = trimmed (cutAll sep s) ++ [[]] ∧
        (cutAll sep s).getLast? = some []) := by
  by_cases last : (cutAll sep s).getLast? = some []
  · right
    have whole : cutAll sep s = (cutAll sep s).dropLast ++ [[]] :=
      (List.dropLast_append_getLast? [] last).symm
    rw [trimmed, if_pos last]
    refine ⟨fun single => some_ ?_, whole, last⟩
    rw [← join_cut_all some_' s, whole, single]
    rfl
  · left
    rw [trimmed, if_neg last]
    exact ⟨rfl, last⟩

theorem cut_self (some_ : sep ≠ []) : cutAll sep sep = [[], []] := by
  have found : firstAt sep sep = some 0 := by
    have here : firstAt sep ([] ++ (sep ++ [])) = some ([] : CStr).length :=
      first_at_append (by simp)
    simpa using here
  rw [cut_all_found some_ found, Nat.zero_add, List.drop_length, cut_all_none]
  · rfl
  · rw [firstAt, if_neg some_]

/-- A string that is not longer than the separator contains it only if it is the
separator. -/
theorem short_free (short : s.length ≤ sep.length) (other : s ≠ sep) : ¬ sep <:+: s := fun inside =>
  other (inside.eq_of_length_le short).symm

theorem pieces_free (some_' : sep ≠ []) (other : s ≠ sep) :
    ∀ piece ∈ splitPieces sep s, ¬ sep <:+: piece := by
  intro piece mem
  rw [splitPieces] at mem
  split at mem
  · rename_i short
    rw [List.mem_singleton.1 mem]
    exact short_free short other
  · exact cut_all_free some_' s piece (mem_of_trimmed mem)

theorem pieces_join (some_ : s ≠ []) (some_' : sep ≠ []) :
    sep.intercalate (splitPieces sep s) = s ∨ sep.intercalate (splitPieces sep s) ++ sep = s := by
  rw [splitPieces]
  split
  · exact .inl List.intercalate_singleton
  · rcases trimmed_cases some_ some_' with ⟨same, _⟩ | ⟨more, whole, _⟩
    · rw [same]
      exact .inl (join_cut_all some_' s)
    · right
      have joined := join_cut_all some_' s
      rw [whole, intercalate_concat more, List.append_nil] at joined
      exact joined

/-- The pieces are right for every string but the separator. -/
theorem pieces_right_iff (some_ : s ≠ []) (some_' : sep ≠ []) :
    ((∀ piece ∈ splitPieces sep s, ¬ sep <:+: piece) ∧
      (sep.intercalate (splitPieces sep s) = s ∨
        sep.intercalate (splitPieces sep s) ++ sep = s)) ↔ s ≠ sep := by
  constructor
  · rintro ⟨free, _⟩ rfl
    rw [splitPieces, if_pos le_rfl] at free
    exact free s List.mem_cons_self List.infix_rfl
  · exact fun other => ⟨pieces_free some_' other, pieces_join some_ some_'⟩

/-- What `str_replace` gives. -/
def replacedPieces (a b s : CStr) : CStr :=
  if a <:+: s then b.intercalate (splitPieces a s) else s

/-- The word does not occur, or it is not the whole string and not its end as it is cut
from left to right, or it is put in its own place. -/
def ReplacesAll (s a b : CStr) : Prop :=
  ¬ a <:+: s ∨ (s ≠ a ∧ ((cutAll a s).getLast? ≠ some [] ∨ b = [])) ∨ (s = a ∧ a = b)

theorem replaced_pieces_iff (some_ : a ≠ []) :
    replacedPieces a b s = replaceAll a b s ↔ ReplacesAll s a b := by
  rw [replacedPieces, ReplacesAll]
  by_cases occurs : a <:+: s
  · rw [if_pos occurs]
    have filled : s ≠ [] := by
      rintro rfl
      exact some_ (List.infix_nil.1 occurs)
    by_cases same : s = a
    · subst same
      rw [splitPieces, if_pos le_rfl, List.intercalate_singleton, ← join_cut_replaces some_,
        cut_self some_, List.intercalate_cons_cons, List.intercalate_singleton]
      simp
    · have longer : ¬ s.length ≤ a.length := fun short => short_free short same occurs
      rw [splitPieces, if_neg longer, ← join_cut_replaces some_]
      rcases trimmed_cases filled some_ with ⟨whole, last⟩ | ⟨more, whole, last⟩
      · rw [whole]
        simp [same, last]
      · have joined : b.intercalate (cutAll a s) = b.intercalate (trimmed (cutAll a s)) ++ b := by
          rw [whole, intercalate_concat more, List.append_nil, ← whole]
        rw [joined]
        simp [occurs, same, last]
  · rw [if_neg occurs, replace_all_none (first_at_none.2 occurs)]
    simp [occurs]

end Pieces

section Runs

variable {W : World} {s t : State} {str sep : CStr} {strs : List CStr} {p : Ptr}

def StringsAt (s : State) (strs : List CStr) (p : Ptr) : Prop :=
  ∃ ps, ListAt s ps p ∧ List.Forall₂ (fun str q => Holds s (.string str) q) strs ps

theorem strings_nil (s : State) : StringsAt s [] .null := ⟨[], rfl, .nil⟩

theorem strings_extends (extended : Extends s t) (strings : StringsAt s strs p) :
    StringsAt t strs p := by
  obtain ⟨ps, list, held⟩ := strings
  exact ⟨ps, list_at_extends extended list, held.imp fun _ _ => holds_extends extended⟩

theorem holds_mk_str (s : State) (str : CStr) :
    Holds (s.allocated (.mkStr str)) (.string str) (.ref s.fresh) :=
  ⟨_, State.cell_allocated_new s _, rfl, rfl, rfl⟩

theorem prepend_string_runs (strings : StringsAt s strs p) (str : CStr) :
    ∃ q r t, (runtime W).Runs (mkStr str) s q (s.allocated (.mkStr str)) ∧
      (runtime W).Runs (blListPrepend p q) (s.allocated (.mkStr str)) r t ∧ Adds s t ∧
      StringsAt t (str :: strs) r := by
  have made : Adds s (s.allocated (.mkStr str)) := adds_allocated s fun _ same => nomatch same
  have linked := adds_cons (s.allocated (.mkStr str)) (.ref s.fresh) p
  have extended := adds_extends linked
  obtain ⟨ps, list, held⟩ := strings_extends (adds_extends made) strings
  refine ⟨_, _, _, runs_alloc _ s, runs_alloc _ _, adds_trans made linked, .ref s.fresh :: ps,
    list_at_cons list, .cons (holds_extends extended (holds_mk_str s str)) ?_⟩
  exact held.imp fun _ _ => holds_extends extended

theorem reverse_strings_runs (strings : StringsAt s strs p) :
    ∃ r t, (runtime W).Runs (blListReverse p) s r t ∧ Adds s t ∧ StringsAt t strs.reverse r := by
  obtain ⟨ps, list, held⟩ := strings
  obtain ⟨r, t, run, added, reversed⟩ := reverse_loop_runs (W := W) (chain_of_list_at list)
    (show ListAt s [] .null from rfl)
  rw [List.append_nil] at reversed
  have held' : List.Forall₂ (fun str q => Holds t (.string str) q) strs ps :=
    held.imp fun _ _ => holds_extends (adds_extends added)
  exact ⟨r, t, run, added, ps.reverse, reversed, List.rel_reverse held'⟩

theorem runs_split_loop {buf : CStr} {r : Ptr} :
    (runtime W).Runs (call (.splitLoop buf sep p)) s r t ↔
      (runtime W).Runs (splitLoop buf sep p) s r t :=
  runs_call_iff (c := .splitLoop buf sep p)

theorem runs_join_loop {acc r : Option CStr} :
    (runtime W).Runs (call (.joinLoop p sep acc)) s r t ↔
      (runtime W).Runs (joinLoop p sep acc) s r t :=
  runs_call_iff (c := .joinLoop p sep acc)

theorem tail_substr_none (missed : firstAt sep str = none) : tailSubstr str sep = none := by
  rw [tailSubstr, strstr_first, missed]
  rfl

theorem tail_substr_some (some_ : sep ≠ []) {i : Nat} (found : firstAt sep str = some i) :
    tailSubstr str sep = some (str.take i, str.drop (i + sep.length)) := by
  rw [tailSubstr, strstr_first, found, Option.map_some, if_neg some_]

/-- The loop puts the pieces in front of those that it has cut off before. -/
theorem split_loop_runs (some_ : sep ≠ []) (buf : CStr) (strings : StringsAt s strs p) :
    ∃ r t, (runtime W).Runs (call (.splitLoop buf sep p)) s r t ∧ Adds s t ∧
      StringsAt t (strs.reverse ++ trimmed (cutAll sep buf)) r := by
  induction buf using cut_induction some_ generalizing s strs p with
  | last buf missed =>
      rw [cut_all_none missed]
      by_cases empty : buf = []
      · subst empty
        obtain ⟨r, t, run, added, reversed⟩ := reverse_strings_runs (W := W) strings
        refine ⟨r, t, ?_, added, by simpa [trimmed] using reversed⟩
        rw [runs_split_loop, splitLoop, tail_substr_none missed]
        exact run
      · obtain ⟨q, l, m, made, linked, added, longer⟩ :=
          prepend_string_runs (W := W) strings buf
        obtain ⟨r, t, run, added', reversed⟩ := reverse_strings_runs (W := W) longer
        have single : trimmed [buf] = [buf] := by simp [trimmed, empty]
        refine ⟨r, t, ?_, adds_trans added added', ?_⟩
        · rw [runs_split_loop, splitLoop, tail_substr_none missed]
          dsimp only
          rw [if_pos (List.length_pos_iff.2 empty), runs_after made, runs_after linked]
          exact run
        · rw [single, ← List.reverse_cons]
          exact reversed
  | cut buf i found ih =>
      obtain ⟨q, l, m, made, linked, added, longer⟩ :=
        prepend_string_runs (W := W) strings (buf.take i)
      obtain ⟨r, t, run, added', listed⟩ := ih longer
      refine ⟨r, t, ?_, adds_trans added added', ?_⟩
      · rw [runs_split_loop, splitLoop, tail_substr_some some_ found]
        dsimp only
        rw [runs_after made, runs_after linked]
        exact run
      · rw [cut_all_found some_ found, trimmed_cons _ (cut_all_ne_nil some_ _)]
        rw [List.reverse_cons, List.append_assoc] at listed
        exact listed

/-- `split_str` makes the list of the pieces. -/
theorem split_runs (s : State) (some_ : str ≠ []) (some_' : sep ≠ []) :
    ∃ L t, (runtime W).Runs (splitStr str sep) s L t ∧ Adds s t ∧
      StringsAt t (splitPieces sep str) L := by
  have positive : str.length ≠ 0 := fun zero => some_ (List.length_eq_zero_iff.1 zero)
  simp only [splitStr, if_neg positive, splitPieces]
  split
  · obtain ⟨q, l, m, made, linked, added, single⟩ :=
      prepend_string_runs (W := W) (strings_nil s) str
    obtain ⟨L, t, run, added', listed⟩ := reverse_strings_runs (W := W) single
    refine ⟨L, t, ?_, adds_trans added added', listed⟩
    have prepended : (runtime W).Runs (prependAll [q] .null) (s.allocated (.mkStr str)) l m := by
      rw [prependAll, runs_after linked, prependAll]
      exact runs_pure_self _ _
    rw [runs_after made, blMkList, if_neg (by simp), runs_after prepended]
    exact run
  · exact split_loop_runs some_' str (strings_nil s)

theorem join_more_runs {acc : CStr} (strings : StringsAt s strs p) :
    (runtime W).Runs (call (.joinLoop p sep (some acc))) s (some (sep.intercalate (acc :: strs)))
      s := by
  obtain ⟨ps, list, held⟩ := strings
  induction held generalizing p acc with
  | nil =>
      rw [runs_join_loop, joinLoop, if_pos (show p = .null from list), List.intercalate_singleton]
      exact runs_pure_self _ _
  | @cons str q strs ps first rest ih =>
      obtain ⟨a, c, rfl, known, _, car, later⟩ := list
      obtain ⟨d, found, type, value, _⟩ := first
      have naked : (runtime W).Runs (blSerNakedSexp c.car) s str s := by
        rw [car]
        exact prints_naked_string found type value
      rw [runs_join_loop, joinLoop, if_neg (by simp), runs_after (runs_load known)]
      dsimp only
      rw [runs_after naked, if_pos (by simp)]
      have whole : sep.intercalate (acc :: str :: strs) =
          sep.intercalate ((acc ++ sep ++ str) :: strs) := by
        rw [List.intercalate_cons_cons, intercalate_append_cons]
      rw [whole]
      exact ih later

/-- `join_str` joins the strings; without any there is no result. -/
theorem join_runs (strings : StringsAt s strs p) (sep : CStr) :
    (runtime W).Runs (joinStr p sep) s (if strs = [] then none else some (sep.intercalate strs))
      s := by
  obtain ⟨ps, list, held⟩ := strings
  rw [joinStr, runs_join_loop, joinLoop]
  cases held with
  | nil =>
      rw [if_pos (show p = .null from list), if_pos rfl]
      exact runs_pure_self _ _
  | @cons str q strs ps first rest =>
      obtain ⟨a, c, rfl, known, _, car, later⟩ := list
      obtain ⟨d, found, type, value, _⟩ := first
      have naked : (runtime W).Runs (blSerNakedSexp c.car) s str s := by
        rw [car]
        exact prints_naked_string found type value
      rw [if_neg (by simp), if_neg (by simp), runs_after (runs_load known)]
      dsimp only
      rw [runs_after naked, if_neg (by simp)]
      exact join_more_runs ⟨ps, later, rest⟩

theorem pieces_ne_nil (some_ : str ≠ []) (some_' : sep ≠ []) : splitPieces sep str ≠ [] := by
  rw [splitPieces]
  split
  · exact List.cons_ne_nil _ _
  · rcases trimmed_cases some_ some_' with ⟨same, _⟩ | ⟨more, _⟩
    · rw [same]
      exact cut_all_ne_nil some_' str
    · exact more

/-- Splitting and joining again: the pieces are free of the separator, and only a
trailing separator is lost, exactly when the string is not the separator. -/
theorem split_join_iff (W : World) (s : State) {str sep : CStr} (some_ : str ≠ [])
    (some_' : sep ≠ []) : ∃ L t pieces joined, (runtime W).Runs (splitStr str sep) s L t ∧
      StringsAt t pieces L ∧ (runtime W).Runs (joinStr L sep) t (some joined) t ∧
      (((∀ piece ∈ pieces, ¬ sep <:+: piece) ∧ (joined = str ∨ joined ++ sep = str)) ↔
        str ≠ sep) := by
  obtain ⟨L, t, run, _, strings⟩ := split_runs (W := W) s some_ some_'
  have joined := join_runs (W := W) strings sep
  rw [if_neg (pieces_ne_nil some_ some_')] at joined
  exact ⟨L, t, _, _, run, strings, joined, pieces_right_iff some_ some_'⟩

/-- The string `a::b`, which is cut in two. -/
theorem split_join_iff_path : ∃ L t pieces joined,
    (runtime World.bare).Runs (splitStr (text "a::b") (text "::")) State.initial L t ∧
      StringsAt t pieces L ∧
      (runtime World.bare).Runs (joinStr L (text "::")) t (some joined) t ∧
      (((∀ piece ∈ pieces, ¬ text "::" <:+: piece) ∧
        (joined = text "a::b" ∨ joined ++ text "::" = text "a::b")) ↔ text "a::b" ≠ text "::") :=
  split_join_iff World.bare State.initial (by decide) (by decide)

/-- The separator itself is one piece. -/
theorem separator_not_split : ∃ L t,
    (runtime World.bare).Runs (splitStr (text "::") (text "::")) State.initial L t ∧
      StringsAt t [text "::"] L ∧ text "::" <:+: text "::" :=
  ⟨_, _, ⟨9, rfl⟩, ⟨[_], ⟨_, _, rfl, rfl, rfl, rfl, rfl⟩, .cons ⟨_, rfl, rfl, rfl, rfl⟩ .nil⟩,
    List.infix_rfl⟩

theorem replace_runs (s : State) {a : CStr} (some_ : a ≠ []) (str b : CStr) :
    ∃ t, (runtime W).Runs (strReplace str a b) s (some (replacedPieces a b str)) t ∧ Adds s t := by
  rw [strReplace, strstr_first, replacedPieces]
  by_cases occurs : a <:+: str
  · have filled : str ≠ [] := by
      rintro rfl
      exact some_ (List.infix_nil.1 occurs)
    rw [if_neg fun missed => first_at_none.1 missed occurs, if_pos occurs]
    obtain ⟨L, t, run, added, strings⟩ := split_runs (W := W) s filled some_
    have joined := join_runs (W := W) strings b
    rw [if_neg (pieces_ne_nil filled some_)] at joined
    exact ⟨t, (runs_after run).2 joined, added⟩
  · rw [if_pos (first_at_none.2 occurs), if_neg occurs]
    exact ⟨s, runs_pure_self _ _, adds_refl s⟩

/-- `str_replace` puts the new word in the place of every occurrence exactly if the
word is not at the end of the string, or loses nothing there. -/
theorem replaces_all_iff (W : World) (s : State) {a : CStr} (some_ : a ≠ []) (str b : CStr) :
    ∃ r t, (runtime W).Runs (strReplace str a b) s (some r) t ∧
      (r = replaceAll a b str ↔ ReplacesAll str a b) := by
  obtain ⟨t, run, _⟩ := replace_runs (W := W) s some_ str b
  exact ⟨_, t, run, replaced_pieces_iff some_⟩

/-- The word `b` in `abc`. -/
theorem replaces_all_iff_middle : ∃ r t,
    (runtime World.bare).Runs (strReplace (text "abc") (text "b") (text "x")) State.initial
        (some r) t ∧
      (r = replaceAll (text "b") (text "x") (text "abc") ↔
        ReplacesAll (text "abc") (text "b") (text "x")) :=
  replaces_all_iff World.bare State.initial (by decide) (text "abc") (text "x")

/-- The word `b` at the end of `ab` is taken away. -/
theorem last_word_lost : ∃ t,
    (runtime World.bare).Runs (strReplace (text "ab") (text "b") (text "x")) State.initial
        (some (text "a")) t ∧
      replaceAll (text "b") (text "x") (text "ab") = text "ax" ∧ text "a" ≠ text "ax" :=
  ⟨_, ⟨9, rfl⟩, by decide, by decide⟩

end Runs

section Endings

variable {W : World} {s t : State} {str sep : CStr}

theorem cut_at_front (buf : CStr) : tailSubstr buf [] = some ([], []) := by
  cases buf <;> simp [tailSubstr, strstr]

/-- The turns of the loop with an empty separator. -/
def CutsNothing (c : Call) (_ : State) : Prop := ∃ buf p, c = .splitLoop buf [] p

/-- With an empty separator the loop comes to itself, with nothing left to cut. -/
theorem split_endless (some_ : str ≠ []) : ¬ (runtime W).Settles (splitStr str []) s := by
  have positive : str.length ≠ 0 := fun zero => some_ (List.length_eq_zero_iff.1 zero)
  rw [splitStr, if_neg positive, if_neg (by simpa using positive)]
  refine endless_calls CutsNothing ?_ ⟨str, .null, rfl⟩
  rintro _ state ⟨buf, p, rfl⟩ callee stuck
  change runWith step callee (splitLoop buf [] p) state = .outOfFuel
  rw [splitLoop, cut_at_front]
  have next := stuck (.splitLoop [] [] (.ref (state.allocated (.mkStr [])).fresh))
    ((state.allocated (.mkStr [])).allocated (.mkCons (.ref state.fresh) p)) ⟨_, _, rfl⟩
  simp only [mkStr, blListPrepend, alloc, Program.perform_bind, Program.done_bind, runWith, step,
    call, next]

theorem split_settles_iff : (runtime W).Settles (splitStr str sep) s ↔ sep ≠ [] ∨ str = [] := by
  constructor
  · intro settles
    by_contra bad
    obtain ⟨empty, some_⟩ := not_or.1 bad
    obtain rfl := not_not.1 empty
    exact split_endless some_ settles
  · intro good
    by_cases empty : str = []
    · subst empty
      exact settles_of_runs (runs_pure_self nullVal s)
    · obtain ⟨L, t, run, _⟩ := split_runs (W := W) s empty (good.resolve_right empty)
      exact settles_of_runs run

theorem first_token_settles_iff :
    (runtime W).Settles (strFirstToken str sep) s ↔ sep ≠ [] ∨ str = [] := by
  constructor
  · exact fun settles => split_settles_iff.1 (settles_first settles)
  · intro good
    refine settles_bind (split_settles_iff.2 good) fun _ _ _ => ?_
    refine settles_bind (split_settles_iff.2 good) fun L m _ => ?_
    have value (p : Ptr) : ReadsOnly W (load p >>= fun c => member c.sVal) m :=
      reads_load fun c _ => reads_member
    rw [blListFirst]
    split
    · exact (reads_bind (reads_pure _) fun p _ => value p).settles
    · exact (reads_bind (reads_load fun c _ => reads_pure _) fun p _ => value p).settles

/-- Joining `None` stops at the element that it does not have. -/
theorem join_null_settles (statics : Grows State.initial s) (b : CStr) :
    (runtime W).Settles (joinStr nullVal b) s := by
  obtain ⟨c, known, _, word⟩ := SharedConstants.none_of_statics statics
  have empty : c.car = .null := by
    rw [Cell.car, word]
    rfl
  have text_ : ReadsOnly W (body W (.serSexp .null)) s := reads_pure ([] : CStr)
  have naked : ReadsOnly W (blSerNakedSexp .null) s :=
    reads_bind (reads_call text_) fun text _ =>
      reads_bind (reads_load fun c _ => reads_pure _) fun _ _ => reads_pure _
  refine settles_invoke ?_ fun answer m _ => settles_of_runs (runs_pure_self answer m)
  change (runtime W).Settles (joinLoop nullVal b none) s
  rw [joinLoop, if_neg (by decide)]
  refine (reads_load fun d found => ?_).settles
  obtain rfl : c = d := Option.some.inj (known.symm.trans found)
  rw [empty]
  refine reads_bind naked fun r run => ?_
  obtain ⟨text, n, _, typed⟩ := runs_bind.1 run
  obtain ⟨kind, n', loaded, _⟩ := runs_bind.1 typed
  obtain ⟨d, found, _⟩ := runs_load_iff.1 loaded
  cases found

theorem replace_settles_iff (statics : Grows State.initial s) (b : CStr) :
    (runtime W).Settles (strReplace str sep b) s ↔ sep ≠ [] ∨ str = [] := by
  constructor
  · intro settles
    by_contra bad
    obtain ⟨empty, some_⟩ := not_or.1 bad
    obtain rfl := not_not.1 empty
    have found : strstr [] str ≠ none := by
      cases str <;> simp [strstr]
    rw [strReplace, if_neg found] at settles
    exact split_endless some_ (settles_first settles)
  · intro good
    by_cases empty : sep = []
    · obtain rfl := good.resolve_left (not_not.2 empty)
      subst empty
      exact join_null_settles statics b
    · obtain ⟨t, run, _⟩ := replace_runs (W := W) s empty str b
      exact settles_of_runs run

/-- Splitting, replacing and taking the first token come to an end exactly if the
separator is not empty or the string is. -/
theorem string_loops_settle_iff (statics : Grows State.initial s) (str sep b : CStr) :
    ((runtime W).Settles (splitStr str sep) s ↔ sep ≠ [] ∨ str = []) ∧
      ((runtime W).Settles (strReplace str sep b) s ↔ sep ≠ [] ∨ str = []) ∧
      ((runtime W).Settles (strFirstToken str sep) s ↔ sep ≠ [] ∨ str = []) :=
  ⟨split_settles_iff, replace_settles_iff statics b, first_token_settles_iff⟩

theorem string_loops_settle_iff_path :
    ((runtime World.bare).Settles (splitStr (text "a::b") (text "::")) State.initial ↔
        text "::" ≠ [] ∨ text "a::b" = []) ∧
      ((runtime World.bare).Settles (strReplace (text "a::b") (text "::") (text "."))
          State.initial ↔ text "::" ≠ [] ∨ text "a::b" = []) ∧
      ((runtime World.bare).Settles (strFirstToken (text "a::b") (text "::")) State.initial ↔
        text "::" ≠ [] ∨ text "a::b" = []) :=
  string_loops_settle_iff (grows_refl _) (text "a::b") (text "::") (text ".")

/-- The string `a` is never split at the empty string. -/
theorem empty_separator_endless :
    ¬ (runtime World.bare).Settles (splitStr (text "a") []) State.initial :=
  split_endless (by decide)

end Endings

end BearLang.SplitStrings
