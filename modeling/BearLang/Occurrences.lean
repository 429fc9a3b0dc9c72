import Mathlib.Data.List.Basic
import Mathlib.Data.List.Infix

/-!
# Occurrences of a word

Where a word first occurs in a list, the pieces of a list between the occurrences
that are found from left to right, and the list with every such occurrence replaced.
-/

namespace BearLang.Occurrences

set_option autoImplicit false

variable {α : Type}

theorem intercalate_cons {sep x : List α} {xs : List (List α)} (more : xs ≠ []) :
    sep.intercalate (x :: xs) = x ++ (sep ++ sep.intercalate xs) := by
  obtain ⟨y, ys, rfl⟩ := List.exists_cons_of_ne_nil more
  rw [List.intercalate_cons_cons, List.append_assoc]

theorem intercalate_concat {sep y : List α} {xs : List (List α)} (more : xs ≠ []) :
    sep.intercalate (xs ++ [y]) = sep.intercalate xs ++ (sep ++ y) := by
  induction xs with
  | nil => exact absurd rfl more
  | cons x xs ih =>
      rw [List.cons_append, intercalate_cons (List.append_ne_nil_of_right_ne_nil _ (by simp))]
      by_cases last : xs = []
      · subst last
        simp
      · rw [ih last, intercalate_cons last]
        simp only [List.append_assoc]

theorem intercalate_append_cons {sep t u : List α} {xs : List (List α)} :
    sep.intercalate ((t ++ u) :: xs) = t ++ sep.intercalate (u :: xs) := by
  cases xs with
  | nil => simp
  | cons x xs =>
      rw [List.intercalate_cons_cons, List.intercalate_cons_cons]
      simp only [List.append_assoc]

variable [DecidableEq α]

section Search

@[grind =]
def firstAt (word : List α) : List α → Option Nat
  | [] => if word = [] then some 0 else none
  | c :: rest =>
      if word.isPrefixOf (c :: rest) then some 0 else (firstAt word rest).map (· + 1)

variable {word l : List α} {i : Nat}

theorem first_at_none : firstAt word l = none ↔ ¬ word <:+: l := by
  induction l with
  | nil =>
      rw [firstAt, List.infix_nil]
      split
      · simp [*]
      · simp [*]
  | cons c rest ih =>
      rw [firstAt, List.infix_cons_iff, ← List.isPrefixOf_iff_prefix]
      split
      · simp [*]
      · simp [*]

theorem first_at_some (found : firstAt word l = some i) :
    l = l.take i ++ (word ++ l.drop (i + word.length)) := by
  induction l generalizing i with
  | nil =>
      rw [firstAt] at found
      split at found
      · rename_i empty
        cases found
        simp [empty]
      · cases found
  | cons c rest ih =>
      rw [firstAt] at found
      split at found
      · rename_i begins
        cases found
        obtain ⟨tail, same⟩ := List.isPrefixOf_iff_prefix.1 begins
        rw [List.take_zero, List.nil_append, Nat.zero_add, ← same, List.drop_left]
      · obtain ⟨j, later, rfl⟩ := Option.map_eq_some_iff.1 found
        have rest_ := ih later
        rw [List.take_succ_cons, List.cons_append, Nat.add_right_comm, List.drop_succ_cons, ← rest_]

theorem free_before (found : firstAt word l = some i) (some_ : word ≠ []) :
    ¬ word <:+: l.take i := by
  induction l generalizing i with
  | nil =>
      rw [List.take_nil, List.infix_nil]
      exact some_
  | cons c rest ih =>
      rw [firstAt] at found
      split at found
      · cases found
        rw [List.take_zero, List.infix_nil]
        exact some_
      · rename_i elsewhere
        obtain ⟨j, later, rfl⟩ := Option.map_eq_some_iff.1 found
        rw [List.take_succ_cons, List.infix_cons_iff]
        rintro (begins | inside)
        · refine elsewhere (List.isPrefixOf_iff_prefix.2 (begins.trans ?_))
          exact List.prefix_cons_inj c |>.2 (List.take_prefix j rest)
        · exact ih later inside

theorem first_at_inside (found : firstAt word l = some i) : i + word.length ≤ l.length := by
  induction l generalizing i with
  | nil =>
      rw [firstAt] at found
      split at found
      · rename_i empty
        cases found
        simp [empty]
      · cases found
  | cons c rest ih =>
      rw [firstAt] at found
      split at found
      · rename_i begins
        cases found
        rw [Nat.zero_add]
        exact (List.isPrefixOf_iff_prefix.1 begins).length_le
      · obtain ⟨j, later, rfl⟩ := Option.map_eq_some_iff.1 found
        have inside := ih later
        rw [List.length_cons]
        omega

theorem first_at_more (found : firstAt word l = some i) (rest : List α) :
    firstAt word (l ++ rest) = some i := by
  induction l generalizing i with
  | nil =>
      rw [firstAt] at found
      split at found
      · rename_i empty
        cases found
        subst empty
        cases rest <;> simp [firstAt]
      · cases found
  | cons c l ih =>
      rw [firstAt] at found
      rw [List.cons_append, firstAt]
      split at found
      · rename_i begins
        have longer : word <+: c :: (l ++ rest) :=
          (List.isPrefixOf_iff_prefix.1 begins).trans (List.prefix_append (c :: l) rest)
        rw [if_pos (List.isPrefixOf_iff_prefix.2 longer)]
        exact found
      · rename_i elsewhere
        obtain ⟨j, later, rfl⟩ := Option.map_eq_some_iff.1 found
        have inside := first_at_inside later
        rw [if_neg fun begins => elsewhere ?_, ih later]
        · rfl
        · refine List.isPrefixOf_iff_prefix.2 (List.prefix_of_prefix_length_le
            (List.isPrefixOf_iff_prefix.1 begins) (List.prefix_append (c :: l) rest) ?_)
          rw [List.length_cons]
          omega

theorem drop_shorter (found : firstAt word l = some i) (some_ : word ≠ []) :
    (l.drop (i + word.length)).length < l.length := by
  have whole := congrArg List.length (first_at_some found)
  have positive := List.length_pos_iff.2 some_
  rw [List.length_append, List.length_append] at whole
  omega

/-- The search stops at a word that begins the rest, if it occurs in nothing that is
made of what comes before and the beginning of the word. -/
theorem first_at_append {before rest : List α}
    (apart : ∀ j < before.length, ¬ word <+: (before ++ (word ++ rest)).drop j) :
    firstAt word (before ++ (word ++ rest)) = some before.length := by
  induction before with
  | nil =>
      rw [List.nil_append]
      cases word with
      | nil => cases rest <;> simp [firstAt]
      | cons c word =>
          rw [List.cons_append, firstAt, if_pos]
          · rfl
          · exact List.isPrefixOf_iff_prefix.2 ⟨rest, rfl⟩
  | cons c before ih =>
      have elsewhere := apart 0 (Nat.succ_pos _)
      rw [List.drop_zero, List.cons_append] at elsewhere
      rw [List.cons_append, firstAt, if_neg (fun begins =>
        elsewhere (List.isPrefixOf_iff_prefix.1 begins)), ih]
      · rfl
      · intro j below begins
        exact apart (j + 1) (Nat.succ_lt_succ below) begins

end Search

section Cutting

/-- The pieces between the occurrences, at most `n` of them cut off. -/
@[grind =]
def cutFrom (sep : List α) : Nat → List α → List (List α)
  | 0, l => [l]
  | n + 1, l =>
      match firstAt sep l with
      | none => [l]
      | some i => l.take i :: cutFrom sep n (l.drop (i + sep.length))

/-- The pieces between all the occurrences found from left to right. -/
def cutAll (sep l : List α) : List (List α) := cutFrom sep l.length l

variable {sep l : List α} {i : Nat}

theorem cut_from_enough (some_ : sep ≠ []) {n m : Nat} (enough : l.length ≤ n)
    (enough' : l.length ≤ m) : cutFrom sep n l = cutFrom sep m l := by
  induction n generalizing m l with
  | zero =>
      obtain rfl := List.length_eq_zero_iff.1 (Nat.le_zero.1 enough)
      cases m with
      | zero => rfl
      | succ m =>
          rw [cutFrom, cutFrom, firstAt, if_neg some_]
  | succ n ih =>
      cases m with
      | zero =>
          obtain rfl := List.length_eq_zero_iff.1 (Nat.le_zero.1 enough')
          rw [cutFrom, cutFrom, firstAt, if_neg some_]
      | succ m =>
          rw [cutFrom, cutFrom]
          cases found : firstAt sep l with
          | none => rfl
          | some i =>
              have shorter := drop_shorter found some_
              exact congrArg _ (ih (by omega) (by omega))

theorem cut_all_none (missed : firstAt sep l = none) : cutAll sep l = [l] := by
  rw [cutAll]
  cases l with
  | nil => rfl
  | cons c rest => rw [List.length_cons, cutFrom, missed]

theorem cut_all_found (some_ : sep ≠ []) (found : firstAt sep l = some i) :
    cutAll sep l = l.take i :: cutAll sep (l.drop (i + sep.length)) := by
  have shorter := drop_shorter found some_
  rw [cutAll, cutAll]
  cases l with
  | nil => exact absurd shorter (Nat.not_lt_zero _)
  | cons c rest =>
      rw [List.length_cons, cutFrom, found]
      rw [List.length_cons] at shorter
      exact congrArg _ (cut_from_enough some_ (by omega) le_rfl)

/-- A list is cut from its first occurrence on. -/
theorem cut_induction (some_ : sep ≠ []) {motive : List α → Prop}
    (last : ∀ l, firstAt sep l = none → motive l)
    (cut : ∀ l i, firstAt sep l = some i → motive (l.drop (i + sep.length)) → motive l)
    (l : List α) : motive l := by
  generalize size : l.length = n
  induction n using Nat.strongRecOn generalizing l with
  | ind n ih =>
      cases found : firstAt sep l with
      | none => exact last l found
      | some i =>
          exact cut l i found (ih _ (size ▸ drop_shorter found some_) _ rfl)

theorem cut_all_ne_nil (some_ : sep ≠ []) (l : List α) : cutAll sep l ≠ [] := by
  cases found : firstAt sep l with
  | none =>
      rw [cut_all_none found]
      exact List.cons_ne_nil _ _
  | some i =>
      rw [cut_all_found some_ found]
      exact List.cons_ne_nil _ _

theorem cut_all_free (some_ : sep ≠ []) (l : List α) : ∀ piece ∈ cutAll sep l, ¬ sep <:+: piece := by
  induction l using cut_induction some_ with
  | last l missed =>
      rw [cut_all_none missed]
      intro piece mem
      rw [List.mem_singleton.1 mem]
      exact first_at_none.1 missed
  | cut l i found ih =>
      rw [cut_all_found some_ found]
      intro piece mem
      rcases List.mem_cons.1 mem with rfl | later
      · exact free_before found some_
      · exact ih piece later

theorem join_cut_all (some_ : sep ≠ []) (l : List α) : sep.intercalate (cutAll sep l) = l := by
  induction l using cut_induction some_ with
  | last l missed => rw [cut_all_none missed, List.intercalate_singleton]
  | cut l i found ih =>
      rw [cut_all_found some_ found, intercalate_cons (cut_all_ne_nil some_ _), ih]
      exact (first_at_some found).symm

/-- A list is cut at a separator that is found behind the last piece of what comes before. -/
theorem cut_all_append (some_ : sep ≠ []) {rest : List α} (l : List α)
    (ends : ∀ piece, (cutAll sep l).getLast? = some piece →
      firstAt sep (piece ++ (sep ++ rest)) = some piece.length) :
    cutAll sep (l ++ (sep ++ rest)) = cutAll sep l ++ cutAll sep rest := by
  induction l using cut_induction some_ with
  | last l missed =>
      rw [cut_all_none missed] at ends ⊢
      rw [cut_all_found some_ (ends l rfl), List.take_left, ← List.drop_drop, List.drop_left,
        List.drop_left]
      rfl
  | cut l i found ih =>
      have inside := first_at_inside found
      rw [cut_all_found some_ found, List.getLast?_cons_of_ne_nil (cut_all_ne_nil some_ _)] at ends
      rw [cut_all_found some_ (first_at_more found _), cut_all_found some_ found,
        List.take_append_of_le_length (by omega), List.drop_append_of_le_length inside, ih ends]
      rfl

end Cutting

section Replacing

/-- The list with the word `b` in the place of every occurrence of `a`; the first
elements are skipped, as the end of an occurrence. -/
@[grind =]
def replaceFrom (a b : List α) : Nat → List α → List α
  | _, [] => []
  | skip + 1, _ :: rest => replaceFrom a b skip rest
  | 0, c :: rest =>
      if a.isPrefixOf (c :: rest) then b ++ replaceFrom a b (a.length - 1) rest
      else c :: replaceFrom a b 0 rest

def replaceAll (a b l : List α) : List α := replaceFrom a b 0 l

variable {a b l : List α} {i : Nat}

theorem replace_from_skip (skip : Nat) (l : List α) :
    replaceFrom a b skip l = replaceAll a b (l.drop skip) := by
  induction l generalizing skip with
  | nil => cases skip <;> rfl
  | cons c rest ih =>
      cases skip with
      | zero => rfl
      | succ skip => exact ih skip

theorem replace_all_none (missed : firstAt a l = none) : replaceAll a b l = l := by
  induction l with
  | nil => rfl
  | cons c rest ih =>
      rw [firstAt] at missed
      split at missed
      · cases missed
      · rename_i elsewhere
        rw [replaceAll, replaceFrom, if_neg elsewhere]
        exact congrArg _ (ih (Option.map_eq_none_iff.1 missed))

theorem replace_all_found (some_ : a ≠ []) (found : firstAt a l = some i) :
    replaceAll a b l = l.take i ++ (b ++ replaceAll a b (l.drop (i + a.length))) := by
  induction l generalizing i with
  | nil =>
      rw [firstAt, if_neg some_] at found
      cases found
  | cons c rest ih =>
      rw [firstAt] at found
      split at found
      · rename_i begins
        cases found
        have positive := List.length_pos_iff.2 some_
        obtain ⟨n, size⟩ := Nat.exists_eq_succ_of_ne_zero (Nat.pos_iff_ne_zero.1 positive)
        rw [replaceAll, replaceFrom, if_pos begins, replace_from_skip, size, Nat.zero_add]
        rfl
      · rename_i elsewhere
        obtain ⟨j, later, rfl⟩ := Option.map_eq_some_iff.1 found
        rw [replaceAll, replaceFrom, if_neg elsewhere, Nat.add_right_comm]
        exact congrArg _ (ih later)

/-- Replacing is cutting and joining with the new word. -/
theorem join_cut_replaces (some_ : a ≠ []) (l : List α) :
    b.intercalate (cutAll a l) = replaceAll a b l := by
  induction l using cut_induction some_ with
  | last l missed => rw [cut_all_none missed, List.intercalate_singleton, replace_all_none missed]
  | cut l i found ih =>
      rw [cut_all_found some_ found, intercalate_cons (cut_all_ne_nil some_ _), ih,
        replace_all_found some_ found]

end Replacing

section Letters

variable {x : α} {b l : List α}

theorem replace_all_letter (x : α) (b l : List α) :
    replaceAll [x] b l = l.flatMap fun c => if c = x then b else [c] := by
  induction l with
  | nil => rfl
  | cons c rest ih =>
      rw [replaceAll] at ih
      rw [replaceAll, replaceFrom, List.flatMap_cons, ← ih]
      by_cases same : c = x
      · subst same
        simp
      · rw [if_neg (by simpa using Ne.symm same), if_neg same]
        rfl

/-- Nothing follows the last letter exactly at the end. -/
theorem last_cut_letter (x : α) (l : List α) :
    (cutAll [x] l).getLast? = some [] ↔ l = [] ∨ l.getLast? = some x := by
  have some_ : [x] ≠ [] := List.cons_ne_nil x []
  induction l using cut_induction some_ with
  | last l missed =>
      rw [cut_all_none missed, List.getLast?_singleton, Option.some.injEq]
      refine ⟨.inl, fun ends => ends.resolve_right fun last => ?_⟩
      exact first_at_none.1 missed ((List.singleton_infix_iff x l).2 (List.mem_of_getLast? last))
  | cut l i found ih =>
      have whole := first_at_some found
      obtain ⟨piece, pieces, more⟩ := List.exists_cons_of_ne_nil
        (cut_all_ne_nil some_ (l.drop (i + [x].length)))
      rw [cut_all_found some_ found, more, List.getLast?_cons_cons, ← more]
      refine Iff.trans ih ?_
      generalize l.drop (i + [x].length) = rest at whole
      rw [whole]
      cases rest with
      | nil => simp
      | cons c rest => simp [List.getLast?_cons]

end Letters

end BearLang.Occurrences
