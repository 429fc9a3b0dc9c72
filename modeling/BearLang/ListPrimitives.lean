import BearLang.ElementOrder
import BearLang.ListFrames

/-!
# What the list primitives do to memory

`bl_list_reverse` makes a new list, `bl_list_last` and `bl_list_len` only read, and
`bl_list_append` writes the `cdr` of the last cell, which every list that ends in this
cell shares.
-/

namespace BearLang.ListPrimitives

open CallPrograms OperatorCalls OperandEvaluation ElementOrder ListFrames

set_option autoImplicit false

section Primitives

variable {W : World} {s t : State} {items made others : List (Nat × Ptr)} {p q r x y : Ptr}
  {a n : Nat}

/-- The loop prepends the elements it walks over to what is reversed so far. -/
theorem reverse_loop_cells (cells : CellsAt s items p) (reversed : CellsAt s made q)
    (new : ∀ item ∈ made, n ≤ item.1) (later : n ≤ s.fresh) :
    ∃ r t, (runtime W).Runs (call (.reverseLoop p q)) s r t ∧ Extends s t ∧
      ∃ all, CellsAt t all r ∧ (∀ item ∈ all, n ≤ item.1) ∧
        all.map Prod.snd = (items.map Prod.snd).reverse ++ made.map Prod.snd := by
  induction items generalizing s made p q with
  | nil =>
      have ended : p = .null := cells
      refine ⟨q, s, runs_call (c := .reverseLoop p q) ?_, extends_refl s, made, reversed, new, rfl⟩
      change (runtime W).Runs (reverseLoop p q) s q s
      rw [reverseLoop, if_pos ended]
      exact runs_pure_self _ _
  | cons item rest ih =>
      obtain ⟨rfl, c, known, _, car, behind⟩ := cells
      have extended := extends_allocated s (.mkCons item.2 q)
      have longer : CellsAt (s.allocated (.mkCons item.2 q)) ((s.fresh, item.2) :: made)
          (.ref s.fresh) := by
        refine ⟨rfl, _, State.cell_allocated_new s _, rfl, Cell.mk_cons_car _ _, ?_⟩
        rw [Cell.mk_cons_cdr]
        exact cells_at_allocated reversed _
      have allNew : ∀ item' ∈ (s.fresh, item.2) :: made, n ≤ item'.1 := by
        intro item' mem
        rcases List.mem_cons.1 mem with rfl | mem
        · exact later
        · exact new item' mem
      obtain ⟨r, t, run, onward, all, listed, fresh, values⟩ := ih (cells_at_allocated behind _) longer
        allNew (by rw [State.fresh_allocated]; omega)
      refine ⟨r, t, runs_call (c := .reverseLoop (.ref item.1) q) ?_, extends_trans extended onward,
        all, listed, fresh, ?_⟩
      · change (runtime W).Runs (reverseLoop (.ref item.1) q) s r t
        have prepended : (runtime W).Runs (blListPrepend q c.car) s (.ref s.fresh)
            (s.allocated (.mkCons item.2 q)) := by
          rw [car]
          exact runs_alloc _ s
        rw [reverseLoop, if_neg (by simp), runs_after (runs_load known), runs_after prepended]
        exact run
      · rw [values]
        simp only [List.map_cons, List.reverse_cons, List.append_assoc, List.singleton_append]

theorem last_cell_runs (cells : CellsAt s items p) (last : items.getLast? = some (a, x)) :
    (runtime W).Runs (call (.lastCell p)) s (.ref a) s ∧
      ∃ c, s.cell (.ref a) = some c ∧ c.type = .cons ∧ c.car = x ∧ c.cdr = .null := by
  induction items generalizing p with
  | nil => cases last
  | cons item rest ih =>
      obtain ⟨rfl, c, known, type, car, later⟩ := cells
      cases rest with
      | nil =>
          cases last
          exact ⟨last_cell_here known later, c, known, type, car, later⟩
      | cons item' rest =>
          rw [List.getLast?_cons_cons] at last
          obtain ⟨run, found⟩ := ih later last
          exact ⟨last_cell_further known run, found⟩

theorem list_last_runs (cells : CellsAt s items p) (last : items.getLast? = some (a, x)) :
    (runtime W).Runs (blListLast p) s x s := by
  obtain ⟨run, c, known, _, car, _⟩ := last_cell_runs (W := W) cells last
  have filled : p ≠ .null := by
    rw [cells_at_start cells]
    cases items with
    | nil => cases last
    | cons item rest => simp [startOf]
  rw [blListLast, if_neg filled, runs_after run, runs_after (runs_load known), car]
  exact runs_pure_self _ _

/-- A list that ends in the cell gains the element. -/
theorem cells_gain {c : Cell} (known : s.cell (.ref a) = some c) (none_ : c.cdr = .null)
    (cells : CellsAt s items p) (last : items.getLast? = some (a, y)) (x : Ptr) :
    CellsAt (appended s a c x) (items ++ [(s.fresh, x)]) p := by
  induction items generalizing p with
  | nil => cases last
  | cons item rest ih =>
      obtain ⟨rfl, d, found, type, car, later⟩ := cells
      have bound := State.ref_lt_fresh known
      cases rest with
      | nil =>
          cases last
          rw [known] at found
          cases found
          have inside : a < (s.allocated (.mkCons x .null)).fresh := by
            rw [State.fresh_allocated]
            omega
          refine ⟨rfl, _, State.cell_put_same inside _, type, car, ?_⟩
          rw [Cell.cdr, word_ptr_of_ptr]
          refine ⟨rfl, .mkCons x .null, ?_, rfl, Cell.mk_cons_car x .null, Cell.mk_cons_cdr x .null⟩
          rw [appended, State.cell_put_other fun same => Nat.ne_of_gt bound (Ptr.ref.inj same)]
          exact State.cell_allocated_new s _
      | cons item' rest =>
          rw [List.getLast?_cons_cons] at last
          have other : Ptr.ref item.1 ≠ .ref a := by
            intro same
            rw [same, known] at found
            cases found
            have behind := later.1
            rw [none_] at behind
            cases behind
          refine ⟨rfl, d, ?_, type, car, ih later last⟩
          rw [appended, State.cell_put_other other]
          exact State.cell_allocated_old found _

/-- A list that ends elsewhere stays as it is. -/
theorem cells_stay {c : Cell} (known : s.cell (.ref a) = some c) (none_ : c.cdr = .null)
    (cells : CellsAt s items p) (elsewhere : ∀ y, items.getLast? ≠ some (a, y)) (x : Ptr) :
    CellsAt (appended s a c x) items p := by
  cases ends : items.getLast? with
  | none =>
      obtain rfl := List.getLast?_eq_none_iff.1 ends
      exact cells
  | some item =>
      obtain ⟨b, y⟩ := item
      obtain ⟨walked, _⟩ := last_cell_runs (W := World.bare) cells ends
      rcases cells_end_or_apart (W := World.bare) known none_ cells with walked' | ⟨apart, _⟩
      · obtain ⟨same, _⟩ := runs_functional walked walked'
        cases same
        exact absurd ends (elsewhere y)
      · exact cells_at_put (cells_at_allocated cells _) apart _

/-- What appending the element to the list whose last cell is at `a` leaves. -/
structure Appends (s t : State) (a : Nat) (x : Ptr) : Prop where
  /-- the cell that is written, of which only the `cdr` changes -/
  written : ∃ c, s.cell (.ref a) = some c ∧ c.cdr = .null ∧
    t.cell (.ref a) = some { c with w1 := .ofPtr (.ref s.fresh) }
  new : t.cell (.ref s.fresh) = some (.mkCons x .null)
  frame : ∀ q c, q ≠ .ref a → s.cell q = some c → t.cell q = some c
  size : t.fresh = s.fresh + 1
  gained : ∀ (others : List (Nat × Ptr)) (q y : Ptr), CellsAt s others q →
    others.getLast? = some (a, y) → CellsAt t (others ++ [(s.fresh, x)]) q
  stayed : ∀ (others : List (Nat × Ptr)) (q : Ptr), CellsAt s others q →
    (∀ y, others.getLast? ≠ some (a, y)) → CellsAt t others q

theorem list_append_effect (cells : CellsAt s items p) (last : items.getLast? = some (a, y))
    (x : Ptr) : ∃ t, (runtime W).Runs (blListAppend p x) s p t ∧ Appends s t a x := by
  obtain ⟨walked, c, known, _, _, none_⟩ := last_cell_runs (W := W) cells last
  have filled : p ≠ .null := by
    rw [cells_at_start cells]
    cases items with
    | nil => cases last
    | cons item rest => simp [startOf]
  have bound := State.ref_lt_fresh known
  have inside : a < (s.allocated (.mkCons x .null)).fresh := by
    rw [State.fresh_allocated]
    omega
  refine ⟨appended s a c x, (list_append_iff filled).2 ⟨a, c, walked, known, none_, rfl, rfl⟩,
    ⟨c, known, none_, State.cell_put_same inside _⟩, ?_, fun q d other found => ?_, ?_,
    fun others q y listed ends => cells_gain known none_ listed ends x,
    fun others q listed elsewhere => cells_stay known none_ listed elsewhere x⟩
  · rw [appended, State.cell_put_other fun same => Nat.ne_of_gt bound (Ptr.ref.inj same)]
    exact State.cell_allocated_new s _
  · rw [appended, State.cell_put_other other]
    exact State.cell_allocated_old found _
  · rw [appended, State.fresh_put, State.fresh_allocated]

/-- Reversing makes a new list and writes to nothing that was there, the last element is the
first one of the reversal, the length is that of the list, and appending writes one field. -/
theorem list_primitives_effect (cells : CellsAt s items p) (some_ : items ≠ []) :
    (∃ r t, (runtime W).Runs (blListReverse p) s r t ∧ Extends s t ∧
      FreshList s t (items.map Prod.snd).reverse r) ∧
    (∃ x, (items.map Prod.snd).reverse.head? = some x ∧ (runtime W).Runs (blListLast p) s x s) ∧
    ((items.map Prod.snd).head? ≠ some .null →
      (runtime W).Runs (blListLen p) s items.length s) ∧
    ∃ a y, items.getLast? = some (a, y) ∧ ∀ x, ∃ t,
      (runtime W).Runs (blListAppend p x) s p t ∧ Appends s t a x := by
  obtain ⟨a, y, last⟩ : ∃ a y, items.getLast? = some (a, y) := by
    rw [List.getLast?_eq_some_getLast some_]
    exact ⟨_, _, rfl⟩
  refine ⟨?_, ⟨y, ?_, list_last_runs cells last⟩, fun first => ?_, a, y, last, fun x =>
    list_append_effect cells last x⟩
  · have nothing : CellsAt s [] .null := rfl
    obtain ⟨r, t, run, extended, all, listed, new, values⟩ :=
      reverse_loop_cells (W := W) cells nothing (fun _ => nofun) (Nat.le_refl s.fresh)
    refine ⟨r, t, run, extended, all, ?_, listed, new⟩
    rw [values, List.map_nil, List.append_nil]
  · rw [List.head?_reverse, List.getLast?_map, last, Option.map_some]
  · have listed := list_at_cells cells
    cases items with
    | nil => exact absurd rfl some_
    | cons item rest =>
        have counted := list_len_runs (W := W) listed fun none_ => first (congrArg some none_)
        rw [List.length_map] at counted
        exact counted

/-- A list of two cells, and one that shares the second. -/
def sharedEnd : State :=
  { cells := staticCells ++ [.mkNumber 1, .mkNumber 2, .mkCons (.ref 7) (.ref 10),
      .mkCons (.ref 8) .null, .mkCons (.ref 8) (.ref 10)] }

theorem list_primitives_effect_shared : ∃ t,
    (runtime World.bare).Runs (blListAppend (.ref 9) (.ref 7)) sharedEnd (.ref 9) t ∧
      CellsAt t [(11, .ref 8), (10, .ref 8), (12, .ref 7)] (.ref 11) := by
  have cells : CellsAt sharedEnd [(9, .ref 7), (10, .ref 8)] (.ref 9) :=
    ⟨rfl, _, rfl, rfl, rfl, rfl, _, rfl, rfl, rfl, rfl⟩
  have shares : CellsAt sharedEnd [(11, .ref 8), (10, .ref 8)] (.ref 11) :=
    ⟨rfl, _, rfl, rfl, rfl, rfl, _, rfl, rfl, rfl, rfl⟩
  obtain ⟨_, _, _, a, y, last, appends⟩ :=
    list_primitives_effect (W := World.bare) cells (List.cons_ne_nil _ _)
  cases last
  obtain ⟨t, run, effect⟩ := appends (.ref 7)
  exact ⟨t, run, effect.gained _ _ _ shares rfl⟩

end Primitives

end BearLang.ListPrimitives
