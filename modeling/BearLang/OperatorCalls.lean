import BearLang.ListEvaluation

/-!
# Calls of builtin operators

A call of an operator is its builtin run on the list of its operands, and what it
gives is its value. A list value is `None` or a cell without an element when it is
empty, and a list of cells otherwise.
-/

namespace BearLang.OperatorCalls

open CallPrograms

set_option autoImplicit false

section Calls

variable {W : World} {ctx expr : Ptr} {s s' t : State}

/-- The expression is a call of a builtin with the operand list at the address `n`.
The head is evaluated in `s`, and the builtin starts in `s'`. -/
structure OperatorCall (W : World) (op : Builtin) (ctx expr : Ptr) (s : State) (n : Nat)
    (s' : State) : Prop where
  expression : ∃ x v m c y args, s.cell expr = some x ∧ x.type = .cons ∧
    HeadValue W ctx x.car s v m ∧ m.cell v = some c ∧ c.type = .operNative ∧
    c.codePtr = some (.builtin op) ∧ m.cell expr = some y ∧ y.cdr = .ref n ∧
    m.cell (.ref n) = some args ∧ s' = m.put n (args.invokedAs y.car c.customData)

theorem builtin_runs {op : Builtin} {params r : Ptr} :
    (runtime W).Runs (call (.native (.builtin op) ctx params)) s r t ↔
      (runtime W).Runs (builtinCode W op ctx params) s r t :=
  runs_call_iff (c := .native (.builtin op) ctx params)

/-- What a call gives: the result of the builtin, and `None` for a null pointer. -/
theorem operator_call_runs {op : Builtin} {n : Nat} (called : OperatorCall W op ctx expr s n s')
    (site : Site) {v : Ptr} :
    (runtime W).Runs (blEval site ctx expr) s v t ↔
      ∃ r, (runtime W).Runs (builtinCode W op ctx (.ref n)) s' r t ∧ v = orNull r := by
  obtain ⟨x, f, m, c, y, args, known, list, head, operator, native, points, again, rest, arguments,
    rfl⟩ := called.expression
  rw [reaches_runs_iff (eval_reaches_native site known list head operator native points again rest
    arguments), runs_bind]
  constructor
  · rintro ⟨r, u, run, after⟩
    obtain ⟨rfl, rfl⟩ := runs_pure.1 after
    exact ⟨r, builtin_runs.1 run, rfl⟩
  · rintro ⟨r, run, rfl⟩
    exact ⟨r, t, builtin_runs.2 run, runs_pure_self _ _⟩

theorem eval_first_runs {e v : Ptr} {es : List Ptr} {p : Ptr} (operands : ListAt s (e :: es) p)
    (evaluated : (runtime W).Runs (blEval .operand ctx e) s v t) :
    (runtime W).Runs (evalFirst ctx p) s v t := by
  rw [evalFirst, runs_after (list_first_runs operands)]
  exact evaluated

theorem eval_second_runs {e e' v : Ptr} {es : List Ptr} {p : Ptr}
    (operands : ListAt s (e :: e' :: es) p)
    (evaluated : (runtime W).Runs (blEval .operand ctx e') s v t) :
    (runtime W).Runs (evalSecond ctx p) s v t := by
  rw [evalSecond, runs_after (list_second_runs operands)]
  exact evaluated

/-- Both operands of a call are evaluated, to `v` and `w`, and the second is still
there when it is its turn. -/
structure TwoOperands (W : World) (op : Builtin) (ctx expr : Ptr) (s : State) (v w : Ptr)
    (m : State) : Prop where
  operands : ∃ n s' u e₁ e₂ rest e₀ rest', OperatorCall W op ctx expr s n s' ∧
    ListAt s' (e₁ :: rest) (.ref n) ∧ (runtime W).Runs (blEval .operand ctx e₁) s' v u ∧
    ListAt u (e₀ :: e₂ :: rest') (.ref n) ∧ (runtime W).Runs (blEval .operand ctx e₂) u w m

theorem two_operands_runs {op : Builtin} {next : Ptr → Ptr → Prog Ptr}
    (code : ∀ params, builtinCode W op ctx params =
      (do let a ← evalFirst ctx params; let b ← evalSecond ctx params; next a b)) {v w : Ptr}
    {m : State} (operands : TwoOperands W op ctx expr s v w m) (site : Site) {r : Ptr} :
    (runtime W).Runs (blEval site ctx expr) s r t ↔
      ∃ q, (runtime W).Runs (next v w) m q t ∧ r = orNull q := by
  obtain ⟨n, s', u, e₁, e₂, rest, e₀, rest', called, list, first, list', second⟩ := operands.operands
  rw [operator_call_runs called site, code]
  refine exists_congr fun q => and_congr_left fun _ => ?_
  rw [runs_after (eval_first_runs list first), runs_after (eval_second_runs list' second)]

end Calls

section Arguments

variable {W : World} {s : State} {p q L : Ptr}

theorem pair_length_runs (list : ListAt s [p, q] L) (filled : p ≠ .null) :
    (runtime W).Runs (blErrifInvalidLen L 2 2) s .null s := by
  have len := list_len_runs (W := W) list filled
  obtain ⟨a, c, rfl, known, type, _⟩ := list
  have noError : ¬ c.type = .error := by
    rw [type]
    decide
  rw [blErrifInvalidLen, runs_after (runs_type_of known), if_neg noError, runs_after len]
  dsimp only
  rw [if_pos (by simp)]
  exact runs_pure_self _ _

theorem fixed_pair_checked {T U : ValType} {c d : Cell} (list : ListAt s [p, q] L)
    (first : s.cell p = some c) (type : c.type = T) (second : s.cell q = some d)
    (type' : d.type = U) (noError : T ≠ .error) (noError' : U ≠ .error) :
    (runtime W).Runs (blErrifInvalidFixedArgs L [T, U]) s .null s := by
  have len := pair_length_runs (W := W) list (cell_ne_null first)
  obtain ⟨a, e, rfl, known, _, rfl, b, f, _, known', _, rfl, _⟩ := list
  have good : (runtime W).Runs (checkArgs [T, U] (.ref a) true) s (.null, true) s := by
    rw [checkArgs, runs_after (runs_load known), runs_after (runs_type_of first), type,
      if_neg noError, if_neg (fun other => other.1 rfl), checkArgs, runs_after (runs_load known'),
      runs_after (runs_type_of second), type', if_neg noError', if_neg (fun other => other.1 rfl),
      checkArgs]
    exact runs_pure_self _ _
  rw [blErrifInvalidFixedArgs]
  dsimp only [List.length_cons, List.length_nil]
  rw [runs_after len, if_neg (by simp), runs_after good]
  dsimp only
  rw [if_neg (by simp), if_pos rfl]
  exact runs_pure_self _ _

end Arguments

section ListValues

variable {s t : State}

/-- `None`, or a list cell without an element. -/
def EmptyList (s : State) (p : Ptr) : Prop :=
  ∃ c, s.cell p = some c ∧ (c.type = .null ∨ c.type = .cons) ∧ c.car = .null ∧ c.cdr = .null

/-- The value is the list of these elements. -/
def ListValue (s : State) (xs : List Ptr) (p : Ptr) : Prop :=
  (xs = [] ∧ EmptyList s p) ∨ (xs ≠ [] ∧ (∀ x ∈ xs, x ≠ .null) ∧ ListAt s xs p)

theorem list_value_unique {xs ys : List Ptr} {p : Ptr} (first : ListValue s xs p)
    (second : ListValue s ys p) : xs = ys := by
  have apart {zs : List Ptr} (some_ : zs ≠ []) (filled : ∀ z ∈ zs, z ≠ .null)
      (list : ListAt s zs p) (empty : EmptyList s p) : False := by
    obtain ⟨z, zs, rfl⟩ := List.exists_cons_of_ne_nil some_
    obtain ⟨a, c, rfl, known, _, car, _⟩ := list
    obtain ⟨d, found, _, none_, _⟩ := empty
    rw [known] at found
    cases found
    exact filled z List.mem_cons_self (car.symm.trans none_)
  rcases first with ⟨rfl, empty⟩ | ⟨some_, filled, list⟩
  · rcases second with ⟨rfl, _⟩ | ⟨some_, filled, list⟩
    · rfl
    · exact (apart some_ filled list empty).elim
  · rcases second with ⟨rfl, empty⟩ | ⟨_, _, list'⟩
    · exact (apart some_ filled list empty).elim
    · exact list_at_unique list list'

/-- What there was is as it was. -/
def Extends (s t : State) : Prop := ∀ p c, s.cell p = some c → t.cell p = some c

theorem extends_refl (s : State) : Extends s s := fun _ _ known => known

theorem extends_trans {u : State} (first : Extends s t) (second : Extends t u) : Extends s u :=
  fun p c known => second p c (first p c known)

theorem extends_allocated (s : State) (c : Cell) : Extends s (s.allocated c) :=
  fun _ _ known => State.cell_allocated_old known c

/-- There are new cells, none of them a context, and nothing else has changed. -/
def Adds (s t : State) : Prop :=
  ∃ cells, t = { s with cells := s.cells ++ cells } ∧ ∀ c ∈ cells, ∀ x, c.tail ≠ .ctx x

theorem adds_refl (s : State) : Adds s s :=
  ⟨[], by rw [List.append_nil], fun _ mem => absurd mem List.not_mem_nil⟩

theorem adds_trans {u : State} (first : Adds s t) (second : Adds t u) : Adds s u := by
  obtain ⟨cells, rfl, plain⟩ := first
  obtain ⟨more, rfl, plain'⟩ := second
  refine ⟨cells ++ more, by simp only [List.append_assoc], fun c mem => ?_⟩
  rcases List.mem_append.1 mem with old | new
  · exact plain c old
  · exact plain' c new

theorem adds_allocated (s : State) {c : Cell} (plain : ∀ x, c.tail ≠ .ctx x) :
    Adds s (s.allocated c) :=
  ⟨[c], rfl, fun d mem => by
    rw [List.mem_singleton.1 mem]
    exact plain⟩

theorem adds_cons (s : State) (x p : Ptr) : Adds s (s.allocated (.mkCons x p)) :=
  adds_allocated s fun _ same => nomatch same

theorem adds_extends (adds : Adds s t) : Extends s t := by
  obtain ⟨cells, rfl, _⟩ := adds
  intro p c known
  obtain ⟨a, rfl⟩ := State.ref_of_cell known
  have bound := State.ref_lt_fresh known
  simp only [State.cell, State.fresh] at known bound ⊢
  rw [List.getElem?_append_left bound, known]

theorem list_at_extends (extended : Extends s t) {xs : List Ptr} {p : Ptr} (list : ListAt s xs p) :
    ListAt t xs p :=
  list_at_kept (fun q c known => ⟨c, extended q c known, rfl, rfl, rfl⟩) list

theorem list_at_cons {x p : Ptr} {xs : List Ptr} (list : ListAt s xs p) :
    ListAt (s.allocated (.mkCons x p)) (x :: xs) (.ref s.fresh) :=
  ⟨s.fresh, _, rfl, State.cell_allocated_new s _, rfl, Cell.mk_cons_car x p, by
    rw [Cell.mk_cons_cdr]
    exact list_at_extends (extends_allocated s _) list⟩

/-- The values that a loop over `car` and `cdr` comes to, of whatever type the cells
are. -/
def Chain (s : State) : List Ptr → Ptr → Prop
  | [], p => p = .null
  | x :: xs, p => ∃ c, s.cell p = some c ∧ c.car = x ∧ Chain s xs c.cdr

theorem chain_of_list_at {xs : List Ptr} {p : Ptr} (list : ListAt s xs p) : Chain s xs p := by
  induction xs generalizing p with
  | nil => exact list
  | cons x xs ih =>
      obtain ⟨a, c, rfl, known, _, car, rest⟩ := list
      exact ⟨c, known, car, ih rest⟩

theorem chain_extends (extended : Extends s t) {xs : List Ptr} {p : Ptr} (chain : Chain s xs p) :
    Chain t xs p := by
  induction xs generalizing p with
  | nil => exact chain
  | cons x xs ih =>
      obtain ⟨c, known, car, rest⟩ := chain
      exact ⟨c, extended p c known, car, ih rest⟩

/-- A loop takes the empty list for one null pointer. -/
def raw (xs : List Ptr) : List Ptr := if xs = [] then [.null] else xs

theorem chain_of_list_value {xs : List Ptr} {p : Ptr} (list : ListValue s xs p) :
    Chain s (raw xs) p := by
  rcases list with ⟨rfl, c, known, _, car, cdr⟩ | ⟨some_, _, list⟩
  · exact ⟨c, known, car, cdr⟩
  · rw [raw, if_neg some_]
    exact chain_of_list_at list

theorem reverse_loop_runs {W : World} {xs ys : List Ptr} {L R : Ptr} (list : Chain s xs L)
    (reversed : ListAt s ys R) : ∃ r t, (runtime W).Runs (call (.reverseLoop L R)) s r t ∧
      Adds s t ∧ ListAt t (xs.reverse ++ ys) r := by
  induction xs generalizing s ys L R with
  | nil =>
      have none_ : L = .null := list
      refine ⟨R, s, ?_, adds_refl s, reversed⟩
      refine runs_call (c := .reverseLoop L R) ?_
      change (runtime W).Runs (reverseLoop L R) s R s
      rw [reverseLoop, if_pos none_]
      exact runs_pure_self _ _
  | cons x xs ih =>
      obtain ⟨c, known, car, rest⟩ := list
      have made := adds_cons s x R
      obtain ⟨r, t, run, added, listed⟩ :=
        ih (chain_extends (adds_extends made) rest) (list_at_cons reversed)
      refine ⟨r, t, ?_, adds_trans made added, ?_⟩
      · refine runs_call (c := .reverseLoop L R) ?_
        change (runtime W).Runs (reverseLoop L R) s r t
        have prepended : (runtime W).Runs (blListPrepend R c.car) s (.ref s.fresh)
            (s.allocated (.mkCons x R)) := by
          rw [car]
          exact runs_alloc _ s
        rw [reverseLoop, if_neg (cell_ne_null known), runs_after (runs_load known),
          runs_after prepended]
        exact run
      · rw [List.reverse_cons, List.append_assoc]
        exact listed

theorem mk_list_runs {W : World} {x y : Ptr} (s : State) :
    ∃ r t, (runtime W).Runs (blMkList [x, y]) s r t ∧ Adds s t ∧ ListAt t [x, y] r := by
  have first : ListAt (s.allocated (.mkCons x .null)) [x] (.ref s.fresh) := list_at_cons rfl
  have both := list_at_cons (x := y) first
  have nothing : ListAt ((s.allocated (.mkCons x .null)).allocated (.mkCons y (.ref s.fresh))) []
      .null := rfl
  obtain ⟨r, t, run, added, list⟩ := reverse_loop_runs (W := W) (chain_of_list_at both) nothing
  refine ⟨r, t, ?_, adds_trans (adds_trans (adds_cons s _ _) (adds_cons _ _ _)) added,
    by simpa using list⟩
  have prepended : (runtime W).Runs (prependAll [x, y] .null) s
      (.ref (s.allocated (.mkCons x .null)).fresh)
      ((s.allocated (.mkCons x .null)).allocated (.mkCons y (.ref s.fresh))) := by
    have made : (runtime W).Runs (blListPrepend .null x) s (.ref s.fresh)
      (s.allocated (.mkCons x .null)) := runs_alloc _ s
    have made' : (runtime W).Runs (blListPrepend (.ref s.fresh) y) (s.allocated (.mkCons x .null))
        (.ref (s.allocated (.mkCons x .null)).fresh)
        ((s.allocated (.mkCons x .null)).allocated (.mkCons y (.ref s.fresh))) := runs_alloc _ _
    rw [prependAll, runs_after made, prependAll, runs_after made', prependAll]
    exact runs_pure_self _ _
  rw [blMkList, if_neg (by simp), runs_after prepended]
  exact run

end ListValues

end BearLang.OperatorCalls
