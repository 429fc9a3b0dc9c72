import BearLang.EffectFree
import BearLang.OperandsOnce

/-!
# The modes of `+`

`bl_oper_add` chooses its mode by the value of its first operand, and adds up or
concatenates all of them in that mode. A number that comes first makes the rest numbers.
-/

namespace BearLang.AddModes

open CallPrograms OperatorCalls EqualValues OperandEvaluation EffectFree

set_option autoImplicit false

section Results

/-- `bl_ser_naked_sexp` of the value. -/
def shown : Simple → CStr
  | .number i => mpzGetStr i
  | .string str => str
  | .bool b => if b then text "True" else text "False"
  | .none => text "None"

def isNumber : Simple → Bool
  | .number _ => true
  | _ => false

def total (xs : List Simple) : Int := (xs.map Simple.view).sum

def joined (xs : List Simple) : CStr := (xs.map shown).flatten

/-- The documented value: the sum of numbers, and the texts of other values put together. -/
def sumOrText (xs : List Simple) : Simple :=
  if xs.all isNumber then .number (total xs) else .string (joined xs)

/-- The value that `bl_oper_add` computes. -/
def added (xs : List Simple) : Simple :=
  if xs.head?.any isNumber then .number (total xs) else .string (joined xs)

/-- The mode is right for numbers only, and where the first value is no number. -/
theorem added_right_iff {x : Simple} (xs : List Simple) :
    added (x :: xs) = sumOrText (x :: xs) ↔
      (∀ y ∈ x :: xs, isNumber y = true) ∨ isNumber x = false := by
  have first : (x :: xs).head?.any isNumber = isNumber x := rfl
  rw [added, sumOrText, first, ← List.all_eq_true]
  by_cases numbers : (x :: xs).all isNumber = true
  · have number : isNumber x = true := List.all_eq_true.1 numbers x List.mem_cons_self
    simp only [numbers, number, true_or]
  · rw [eq_false_of_ne_true numbers]
    cases isNumber x <;> simp

end Results

section Values

variable {W : World} {s t : State} {x : Simple} {p : Ptr}

theorem int_of_value (held : Holds s x p) : (runtime W).Runs (intOf p) s x.view s := by
  obtain ⟨c, known, view, _⟩ := holds_view held
  rw [intOf, runs_after (runs_load known)]
  exact runs_member view s

/-- A value that is no string is printed as `bl_ser_sexp` prints it. -/
theorem prints_naked_other {c : Cell} {out : CStr} (known : s.cell p = some c)
    (type : c.type ≠ .string) (printed : (runtime W).Runs (blSerSexp p) s out s) :
    (runtime W).Runs (blSerNakedSexp p) s out s := by
  rw [blSerNakedSexp, runs_after printed, runs_after (runs_type_of known), if_neg type]
  exact runs_pure_self _ _

theorem value_shown (held : Holds s x p) : (runtime W).Runs (blSerNakedSexp p) s (shown x) s := by
  obtain ⟨c, known, shape⟩ := held
  have there := cell_ne_null known
  cases x with
  | number i =>
      obtain ⟨type, value⟩ := shape
      have atom : c.atom = some (.integer i) := by simp only [Cell.atom, type, value, Option.map_some]
      refine prints_naked_other known (by rw [type]; decide) ?_
      exact prints_atom known atom
  | string str =>
      obtain ⟨type, value, _⟩ := shape
      exact prints_naked_string known type value
  | bool b =>
      obtain ⟨type, value, _⟩ := shape
      refine prints_naked_other known (by rw [type]; decide) ?_
      rw [runs_ser_sexp, serSexpBody, if_neg there, runs_after (runs_load known)]
      simp only [type]
      rw [runs_after (runs_member value s)]
      exact runs_pure_self _ _
  | none =>
      obtain ⟨type, _⟩ := shape
      refine prints_naked_other known (by rw [type]; decide) ?_
      rw [runs_ser_sexp, serSexpBody, if_neg there, runs_after (runs_load known)]
      simp only [type]
      exact runs_pure_self _ _

end Values

section Loops

variable {W : World} {ctx params : Ptr} {s t : State} {I : State → Prop}
  {operands : List (Nat × Ptr)} {xs : List Simple}

theorem numbers_added (held : Operands W ctx I params operands xs) (start : I t) (sum : Int) :
    ∃ u, (runtime W).Runs (addNumbers ctx params sum) t (sum + total xs) u ∧ I u ∧ Keeps t u := by
  induction operands generalizing xs params t sum with
  | nil =>
      obtain rfl := List.forall₂_nil_left_iff.1 held.gives
      obtain rfl : params = .null := held.cells t start
      refine ⟨t, ?_, start, keeps_refl t⟩
      rw [addNumbers, if_pos rfl]
      exact runs_pure.2 ⟨(Int.add_zero sum).symm, rfl⟩
  | cons operand operands ih =>
      obtain ⟨x, xs, first, _, rfl⟩ := List.forall₂_cons_left_iff.1 held.gives
      obtain ⟨v, m, run, value, stays, kept⟩ := first t start
      obtain ⟨c, known, _, car, _⟩ := operands_cell held start
      obtain ⟨c', known', _, _, cdr⟩ := operands_cell held stays
      obtain ⟨u, later, stays', kept'⟩ := ih (operands_rest held) stays (sum + x.view)
      refine ⟨u, ?_, stays', keeps_trans kept kept'⟩
      have whole : sum + total (x :: xs) = sum + x.view + total xs := by
        simp only [total, List.map_cons, List.sum_cons]
        omega
      rw [addNumbers, if_neg (cell_ne_null known), runs_after (runs_load known), car, runs_after run,
        runs_after (int_of_value value), runs_after (runs_load known'), cdr, whole]
      exact runs_call (c := .addNumbers ctx (startOf operands) (sum + x.view)) later

theorem strings_added (held : Operands W ctx I params operands xs) (start : I t) (str : CStr) :
    ∃ u, (runtime W).Runs (addStrings ctx params str) t (str ++ joined xs) u ∧ I u ∧ Keeps t u := by
  induction operands generalizing xs params t str with
  | nil =>
      obtain rfl := List.forall₂_nil_left_iff.1 held.gives
      obtain rfl : params = .null := held.cells t start
      refine ⟨t, ?_, start, keeps_refl t⟩
      rw [addStrings, if_pos rfl]
      exact runs_pure.2 ⟨(List.append_nil str).symm, rfl⟩
  | cons operand operands ih =>
      obtain ⟨x, xs, first, _, rfl⟩ := List.forall₂_cons_left_iff.1 held.gives
      obtain ⟨v, m, run, value, stays, kept⟩ := first t start
      obtain ⟨c, known, _, car, _⟩ := operands_cell held start
      obtain ⟨c', known', _, _, cdr⟩ := operands_cell held stays
      obtain ⟨u, later, stays', kept'⟩ := ih (operands_rest held) stays (str ++ shown x)
      refine ⟨u, ?_, stays', keeps_trans kept kept'⟩
      have whole : str ++ joined (x :: xs) = str ++ shown x ++ joined xs := by
        simp only [joined, List.map_cons, List.flatten_cons, List.append_assoc]
      rw [addStrings, if_neg (cell_ne_null known), runs_after (runs_load known), car, runs_after run,
        runs_after (value_shown value), runs_after (runs_load known'), cdr, whole]
      exact runs_call (c := .addStrings ctx (startOf operands) (str ++ shown x)) later

/-- The mode goes by the kind of the first value. -/
theorem mode_added (steady : Steady ctx s I) (held : Operands W ctx I params operands xs)
    {x : Simple} {first : Ptr} (head : xs.head? = some x) (value : Holds t x first) (start : I t) :
    ∃ r u, (runtime W).Runs (addMode ctx params first) t r u ∧ Holds u (added xs) r ∧ I u ∧
      Keeps t u := by
  obtain ⟨c, known, shape⟩ := value
  obtain ⟨m, run, stays, kept⟩ := numbers_added held start 0
  obtain ⟨m', run', stays', kept'⟩ := strings_added held start []
  obtain ⟨r, u, made, result, last, kept₂⟩ := number_allocated (W := W) steady stays (0 + total xs)
  obtain ⟨r', u', made', result', last', kept₂'⟩ := string_allocated (W := W) steady stays'
    ([] ++ joined xs)
  have numbers : (runtime W).Runs (do
      let sum : Int ← call (.addNumbers ctx params 0)
      alloc (.mkNumber sum)) t r u := by
    rw [runs_after (runs_call (c := .addNumbers ctx params 0) run)]
    exact made
  have strings : (runtime W).Runs (do
      let s : CStr ← call (.addStrings ctx params [])
      mkStr s) t r' u' := by
    rw [runs_after (runs_call (c := .addStrings ctx params []) run')]
    exact made'
  rw [Int.zero_add] at result
  rw [List.nil_append] at result'
  rw [addMode]
  simp only [added, head, Option.any_some]
  have stringly : Holds u' (.string (joined xs)) r' ∧ I u' ∧ Keeps t u' :=
    ⟨result', last', keeps_trans kept' kept₂'⟩
  cases x with
  | number i =>
      refine ⟨r, u, ?_, result, last, keeps_trans kept kept₂⟩
      rw [runs_after (runs_type_of known), shape.1]
      exact numbers
  | string str =>
      refine ⟨r', u', ?_, stringly⟩
      rw [runs_after (runs_type_of known), shape.1]
      exact strings
  | bool b =>
      refine ⟨r', u', ?_, stringly⟩
      rw [runs_after (runs_type_of known), shape.1]
      exact strings
  | none =>
      refine ⟨r', u', ?_, stringly⟩
      rw [runs_after (runs_type_of known), shape.1]
      exact strings

end Loops

section Operator

variable {W : World} {ctx params : Ptr} {s t : State} {I : State → Prop}
  {operands : List (Nat × Ptr)} {xs : List Simple}

/-- What `bl_oper_add` does once the number of operands is checked. -/
def addChecked (ctx params : Ptr) : Prog Ptr := do
  let first ← evalFirst ctx params
  let t ← typeOf first
  if t = .cons then
    let n ← blListLen params
    if n = 1 then
      let second ← blListFirst first
      addMode ctx first second
    else addMode ctx params first
  else addMode ctx params first

/-- Up to the check the operands are collected. -/
theorem add_collects (disciplined : ∀ D, W.Disciplined D) (steady : Steady ctx s I)
    (held : Operands W ctx I params operands xs) (some_ : operands ≠ []) (start : I t) :
    ∃ checked m m', I m ∧ Keeps t m ∧ (checked = .null ↔ operands.length ≤ longestList) ∧
      (checked = .null → m' = m) ∧ (checked ≠ .null → m'.typeOf checked = some .error) ∧
      ∀ r u, (runtime W).Runs (blOperAdd ctx params) t r u ↔
        (runtime W).Runs (if checked ≠ .null then pure checked else addChecked ctx params) m' r u := by
  obtain ⟨operand, rest, rfl⟩ := List.exists_cons_of_ne_nil some_
  obtain ⟨x, ys, _, _, rfl⟩ := List.forall₂_cons_left_iff.1 held.gives
  obtain ⟨p, known, type, _⟩ := operands_cell held start
  obtain ⟨a, vs, m, evaluated, list, values, stays, kept⟩ :=
    operands_evaluated disciplined steady held some_ start
  obtain ⟨v, vs, value, later, rfl⟩ := List.forall₂_cons_left_iff.1 values
  have length : vs.length + 1 = (operand :: rest).length := by
    rw [operands_length held, List.length_cons, later.length_eq]
  obtain ⟨checked, m', check, passes, same, refused⟩ :=
    errif_invalid_len_runs (W := W) list (holds_filled value) 1 longestList
  rw [length] at passes
  have within : checked = .null ↔ (operand :: rest).length ≤ longestList :=
    passes.trans (and_iff_right (Nat.le_add_left 1 _))
  refine ⟨checked, m, m', stays, kept, within, same, refused, fun r u => ?_⟩
  obtain ⟨_, c, isRef, cellOf, kind, _⟩ := list
  rw [blOperAdd, runs_after (runs_type_of known), type, if_neg (by decide), runs_after evaluated,
    runs_after (runs_type_of cellOf), kind, if_neg (by decide), runs_after check]
  rfl

/-- Of a number of operands that fits `bl_oper_add` computes that value. -/
theorem add_computes (disciplined : ∀ D, W.Disciplined D) (steady : Steady ctx s I)
    (held : Operands W ctx I params operands xs) (some_ : operands ≠ [])
    (fits : operands.length ≤ longestList) : Computes W I (blOperAdd ctx params) (added xs) := by
  intro t start
  obtain ⟨checked, m, m', stays, kept, within, same, _, code⟩ :=
    add_collects disciplined steady held some_ start
  have valid := within.2 fits
  obtain rfl := same valid
  obtain ⟨operand, rest, rfl⟩ := List.exists_cons_of_ne_nil some_
  obtain ⟨x, ys, first, _, rfl⟩ := List.forall₂_cons_left_iff.1 held.gives
  obtain ⟨w, n, run, value, stays', kept'⟩ := first m' stays
  obtain ⟨r, u, mode, result, last, kept''⟩ := mode_added steady held rfl value stays'
  refine ⟨r, u, (code r u).2 ?_, result, last, keeps_trans kept (keeps_trans kept' kept'')⟩
  obtain ⟨d, known, shape⟩ := value
  have noList : d.type ≠ .cons := by cases x <;> simp_all
  rw [if_neg (fun other => other valid), addChecked,
    runs_after (eval_first_runs (operands_listed held stays) run), runs_after (runs_type_of known),
    if_neg noList]
  exact mode

theorem add_refuses (disciplined : ∀ D, W.Disciplined D) (steady : Steady ctx s I)
    (held : Operands W ctx I params operands xs) (some_ : operands ≠ [])
    (long : longestList < operands.length) (start : I t) :
    ∃ r u, (runtime W).Runs (blOperAdd ctx params) t r u ∧ u.typeOf r = some .error := by
  obtain ⟨checked, m, m', _, _, within, _, refused, code⟩ :=
    add_collects disciplined steady held some_ start
  have invalid : checked ≠ .null := fun valid => Nat.not_le.2 long (within.1 valid)
  refine ⟨checked, m', (code checked m').2 ?_, refused invalid⟩
  rw [if_pos invalid]
  exact runs_pure_self _ _

end Operator

section Calls

variable {W : World} {ctx expr : Ptr} {s s' : State} {n : Nat} {operands : List (Nat × Ptr)}
  {xs : List Simple}

theorem error_no_value {t : State} {p : Ptr} (isError : t.typeOf p = some .error) (x : Simple) :
    ¬ Holds t x p := by
  rintro ⟨c, known, shape⟩
  rw [State.typeOf, known, Option.map_some] at isError
  cases x <;> simp_all

/-- `(+ e₁ ... eₙ)` gives the documented value exactly when there are not too many operands,
and all values are numbers or the first is none. -/
theorem add_follows_modes_iff (disciplined : ∀ D, W.Disciplined D)
    (called : OperatorCall W .add ctx expr s n s') (some_ : operands ≠ [])
    (free : WithoutEffects W ctx s' (.ref n) operands xs) (site : Site) :
    ∃ v t, (runtime W).Runs (blEval site ctx expr) s v t ∧ (Holds t (sumOrText xs) v ↔
      operands.length ≤ longestList ∧
        ((∀ x ∈ xs, isNumber x = true) ∨ ∀ x ∈ xs.head?, isNumber x = false)) := by
  obtain ⟨I, start, steady, held⟩ := free
  by_cases fits : operands.length ≤ longestList
  · obtain ⟨r, u, run, result, _, _⟩ := add_computes disciplined steady held some_ fits s' start
    refine ⟨r, u, (operator_call_runs called site).2 ⟨r, run, (value_or_null result).symm⟩, ?_⟩
    have same : Holds u (sumOrText xs) r ↔ added xs = sumOrText xs :=
      ⟨fun documented => holds_unique result documented, fun same => same ▸ result⟩
    obtain ⟨operand, rest, rfl⟩ := List.exists_cons_of_ne_nil some_
    obtain ⟨x, ys, _, _, rfl⟩ := List.forall₂_cons_left_iff.1 held.gives
    rw [same, added_right_iff, and_iff_right fits]
    simp
  · obtain ⟨r, u, run, isError⟩ :=
      add_refuses disciplined steady held some_ (Nat.not_le.1 fits) start
    have filled : orNull r = r := by
      rw [orNull, if_neg]
      rintro rfl
      cases isError
    refine ⟨r, u, (operator_call_runs called site).2 ⟨r, run, filled.symm⟩, ?_⟩
    exact iff_of_false (error_no_value isError _) fun within => fits within.1

/-- A context in which `x` is 1, and the expressions `(+ x "a")` and `(+ "a" x)`. -/
def twoSums : State where
  cells := staticCells ++
    [{ type := .symbol, w0 := .str (text "+"), w1 := .ofNat 0 },
     { type := .symbol, w0 := .str (text "x"), w1 := .ofNat 1 },
     { type := .operNative, w0 := .code (.builtin .add) }, .mkNumber 1, .mkStr (text "a"),
     .mkCtx { Ctx.new 8 .null with
       keys := [.ref 7, .ref 8, .null, .null, .null, .null, .null, .null]
       vals := [.ref 9, .ref 10, .null, .null, .null, .null, .null, .null] },
     .mkCons (.ref 11) .null, .mkCons (.ref 8) (.ref 13), .mkCons (.ref 7) (.ref 14),
     .mkCons (.ref 8) .null, .mkCons (.ref 11) (.ref 16), .mkCons (.ref 7) (.ref 17)]
  symbolTable := [⟨text "x", 8⟩, ⟨text "+", 7⟩]
  lastSymId := 2

theorem sum_operands_free {t : State} (closed : Closed t) (away : Away [] t (.ref 12))
    {operands : List (Nat × Ptr)} {xs : List Simple} {params : Ptr}
    (cells : CellsAt t operands params) (values : List.Forall₂ (fun operand x =>
      Holds t x operand.2 ∨ ∃ v, Names t (.ref 12) operand.2 12 1 v ∧ Holds t x v) operands xs) :
    WithoutEffects World.bare (.ref 12) t params operands xs := by
  refine ⟨Unchanged t, unchanged_refl closed, steady_unchanged away,
    fun u same => cells_unchanged same cells, values.imp fun operand x value => ?_⟩
  rcases value with constant | ⟨v, named, held⟩
  · exact constant_gives constant
  · exact variable_gives named held

/-- `(+ "a" x)` gives `"a1"`. -/
theorem add_follows_modes_iff_text : ∃ v t,
    (runtime World.bare).Runs (blEval .operand (.ref 12) (.ref 18)) twoSums v t ∧
      (Holds t (sumOrText [.string (text "a"), .number 1]) v ↔
        2 ≤ longestList ∧ ((∀ x ∈ [Simple.string (text "a"), .number 1], isNumber x = true) ∨
          ∀ x ∈ [Simple.string (text "a"), .number 1].head?, isNumber x = false)) := by
  have called : ∃ s', OperatorCall World.bare .add (.ref 12) (.ref 18) twoSums 17 s' ∧ Closed s' ∧
      Away [] s' (.ref 12) ∧ CellsAt s' [(17, .ref 11), (16, .ref 8)] (.ref 17) ∧
      Holds s' (.string (text "a")) (.ref 11) ∧ Names s' (.ref 12) (.ref 8) 12 1 (.ref 10) ∧
      Holds s' (.number 1) (.ref 10) :=
    ⟨_, ⟨_, _, _, _, _, _, rfl, rfl, .symbol rfl rfl ⟨9, rfl⟩ (by decide), rfl, rfl, rfl, rfl, rfl,
      rfl, rfl⟩, closed_of_check (by decide) (by decide) (by decide),
      fun a same => ⟨by cases same; decide, List.not_mem_nil⟩, by decide, ⟨_, rfl, rfl, rfl, rfl⟩,
      .plain ⟨_, _, rfl, rfl, rfl, rfl, by decide, by decide⟩ (.here rfl rfl (by decide) rfl
        (by decide)), ⟨_, rfl, rfl, rfl⟩⟩
  obtain ⟨s', called, closed, away, cells, first, named, second⟩ := called
  exact add_follows_modes_iff bare_disciplined called (by simp) (sum_operands_free closed away cells
    (.cons (.inl first) (.cons (.inr ⟨_, named, second⟩) .nil))) .operand

/-- `(+ x "a")` gives 1. -/
theorem text_after_number_lost : ∃ s' v t,
    OperatorCall World.bare .add (.ref 12) (.ref 15) twoSums 14 s' ∧
      WithoutEffects World.bare (.ref 12) s' (.ref 14) [(14, .ref 8), (13, .ref 11)]
        [.number 1, .string (text "a")] ∧
      (runtime World.bare).Runs (blEval .operand (.ref 12) (.ref 15)) twoSums v t ∧
      Holds t (.number 1) v ∧
      sumOrText [.number 1, .string (text "a")] = .string (text "1a") ∧
      ¬ Holds t (sumOrText [.number 1, .string (text "a")]) v := by
  have called : ∃ s' v t, OperatorCall World.bare .add (.ref 12) (.ref 15) twoSums 14 s' ∧ Closed s' ∧
      Away [] s' (.ref 12) ∧ CellsAt s' [(14, .ref 8), (13, .ref 11)] (.ref 14) ∧
      Holds s' (.string (text "a")) (.ref 11) ∧ Names s' (.ref 12) (.ref 8) 12 1 (.ref 10) ∧
      Holds s' (.number 1) (.ref 10) ∧
      (runtime World.bare).Runs (blEval .operand (.ref 12) (.ref 15)) twoSums v t ∧
      Holds t (.number 1) v :=
    ⟨_, _, _, ⟨_, _, _, _, _, _, rfl, rfl, .symbol rfl rfl ⟨9, rfl⟩ (by decide), rfl, rfl, rfl, rfl,
      rfl, rfl, rfl⟩, closed_of_check (by decide) (by decide) (by decide),
      fun a same => ⟨by cases same; decide, List.not_mem_nil⟩, by decide, ⟨_, rfl, rfl, rfl, rfl⟩,
      .plain ⟨_, _, rfl, rfl, rfl, rfl, by decide, by decide⟩ (.here rfl rfl (by decide) rfl
        (by decide)), ⟨_, rfl, rfl, rfl⟩, ⟨20, rfl⟩, ⟨_, rfl, rfl, rfl⟩⟩
  obtain ⟨s', v, t, called, closed, away, cells, text_, named, one, run, value⟩ := called
  have documented : sumOrText [.number 1, .string (text "a")] = .string (text "1a") := by decide
  refine ⟨s', v, t, called, sum_operands_free closed away cells
    (.cons (.inr ⟨_, named, one⟩) (.cons (.inl text_) .nil)), run, value, documented, ?_⟩
  rw [documented]
  exact fun other => nomatch holds_unique value other

end Calls

end BearLang.AddModes
