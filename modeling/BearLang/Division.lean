import BearLang.AddModes
import BearLang.Conditionals

/-!
# Division and modulo

`bl_oper_div` rounds toward zero and checks its divisor; `bl_oper_mod` gives a remainder
that is never negative and checks nothing. The two belong together where both roundings
are the same.
-/

namespace BearLang.Division

open CallPrograms ArgumentBinding OperatorCalls EqualValues OperandEvaluation EffectFree AddModes

set_option autoImplicit false

/-- Rounding toward zero and rounding down are the same for dividends that are not
negative, and where nothing remains. -/
theorem roundings_agree_iff {a b : Int} (nonzero : b ≠ 0) :
    b * a.tdiv b + a % b = a ↔ 0 ≤ a ∨ b ∣ a := by
  have euclid := Int.mul_ediv_add_emod a b
  rw [Int.tdiv_eq_ediv]
  by_cases same : 0 ≤ a ∨ b ∣ a
  · rw [if_pos same, Int.add_zero]
    exact iff_of_true euclid same
  · refine iff_of_false ?_ same
    have off : b * b.sign ≠ 0 := by
      rw [Int.mul_sign_self]
      omega
    rw [if_neg same, Int.mul_add]
    omega

section Heads

variable {W : World} {ctx e : Ptr} {s t : State} {I : State → Prop} {x : Simple}

theorem value_not_called {v : Ptr} (held : Holds s x v) : ∃ c, s.cell v = some c ∧ ¬ Called c.type := by
  obtain ⟨c, known, shape⟩ := held
  refine ⟨c, known, ?_⟩
  cases x with
  | number i => rw [shape.1]; decide
  | string str => rw [shape.1]; decide
  | bool b => rw [shape.1]; decide
  | none => rw [shape.1]; decide

theorem gives_head (gives : Gives W ctx I e x) (filled : e ≠ .null) (start : I t) :
    ∃ v m c, HeadValue W ctx e t v m ∧ m.cell v = some c ∧ ¬ Called c.type ∧ I m ∧ Keeps t m := by
  obtain ⟨v, u, run, value, stays, kept⟩ := gives t start
  have inner := runs_eval.1 run
  rw [evalBody, if_neg filled] at inner
  have loop : (runtime W).Runs (evalLoopBody ctx e) t v u := (runs_call_iff (c := .evalLoop ctx e)).1 inner
  rw [evalLoopBody, if_neg filled] at loop
  obtain ⟨c, known, loop⟩ := runs_load_iff.1 loop
  by_cases isSymbol : c.type = .symbol
  · simp only [isSymbol] at loop
    obtain ⟨w, m, found, loop⟩ := runs_bind.1 loop
    by_cases unbound : w = .null
    · rw [if_pos unbound] at loop
      obtain ⟨name, _, loop⟩ := runs_member_iff.1 loop
      obtain ⟨rfl, rfl⟩ := runs_functional loop (runs_alloc _ m)
      obtain ⟨d, held, shape⟩ := value
      rw [State.cell_allocated_new] at held
      cases held
      cases x <;> cases shape.1
    · rw [if_neg unbound] at loop
      obtain ⟨rfl, rfl⟩ := runs_pure.1 loop
      obtain ⟨d, held, plain⟩ := value_not_called value
      exact ⟨w, m, d, .symbol known isSymbol found unbound, held, plain, stays, kept⟩
  · refine ⟨e, t, c, .other known isSymbol, known, ?_, start, keeps_refl t⟩
    by_cases isCons : c.type = .cons
    · rw [isCons]
      decide
    · have itself : (runtime W).Runs (blEval .operand ctx e) t e t :=
        eval_site (Conditionals.eval_other known isSymbol isCons)
      obtain ⟨rfl, rfl⟩ := runs_functional run itself
      obtain ⟨d, held, plain⟩ := value_not_called value
      rw [known] at held
      cases held
      exact plain

theorem list_evaluated (disciplined : ∀ D, W.Disciplined D) (steady : Steady ctx s I) {params : Ptr}
    {operand : Nat × Ptr} {operands : List (Nat × Ptr)} {xs : List Simple}
    (held : Operands W ctx I params (operand :: operands) xs) (filled : operand.2 ≠ .null)
    (start : I t) : ∃ a vs u, (runtime W).Runs (blEval .operand ctx params) t (.ref a) u ∧
      ListAt u vs (.ref a) ∧ List.Forall₂ (Holds u) xs vs ∧ I u ∧ Keeps t u := by
  obtain ⟨x, ys, first, _, rfl⟩ := List.forall₂_cons_left_iff.1 held.gives
  obtain ⟨c, known, type, car, _⟩ := operands_cell held start
  obtain ⟨v, m, d, head, held', plain, stays, kept⟩ := gives_head first filled start
  obtain ⟨a, vs, u, collected, list, values, stays', kept'⟩ :=
    operands_evaluated disciplined steady held (by simp) stays
  refine ⟨a, vs, u, ?_, list, values, stays', keeps_trans kept kept'⟩
  rw [← car] at head
  exact (eval_runs_apply .operand known type head).2
    (apply_evaluates_list held' plain collected (by simp))

end Heads

section Operators

variable {W : World} {ctx params : Ptr} {s t : State} {I : State → Prop}
  {operands : List (Nat × Ptr)} {a b : Int}

theorem pair_of_values {vs : List Ptr} {x y : Simple} (values : List.Forall₂ (Holds s) [x, y] vs) :
    ∃ v w, vs = [v, w] ∧ Holds s x v ∧ Holds s y w := by
  obtain ⟨v, vs, first, later, rfl⟩ := List.forall₂_cons_left_iff.1 values
  obtain ⟨w, vs, second, none_, rfl⟩ := List.forall₂_cons_left_iff.1 later
  obtain rfl := List.forall₂_nil_left_iff.1 none_
  exact ⟨v, w, rfl, first, second⟩

theorem numbers_checked {v w L : Ptr} (list : ListAt s [v, w] L) (first : Holds s (.number a) v)
    (second : Holds s (.number b) w) :
    (runtime W).Runs (blErrifInvalidFixedArgs L [.number, .number]) s .null s := by
  obtain ⟨c, known, type, _⟩ := first
  obtain ⟨d, known', type', _⟩ := second
  exact fixed_pair_checked list known type known' type' (by decide) (by decide)

theorem first_value_runs {v : Ptr} {vs : List Ptr} {L : Ptr} {x : Simple}
    (list : ListAt s (v :: vs) L) (value : Holds s x v) :
    (runtime W).Runs (evalFirstValue ctx L) s v s := by
  rw [evalFirstValue, runs_after (list_first_runs list)]
  exact eval_value_runs value

theorem second_value_runs {v w : Ptr} {vs : List Ptr} {L : Ptr} {x : Simple}
    (list : ListAt s (v :: w :: vs) L) (value : Holds s x w) :
    (runtime W).Runs (evalSecondValue ctx L) s w s := by
  rw [evalSecondValue, runs_after (list_second_runs list)]
  exact eval_value_runs value

theorem div_reads (disciplined : ∀ D, W.Disciplined D) (steady : Steady ctx s I)
    (held : Operands W ctx I params operands [.number a, .number b]) (start : I t) :
    ∃ m, I m ∧ Keeps t m ∧ ∀ r u, (runtime W).Runs (blOperDiv ctx params) t r u ↔
      (runtime W).Runs (if b = 0 then blErrDivzero else alloc (.mkNumber (a.tdiv b))) m r u := by
  have some_ : operands ≠ [] := fun none_ => by
    have length := operands_length held
    rw [none_] at length
    cases length
  obtain ⟨L, vs, m, evaluated, list, values, stays, kept⟩ :=
    operands_evaluated disciplined steady held some_ start
  obtain ⟨v, w, rfl, first, second⟩ := pair_of_values values
  refine ⟨m, stays, kept, fun r u => ?_⟩
  rw [blOperDiv, runs_after evaluated, runs_after (numbers_checked list first second),
    if_neg (by simp), runs_after (first_value_runs list first),
    runs_after (second_value_runs list second), runs_after (int_of_value second)]
  by_cases zero : b = 0
  · rw [if_pos (show (Simple.number b).view = 0 from zero), if_pos zero]
  · rw [if_neg (show ¬ (Simple.number b).view = 0 from zero), if_neg zero,
      runs_after (int_of_value first)]
    rfl

theorem div_computes (disciplined : ∀ D, W.Disciplined D) (steady : Steady ctx s I)
    (held : Operands W ctx I params operands [.number a, .number b]) (nonzero : b ≠ 0) :
    Computes W I (blOperDiv ctx params) (.number (a.tdiv b)) := by
  intro t start
  obtain ⟨m, stays, kept, code⟩ := div_reads disciplined steady held start
  obtain ⟨r, u, made, value, last, kept'⟩ := number_allocated (W := W) steady stays (a.tdiv b)
  refine ⟨r, u, (code r u).2 ?_, value, last, keeps_trans kept kept'⟩
  rw [if_neg nonzero]
  exact made

theorem mult_computes (disciplined : ∀ D, W.Disciplined D) (steady : Steady ctx s I)
    {operand : Nat × Ptr} (held : Operands W ctx I params (operand :: operands) [.number a, .number b])
    (filled : operand.2 ≠ .null) : Computes W I (blOperMult ctx params) (.number (a * b)) := by
  intro t start
  obtain ⟨L, vs, m, evaluated, list, values, stays, kept⟩ :=
    list_evaluated disciplined steady held filled start
  obtain ⟨v, w, rfl, first, second⟩ := pair_of_values values
  obtain ⟨r, u, made, value, last, kept'⟩ := number_allocated (W := W) steady stays (a * b)
  refine ⟨r, u, ?_, value, last, keeps_trans kept kept'⟩
  rw [blOperMult, runs_after evaluated, runs_after (numbers_checked list first second),
    if_neg (by simp), runs_after (first_value_runs list first),
    runs_after (second_value_runs list second), runs_after (int_of_value first),
    runs_after (int_of_value second)]
  exact made

theorem mod_reads (held : Operands W ctx I params operands [.number a, .number b]) (start : I t) :
    ∃ m, I m ∧ Keeps t m ∧ ∀ r u, (runtime W).Runs (blOperMod ctx params) t r u ↔
      (runtime W).Runs (if b = 0 then trap else alloc (.mkNumber (a % b))) m r u := by
  obtain ⟨operand, rest, first, later, rfl⟩ := List.forall₂_cons_right_iff.1 held.gives
  obtain ⟨operand', rest', second, none_, rfl⟩ := List.forall₂_cons_right_iff.1 later
  obtain ⟨v, m, run, value, stays, kept⟩ := first t start
  obtain ⟨w, n, run', value', stays', kept'⟩ := second m stays
  refine ⟨n, stays', keeps_trans kept kept', fun r u => ?_⟩
  rw [blOperMod, runs_after (eval_first_runs (operands_listed held start) run),
    runs_after (eval_second_runs (operands_listed held stays) run'),
    runs_after (int_of_value (kept' _ _ value)), runs_after (int_of_value value')]
  rfl

theorem mod_computes (steady : Steady ctx s I)
    (held : Operands W ctx I params operands [.number a, .number b]) (nonzero : b ≠ 0) :
    Computes W I (blOperMod ctx params) (.number (a % b)) := by
  intro t start
  obtain ⟨m, stays, kept, code⟩ := mod_reads held start
  obtain ⟨r, u, made, value, last, kept'⟩ := number_allocated (W := W) steady stays (a % b)
  refine ⟨r, u, (code r u).2 ?_, value, last, keeps_trans kept kept'⟩
  rw [if_neg nonzero]
  exact made

theorem div_zero_refused (disciplined : ∀ D, W.Disciplined D) (steady : Steady ctx s I)
    (held : Operands W ctx I params operands [.number a, .number 0]) (start : I t) :
    ∃ r u c, (runtime W).Runs (blOperDiv ctx params) t r u ∧ u.cell r = some c ∧ c.type = .error ∧
      c.errType = some ErrType.divideByZero.code := by
  obtain ⟨m, _, _, code⟩ := div_reads disciplined steady held start
  have made : (runtime W).Runs (blOperDiv ctx params) t (.ref m.fresh)
      (m.allocated (.mkErr .divideByZero 0 {})) := by
    rw [code, if_pos rfl]
    exact runs_alloc _ m
  exact ⟨_, _, _, made, State.cell_allocated_new m _, rfl, rfl⟩

/-- Modulo zero the process ends. -/
theorem mod_zero_stops (held : Operands W ctx I params operands [.number a, .number 0]) (start : I t)
    {r : Ptr} {u : State} : ¬ (runtime W).Runs (blOperMod ctx params) t r u := by
  intro run
  obtain ⟨m, _, _, code⟩ := mod_reads held start
  have trapped := (code r u).1 run
  rw [if_pos rfl] at trapped
  obtain ⟨answer, _⟩ := runs_perform.1 trapped
  exact nomatch answer

end Operators

section Law

variable {W : World} {ctx : Ptr} {s : State} {I : State → Prop} {a b : Int}

/-- In all these states the expression is the call of an operator with two operands. -/
def PairCall (W : World) (ctx : Ptr) (I : State → Prop) (op : Builtin) (e₁ e₂ expr : Ptr) : Prop :=
  ∃ n k, Calls W ctx I op expr n ∧ ∀ t, I t → CellsAt t [(n, e₁), (k, e₂)] (.ref n)

/-- `quotient` is `(/ a b)`, `remainder` is `(% a b)`, and `whole` is
`(+ (* b (/ a b)) (% a b))`, where the operands are effect-free expressions for `a` and
`b`. -/
structure Expressions (W : World) (ctx : Ptr) (s : State) (I : State → Prop) (a b : Int)
    (quotient remainder whole : Ptr) : Prop where
  start : I s
  steady : Steady ctx s I
  parts : ∃ dividend divisor product, divisor ≠ .null ∧ Gives W ctx I dividend (.number a) ∧
    Gives W ctx I divisor (.number b) ∧ PairCall W ctx I .div dividend divisor quotient ∧
    PairCall W ctx I .mod dividend divisor remainder ∧
    PairCall W ctx I .mult divisor quotient product ∧ PairCall W ctx I .add product remainder whole

def IsNumber (W : World) (ctx : Ptr) (s : State) (expr : Ptr) (i : Int) : Prop :=
  ∃ v t, (runtime W).Runs (blEval .operand ctx expr) s v t ∧ Holds t (.number i) v

def IsError (W : World) (ctx : Ptr) (s : State) (expr : Ptr) (kind : ErrType) : Prop :=
  ∃ v t c, (runtime W).Runs (blEval .operand ctx expr) s v t ∧ t.cell v = some c ∧
    c.type = .error ∧ c.errType = some kind.code

structure DivisionLaw (W : World) (ctx : Ptr) (s : State) (a b : Int)
    (quotient remainder whole : Ptr) : Prop where
  restores : b ≠ 0 → IsNumber W ctx s whole a
  bounded : b ≠ 0 → ∃ r, IsNumber W ctx s remainder r ∧ r.natAbs < b.natAbs
  divideByZero : b = 0 → IsError W ctx s quotient .divideByZero ∧
    IsError W ctx s remainder .divideByZero

theorem is_number_unique {expr : Ptr} {i j : Int} (first : IsNumber W ctx s expr i)
    (second : IsNumber W ctx s expr j) : i = j := by
  obtain ⟨v, t, run, value⟩ := first
  obtain ⟨w, u, run', value'⟩ := second
  obtain ⟨rfl, rfl⟩ := runs_functional run run'
  exact Simple.number.inj (holds_unique value value')

theorem is_number_of_gives {expr : Ptr} {i : Int} (gives : Gives W ctx I expr (.number i))
    (start : I s) : IsNumber W ctx s expr i := by
  obtain ⟨v, t, run, value, _⟩ := gives s start
  exact ⟨v, t, run, value⟩

theorem pair_operands {n k : Nat} {e₁ e₂ : Ptr} {x y : Simple}
    (cells : ∀ t, I t → CellsAt t [(n, e₁), (k, e₂)] (.ref n)) (first : Gives W ctx I e₁ x)
    (second : Gives W ctx I e₂ y) :
    Operands W ctx I (.ref n) [(n, e₁), (k, e₂)] [x, y] :=
  ⟨cells, .cons first (.cons second .nil)⟩

/-- The law holds exactly for divisors other than zero, and for dividends that are not
negative or are divided evenly. -/
theorem division_law_iff (disciplined : ∀ D, W.Disciplined D) {quotient remainder whole : Ptr}
    (expressions : Expressions W ctx s I a b quotient remainder whole) :
    DivisionLaw W ctx s a b quotient remainder whole ↔ b ≠ 0 ∧ (0 ≤ a ∨ b ∣ a) := by
  obtain ⟨start, steady, dividend, divisor, product, there, isDividend, isDivisor, ⟨n, k, divides, cells⟩,
    ⟨n', k', modulo, cells'⟩, ⟨n'', k'', multiplies, cells''⟩, ⟨m, l, adds, cellsSum⟩⟩ := expressions
  have remainderOperands := pair_operands cells' isDividend isDivisor
  by_cases zero : b = 0
  · subst zero
    refine iff_of_false (fun law => ?_) fun condition => condition.1 rfl
    obtain ⟨_, v, t, c, run, _⟩ := law.divideByZero rfl
    obtain ⟨s', called, begun, _⟩ := modulo s start
    obtain ⟨r, run, _⟩ := (operator_call_runs called .operand).1 run
    exact mod_zero_stops remainderOperands begun run
  · have givesQuotient := gives_call divides
      (div_computes disciplined steady (pair_operands cells isDividend isDivisor) zero)
    have givesRemainder := gives_call modulo (mod_computes steady remainderOperands zero)
    have givesProduct := gives_call multiplies
      (mult_computes disciplined steady (pair_operands cells'' isDivisor givesQuotient) there)
    have givesWhole := gives_call adds
      (add_computes disciplined steady (pair_operands cellsSum givesProduct givesRemainder) (by simp)
        (by simp [longestList]))
    have sum : added [.number (b * a.tdiv b), .number (a % b)] =
        .number (b * a.tdiv b + a % b) := by
      simp [added, isNumber, total, Simple.view]
    rw [sum] at givesWhole
    have restored := is_number_of_gives givesWhole start
    rw [← roundings_agree_iff zero, and_iff_right zero]
    constructor
    · intro law
      exact is_number_unique restored (law.restores zero)
    · intro same
      rw [same] at restored
      refine ⟨fun _ => restored, fun _ => ⟨_, is_number_of_gives givesRemainder start, ?_⟩,
        fun isZero => absurd isZero zero⟩
      have below := Int.emod_lt a zero
      have least := Int.emod_nonneg a zero
      omega

/-- `(/ a b)`, `(% a b)` and `(+ (* b (/ a b)) (% a b))`. -/
def divisions (a b : Int) : State where
  cells := staticCells ++
    [{ type := .symbol, w0 := .str (text "/"), w1 := .ofNat 0 },
     { type := .symbol, w0 := .str (text "%"), w1 := .ofNat 1 },
     { type := .symbol, w0 := .str (text "*"), w1 := .ofNat 2 },
     { type := .symbol, w0 := .str (text "+"), w1 := .ofNat 3 },
     { type := .operNative, w0 := .code (.builtin .div) },
     { type := .operNative, w0 := .code (.builtin .mod) },
     { type := .operNative, w0 := .code (.builtin .mult) },
     { type := .operNative, w0 := .code (.builtin .add) }, .mkNumber a, .mkNumber b,
     .mkCtx { Ctx.new 8 .null with
       keys := [.ref 7, .ref 8, .ref 9, .ref 10, .null, .null, .null, .null]
       vals := [.ref 11, .ref 12, .ref 13, .ref 14, .null, .null, .null, .null] },
     .mkCons (.ref 16) .null, .mkCons (.ref 15) (.ref 18), .mkCons (.ref 7) (.ref 19),
     .mkCons (.ref 16) .null, .mkCons (.ref 15) (.ref 21), .mkCons (.ref 8) (.ref 22),
     .mkCons (.ref 20) .null, .mkCons (.ref 16) (.ref 24), .mkCons (.ref 9) (.ref 25),
     .mkCons (.ref 23) .null, .mkCons (.ref 26) (.ref 27), .mkCons (.ref 10) (.ref 28)]
  symbolTable := [⟨text "+", 10⟩, ⟨text "*", 9⟩, ⟨text "%", 8⟩, ⟨text "/", 7⟩]
  lastSymId := 4

theorem divisions_expressions (closed : Closed (divisions a b)) :
    Expressions World.bare (.ref 17) (divisions a b) (Unchanged (divisions a b)) a b (.ref 20)
      (.ref 23) (.ref 29) where
  start := unchanged_refl closed
  steady := steady_unchanged fun a same => by
    cases same
    exact ⟨Nat.lt_of_sub_eq_succ rfl, List.not_mem_nil⟩
  parts := by
    have named {key : Ptr} {id : Nat} {v : Ptr} (symbol : PlainSymbol (divisions a b) key id)
        (inside : id < 8) (slot : ([Ptr.ref 11, .ref 12, .ref 13, .ref 14, .null, .null, .null,
          .null] : List Ptr)[id]? = some v) (filled : v ≠ .null) :
        Names (divisions a b) (.ref 17) key 17 id v :=
      .plain symbol (.here rfl rfl inside slot filled)
    have cellsAt {operands : List (Nat × Ptr)} {p : Ptr} (cells : CellsAt (divisions a b) operands p) :
        ∀ t, Unchanged (divisions a b) t → CellsAt t operands p :=
      fun t same => cells_unchanged same cells
    have quotient : CellsAt (divisions a b) [(19, .ref 15), (18, .ref 16)] (.ref 19) :=
      ⟨rfl, _, rfl, rfl, rfl, rfl, _, rfl, rfl, rfl, rfl⟩
    have remainder : CellsAt (divisions a b) [(22, .ref 15), (21, .ref 16)] (.ref 22) :=
      ⟨rfl, _, rfl, rfl, rfl, rfl, _, rfl, rfl, rfl, rfl⟩
    have product : CellsAt (divisions a b) [(25, .ref 16), (24, .ref 20)] (.ref 25) :=
      ⟨rfl, _, rfl, rfl, rfl, rfl, _, rfl, rfl, rfl, rfl⟩
    have sum : CellsAt (divisions a b) [(28, .ref 26), (27, .ref 23)] (.ref 28) :=
      ⟨rfl, _, rfl, rfl, rfl, rfl, _, rfl, rfl, rfl, rfl⟩
    refine ⟨.ref 15, .ref 16, .ref 26, by simp, constant_gives ⟨_, rfl, rfl, rfl⟩,
      constant_gives ⟨_, rfl, rfl, rfl⟩, ⟨19, 18, ?_, cellsAt quotient⟩,
      ⟨22, 21, ?_, cellsAt remainder⟩, ⟨25, 24, ?_, cellsAt product⟩, ⟨28, 27, ?_, cellsAt sum⟩⟩
    · exact unchanged_calls rfl rfl rfl quotient (named ⟨_, _, rfl, rfl, rfl, rfl, by decide, by decide⟩
        (by decide) rfl (by decide)) rfl rfl rfl
    · exact unchanged_calls rfl rfl rfl remainder (named ⟨_, _, rfl, rfl, rfl, rfl, by decide, by decide⟩
        (by decide) rfl (by decide)) rfl rfl rfl
    · exact unchanged_calls rfl rfl rfl product (named ⟨_, _, rfl, rfl, rfl, rfl, by decide, by decide⟩
        (by decide) rfl (by decide)) rfl rfl rfl
    · exact unchanged_calls rfl rfl rfl sum (named ⟨_, _, rfl, rfl, rfl, rfl, by decide, by decide⟩
        (by decide) rfl (by decide)) rfl rfl rfl

/-- 7 and 2. -/
theorem division_law_iff_positive :
    DivisionLaw World.bare (.ref 17) (divisions 7 2) 7 2 (.ref 20) (.ref 23) (.ref 29) ↔
      (2 : Int) ≠ 0 ∧ (0 ≤ (7 : Int) ∨ (2 : Int) ∣ 7) :=
  division_law_iff bare_disciplined
    (divisions_expressions (closed_of_check (by decide) (by decide) (by decide)))

/-- `(+ (* 2 (/ -7 2)) (% -7 2))` is -5. -/
theorem negative_dividend_lost :
    Expressions World.bare (.ref 17) (divisions (-7) 2) (Unchanged (divisions (-7) 2)) (-7) 2
      (.ref 20) (.ref 23) (.ref 29) ∧
    IsNumber World.bare (.ref 17) (divisions (-7) 2) (.ref 29) (-5) ∧
    ¬ DivisionLaw World.bare (.ref 17) (divisions (-7) 2) (-7) 2 (.ref 20) (.ref 23) (.ref 29) := by
  have gives : IsNumber World.bare (.ref 17) (divisions (-7) 2) (.ref 29) (-5) :=
    ⟨_, _, ⟨30, rfl⟩, _, rfl, rfl, rfl⟩
  refine ⟨divisions_expressions (closed_of_check (by decide) (by decide) (by decide)), gives,
    fun law => ?_⟩
  have wrong := is_number_unique gives (law.restores (by decide))
  exact absurd wrong (by decide)

end Law

end BearLang.Division
