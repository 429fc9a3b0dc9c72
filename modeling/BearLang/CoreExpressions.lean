import BearLang.CoreLanguage

/-!
# Evaluating expressions of the core

Every expression that has a value is evaluated to it, and its evaluation changes
nothing that was there. Two of the operators evaluate their operand list as an
expression of its own; this comes to the same, since no value of the core is
called.
-/

namespace BearLang.CoreLanguage

open CallPrograms ContextRefinement EqualValues OperandEvaluation OperatorCalls EffectFree AddModes
  Division

set_option autoImplicit false

section Representation

variable {s t : State} {ctx p : Ptr} {vars : Nat → Prop}

/-- The words of the cells that were there are as they were, what is behind the
words but in the context itself, and what is found under a name that is no
variable. -/
structure Retains (ctx : Ptr) (vars : Nat → Prop) (s t : State) : Prop where
  words : KeepsWords s t
  tails : ∀ q c, q ≠ ctx → s.cell q = some c → ∃ d, t.cell q = some d ∧ d.tail = c.tail
  finds : ∀ (id : Nat) (q : Ptr) (m : Nat) (v : Ptr), ¬ vars id → Finds s id q m v → Finds t id q m v

/-- Every cell is as it was, but for what is noted in it about calls and lines. -/
def SameContents (s t : State) : Prop :=
  ∀ p c, s.cell p = some c → ∃ d, t.cell p = some d ∧ d.type = c.type ∧ d.w0 = c.w0 ∧
    d.w1 = c.w1 ∧ d.tail = c.tail

theorem retains_refl (s : State) : Retains ctx vars s s where
  words _ c known := ⟨c, known, rfl, rfl, rfl⟩
  tails _ c _ known := ⟨c, known, rfl⟩
  finds _ _ _ _ _ found := found

theorem retains_trans {u : State} (first : Retains ctx vars s t)
    (second : Retains ctx vars t u) : Retains ctx vars s u where
  words p c known := by
    obtain ⟨d, found, type, word, word'⟩ := first.words p c known
    obtain ⟨e, found', type', again, again'⟩ := second.words p d found
    exact ⟨e, found', type'.trans type, again.trans word, again'.trans word'⟩
  tails q c other known := by
    obtain ⟨d, found, tail⟩ := first.tails q c other known
    obtain ⟨e, found', tail'⟩ := second.tails q d other found
    exact ⟨e, found', tail'.trans tail⟩
  finds id q m v outside found := second.finds id q m v outside (first.finds id q m v outside found)

theorem contexts_kept (same : SameContents s t) (q : Ptr) (c : Ctx) (known : ctxAt s q = some c) :
    ctxAt t q = some c := by
  obtain ⟨cell, held, member⟩ := Option.bind_eq_some_iff.1 known
  obtain ⟨d, held', _, _, _, tail⟩ := same q cell held
  apply Option.bind_eq_some_iff.2
  refine ⟨d, held', ?_⟩
  rwa [Cell.asCtx, tail]

theorem retains_contents (same : SameContents s t) : Retains ctx vars s t where
  words p c known := by
    obtain ⟨d, found, type, word, word', _⟩ := same p c known
    exact ⟨d, found, type, word, word'⟩
  tails q c _ known := by
    obtain ⟨d, found, _, _, _, tail⟩ := same q c known
    exact ⟨d, found, tail⟩
  finds id q m v _ found := finds_kept (contexts_kept same) found

theorem retains_unchanged (same : Unchanged s t) : Retains ctx vars s t := retains_contents same.cells

theorem keeps_retained (kept : Retains ctx vars s t) : Keeps s t := by
  rintro x q ⟨c, known, shape⟩
  obtain ⟨d, found, type, word, word'⟩ := kept.words q c known
  refine ⟨d, found, ?_⟩
  cases x <;> simp only [Cell.iVal, Cell.sVal, Cell.bVal, Cell.car, type, word, word'] at shape ⊢ <;>
    exact shape

theorem keeps_contents (same : SameContents s t) : Keeps s t := by
  have kept : Retains .null (fun _ => False) s t := retains_contents same
  exact keeps_retained kept

theorem symbol_kept (kept : Retains ctx vars s t) {key : Ptr} {id : Nat} (named : PlainSymbol s key id) :
    PlainSymbol t key id :=
  plain_symbol_kept (fun q c known _ => kept.words q c known) named

theorem cells_kept (kept : Retains ctx vars s t) {items : List (Nat × Ptr)} (cells : CellsAt s items p) :
    CellsAt t items p := by
  induction items generalizing p with
  | nil => exact cells
  | cons item items ih =>
      obtain ⟨isRef, c, known, type, car, later⟩ := cells
      obtain ⟨d, found, type', word, word'⟩ := kept.words p c known
      refine ⟨isRef, d, found, type'.trans type, ?_, ?_⟩
      · rw [Cell.car, word]
        exact car
      · rw [Cell.cdr, word']
        exact ih later

theorem operator_head_kept (kept : Retains ctx vars s t) (b : Builtin) {key : Ptr}
    (head : OperatorHead s ctx vars b key) : OperatorHead t ctx vars b key := by
  obtain ⟨id, m, v, op, named, outside, found, known, native, points⟩ := head
  obtain ⟨d, known', type, word, _⟩ := kept.words v op known
  refine ⟨id, m, v, d, symbol_kept kept named, outside, kept.finds id ctx m v outside found, known',
    type.trans native, ?_⟩
  rw [Cell.codePtr, word]
  exact points

theorem form_head_kept (kept : Retains ctx vars s t) (kind : ValType) {key : Ptr}
    (head : FormHead s kind key) : FormHead t kind key := by
  obtain ⟨c, known, isForm⟩ := Option.map_eq_some_iff.1 head
  obtain ⟨d, found, type', _⟩ := kept.words key c known
  exact Option.map_eq_some_iff.2 ⟨d, found, type'.trans isForm⟩

theorem call_kept (kept : Retains ctx vars s t) {head head' : Ptr → Prop}
    (stays : ∀ {key}, head key → head' key) {n : Nat} (call : CallAt s head p n) :
    CallAt t head' p n := by
  obtain ⟨c, known, type, cdr, first⟩ := call
  obtain ⟨d, known', type', word, word'⟩ := kept.words p c known
  refine ⟨d, known', type'.trans type, ?_, ?_⟩
  · rw [Cell.cdr, word']
    exact cdr
  · have car : d.car = c.car := by rw [Cell.car, word]; rfl
    rw [car]
    exact stays first

theorem expr_kept (kept : Retains ctx vars s t) {e : Expr} (code : ExprAt s ctx vars e p) :
    ExprAt t ctx vars e p := by
  induction e generalizing p with
  | const x => exact keeps_retained kept x p code
  | var x => exact ⟨symbol_kept kept code.1, code.2⟩
  | call op left right ih ih' =>
      obtain ⟨n, k, q, r, call, cells, one, other⟩ := code
      exact ⟨n, k, q, r, call_kept kept (operator_head_kept kept _) call, cells_kept kept cells, ih one,
        ih' other⟩
  | negate e ih =>
      obtain ⟨n, q, call, cells, one⟩ := code
      exact ⟨n, q, call_kept kept (operator_head_kept kept _) call, cells_kept kept cells, ih one⟩

theorem expr_filled {e : Expr} (code : ExprAt s ctx vars e p) : p ≠ .null := by
  cases e with
  | const x => exact holds_filled code
  | var x =>
      obtain ⟨⟨c, _, known, _⟩, _⟩ := code
      exact cell_ne_null known
  | call op left right =>
      obtain ⟨_, _, _, _, ⟨c, known, _⟩, _⟩ := code
      exact cell_ne_null known
  | negate e =>
      obtain ⟨_, _, ⟨c, known, _⟩, _⟩ := code
      exact cell_ne_null known

end Representation

section Operators

variable {W : World} {ctx params : Ptr} {s t : State} {I : State → Prop} {x y z : Simple}
  {operands : List (Nat × Ptr)} {a b : Int}

/-- The operands of an operator that evaluates them one after the other. -/
theorem pair_evaluated {next : Ptr → Ptr → Prog Ptr}
    (held : Operands W ctx I params operands [x, y]) (start : I t) :
    ∃ v w m, I m ∧ Keeps t m ∧ Holds m x v ∧ Holds m y w ∧ ∀ r u,
      (runtime W).Runs (do
        let first ← evalFirst ctx params
        let second ← evalSecond ctx params
        next first second) t r u ↔ (runtime W).Runs (next v w) m r u := by
  obtain ⟨operand, rest, first, later, rfl⟩ := List.forall₂_cons_right_iff.1 held.gives
  obtain ⟨operand', rest', second, none_, rfl⟩ := List.forall₂_cons_right_iff.1 later
  obtain ⟨v, m, run, value, stays, kept⟩ := first t start
  obtain ⟨w, n, run', value', stays', kept'⟩ := second m stays
  refine ⟨v, w, n, stays', keeps_trans kept kept', kept' _ _ value, value', ?_⟩
  intro r u
  rw [runs_after (eval_first_runs (operands_listed held start) run),
    runs_after (eval_second_runs (operands_listed held stays) run')]

structure Statics (I : State → Prop) : Prop where
  true_ : ∀ t, I t → Holds t (.bool true) trueVal
  false_ : ∀ t, I t → Holds t (.bool false) falseVal

theorem bool_held (statics : Statics I) (start : I t) (c : Bool) : Holds t (.bool c) (blMkBool c) := by
  cases c with
  | true => exact statics.true_ t start
  | false => exact statics.false_ t start

theorem bool_of_value {c : Bool} {p : Ptr} (held : Holds s (.bool c) p) :
    (runtime W).Runs (boolOf p) s c s := by
  obtain ⟨cell, known, _, value, _⟩ := held
  rw [boolOf, runs_after (runs_load known)]
  exact runs_member value s

theorem compare_computes (statics : Statics I) (compare : Int → Int → Bool) {code : Prog Ptr}
    (is : code = do
      let first ← evalFirst ctx params
      let second ← evalSecond ctx params
      let i ← intOf first
      let j ← intOf second
      pure (blMkBool (compare i j)))
    (held : Operands W ctx I params operands [.number a, .number b]) :
    Computes W I code (.bool (compare a b)) := by
  intro t start
  obtain ⟨v, w, m, stays, kept, first, second, runs⟩ := pair_evaluated held start
  refine ⟨blMkBool (compare a b), m, ?_, bool_held statics stays _, stays, kept⟩
  rw [is, runs, runs_after (int_of_value first), runs_after (int_of_value second)]
  exact runs_pure_self _ m

theorem eq_computes (statics : Statics I) (held : Operands W ctx I params operands [x, y]) :
    Computes W I (blOperEq ctx params) (.bool (x.alike y)) := by
  intro t start
  obtain ⟨v, w, m, stays, kept, first, second, runs⟩ := pair_evaluated held start
  refine ⟨blMkBool (x.alike y), m, ?_, bool_held statics stays _, stays, kept⟩
  rw [oper_eq_values, runs]
  exact eq_values_run first second

theorem and_computes (statics : Statics I) {c d : Bool}
    (held : Operands W ctx I params operands [.bool c, .bool d]) :
    Computes W I (blOperAnd ctx params) (.bool (c && d)) := by
  intro t start
  obtain ⟨v, w, m, stays, kept, first, second, runs⟩ := pair_evaluated held start
  refine ⟨blMkBool (c && d), m, ?_, bool_held statics stays _, stays, kept⟩
  rw [blOperAnd, runs, runs_after (bool_of_value first)]
  cases c with
  | true =>
      rw [if_pos rfl, runs_after (bool_of_value second)]
      exact runs_pure_self _ m
  | false =>
      rw [if_neg Bool.false_ne_true]
      exact runs_pure_self _ m

theorem or_computes (statics : Statics I) {c d : Bool}
    (held : Operands W ctx I params operands [.bool c, .bool d]) :
    Computes W I (blOperOr ctx params) (.bool (c || d)) := by
  intro t start
  obtain ⟨v, w, m, stays, kept, first, second, runs⟩ := pair_evaluated held start
  refine ⟨blMkBool (c || d), m, ?_, bool_held statics stays _, stays, kept⟩
  rw [blOperOr, runs, runs_after (bool_of_value first)]
  cases c with
  | true =>
      rw [if_pos rfl]
      exact runs_pure_self _ m
  | false =>
      rw [if_neg Bool.false_ne_true, runs_after (bool_of_value second)]
      exact runs_pure_self _ m

theorem xor_computes (statics : Statics I) {c d : Bool}
    (held : Operands W ctx I params operands [.bool c, .bool d]) :
    Computes W I (blOperXor ctx params) (.bool (c ^^ d)) := by
  intro t start
  obtain ⟨v, w, m, stays, kept, first, second, runs⟩ := pair_evaluated held start
  refine ⟨blMkBool (c ^^ d), m, ?_, bool_held statics stays _, stays, kept⟩
  rw [blOperXor, runs, runs_after (bool_of_value first), runs_after (bool_of_value second)]
  exact runs_pure_self _ m

theorem not_computes (statics : Statics I) {c : Bool}
    (held : Operands W ctx I params operands [.bool c]) :
    Computes W I (blOperNot ctx params) (.bool (!c)) := by
  intro t start
  obtain ⟨operand, rest, first, none_, rfl⟩ := List.forall₂_cons_right_iff.1 held.gives
  obtain ⟨v, m, run, value, stays, kept⟩ := first t start
  refine ⟨blMkBool (!c), m, ?_, bool_held statics stays _, stays, kept⟩
  rw [blOperNot, runs_after (eval_first_runs (operands_listed held start) run),
    runs_after (bool_of_value value)]
  exact runs_pure_self _ m

theorem sub_computes (disciplined : ∀ D, W.Disciplined D) (steady : Steady ctx s I)
    {operand : Nat × Ptr} (held : Operands W ctx I params (operand :: operands) [.number a, .number b])
    (filled : operand.2 ≠ .null) : Computes W I (blOperSub ctx params) (.number (a - b)) := by
  intro t start
  obtain ⟨L, vs, m, evaluated, list, values, stays, kept⟩ :=
    list_evaluated disciplined steady held filled start
  obtain ⟨v, w, rfl, first, second⟩ := pair_of_values values
  obtain ⟨r, u, made, value, last, kept'⟩ := number_allocated (W := W) steady stays (a - b)
  refine ⟨r, u, ?_, value, last, keeps_trans kept kept'⟩
  rw [blOperSub, runs_after evaluated, runs_after (numbers_checked list first second),
    if_neg (by simp), runs_after (list_first_runs list), runs_after (list_second_runs list),
    runs_after (int_of_value first), runs_after (int_of_value second)]
  exact made

/-- Where an operator gives a value, its builtin computes it. -/
theorem operator_computes (disciplined : ∀ D, W.Disciplined D) (steady : Steady ctx s I)
    (statics : Statics I) {op : Operator} {n k : Nat} {q r : Ptr}
    (held : Operands W ctx I (.ref n) [(n, q), (k, r)] [x, y]) (filled : q ≠ .null)
    (applied : op.apply x y = some z) :
    Computes W I (builtinCode W op.builtin ctx (.ref n)) z := by
  cases op with
  | add =>
      change Computes W I (blOperAdd ctx (.ref n)) z
      have sum := add_computes disciplined steady held (List.cons_ne_nil _ _)
        (by simp [longestList])
      cases x <;> cases y <;> cases applied
      · simpa [added, isNumber, total, Simple.view] using sum
      · simpa [added, isNumber, joined, shown] using sum
  | sub =>
      cases x <;> cases y <;> cases applied
      exact sub_computes disciplined steady held filled
  | mult =>
      cases x <;> cases y <;> cases applied
      exact mult_computes disciplined steady held filled
  | div =>
      cases x <;> cases y <;> simp only [Operator.apply, Option.ite_none_left_eq_some] at applied <;>
        cases applied
      next nonzero result =>
        cases result
        exact div_computes disciplined steady held nonzero
  | mod =>
      cases x <;> cases y <;> simp only [Operator.apply, Option.ite_none_left_eq_some] at applied <;>
        cases applied
      next nonzero result =>
        cases result
        exact mod_computes steady held nonzero
  | lt =>
      cases x <;> cases y <;> cases applied
      exact compare_computes statics (fun i j => decide (i < j)) rfl held
  | gt =>
      cases x <;> cases y <;> cases applied
      exact compare_computes statics (fun i j => decide (j < i)) rfl held
  | eq =>
      have compared := eq_computes statics held
      cases x <;> cases y <;> cases applied
      · exact compared
      · exact compared
  | and =>
      cases x <;> cases y <;> cases applied
      exact and_computes statics held
  | or =>
      cases x <;> cases y <;> cases applied
      exact or_computes statics held
  | xor =>
      cases x <;> cases y <;> cases applied
      exact xor_computes statics held

end Operators

section Evaluation

variable {W : World} {ctx p : Ptr} {vars : Nat → Prop} {σ : Store} {s : State}

theorem call_calls {b : Builtin} {n : Nat} {operand : Nat × Ptr} {operands : List (Nat × Ptr)}
    (call : CallAt s (OperatorHead s ctx vars b) p n)
    (cells : CellsAt s (operand :: operands) (.ref n)) : Calls W ctx (Unchanged s) b p n := by
  obtain ⟨c, known, type, cdr, id, m, v, op, named, _, found, held, native, points⟩ := call
  exact unchanged_calls known type cdr cells (.plain named found) held native points

theorem statics_unchanged (stands : Stands ctx vars σ s) : Statics (Unchanged s) where
  true_ _ same := keeps_unchanged same _ _ stands.true_
  false_ _ same := keeps_unchanged same _ _ stands.false_

theorem away_context (stands : Stands ctx vars σ s) : Away [] s ctx := by
  obtain ⟨c, ⟨cell, known, _⟩, _⟩ := stands.context
  exact away_known known

/-- An expression that has a value is evaluated to it, without effects. -/
theorem expr_gives (disciplined : ∀ D, W.Disciplined D) (stands : Stands ctx vars σ s) {e : Expr}
    {v : Simple} (code : ExprAt s ctx vars e p) (value : e.eval σ = some v) :
    Gives W ctx (Unchanged s) p v := by
  have steady : Steady ctx s (Unchanged s) := steady_unchanged (away_context stands)
  have statics := statics_unchanged stands
  induction e generalizing p v with
  | const x =>
      cases value
      exact constant_gives code
  | var x =>
      obtain ⟨_, m, q, found, held⟩ := stands.bound x v value
      exact variable_gives (.plain code.1 found) held
  | call op left right ih ih' =>
      obtain ⟨n, k, q, r, call, cells, one, other⟩ := code
      obtain ⟨x, first, value⟩ := Option.bind_eq_some_iff.1 value
      obtain ⟨y, second, value⟩ := Option.bind_eq_some_iff.1 value
      have operands := pair_operands (fun t same => cells_unchanged same cells) (ih one first)
        (ih' other second)
      exact gives_call (call_calls call cells)
        (operator_computes disciplined steady statics operands (expr_filled one) value)
  | negate e ih =>
      obtain ⟨n, q, call, cells, one⟩ := code
      obtain ⟨x, first, value⟩ := Option.bind_eq_some_iff.1 value
      have operands : Operands W ctx (Unchanged s) (.ref n) [(n, q)] [x] :=
        ⟨fun t same => cells_unchanged same cells, .cons (ih one first) .nil⟩
      cases x <;> cases value
      exact gives_call (call_calls call cells) (not_computes statics operands)

theorem expr_runs (disciplined : ∀ D, W.Disciplined D) (stands : Stands ctx vars σ s) {e : Expr}
    {v : Simple} (code : ExprAt s ctx vars e p) (value : e.eval σ = some v) :
    ∃ r t, (∀ site, (runtime W).Runs (blEval site ctx p) s r t) ∧ Holds t v r ∧ Unchanged s t := by
  obtain ⟨r, t, run, held, same, _⟩ :=
    expr_gives disciplined stands code value s (unchanged_refl stands.closed)
  exact ⟨r, t, fun site => eval_site run, held, same⟩

end Evaluation

end BearLang.CoreLanguage
