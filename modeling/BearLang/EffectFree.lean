import BearLang.EqualValues
import BearLang.OperandEvaluation
import BearLang.VariableLookup
import Mathlib.Data.List.Forall2

/-!
# Operands without effects

An operator may evaluate an operand more than once. The operand is without effects when
there is a set of states in each of which it has the same value, and which its evaluation
does not leave. Constants and variables are such operands, and so are calls of operators
that only compute a value from operands of this kind.
-/

namespace BearLang.EffectFree

open CallPrograms OperatorCalls EqualValues OperandEvaluation

set_option autoImplicit false

section States

variable {ctx : Ptr} {s t u : State} {I : State → Prop}

/-- The cells that were there in `s`, the symbols and the output are in `u` what they are in
`t`. -/
structure Beside (s t u : State) : Prop where
  cells : ∀ a < s.fresh, u.cell (.ref a) = t.cell (.ref a)
  table : u.symbolTable = t.symbolTable
  ids : u.lastSymId = t.lastSymId
  out : u.out = t.out
  later : t.fresh ≤ u.fresh

/-- Well-formed states after `s`. Which of them are in the set does not depend on the
cells that were made after `s`. -/
structure Steady (ctx : Ptr) (s : State) (I : State → Prop) : Prop where
  closed : ∀ t, I t → Closed t
  away : ∀ t, I t → Away [] t ctx
  later : ∀ t, I t → s.fresh ≤ t.fresh
  beside : ∀ t u, I t → Closed u → Beside s t u → I u

/-- No value has changed. -/
def Keeps (s t : State) : Prop := ∀ x p, Holds s x p → Holds t x p

theorem keeps_refl (s : State) : Keeps s s := fun _ _ held => held

theorem keeps_trans (first : Keeps s t) (second : Keeps t u) : Keeps s u :=
  fun x p held => second x p (first x p held)

theorem keeps_allocated (s : State) (c : Cell) : Keeps s (s.allocated c) :=
  fun _ _ held => holds_extends (extends_allocated s c) held

/-- A cell that holds no value may be changed. -/
theorem keeps_put {a : Nat} {old : Cell} (known : s.cell (.ref a) = some old)
    (type : old.type = .cons) (new : Cell) : Keeps s (s.put a new) := by
  rintro x p ⟨c, held, shape⟩
  have other : p ≠ .ref a := by
    rintro rfl
    rw [known] at held
    cases held
    cases x <;> simp [type] at shape
  exact ⟨c, by rw [State.cell_put_other other, held], shape⟩

theorem holds_filled {x : Simple} {p : Ptr} (held : Holds s x p) : p ≠ .null := by
  obtain ⟨c, known, _⟩ := held
  exact cell_ne_null known

theorem value_or_null {x : Simple} {p : Ptr} (held : Holds s x p) : orNull p = p := by
  rw [orNull, if_neg (holds_filled held)]

theorem eval_value_runs {W : World} {site : Site} {x : Simple} {p : Ptr} (held : Holds s x p) :
    (runtime W).Runs (blEval site ctx p) s p s := by
  have itself := value_or_null held
  have run : (runtime W).Runs (blEval site ctx p) s (orNull p) s :=
    eval_simple_runs site (itself.symm ▸ held)
  rwa [itself] at run

theorem holds_unique {x y : Simple} {p : Ptr} (first : Holds s x p) (second : Holds s y p) :
    x = y := by
  obtain ⟨c, known, shape⟩ := first
  obtain ⟨d, known', shape'⟩ := second
  rw [known] at known'
  cases known'
  cases x <;> cases y <;> simp_all

end States

section Collected

variable {s t : State} {last v : Ptr}

theorem closed_allocated (closed : Closed s) {c : Cell}
    (holds : ∀ D : Discipline, (∀ p, Away [] s p → D.good p) → D.Holds c) :
    Closed (s.allocated c) := by
  have more : s.fresh ≤ (s.allocated c).fresh := by
    rw [State.fresh_allocated]
    exact Nat.le_succ _
  have room := Nat.le_trans closed.room more
  refine ⟨room, closed.made, fun a mem => absurd mem List.not_mem_nil, ?_⟩
  have confined : (Region.outside [] _ room closed.made).Confines s :=
    confines_more more (Nat.le_refl _) closed.confined
  exact Region.confines_allocated confined (holds _ fun p away => away_later more away)

theorem closed_put (closed : Closed s) {a : Nat} {new : Cell}
    (holds : ∀ D : Discipline, (∀ p, Away [] s p → D.good p) → D.Holds new) :
    Closed (s.put a new) := by
  have same := State.fresh_put s a new
  have room : staticCells.length ≤ (s.put a new).fresh := by
    rw [same]
    exact closed.room
  refine ⟨room, closed.made, fun b mem => absurd mem List.not_mem_nil, ?_⟩
  have confined : (Region.outside [] _ room closed.made).Confines s :=
    confines_more (Nat.le_of_eq same.symm) (Nat.le_refl _) closed.confined
  exact Region.confines_put confined (holds _ fun p away => away_later (Nat.le_of_eq same.symm) away)

/-- The last cell of the list under construction, if there is one yet: a new list cell. -/
def LastCell (s t : State) (last : Ptr) : Prop :=
  last = .null ∨ ∃ a c, last = .ref a ∧ s.fresh ≤ a ∧ t.cell last = some c ∧ c.type = .cons

theorem collected_behind_cell {a : Nat} {c : Cell} (known : t.cell (.ref a) = some c) (v : Ptr) :
    t.collected (.ref a) v =
      (t.allocated (.mkCons v .null)).put a { c with w1 := .addr t.fresh } := by
  have held : (t.allocated (.mkCons v .null)).cells[a]? = some c := State.cell_allocated_old known _
  simp only [State.collected, held]

theorem collected_new (isLast : LastCell s t last) (v : Ptr) :
    (t.collected last v).cell (.ref t.fresh) = some (.mkCons v .null) := by
  rcases isLast with rfl | ⟨a, c, rfl, _, known, _⟩
  · exact State.cell_allocated_new t _
  · rw [collected_behind_cell known, State.cell_put_other]
    · exact State.cell_allocated_new t _
    · exact fun same => Nat.ne_of_gt (State.ref_lt_fresh known) (Ptr.ref.inj same)

theorem keeps_collected (isLast : LastCell s t last) (v : Ptr) : Keeps t (t.collected last v) := by
  rcases isLast with rfl | ⟨a, c, rfl, _, known, type⟩
  · exact keeps_allocated t _
  · rw [collected_behind_cell known]
    exact keeps_trans (keeps_allocated t _) (keeps_put (State.cell_allocated_old known _) type _)

theorem beside_allocated (le : s.fresh ≤ t.fresh) (c : Cell) : Beside s t (t.allocated c) := by
  refine ⟨fun a bound => ?_, rfl, rfl, rfl, ?_⟩
  · have old : a < t.fresh := Nat.lt_of_lt_of_le bound le
    simp only [State.cell, State.allocated, State.fresh] at old ⊢
    rw [List.getElem?_append_left old]
  · rw [State.fresh_allocated]
    exact Nat.le_succ _

theorem beside_collected (le : s.fresh ≤ t.fresh) (isLast : LastCell s t last) (v : Ptr) :
    Beside s t (t.collected last v) := by
  rcases isLast with rfl | ⟨a, c, rfl, new, known, _⟩
  · exact beside_allocated le _
  · have made := beside_allocated le (.mkCons v .null)
    rw [collected_behind_cell known]
    refine ⟨fun b bound => ?_, rfl, rfl, rfl, ?_⟩
    · have other : Ptr.ref b ≠ .ref a := fun same =>
        Nat.ne_of_lt (Nat.lt_of_lt_of_le bound new) (Ptr.ref.inj same)
      rw [State.cell_put_other other]
      exact made.cells b bound
    · rw [State.fresh_put]
      exact made.later

theorem closed_collected (closed : Closed t) (isLast : LastCell s t last) (away : Away [] t v) :
    Closed (t.collected last v) := by
  have made : Closed (t.allocated (.mkCons v .null)) :=
    closed_allocated closed fun D good => holds_cons (good v away) D.null
  rcases isLast with rfl | ⟨a, c, rfl, _, known, _⟩
  · exact made
  · rw [collected_behind_cell known]
    refine closed_put made fun D good => ?_
    have old := closed.confined.cells a c ⟨State.ref_lt_fresh known, List.not_mem_nil⟩ known
    have weaker : ∀ p, Away [] t p → D.good p := fun p inside =>
      good p (away_later (by rw [State.fresh_allocated]; exact Nat.le_succ _) inside)
    have held := holds_mono weaker old
    refine ⟨held.car, ?_, held.tail, held.docstr, held.invokedSym⟩
    refine good (.ref t.fresh) fun b same => ⟨?_, List.not_mem_nil⟩
    cases same
    rw [State.fresh_allocated]
    exact Nat.lt_succ_self _

end Collected

section Operands

variable {W : World} {ctx params e : Ptr} {s t : State} {I : State → Prop} {x : Simple}
  {operands : List (Nat × Ptr)} {xs : List Simple}

/-- In all these states the expression has this value, and its evaluation changes no
value and does not leave the states. -/
def Gives (W : World) (ctx : Ptr) (I : State → Prop) (e : Ptr) (x : Simple) : Prop :=
  ∀ t, I t → ∃ v u, (runtime W).Runs (blEval .operand ctx e) t v u ∧ Holds u x v ∧ I u ∧ Keeps t u

/-- The operands of a list, and the values they have in the states. -/
structure Operands (W : World) (ctx : Ptr) (I : State → Prop) (params : Ptr)
    (operands : List (Nat × Ptr)) (xs : List Simple) : Prop where
  cells : ∀ t, I t → CellsAt t operands params
  gives : List.Forall₂ (fun operand x => Gives W ctx I operand.2 x) operands xs

/-- The operands are effect-free expressions with these values. -/
def WithoutEffects (W : World) (ctx : Ptr) (s : State) (params : Ptr) (operands : List (Nat × Ptr))
    (xs : List Simple) : Prop :=
  ∃ I, I s ∧ Steady ctx s I ∧ Operands W ctx I params operands xs

theorem eval_site {site site' : Site} {v : Ptr} {u : State}
    (run : (runtime W).Runs (blEval site ctx e) t v u) :
    (runtime W).Runs (blEval site' ctx e) t v u := runs_eval.2 (runs_eval.1 run)

theorem operands_start {operand : Nat × Ptr} (held : Operands W ctx I params (operand :: operands) xs)
    (start : I t) : params = .ref operand.1 := (held.cells t start).1

theorem operands_rest {operand : Nat × Ptr}
    (held : Operands W ctx I params (operand :: operands) (x :: xs)) :
    Operands W ctx I (startOf operands) operands xs := by
  refine ⟨fun t start => ?_, (List.forall₂_cons.1 held.gives).2⟩
  obtain ⟨_, c, _, _, _, later⟩ := held.cells t start
  rwa [cells_at_start later] at later

theorem operands_cell {operand : Nat × Ptr} (held : Operands W ctx I params (operand :: operands) xs)
    (start : I t) : ∃ c, t.cell params = some c ∧ c.type = .cons ∧ c.car = operand.2 ∧
      c.cdr = startOf operands := by
  obtain ⟨_, c, known, type, car, later⟩ := held.cells t start
  exact ⟨c, known, type, car, cells_at_start later⟩

/-- The list of the operands is collected into the list of their values. -/
theorem operands_collected (disciplined : ∀ D, W.Disciplined D) (steady : Steady ctx s I)
    (held : Operands W ctx I params operands xs) {last : Ptr} (isLast : LastCell s t last)
    (start : I t) : ∃ vs u, Collects W ctx params last t vs u ∧ List.Forall₂ (Holds u) xs vs ∧
      I u ∧ Keeps t u := by
  induction operands generalizing xs params last t with
  | nil =>
      obtain rfl := List.forall₂_nil_left_iff.1 held.gives
      obtain rfl : params = .null := held.cells t start
      exact ⟨[], t, .done last t, .nil, start, keeps_refl t⟩
  | cons operand operands ih =>
      obtain ⟨x, xs, first, later, rfl⟩ := List.forall₂_cons_left_iff.1 held.gives
      obtain ⟨v, m, run, value, stays, kept⟩ := first t start
      obtain ⟨c, known, _, car, _⟩ := operands_cell held start
      obtain ⟨c', known', _, _, cdr⟩ := operands_cell held stays
      have grown := runs_grows run
      have isLast' : LastCell s m last := by
        rcases isLast with rfl | ⟨a, d, rfl, new, found, type⟩
        · exact .inl rfl
        · obtain ⟨d', found', type', _⟩ := grown _ d found
          exact .inr ⟨a, d', rfl, new, found', type'.trans type⟩
      have awayElement : Away [] t operand.2 := by
        have isRef := operands_start held start
        subst isRef
        rw [← car]
        exact (away_of_cell (steady.closed t start) known List.not_mem_nil).1
      have awayValue := (eval_secluded disciplined (steady.closed t start) (steady.away t start)
        awayElement run).2.1
      have goes : I (m.collected last v) :=
        steady.beside m _ stays (closed_collected (steady.closed m stays) isLast' awayValue)
          (beside_collected (steady.later m stays) isLast' v)
      have newLast : LastCell s (m.collected last v) (.ref m.fresh) :=
        .inr ⟨m.fresh, _, rfl, steady.later m stays, collected_new isLast' v, rfl⟩
      obtain ⟨vs, u, collects, values, stays', kept'⟩ := ih (operands_rest held) newLast goes
      have keptLink := keeps_trans (keeps_collected isLast' v) kept'
      obtain ⟨d, foundValue, shape⟩ := value
      have noError : d.type ≠ .error := by cases x <;> simp_all
      refine ⟨v :: vs, u, ?_, .cons (keptLink x v ⟨d, foundValue, shape⟩) values, stays',
        keeps_trans kept keptLink⟩
      refine .next known ?_ foundValue noError known' ?_
      · rw [car]
        exact eval_site run
      · rw [cdr]
        exact collects

/-- `bl_eval_cons` of such operands gives the list of their values. -/
theorem operands_evaluated (disciplined : ∀ D, W.Disciplined D) (steady : Steady ctx s I)
    (held : Operands W ctx I params operands xs) (some_ : operands ≠ []) (start : I t) :
    ∃ a vs u, (runtime W).Runs (blEvalCons ctx params) t (.ref a) u ∧ ListAt u vs (.ref a) ∧
      List.Forall₂ (Holds u) xs vs ∧ I u ∧ Keeps t u := by
  obtain ⟨vs, u, collects, values, stays, kept⟩ :=
    operands_collected disciplined steady held (.inl rfl) start
  obtain ⟨operand, rest, rfl⟩ := List.exists_cons_of_ne_nil some_
  obtain ⟨x, xs, _, _, rfl⟩ := List.forall₂_cons_left_iff.1 held.gives
  obtain ⟨v, vs, value, later, rfl⟩ := List.forall₂_cons_left_iff.1 values
  obtain ⟨c, known, _⟩ := operands_cell held start
  obtain ⟨a, run, list⟩ := eval_cons_runs disciplined collects (steady.closed t start)
    (steady.away t start) (away_known known)
  exact ⟨a, _, u, run, list, values, stays, kept⟩

theorem operands_listed (held : Operands W ctx I params operands xs) (start : I t) :
    ListAt t (operands.map Prod.snd) params := list_at_cells (held.cells t start)

theorem operands_length (held : Operands W ctx I params operands xs) :
    operands.length = xs.length := held.gives.length_eq

end Operands

section Results

variable {W : World} {ctx : Ptr} {s t : State} {I : State → Prop}

theorem value_allocated (steady : Steady ctx s I) (start : I t) {x : Simple} {c : Cell}
    (holds : ∀ D : Discipline, D.Holds c) (value : Holds (t.allocated c) x (.ref t.fresh)) :
    ∃ r u, (runtime W).Runs (alloc c) t r u ∧ Holds u x r ∧ I u ∧ Keeps t u := by
  have closed := closed_allocated (steady.closed t start) fun D _ => holds D
  exact ⟨.ref t.fresh, t.allocated c, runs_alloc c t, value,
    steady.beside t _ start closed (beside_allocated (steady.later t start) c), keeps_allocated t c⟩

theorem number_allocated (steady : Steady ctx s I) (start : I t) (i : Int) :
    ∃ r u, (runtime W).Runs (alloc (.mkNumber i)) t r u ∧ Holds u (.number i) r ∧ I u ∧ Keeps t u :=
  value_allocated steady start (fun _ => holds_number i)
    ⟨_, State.cell_allocated_new t _, rfl, rfl⟩

theorem string_allocated (steady : Steady ctx s I) (start : I t) (str : CStr) :
    ∃ r u, (runtime W).Runs (mkStr str) t r u ∧ Holds u (.string str) r ∧ I u ∧ Keeps t u :=
  value_allocated steady start (fun _ => holds_str str)
    ⟨_, State.cell_allocated_new t _, rfl, rfl, rfl⟩

end Results

section Calls

variable {W : World} {ctx expr : Ptr} {I : State → Prop} {op : Builtin} {n : Nat} {x : Simple}

/-- In all these states the expression is a call of the operator with the operand list
at the address `n`, and the operator starts in one of them. -/
def Calls (W : World) (ctx : Ptr) (I : State → Prop) (op : Builtin) (expr : Ptr) (n : Nat) : Prop :=
  ∀ t, I t → ∃ t', OperatorCall W op ctx expr t n t' ∧ I t' ∧ Keeps t t'

/-- In all these states the program computes the value, changes no value and does not
leave the states. -/
def Computes (W : World) (I : State → Prop) (program : Prog Ptr) (x : Simple) : Prop :=
  ∀ t, I t → ∃ r u, (runtime W).Runs program t r u ∧ Holds u x r ∧ I u ∧ Keeps t u

/-- A call of an operator that only computes is itself without effects. -/
theorem gives_call (calls : Calls W ctx I op expr n)
    (computes : Computes W I (builtinCode W op ctx (.ref n)) x) : Gives W ctx I expr x := by
  intro t start
  obtain ⟨t', called, begun, kept⟩ := calls t start
  obtain ⟨r, u, run, value, stays, kept'⟩ := computes t' begun
  exact ⟨r, u, (operator_call_runs called .operand).2 ⟨r, run, (value_or_null value).symm⟩, value, stays,
    keeps_trans kept kept'⟩

end Calls

section Unchanged

variable {W : World} {ctx e : Ptr} {s t u : State} {x : Simple}

/-- What was there in `s` is there as it was, but for what calls note in the cells. -/
structure Unchanged (s t : State) : Prop where
  adds : OnlyAdds s t
  closed : Closed t

theorem Unchanged.cells (same : Unchanged s t) (p : Ptr) (c : Cell) (known : s.cell p = some c) :
    ∃ d, t.cell p = some d ∧ d.type = c.type ∧ d.w0 = c.w0 ∧ d.w1 = c.w1 ∧ d.tail = c.tail := by
  rcases same.adds.cells p c known with ⟨sym, data, found⟩
  exact ⟨_, found, rfl, rfl, rfl, rfl⟩

theorem Unchanged.table (same : Unchanged s t) : t.symbolTable = s.symbolTable := same.adds.table

theorem unchanged_refl (closed : Closed s) : Unchanged s s := ⟨only_adds_refl s, closed⟩

theorem unchanged_trans (first : Unchanged s t) (second : Unchanged t u) : Unchanged s u :=
  ⟨only_adds_trans first.adds second.adds, second.closed⟩

theorem unchanged_later (same : Unchanged s t) : s.fresh ≤ t.fresh := only_adds_fresh same.adds

theorem steady_unchanged (away : Away [] s ctx) : Steady ctx s (Unchanged s) where
  closed _ same := same.closed
  away _ same := away_later (unchanged_later same) away
  later _ same := unchanged_later same
  beside t u same closed beside := by
    refine ⟨⟨fun p c known => ?_, beside.table.trans same.adds.table,
      beside.ids.trans same.adds.ids, beside.out.trans same.adds.out⟩, closed⟩
    rcases State.ref_of_cell known with ⟨a, rfl⟩
    rw [beside.cells a (State.ref_lt_fresh known)]
    exact same.adds.cells _ c known

theorem keeps_unchanged (same : Unchanged s t) : Keeps s t := by
  rintro x p ⟨c, known, shape⟩
  obtain ⟨d, found, type, word, word', _⟩ := same.cells p c known
  refine ⟨d, found, ?_⟩
  cases x <;> simp only [Cell.iVal, Cell.sVal, Cell.bVal, Cell.car, type, word, word'] at shape ⊢ <;>
    exact shape

theorem constant_gives (held : Holds s x e) : Gives W ctx (Unchanged s) e x := by
  intro t same
  have value := keeps_unchanged same x e held
  exact ⟨e, t, eval_value_runs value, value, same, keeps_refl t⟩

theorem names_unchanged (same : Unchanged s t) {v : Ptr} {m id : Nat}
    (named : Names s ctx e m id v) : Names t ctx e m id v := by
  refine names_kept ⟨fun p c known => ?_, fun p c known _ => ?_, same.table⟩ named
  · obtain ⟨cell, found, member⟩ := Option.bind_eq_some_iff.1 known
    obtain ⟨d, found', _, _, _, tail⟩ := same.cells p cell found
    refine Option.bind_eq_some_iff.2 ⟨d, found', ?_⟩
    rwa [Cell.asCtx, tail]
  · obtain ⟨d, found, type, word, word', _⟩ := same.cells p c known
    exact ⟨d, found, type, word, word'⟩

theorem variable_gives {v : Ptr} {m id : Nat} (named : Names s ctx e m id v) (held : Holds s x v) :
    Gives W ctx (Unchanged s) e x := by
  intro t same
  exact ⟨v, t, eval_named .operand (names_unchanged same named), keeps_unchanged same x v held, same,
    keeps_refl t⟩

theorem cells_unchanged (same : Unchanged s t) {operands : List (Nat × Ptr)} {p : Ptr}
    (cells : CellsAt s operands p) : CellsAt t operands p := by
  induction operands generalizing p with
  | nil => exact cells
  | cons operand operands ih =>
      obtain ⟨isRef, c, known, type, car, later⟩ := cells
      obtain ⟨d, found, type', word, word', _⟩ := same.cells p c known
      refine ⟨isRef, d, found, type'.trans type, ?_, ?_⟩
      · rw [Cell.car, word]
        exact car
      · rw [Cell.cdr, word']
        exact ih later

theorem only_adds_noted {n : Nat} {args : Cell} (known : t.cell (.ref n) = some args) (sym : Ptr)
    (data : Nat) : OnlyAdds t (t.put n (args.invokedAs sym data)) := by
  refine ⟨fun p c found => ?_, rfl, rfl, rfl⟩
  by_cases same : p = .ref n
  · subst same
    rw [known] at found
    cases found
    exact ⟨sym, data, State.cell_put_same (State.ref_lt_fresh known) _⟩
  · exact ⟨c.invokedSym, c.customData, by rw [State.cell_put_other same, found]⟩

theorem unchanged_calls {c op : Cell} {v : Ptr} {m id n : Nat} {code : Builtin}
    {operand : Nat × Ptr} {operands : List (Nat × Ptr)} (known : s.cell e = some c)
    (type : c.type = .cons) (cdr : c.cdr = .ref n) (cells : CellsAt s (operand :: operands) (.ref n))
    (named : Names s ctx c.car m id v) (held : s.cell v = some op) (native : op.type = .operNative)
    (points : op.codePtr = some (.builtin code)) : Calls W ctx (Unchanged s) code e n := by
  intro t same
  obtain ⟨c', found, type', word, word', _⟩ := same.cells e c known
  obtain ⟨op', held', native', pointer, _⟩ := same.cells v op held
  obtain ⟨_, args, known', _⟩ := cells_unchanged same cells
  have car : c'.car = c.car := by rw [Cell.car, word]; rfl
  have there : c'.cdr = .ref n := by rw [Cell.cdr, word']; exact cdr
  have head := head_named (W := W) (names_unchanged same named)
  have symbol : Away [] t c'.car := by
    obtain ⟨cell, symbolKnown, _⟩ := named_symbol (names_unchanged same named)
    rw [car]
    exact away_known symbolKnown
  refine ⟨_, ⟨c', v, t, op', c', args, found, type'.trans type, ?_, held', native'.trans native, ?_,
    found, there, known', rfl⟩, ?_⟩
  · rw [car]
    exact head
  · rw [Cell.codePtr, pointer]
    exact points
  · have noted : Unchanged t (t.put n (args.invokedAs c'.car op'.customData)) := by
      refine ⟨only_adds_noted known' c'.car op'.customData, closed_put same.closed fun D good => ?_⟩
      have old := same.closed.confined.cells n args ⟨State.ref_lt_fresh known', List.not_mem_nil⟩ known'
      have was := holds_mono (E := D) (fun p inside => good p inside) old
      exact ⟨was.car, was.cdr, was.tail, was.docstr, good _ symbol⟩
    exact ⟨unchanged_trans same noted, keeps_unchanged noted⟩

end Unchanged

end BearLang.EffectFree
