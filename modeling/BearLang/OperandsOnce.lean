import BearLang.OperandEvaluation

/-!
# Operands that are evaluated once

For the builtins that consume the values of their operands: which of the
operands a call evaluates, and when that is each of them once, in order.
-/

namespace BearLang.OperandEvaluation

open CallPrograms ArgumentBinding ReadingPrograms

set_option autoImplicit false

variable {W : World} {s t : State} {w w' : Watch} {ctx params r : Ptr}

section Parts

variable {items : List (Nat × Ptr)}

theorem fine_before (grown : w.Before w') (fine : Fine items params w') : Fine items params w :=
  ⟨fun v m mem => fine.values v m (grown.values mem), fun m mem => fine.still m (grown.after mem)⟩

theorem observed_first {a : Nat} {e1 : Ptr} {rest : List (Nat × Ptr)}
    (cells : CellsAt s ((a, e1) :: rest) params) (filled : e1 ≠ .null)
    (run : Observed W (evalFirst ctx params) s w r t w') : w' = w.started.noted e1 r t := by
  obtain ⟨rfl, c, known, _, rfl, _⟩ := cells
  obtain ⟨e, m, u, first, run⟩ := seen_bind.1 run
  rw [blListFirst, if_neg (by simp)] at first
  obtain ⟨c', found, first⟩ := seen_load.1 first
  rw [known] at found
  cases found
  obtain ⟨rfl, rfl, rfl⟩ := seen_pure.1 first
  rw [← Program.bind_done (blEval .operand ctx c.car)] at run
  obtain ⟨v, m, _, run⟩ := (seen_operand rfl rfl filled).1 run
  obtain ⟨rfl, rfl, rfl⟩ := seen_pure.1 run
  rfl

theorem observed_second {item : Nat × Ptr} {rest : List (Nat × Ptr)}
    (cells : CellsAt s (item :: rest) params) (filled : ∀ x ∈ rest, x.2 ≠ .null)
    (begun : w.begun = true) (run : Observed W (evalSecond ctx params) s w r t w') :
    w'.begun = true ∧ w'.evaluated = w.evaluated ++ (rest.take 1).map Prod.snd := by
  refine ⟨(observed_grows run).begun begun, ?_⟩
  obtain ⟨rfl, c, known, _, _, later⟩ := cells
  obtain ⟨e, m, u, second, run⟩ := seen_bind.1 run
  rw [blListSecond, if_neg (by simp)] at second
  obtain ⟨q, m1, u1, found, second⟩ := seen_bind.1 second
  rw [blListRest, if_neg (by simp)] at found
  obtain ⟨c', again, found⟩ := seen_load.1 found
  rw [known] at again
  cases again
  obtain ⟨rfl, rfl, rfl⟩ := seen_pure.1 found
  rw [cells_at_start later] at second
  cases rest with
  | nil =>
      obtain ⟨rfl, rfl, rfl⟩ := seen_pure.1 second
      rw [← Program.bind_done (blEval .operand ctx .null)] at run
      obtain ⟨v, m, _, run⟩ := (seen_call (c := .eval .operand ctx .null) rfl).1 run
      obtain ⟨rfl, rfl, rfl⟩ := seen_pure.1 run
      exact (List.append_nil _).symm
  | cons other rest =>
      obtain ⟨b, e2⟩ := other
      obtain ⟨isRef, c2, known2, _, car2, _⟩ := later
      rw [startOf, blListFirst, if_neg (by simp)] at second
      obtain ⟨c', again, second⟩ := seen_load.1 second
      rw [isRef] at known2
      rw [known2] at again
      cases again
      obtain ⟨rfl, rfl, rfl⟩ := seen_pure.1 second
      rw [car2, ← Program.bind_done (blEval .operand ctx e2)] at run
      obtain ⟨v, m, _, run⟩ :=
        (seen_operand rfl rfl (filled (b, e2) List.mem_cons_self)).1 run
      obtain ⟨rfl, rfl, rfl⟩ := seen_pure.1 run
      rfl

end Parts

section Arguments

/-- The length check of a list that is no error: it gives nothing when the length
is within the bounds, and an error otherwise. -/
theorem errif_invalid_len_runs {x : Ptr} {xs : List Ptr} {L : Ptr} (list : ListAt s (x :: xs) L)
    (filled : x ≠ .null) (min max : Nat) :
    ∃ v u, (runtime W).Runs (blErrifInvalidLen L min max) s v u ∧
      (v = .null ↔ min ≤ xs.length + 1 ∧ xs.length + 1 ≤ max) ∧ (v = .null → u = s) ∧
      (v ≠ .null → u.typeOf v = some .error) := by
  have length := list_len_runs (W := W) list filled
  obtain ⟨a, c, rfl, known, type, _, _⟩ := list
  have noError : c.type ≠ .error := by
    rw [type]
    decide
  by_cases bounds : min ≤ xs.length + 1 ∧ xs.length + 1 ≤ max
  · refine ⟨.null, s, ?_, ⟨fun _ => bounds, fun _ => rfl⟩, fun _ => rfl, fun other => absurd rfl other⟩
    rw [blErrifInvalidLen, runs_after (runs_type_of known), if_neg noError, runs_after length,
      if_pos bounds]
    exact runs_pure_self _ _
  · have refused (cell : Cell) (isError : cell.type = .error) :
        (Ptr.ref s.fresh = .null ↔ min ≤ xs.length + 1 ∧ xs.length + 1 ≤ max) ∧
          (Ptr.ref s.fresh = .null → s.allocated cell = s) ∧
          (Ptr.ref s.fresh ≠ .null → (s.allocated cell).typeOf (.ref s.fresh) = some .error) :=
      ⟨⟨(fun same => nomatch same), fun inside => absurd inside bounds⟩,
        (fun same => nomatch same), fun _ => by
          rw [State.typeOf, State.cell_allocated_new, Option.map_some, isError]⟩
    by_cases short : xs.length + 1 < min
    · refine ⟨_, s.allocated ?made, ?run, refused ?made ?kind⟩
      case run =>
          rw [blErrifInvalidLen, runs_after (runs_type_of known), if_neg noError, runs_after length,
            if_neg bounds]
          simp only [if_pos short]
          exact runs_alloc _ s
      case kind => rfl
    · refine ⟨_, s.allocated ?long, ?run, refused ?long ?kind⟩
      case run =>
          rw [blErrifInvalidLen, runs_after (runs_type_of known), if_neg noError, runs_after length,
            if_neg bounds]
          simp only [if_neg short]
          exact runs_alloc _ s
      case kind => rfl

end Arguments

section Shapes

variable {items : List (Nat × Ptr)}

/-- The operators that take the operand list for an expression. -/
theorem as_list_once {a : Nat} {e1 : Ptr} {rest : List (Nat × Ptr)}
    (cells : CellsAt s ((a, e1) :: rest) params) (filled : ∀ x ∈ (a, e1) :: rest, x.2 ≠ .null)
    {next : Ptr → Prog Ptr} (isQuiet : ∀ v, Quiet (next v))
    (run : Observed W (blEval .operand ctx params >>= next) s {} r t w')
    (fine : Fine ((a, e1) :: rest) params w') :
    w'.evaluated = ((a, e1) :: rest).map Prod.snd ↔ HeadPlain W ctx s e1 := by
  obtain ⟨v, m, u, evaluated, run⟩ := seen_bind.1 run
  obtain ⟨begun, once⟩ :=
    eval_list_evaluates cells filled evaluated (fine_before (observed_grows run) fine)
  rw [quiet_keeps (isQuiet v) begun run]
  exact once

/-- The operators that evaluate the first two operands. -/
theorem pairwise_once (some_ : items ≠ []) (cells : CellsAt s items params)
    (filled : ∀ x ∈ items, x.2 ≠ .null) {next : Ptr → Ptr → Prog Ptr}
    (isQuiet : ∀ a b, Quiet (next a b))
    (run : Observed W (evalFirst ctx params >>= fun a => evalSecond ctx params >>= next a) s {} r t
      w') (fine : Fine items params w') :
    w'.evaluated = items.map Prod.snd ↔ items.length ≤ 2 := by
  obtain ⟨item, rest, rfl⟩ := List.exists_cons_of_ne_nil some_
  obtain ⟨a, m, u, first, run⟩ := seen_bind.1 run
  obtain rfl := observed_first cells (filled _ List.mem_cons_self) first
  obtain ⟨b, n, x, second, run⟩ := seen_bind.1 run
  have still : CellsAt m (item :: rest) params :=
    (fine_before (before_trans (observed_grows second) (observed_grows run)) fine).still m
      (by simp [Watch.noted])
  obtain ⟨begun, seen⟩ := observed_second still
    (fun x mem => filled x (List.mem_cons_of_mem _ mem)) rfl second
  rw [quiet_keeps (isQuiet a b) begun run, seen]
  change item.2 :: (rest.take 1).map Prod.snd = item.2 :: rest.map Prod.snd ↔ _
  rw [List.cons_inj_right, List.map_take]
  constructor
  · intro same
    have length := congrArg List.length same
    rw [List.length_take, List.length_map] at length
    rw [List.length_cons]
    omega
  · intro short
    rw [List.length_cons] at short
    exact List.take_of_length_le (by
      rw [List.length_map]
      omega)

/-- Operands whose values are collected give a list that no check calls an error. -/
theorem values_list {a : Nat} {e1 L : Ptr} {rest : List (Nat × Ptr)}
    (disciplined : ∀ D, W.Disciplined D) (closed : Closed s) (awayCtx : Away [] s ctx)
    (cells : CellsAt s ((a, e1) :: rest) params) (filled : ∀ x ∈ (a, e1) :: rest, x.2 ≠ .null)
    (run : Observed W (blEvalCons ctx params) s w L t w') (fine : Fine ((a, e1) :: rest) params w') :
    w'.begun = true ∧ w'.evaluated = w.evaluated ++ ((a, e1) :: rest).map Prod.snd ∧
      CellsAt t ((a, e1) :: rest) params ∧ ∃ v vs, v ≠ .null ∧ vs.length = rest.length ∧
        ListAt t (v :: vs) L := by
  obtain ⟨begun, vs, collects, length, seen, still⟩ :=
    eval_cons_evaluates (by simp) cells filled run fine
  have awayParams : Away [] s params := by
    intro b same
    have start := cells_at_start cells
    rw [same] at start
    cases start
    exact ⟨cells_at_bound cells (a, e1) List.mem_cons_self, List.not_mem_nil⟩
  cases vs with
  | nil => simp at length
  | cons v vs =>
      obtain ⟨b, collected, list⟩ := eval_cons_runs disciplined collects closed awayCtx awayParams
      obtain ⟨rfl, _⟩ := runs_functional collected (runs_of_observed run)
      exact ⟨begun, seen, still, v, vs, collects_values collects v List.mem_cons_self,
        Nat.succ_inj.1 length, list⟩

theorem twice_is_not_once {e1 : Ptr} {es : List Ptr} (again : es ++ [e1] <+: w'.evaluated) :
    w'.evaluated ≠ es := by
  intro same
  have length := again.length_le
  rw [same, List.length_append, List.length_singleton] at length
  omega

theorem first_again {a : Nat} {e1 : Ptr} {rest : List (Nat × Ptr)} {next : Ptr → Prog Ptr}
    (cells : CellsAt s ((a, e1) :: rest) params) (filled : e1 ≠ .null)
    (run : Observed W (evalFirst ctx params >>= next) s w r t w') :
    w.evaluated ++ [e1] <+: w'.evaluated := by
  obtain ⟨v, m, u, first, run⟩ := seen_bind.1 run
  obtain rfl := observed_first cells filled first
  exact (observed_grows run).evaluated

end Shapes

section Operators

variable {a : Nat} {e1 : Ptr} {rest : List (Nat × Ptr)}

theorem add_once (disciplined : ∀ D, W.Disciplined D) (closed : Closed s)
    (awayCtx : Away [] s ctx) (cells : CellsAt s ((a, e1) :: rest) params)
    (filled : ∀ x ∈ (a, e1) :: rest, x.2 ≠ .null)
    (run : Observed W (blOperAdd ctx params) s {} r t w') (fine : Fine ((a, e1) :: rest) params w') :
    w'.evaluated = ((a, e1) :: rest).map Prod.snd ↔ longestList < rest.length + 1 := by
  have cells' := cells
  obtain ⟨isRef, c, known, type, _⟩ := cells'
  obtain ⟨c', found, run⟩ := seen_type_of.1 run
  rw [known] at found
  cases found
  rw [type, if_neg (by decide)] at run
  obtain ⟨L, m, u, collected, run⟩ := seen_bind.1 run
  obtain ⟨begun, seen, still, v, vs, value, length, list⟩ := values_list disciplined closed awayCtx
    cells filled collected (fine_before (observed_grows run) fine)
  have list' := list
  obtain ⟨b, d, rfl, held, kind, _⟩ := list'
  obtain ⟨d', held', run⟩ := seen_type_of.1 run
  rw [held] at held'
  cases held'
  rw [kind, if_neg (by decide)] at run
  obtain ⟨invalid, n, x, checked, later⟩ := seen_bind.1 run
  have same : x.evaluated = u.started.evaluated :=
    quiet_keeps (allows_errif_invalid_len _ _ _) rfl checked
  obtain ⟨verdict, n', errif, within, passed, _⟩ :=
    errif_invalid_len_runs (W := W) list value 1 longestList
  obtain ⟨rfl, rfl⟩ := runs_functional errif (runs_of_observed checked)
  rw [length] at within
  by_cases valid : verdict = .null
  · obtain rfl := passed valid
    rw [if_neg (fun other => other valid)] at later
    have again := first_again still (filled (a, e1) List.mem_cons_self) later
    rw [same, Watch.started, seen] at again
    refine ⟨fun once => absurd once (twice_is_not_once again), fun long => ?_⟩
    exact absurd (within.1 valid).2 (Nat.not_le.2 long)
  · rw [if_pos valid] at later
    obtain ⟨_, _, rfl⟩ := seen_pure.1 later
    refine ⟨fun _ => ?_, fun _ => same.trans seen⟩
    by_contra short
    exact valid (within.2 ⟨Nat.le_add_left 1 _, Nat.not_lt.1 short⟩)

theorem print_once (disciplined : ∀ D, W.Disciplined D) (closed : Closed s)
    (awayCtx : Away [] s ctx) (cells : CellsAt s ((a, e1) :: rest) params)
    (filled : ∀ x ∈ (a, e1) :: rest, x.2 ≠ .null)
    (run : Observed W (blOperPrint ctx params) s {} r t w')
    (fine : Fine ((a, e1) :: rest) params w') :
    w'.evaluated ≠ ((a, e1) :: rest).map Prod.snd := by
  obtain ⟨L, m, u, collected, run⟩ := seen_bind.1 run
  obtain ⟨begun, seen, still, v, vs, value, length, list⟩ := values_list disciplined closed awayCtx
    cells filled collected (fine_before (observed_grows run) fine)
  obtain ⟨b, d, rfl, held, kind, _⟩ := list
  obtain ⟨d', held', run⟩ := seen_type_of.1 run
  rw [held] at held'
  cases held'
  rw [kind, if_neg (by decide)] at run
  obtain ⟨_, n, x, printed, done⟩ := (seen_inside (c := .printLoop ctx params) rfl).1 run
  have loop : Observed W (printLoop ctx params) m u.started () n x := printed
  obtain ⟨rfl, c, known, _, car, _⟩ := still
  rw [printLoop, if_neg (by simp)] at loop
  obtain ⟨c', found, loop⟩ := seen_load.1 loop
  rw [known] at found
  cases found
  rw [car] at loop
  obtain ⟨v', m', _, loop⟩ := (seen_operand rfl rfl (filled (a, e1) List.mem_cons_self)).1 loop
  have again := (observed_grows loop).evaluated.trans (observed_grows done).evaluated
  change (u.evaluated ++ [e1]) <+: w'.evaluated at again
  rw [seen] at again
  exact twice_is_not_once again

theorem div_once (cells : CellsAt s ((a, e1) :: rest) params)
    (filled : ∀ x ∈ (a, e1) :: rest, x.2 ≠ .null)
    (run : Observed W (blOperDiv ctx params) s {} r t w') (fine : Fine ((a, e1) :: rest) params w') :
    w'.evaluated = ((a, e1) :: rest).map Prod.snd := by
  obtain ⟨L, m, u, collected, run⟩ := seen_bind.1 run
  obtain ⟨begun, vs, _, _, seen, _⟩ := eval_cons_evaluates (by simp) cells filled collected
    (fine_before (observed_grows run) fine)
  refine (quiet_keeps ?_ begun run).trans seen
  refine allows_seq (allows_fixed_args L _) fun retval => ?_
  split
  · exact allows_pure _
  · refine allows_seq (quiet_first_value ctx L) fun first => ?_
    refine allows_seq (quiet_second_value ctx L) fun second => ?_
    refine allows_seq (allows_int_of second) fun b => ?_
    split
    · exact allows_alloc _
    · exact allows_seq (allows_int_of first) fun a => allows_alloc _

theorem single_once (cells : CellsAt s ((a, e1) :: rest) params) (filled : e1 ≠ .null)
    {next : Ptr → Prog Ptr} (isQuiet : ∀ v, Quiet (next v)) (fresh : w.evaluated = [])
    (run : Observed W (evalFirst ctx params >>= next) s w r t w') :
    w'.evaluated = ((a, e1) :: rest).map Prod.snd ↔ rest.length + 1 ≤ 1 := by
  obtain ⟨v, m, u, first, run⟩ := seen_bind.1 run
  obtain rfl := observed_first cells filled first
  have seen : w'.evaluated = w.evaluated ++ [e1] := quiet_keeps (isQuiet v) rfl run
  rw [seen, fresh]
  cases rest with
  | nil => simp
  | cons other rest => simp

/-- Of several operands `third` takes the third expression as it is. -/
theorem third_once (cells : CellsAt s ((a, e1) :: rest) params) (filled : e1 ≠ .null)
    (run : Observed W (blOperThird ctx params) s {} r t w') :
    w'.evaluated = ((a, e1) :: rest).map Prod.snd ↔ rest.length + 1 ≤ 1 := by
  have length := list_len_runs (W := W) (list_at_cells cells) filled
  obtain ⟨n, m, u, counted, run⟩ := seen_bind.1 run
  obtain ⟨rfl, rfl⟩ := runs_functional length (runs_of_observed counted)
  obtain ⟨rfl, c, known, _⟩ := id cells
  have start : u.begun = true ∧ u.evaluated = [] := by
    rw [blListLen, if_neg (by simp)] at counted
    obtain ⟨c', _, counted⟩ := seen_load.1 counted
    refine ⟨(observed_grows counted).begun rfl, ?_⟩
    refine quiet_keeps ?_ rfl counted
    split
    · exact allows_pure _
    · split
      · exact allows_pure _
      · exact allows_call (c := .listLen (.ref a) 0) trivial
  by_cases single : (rest.map Prod.snd).length + 1 = 1
  · rw [if_pos single] at run
    exact single_once cells filled (fun v => allows_list_third v) start.2 run
  · rw [if_neg single] at run
    rw [quiet_keeps (allows_list_third _) start.1 run, start.2]
    rw [List.length_map] at single
    refine ⟨(fun none_ => by cases none_), fun few => ?_⟩
    omega

end Operators

section Calls

/-- The builtins that consume the values of their operands. -/
def consuming : List Builtin :=
  [.add, .sub, .mult, .div, .mod, .lt, .gt, .eq, .and, .or, .not, .xor, .first, .second, .third,
    .rest, .append, .prepend, .reverse, .split, .startswith, .serexp, .print]

/-- When a builtin evaluates each of these operands once: never, always, up to a
number of operands, or when the operand list is not taken for a call. -/
def EvaluatesOnce (W : World) (op : Builtin) (ctx : Ptr) (s : State) (operands : List Ptr) : Prop :=
  match op with
  | .print => False
  | .add => longestList < operands.length
  | .div => True
  | .not => operands.length ≤ 1
  | .third => operands.length ≤ 1
  | .mod => operands.length ≤ 2
  | .lt => operands.length ≤ 2
  | .gt => operands.length ≤ 2
  | .eq => operands.length ≤ 2
  | .and => operands.length ≤ 2
  | .or => operands.length ≤ 2
  | .xor => operands.length ≤ 2
  | .append => operands.length ≤ 2
  | .prepend => operands.length ≤ 2
  | _ => ∀ h ∈ operands.head?, HeadPlain W ctx s h

theorem quiet_number_pair {params : Ptr} {expected : List ValType} {next : Prog Ptr}
    (isQuiet : Quiet next) : Quiet (blErrifInvalidFixedArgs params expected >>= fun retval =>
      if retval ≠ .null then pure retval else next) := by
  refine allows_seq (allows_fixed_args params expected) fun retval => ?_
  split
  · exact allows_pure _
  · exact isQuiet

theorem quiet_compare {first second : Ptr} {next : Int → Int → Prog Ptr}
    (isQuiet : ∀ a b, Quiet (next a b)) :
    Quiet (intOf first >>= fun a => intOf second >>= next a) :=
  allows_seq (allows_int_of first) fun a => allows_seq (allows_int_of second) (isQuiet a)

/-- A call whose operands evaluate to no error, and that leaves its operand list
as it is, evaluates each operand once, in order, exactly under the condition. -/
theorem operands_evaluated_once_iff (disciplined : ∀ D, W.Disciplined D) {op : Builtin}
    (consumes : op ∈ consuming) {operands : List (Nat × Ptr)} (some_ : operands ≠ [])
    (closed : Closed s) (awayCtx : Away [] s ctx) (cells : CellsAt s operands params)
    (filled : ∀ x ∈ operands, x.2 ≠ .null)
    (run : Observed W (body W (.native (.builtin op) ctx params)) s {} r t w')
    (fine : Fine operands params w') :
    w'.evaluated = operands.map Prod.snd ↔ EvaluatesOnce W op ctx s (operands.map Prod.snd) := by
  obtain ⟨⟨a, e1⟩, rest, rfl⟩ := List.exists_cons_of_ne_nil some_
  have filledFirst : e1 ≠ .null := filled _ List.mem_cons_self
  have count : (((a, e1) :: rest).map Prod.snd).length = rest.length + 1 := by simp
  have pairwise {next : Ptr → Ptr → Prog Ptr} (isQuiet : ∀ a b, Quiet (next a b))
      (run : Observed W (evalFirst ctx params >>= fun a => evalSecond ctx params >>= next a) s {} r
        t w') : w'.evaluated = ((a, e1) :: rest).map Prod.snd ↔
          (((a, e1) :: rest).map Prod.snd).length ≤ 2 := by
    rw [count]
    exact pairwise_once some_ cells filled isQuiet run fine
  have asList {next : Ptr → Prog Ptr} (isQuiet : ∀ v, Quiet (next v))
      (run : Observed W (blEval .operand ctx params >>= next) s {} r t w') :
      w'.evaluated = ((a, e1) :: rest).map Prod.snd ↔
        ∀ h ∈ (((a, e1) :: rest).map Prod.snd).head?, HeadPlain W ctx s h := by
    simpa using as_list_once cells filled isQuiet run fine
  cases op
  case add =>
      change _ ↔ longestList < _
      rw [count]
      exact add_once disciplined closed awayCtx cells filled run fine
  case print =>
      exact iff_of_false (print_once disciplined closed awayCtx cells filled run fine) id
  case div => exact iff_of_true (div_once cells filled run fine) trivial
  case not =>
      change _ ↔ _ ≤ 1
      rw [count]
      exact single_once cells filledFirst
        (fun v => allows_seq (allows_bool_of v) fun b => allows_pure _) rfl run
  case third =>
      change _ ↔ _ ≤ 1
      rw [count]
      exact third_once cells filledFirst run
  case mod =>
      refine pairwise (fun x y => quiet_compare fun a b => ?_) run
      split
      · exact allows_trap
      · exact allows_alloc _
  case lt => exact pairwise (fun x y => quiet_compare fun a b => allows_pure _) run
  case gt => exact pairwise (fun x y => quiet_compare fun a b => allows_pure _) run
  case eq =>
      refine pairwise (fun x y => allows_seq (allows_load x) fun a => ?_) run
      refine allows_seq (allows_load y) fun b => ?_
      split
      · exact allows_pure _
      · split
        · exact allows_pure _
        · exact allows_seq (allows_member a.iVal) fun i =>
            allows_seq (allows_member b.iVal) fun j => allows_pure _
  case and =>
      refine pairwise (fun x y => allows_seq (allows_bool_of x) fun a => ?_) run
      split
      · exact allows_seq (allows_bool_of y) fun b => allows_pure _
      · exact allows_pure _
  case or =>
      refine pairwise (fun x y => allows_seq (allows_bool_of x) fun a => ?_) run
      split
      · exact allows_pure _
      · exact allows_seq (allows_bool_of y) fun b => allows_pure _
  case xor =>
      exact pairwise (fun x y => allows_seq (allows_bool_of x) fun a =>
        allows_seq (allows_bool_of y) fun b => allows_pure _) run
  case append => exact pairwise (fun L val => quiet_list_append L val) run
  case prepend => exact pairwise (fun L val => allows_alloc _) run
  case sub =>
      refine asList (fun v => quiet_number_pair ?_) run
      refine allows_seq (allows_list_first v) fun x => allows_seq (allows_list_second v) fun y => ?_
      exact quiet_compare fun a b => allows_alloc _
  case mult =>
      refine asList (fun v => quiet_number_pair ?_) run
      refine allows_seq (quiet_first_value ctx v) fun x => ?_
      refine allows_seq (quiet_second_value ctx v) fun y => ?_
      exact quiet_compare fun a b => allows_alloc _
  case split =>
      refine asList (fun v => allows_seq (allows_list_first v) fun x => ?_) run
      refine allows_seq (allows_list_second v) fun y => allows_seq (allows_str_of x) fun s => ?_
      exact allows_seq (allows_str_of y) fun sep => quiet_split_str s sep
  case startswith =>
      refine asList (fun v => allows_seq (allows_list_first v) fun x => ?_) run
      refine allows_seq (allows_list_second v) fun y => allows_seq (allows_str_of x) fun s => ?_
      exact allows_seq (allows_str_of y) fun start => allows_pure _
  case first =>
      refine asList (fun v => allows_seq (allows_list_len v) fun n => ?_) run
      split
      · exact allows_seq (allows_list_first v) allows_list_first
      · exact allows_list_first v
  case second =>
      refine asList (fun v => allows_seq (allows_list_len v) fun n => ?_) run
      split
      · exact allows_seq (allows_list_first v) allows_list_second
      · exact allows_list_second v
  case rest =>
      refine asList (fun v => allows_seq (allows_list_len v) fun n => ?_) run
      have remains (L : Ptr) : Quiet (blListRest L >>= fun retval => pure (orNull retval)) :=
        allows_seq (allows_list_rest L) fun retval => allows_pure _
      dsimp only
      split
      · exact allows_seq (quiet_first_value ctx v) remains
      · exact allows_seq (allows_pure v) remains
  case reverse =>
      refine asList (fun v => allows_seq (allows_list_len v) fun n => ?_) run
      have reversed (L : Ptr) : Quiet (blListReverse L) :=
        allows_call (c := .reverseLoop L .null) trivial
      dsimp only
      split
      · exact allows_seq (quiet_first_value ctx v) reversed
      · exact allows_seq (allows_pure v) reversed
  case serexp =>
      refine asList (fun v => allows_seq (allows_type_of v) fun kind => ?_) run
      have printed (p : Ptr) : Quiet (blSerSexp p >>= mkStr) :=
        allows_seq (allows_call (c := .serSexp p) trivial) fun s => allows_alloc _
      split
      · refine allows_seq (allows_list_len v) fun n => ?_
        split
        · exact allows_seq (allows_list_first v) printed
        · exact printed v
      · exact printed v
  all_goals exact absurd consumes (by decide)

instance decidableCellsAt (s : State) : (items : List (Nat × Ptr)) → (p : Ptr) →
    Decidable (CellsAt s items p)
  | [], p => inferInstanceAs (Decidable (p = .null))
  | (a, x) :: rest, p =>
      match known : s.cell p with
      | none => isFalse fun ⟨_, _, found, _⟩ => Option.some_ne_none _ (found.symm.trans known)
      | some c =>
          have := decidableCellsAt s rest c.cdr
          decidable_of_iff (p = .ref a ∧ c.type = .cons ∧ c.car = x ∧ CellsAt s rest c.cdr)
            ⟨fun ⟨isRef, type, car, later⟩ => ⟨isRef, c, known, type, car, later⟩,
              fun ⟨isRef, c', found, type, car, later⟩ =>
                have same : c' = c := Option.some_inj.1 (found.symm.trans known)
                ⟨isRef, same ▸ type, same ▸ car, same ▸ later⟩⟩

def Watch.isFine (w : Watch) (items : List (Nat × Ptr)) (params : Ptr) : Bool :=
  (w.values.all fun pair => pair.2.typeOf pair.1 != some .error) &&
    w.after.all fun s => decide (CellsAt s items params)

theorem fine_of_check {items : List (Nat × Ptr)} (check : w.isFine items params = true) :
    Fine items params w := by
  obtain ⟨values, still⟩ := Bool.and_eq_true_iff.1 check
  refine ⟨fun v s mem isError => ?_, fun s mem => of_decide_eq_true (List.all_eq_true.1 still s mem)⟩
  have value := List.all_eq_true.1 values (v, s) mem
  rw [isError] at value
  exact absurd value (by decide)

/-- A context in which `x` is 5 and `inc` is the operator, and the operands of
`(+ (inc x) 1)` and `(- x 1)`. -/
def counter : State where
  cells := staticCells ++
    [{ type := .symbol, w0 := .str (text "x"), w1 := .ofNat 0 },
     { type := .symbol, w0 := .str (text "inc"), w1 := .ofNat 1 },
     .mkNumber 5, { type := .operNative, w0 := .code (.builtin .inc) }, .mkNumber 1,
     .mkCons (.ref 7) .null, .mkCons (.ref 8) (.ref 12), .mkCons (.ref 11) .null,
     .mkCons (.ref 13) (.ref 14), .mkCons (.ref 7) (.ref 14),
     .mkCtx { Ctx.new 8 .null with
       keys := [.ref 7, .ref 8, .null, .null, .null, .null, .null, .null]
       vals := [.ref 9, .ref 10, .null, .null, .null, .null, .null, .null] }]
  symbolTable := [⟨text "inc", 8⟩, ⟨text "x", 7⟩]
  lastSymId := 2

/-- `(- x 1)` -/
theorem operands_evaluated_once_iff_sub : ∃ v t w,
    Observed World.bare (body World.bare (.native (.builtin .sub) (.ref 17) (.ref 16))) counter {}
      v t w ∧
    (w.evaluated = [.ref 7, .ref 11] ↔
      EvaluatesOnce World.bare .sub (.ref 17) counter [.ref 7, .ref 11]) := by
  have observed : ∃ v t w,
      Observed World.bare (body World.bare (.native (.builtin .sub) (.ref 17) (.ref 16))) counter {}
        v t w ∧ w.isFine [(16, .ref 7), (14, .ref 11)] (.ref 16) = true :=
    ⟨_, _, _, ⟨12, rfl⟩, rfl⟩
  obtain ⟨v, t, w, run, check⟩ := observed
  have closed : Closed counter := closed_of_check (by decide) (by decide) (by decide)
  have away : Away [] counter (.ref 17) := fun a same => by
    cases same
    exact ⟨by decide, List.not_mem_nil⟩
  exact ⟨v, t, w, run, operands_evaluated_once_iff bare_disciplined (by decide) (by simp) closed away
    (by decide : CellsAt counter [(16, .ref 7), (14, .ref 11)] (.ref 16)) (by decide) run
    (fine_of_check check)⟩

/-- `(+ (inc x) 1)`: the first operand is evaluated three times, and `x` ends as 8. -/
theorem add_operand_thrice : ∃ v t w,
    Observed World.bare (body World.bare (.native (.builtin .add) (.ref 17) (.ref 15))) counter {}
      v t w ∧ CellsAt counter [(15, .ref 13), (14, .ref 11)] (.ref 15) ∧
    Fine [(15, .ref 13), (14, .ref 11)] (.ref 15) w ∧
    w.evaluated = [.ref 13, .ref 11, .ref 13, .ref 13, .ref 11] ∧
    w.evaluated ≠ [(15, Ptr.ref 13), (14, .ref 11)].map Prod.snd ∧
    (t.cell (.ref 9)).bind Cell.iVal = some 8 := by
  have observed : ∃ v t w,
      Observed World.bare (body World.bare (.native (.builtin .add) (.ref 17) (.ref 15))) counter {}
        v t w ∧ w.isFine [(15, .ref 13), (14, .ref 11)] (.ref 15) = true ∧
      w.evaluated = [.ref 13, .ref 11, .ref 13, .ref 13, .ref 11] ∧
      (t.cell (.ref 9)).bind Cell.iVal = some 8 :=
    ⟨_, _, _, ⟨12, rfl⟩, rfl, rfl, rfl⟩
  obtain ⟨v, t, w, run, check, seen, count⟩ := observed
  refine ⟨v, t, w, run, by decide, fine_of_check check, seen, ?_, count⟩
  rw [seen]
  decide

end Calls

end BearLang.OperandEvaluation
