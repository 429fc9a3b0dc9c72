import BearLang.ArgumentBinding
import BearLang.ObservedRuns
import BearLang.ReadingPrograms

/-!
# Which operands an operator evaluates

An observer follows the activation of an operator. It goes into the loops over
the operand list, and into the evaluation of the list where the operator starts
with that, and notes the operand expressions that are evaluated.
-/

namespace BearLang.OperandEvaluation

open CallPrograms ArgumentBinding ReadingPrograms

set_option autoImplicit false

section Watching

/-- What is noted of an activation: the operand expressions that were evaluated,
in order, their values, and the states after all calls. -/
structure Watch where
  begun : Bool := false
  evaluated : List Ptr := []
  values : List (Ptr × State) := []
  after : List State := []

def evaluatesOperand : Site → Bool
  | .operand => true
  | .listElement => true
  | _ => false

def Watch.started (w : Watch) : Watch := { w with begun := true }

def Watch.answered (w : Watch) (s : State) : Watch := { w with after := w.after ++ [s] }

def Watch.noted (w : Watch) (expr v : Ptr) (s : State) : Watch :=
  { w with
    evaluated := w.evaluated ++ [expr]
    values := w.values ++ [(v, s)]
    after := w.after ++ [s] }

/-- The calls that belong to the activation. `bl_eval` does when it is the first
thing that is done: then it is given the operand list. -/
def enters (w : Watch) : Call → Bool
  | .eval .. => !w.begun
  | .evalLoop .. => !w.begun
  | .evalConsLoop .. => true
  | .addLists .. => true
  | .addSpread .. => true
  | .addNumbers .. => true
  | .addStrings .. => true
  | .printLoop .. => true
  | _ => false

def called (w : Watch) : (c : Call) → c.Answer → State → Watch
  | .eval site _ expr, v, s =>
      if evaluatesOperand site = true ∧ expr ≠ .null then w.noted expr v s else w.answered s
  | _, _, s => w.answered s

def watch : Observer bearLang State Watch where
  enters := enters
  did w _ _ := w.started
  called := called

abbrev Observed (W : World) {α : Type} (program : Prog α) (s : State) (w : Watch) (v : α)
    (t : State) (w' : Watch) : Prop :=
  (runtime W).Observed watch program s w v t w'

def CellsAt (s : State) : List (Nat × Ptr) → Ptr → Prop
  | [], p => p = .null
  | (a, x) :: rest, p => p = .ref a ∧ ∃ c, s.cell p = some c ∧ c.type = .cons ∧ c.car = x ∧
      CellsAt s rest c.cdr

/-- No operand has evaluated to an error, and the operand list was left as it
is. -/
structure Fine (items : List (Nat × Ptr)) (params : Ptr) (w : Watch) : Prop where
  values : ∀ v s, (v, s) ∈ w.values → s.typeOf v ≠ some .error
  still : ∀ s ∈ w.after, CellsAt s items params

end Watching

section Quiet

def quiet : Contract bearLang where
  op _ := True
  opAnswer _ _ := True
  call
    | .eval site _ _ => evaluatesOperand site = false
    | .evalConsLoop .. => False
    | .addLists .. => False
    | .addSpread .. => False
    | .addNumbers .. => False
    | .addStrings .. => False
    | .printLoop .. => False
    | _ => True
  callAnswer _ _ := True

abbrev Quiet {α : Type} (program : Prog α) : Prop := program.Meets quiet fun _ => True

variable {α β : Type}

instance : Reading quiet :=
  ⟨fun _ => trivial, fun _ => trivial, trivial, fun _ _ => trivial, fun _ _ => trivial⟩

theorem quiet_op (op : Op) : Quiet (.perform op .done : Prog op.Answer) := allows_op op trivial

theorem quiet_eval {site : Site} (other : evaluatesOperand site = false) (ctx expr : Ptr) :
    Quiet (blEval site ctx expr) := allows_call (c := .eval site ctx expr) other

theorem quiet_list_append (L val : Ptr) : Quiet (blListAppend L val) := by
  unfold blListAppend
  split
  · exact allows_alloc _
  · refine allows_seq (allows_call (c := .lastCell L) trivial) fun last => ?_
    refine allows_seq (allows_alloc _) fun new => ?_
    exact allows_seq (quiet_op (.setCdr .append last new)) fun _ => allows_pure L

theorem quiet_first_value (ctx params : Ptr) : Quiet (evalFirstValue ctx params) :=
  allows_seq (allows_list_first params) (quiet_eval rfl ctx)

theorem quiet_second_value (ctx params : Ptr) : Quiet (evalSecondValue ctx params) :=
  allows_seq (allows_list_second params) (quiet_eval rfl ctx)

theorem quiet_split_str (s sep : CStr) : Quiet (splitStr s sep) := by
  unfold splitStr
  split
  · exact allows_pure _
  · split
    · refine allows_seq (allows_alloc _) fun p => ?_
      refine allows_seq (allows_seq (allows_alloc _) fun _ => allows_pure _) fun retval => ?_
      exact allows_call (c := .reverseLoop retval .null) trivial
    · exact allows_call (c := .splitLoop s sep .null) trivial

theorem quiet_native (ctx expr car : Ptr) : Quiet (evalNative ctx expr car) := by
  refine allows_seq (allows_load expr) fun e => allows_seq (allows_load car) fun op => ?_
  refine allows_seq (allows_member op.codePtr) fun codePtr => ?_
  have rest : Quiet (load expr >>= fun e => setInvoked e.cdr e.car op.customData >>= fun _ =>
      call (.native codePtr ctx e.cdr) >>= fun retval => pure (orNull retval)) :=
    allows_seq (allows_load expr) fun e => allows_seq (quiet_op (.setInvoked _ _ _)) fun _ =>
      allows_seq (allows_call (c := .native codePtr ctx e.cdr) trivial) fun _ => allows_pure _
  split
  · exact allows_seq (quiet_op (.setCdr _ _ _)) fun _ => rest
  · exact rest

theorem quiet_eval_if (probe : Bool) (ctx expr : Ptr) : Quiet (blEvalIf probe ctx expr) := by
  refine allows_seq (allows_load expr) fun e => ?_
  refine allows_seq (allows_list_first e.cdr) fun condExpr => ?_
  refine allows_seq (quiet_eval rfl ctx condExpr) fun cond => ?_
  refine allows_seq (allows_load cond) fun c => ?_
  split
  · exact allows_pure _
  · split
    · exact allows_alloc _
    · refine allows_seq (allows_member c.bVal) fun b => allows_seq (allows_load expr) fun e => ?_
      split
      · exact allows_seq (allows_list_second e.cdr) (quiet_eval rfl ctx)
      · exact allows_seq (allows_list_third e.cdr) (quiet_eval rfl ctx)

theorem quiet_run_func_body (func : Ptr) : Quiet (runFuncBody func) := by
  refine allows_seq (quiet_op (.startBody func)) fun _ => allows_seq (allows_load func) fun f => ?_
  refine allows_seq (allows_call (c := .funcbody func f.car) trivial) fun retval => ?_
  exact allows_seq (quiet_op .leave) fun _ => allows_pure _

theorem quiet_func_bl (ctx expr car : Ptr) : Quiet (evalFuncBl ctx expr car) := by
  refine allows_seq (allows_load expr) fun e => allows_seq (quiet_eval rfl ctx e.cdr) fun args => ?_
  refine allows_seq (allows_list_len expr) fun n => ?_
  refine allows_seq (quiet_op (.enterFunc car)) fun _ => ?_
  refine allows_seq (allows_load car) fun f => ?_
  refine allows_seq (allows_member f.innerClosure) fun inner => ?_
  split
  · exact allows_seq (allows_call (c := .setParams inner f.cdr args) trivial) fun _ =>
      quiet_run_func_body car
  · exact quiet_run_func_body car

theorem quiet_ctx_new (parent : Ptr) : Quiet (blCtxNew parent) := by
  unfold blCtxNew
  split
  · exact allows_alloc _
  · refine allows_seq ?_ fun c => allows_alloc _
    exact allows_seq (allows_load parent) fun cell => allows_member cell.asCtx

theorem quiet_oper_bl (expr car : Ptr) : Quiet (evalOperBl expr car) := by
  refine allows_seq (allows_load expr) fun e => allows_seq (allows_load car) fun o => ?_
  refine allows_seq (allows_member o.lexicalClosure) fun lexical => ?_
  refine allows_seq (quiet_ctx_new lexical) fun new => ?_
  refine allows_seq (quiet_op (.setInner car new)) fun _ => ?_
  refine allows_seq (allows_list_len expr) fun n => ?_
  refine allows_seq (quiet_op (.enterOper car)) fun _ => ?_
  refine allows_seq (allows_load car) fun o => ?_
  refine allows_seq (allows_member o.innerClosure) fun inner => ?_
  have rest : Quiet (load car >>= fun o => member o.innerClosure >>= fun inner =>
      setWriteToParent inner >>= fun _ => call (.bodyLoop .operBody inner o.car nullVal) >>=
        fun result => leave >>= fun _ => pure (orNull result.2)) :=
    allows_seq (allows_load car) fun o => allows_seq (allows_member o.innerClosure) fun inner =>
      allows_seq (quiet_op (.setWriteToParent inner)) fun _ =>
        allows_seq (allows_call (c := .bodyLoop .operBody inner o.car nullVal) trivial) fun _ =>
          allows_seq (quiet_op .leave) fun _ => allows_pure _
  split
  · exact allows_seq (allows_call (c := .setParams inner o.cdr e.cdr) trivial) fun _ => rest
  · exact rest

end Quiet

section Rules

variable {W : World} {α β : Type} {s t : State} {w w' : Watch}

structure Watch.Before (w w' : Watch) : Prop where
  begun : w.begun = true → w'.begun = true
  evaluated : w.evaluated <+: w'.evaluated
  values : w.values ⊆ w'.values
  after : w.after ⊆ w'.after

theorem before_refl (w : Watch) : w.Before w :=
  ⟨id, List.prefix_refl _, List.Subset.refl _, List.Subset.refl _⟩

theorem before_trans {u v w : Watch} (first : u.Before v) (second : v.Before w) : u.Before w :=
  ⟨second.begun ∘ first.begun, first.evaluated.trans second.evaluated,
    List.Subset.trans first.values second.values, List.Subset.trans first.after second.after⟩

theorem before_answered (w : Watch) (s : State) : w.Before (w.answered s) :=
  ⟨id, List.prefix_refl _, List.Subset.refl _, List.subset_append_left _ _⟩

theorem before_noted (w : Watch) (expr v : Ptr) (s : State) : w.Before (w.noted expr v s) :=
  ⟨id, List.prefix_append _ _, List.subset_append_left _ _, List.subset_append_left _ _⟩

theorem before_called (w : Watch) (c : Call) : ∀ (answer : c.Answer) (s : State),
    w.Before (called w c answer s) := by
  cases c with
  | eval site ctx expr =>
      intro v s
      change w.Before (if _ then w.noted expr v s else w.answered s)
      split
      · exact before_noted w expr v s
      · exact before_answered w s
  | _ => exact fun answer s => before_answered w s

theorem observed_grows {program : Prog α} {v : α} (run : Observed W program s w v t w') :
    w.Before w' :=
  observed_related before_refl before_trans
    (fun _ _ _ => ⟨fun _ => rfl, List.prefix_refl _, List.Subset.refl _, List.Subset.refl _⟩)
    before_called run

theorem quiet_passes (begun : w.begun = true) {c : Call} (allowed : quiet.call c) :
    enters w c = false := by
  cases c <;> first | rfl | exact absurd allowed id | simp [enters, begun]

theorem quiet_called {w : Watch} {c : Call} (allowed : quiet.call c) (answer : c.Answer)
    (s : State) : called w c answer s = w.answered s := by
  cases c with
  | eval site ctx expr =>
      have other : evaluatesOperand site = false := allowed
      simp [called, other]
  | _ => rfl

theorem quiet_keeps {program : Prog α} (isQuiet : Quiet program) (begun : w.begun = true) {v : α}
    (run : Observed W program s w v t w') : w'.evaluated = w.evaluated :=
  (observed_keeps (P := fun u => u.begun = true ∧ u.evaluated = w.evaluated)
    (fun _ _ _ kept => ⟨rfl, kept.2⟩) (fun _ _ kept allowed => quiet_passes kept.1 allowed)
    (fun u c answer m kept allowed => by
      change (called u c answer m).begun = true ∧ (called u c answer m).evaluated = w.evaluated
      rw [quiet_called allowed]
      exact kept)
    (fun _ _ => trivial) (fun _ _ => trivial) isQuiet ⟨begun, rfl⟩ run).2

theorem seen_bind {program : Prog α} {f : α → Prog β} {v : β} :
    Observed W (program >>= f) s w v t w' ↔ ∃ a m u, Observed W program s w a m u ∧
      Observed W (f a) m u v t w' := observed_bind

theorem seen_pure {a v : α} :
    Observed W (pure a) s w v t w' ↔ a = v ∧ s = t ∧ w = w' := observed_done

theorem seen_load {p : Ptr} {f : Cell → Prog α} {v : α} :
    Observed W (load p >>= f) s w v t w' ↔
      ∃ c, s.cell p = some c ∧ Observed W (f c) s w.started v t w' := by
  constructor
  · intro run
    obtain ⟨c, m, stepped, rest⟩ := observed_perform.1 run
    obtain ⟨c', found, rfl, rfl⟩ := mapped_spec stepped
    exact ⟨_, found, rest⟩
  · rintro ⟨c, found, rest⟩
    refine observed_perform.2 ⟨c, s, ?_, rest⟩
    change (s.cell p).map (fun c => (c, s)) = some (c, s)
    rw [found]
    rfl

theorem seen_type_of {p : Ptr} {f : ValType → Prog α} {v : α} :
    Observed W (typeOf p >>= f) s w v t w' ↔
      ∃ c, s.cell p = some c ∧ Observed W (f c.type) s w.started v t w' := seen_load

theorem seen_alloc {c : Cell} {f : Ptr → Prog α} {v : α} :
    Observed W (alloc c >>= f) s w v t w' ↔
      Observed W (f (.ref s.fresh)) (s.allocated c) w.started v t w' := by
  constructor
  · intro run
    obtain ⟨p, m, stepped, rest⟩ := observed_perform.1 run
    cases stepped
    exact rest
  · exact fun rest => observed_perform.2 ⟨_, _, rfl, rest⟩

theorem seen_call {c : Call} {f : c.Answer → Prog α} {v : α} (outside : enters w c = false) :
    Observed W (call c >>= f) s w v t w' ↔ ∃ a m, (runtime W).Runs (call c) s a m ∧
      Observed W (f a) m (called w c a m) v t w' := by
  refine (observed_outside (O := watch) outside).trans ?_
  simp only [runs_call_iff]
  rfl

theorem seen_inside {c : Call} {f : c.Answer → Prog α} {v : α} (inside : enters w c = true) :
    Observed W (call c >>= f) s w v t w' ↔ ∃ a m u, Observed W (body W c) s w a m u ∧
      Observed W (f a) m u v t w' := observed_inside (O := watch) inside

theorem seen_tail {c : Call} {v : c.Answer} (inside : enters w c = true) :
    Observed W (call c) s w v t w' ↔ Observed W (body W c) s w v t w' := by
  refine (observed_inside (O := watch) inside).trans ?_
  constructor
  · rintro ⟨a, m, u, run, rest⟩
    obtain ⟨rfl, rfl, rfl⟩ := observed_done.1 rest
    exact run
  · exact fun run => ⟨v, t, w', run, observed_done.2 ⟨rfl, rfl, rfl⟩⟩

theorem seen_operand {site : Site} {ctx expr : Ptr} {f : Ptr → Prog α} {v : α}
    (begun : w.begun = true) (operand : evaluatesOperand site = true) (filled : expr ≠ .null) :
    Observed W (blEval site ctx expr >>= f) s w v t w' ↔
      ∃ a m, (runtime W).Runs (blEval site ctx expr) s a m ∧
        Observed W (f a) m (w.noted expr a m) v t w' := by
  have outside : enters w (.eval site ctx expr) = false := by simp [enters, begun]
  have noted : ∀ a m, called w (.eval site ctx expr) a m = w.noted expr a m := fun a m =>
    if_pos ⟨operand, filled⟩
  refine (seen_call (c := .eval site ctx expr) outside).trans ?_
  simp only [noted]
  rfl

end Rules

section Cells

variable {s : State} {items : List (Nat × Ptr)} {p : Ptr}

def startOf : List (Nat × Ptr) → Ptr
  | [] => .null
  | (a, _) :: _ => .ref a

theorem cells_at_start (cells : CellsAt s items p) : p = startOf items := by
  cases items with
  | nil => exact cells
  | cons item rest => exact cells.1

theorem cells_at_drop {before rest : List (Nat × Ptr)} (parts : items = before ++ rest)
    (cells : CellsAt s items p) : CellsAt s rest (startOf rest) := by
  subst parts
  induction before generalizing p with
  | nil =>
      have start := cells_at_start cells
      rw [List.nil_append] at cells start
      rw [← start]
      exact cells
  | cons item before ih =>
      obtain ⟨_, c, _, _, _, later⟩ := cells
      exact ih later

theorem cells_at_bound (cells : CellsAt s items p) : ∀ x ∈ items, x.1 < s.fresh := by
  induction items generalizing p with
  | nil => exact fun _ mem => absurd mem List.not_mem_nil
  | cons item rest ih =>
      obtain ⟨rfl, c, found, _, _, later⟩ := cells
      intro x mem
      rcases List.mem_cons.1 mem with rfl | mem
      · exact State.ref_lt_fresh found
      · exact ih later x mem

theorem cells_at_of_same {t : State} (same : ∀ x ∈ items, t.cell (.ref x.1) = s.cell (.ref x.1))
    (cells : CellsAt s items p) : CellsAt t items p := by
  induction items generalizing p with
  | nil => exact cells
  | cons item rest ih =>
      obtain ⟨rfl, c, found, type, car, later⟩ := cells
      refine ⟨rfl, c, ?_, type, car, ih (fun x mem => same x (List.mem_cons_of_mem _ mem)) later⟩
      rw [same item List.mem_cons_self]
      exact found

theorem cells_at_allocated (cells : CellsAt s items p) (c : Cell) :
    CellsAt (s.allocated c) items p := by
  refine cells_at_of_same (fun x mem => ?_) cells
  have bound := cells_at_bound cells x mem
  have held := State.cell_allocated_old (s := s) (p := .ref x.1)
    (List.getElem?_eq_getElem bound) c
  rw [held]
  exact (List.getElem?_eq_getElem bound).symm

theorem cells_at_put {a : Nat} (cells : CellsAt s items p) (other : ∀ x ∈ items, x.1 ≠ a)
    (c : Cell) : CellsAt (s.put a c) items p :=
  cells_at_of_same (fun x mem => State.cell_put_other (fun same =>
    other x mem (Ptr.ref.inj same)) c) cells

theorem list_at_cells (cells : CellsAt s items p) : ListAt s (items.map Prod.snd) p := by
  induction items generalizing p with
  | nil => exact cells
  | cons item rest ih =>
      obtain ⟨rfl, c, found, type, car, later⟩ := cells
      exact ⟨item.1, c, rfl, found, type, car, ih later⟩

theorem cells_of_list_at {xs : List Ptr} (list : ListAt s xs p) :
    ∃ items, items.map Prod.snd = xs ∧ CellsAt s items p := by
  induction xs generalizing p with
  | nil => exact ⟨[], rfl, list⟩
  | cons x xs ih =>
      obtain ⟨a, c, rfl, found, type, car, later⟩ := list
      obtain ⟨items, same, cells⟩ := ih later
      exact ⟨(a, x) :: items, by rw [List.map_cons, same], rfl, c, found, type, car, cells⟩

end Cells

section Collecting

variable {W : World} {s t : State} {w w' : Watch}

/-- The operand list survives what the loop links behind the last value. -/
theorem cells_at_collected {items : List (Nat × Ptr)} {params last v : Ptr}
    (cells : CellsAt s items params) (other : ∀ x ∈ items, last ≠ .ref x.1) :
    CellsAt (s.collected last v) items params := by
  have made := cells_at_allocated cells (.mkCons v .null)
  unfold State.collected
  cases last with
  | ref a =>
      dsimp only
      split
      · exact cells_at_put made (fun x mem same => other x mem (same ▸ rfl)) _
      · exact made
  | null => exact made
  | wild => exact made

/-- The link to the new cell, as the loop of `bl_eval_cons` does it. -/
def linkLast (ctx i start last new : Ptr) : Prog Ptr :=
  if last = .null then do
    let c ← load i
    call (.evalConsLoop ctx c.cdr new new)
  else do
    setCdr .build last new
    let c ← load i
    call (.evalConsLoop ctx c.cdr start new)

theorem seen_link {ctx i start last v r : Ptr}
    (run : Observed W (linkLast ctx i start last (.ref s.fresh)) (s.allocated (.mkCons v .null)) w r
      t w') : ∃ c next u, (s.collected last v).cell i = some c ∧
        Observed W (evalConsLoop ctx c.cdr next (.ref s.fresh)) (s.collected last v) u r t w' ∧
        u.evaluated = w.evaluated := by
  unfold linkLast at run
  split at run
  · rename_i first
    subst first
    obtain ⟨c, found, rest⟩ := seen_load.1 run
    exact ⟨c, _, _, found, (seen_tail (c := .evalConsLoop ctx c.cdr _ _) rfl).1 rest, rfl⟩
  · rename_i later
    obtain ⟨_, m, stepped, rest⟩ := observed_perform.1 run
    have linked : m = s.collected last v := by
      change State.modify _ _ _ = _ at stepped
      unfold State.modify at stepped
      unfold State.collected
      cases last with
      | ref a =>
          cases held : (s.allocated (.mkCons v .null)).cells[a]? with
          | none =>
              simp only [held] at stepped
              cases stepped
          | some c =>
              simp only [held] at stepped ⊢
              cases stepped
              rfl
      | null => exact absurd rfl later
      | wild => cases stepped
    subst linked
    obtain ⟨c, found, rest⟩ := seen_load.1 rest
    exact ⟨c, _, _, found, (seen_tail (c := .evalConsLoop ctx c.cdr _ _) rfl).1 rest, rfl⟩

/-- The loop of `bl_eval_cons` over the operands that are left evaluates each of
them, in order. -/
theorem eval_cons_loop_evaluates {items before rest : List (Nat × Ptr)}
    {ctx params start last r : Ptr} (parts : items = before ++ rest)
    (cells : CellsAt s items params)
    (filled : ∀ x ∈ items, x.2 ≠ .null) (other : ∀ x ∈ items, last ≠ .ref x.1)
    (run : Observed W (evalConsLoop ctx (startOf rest) start last) s w r t w')
    (fine : Fine items params w') :
    ∃ vs, Collects W ctx (startOf rest) last s vs t ∧ vs.length = rest.length ∧
      w'.evaluated = w.evaluated ++ rest.map Prod.snd ∧ CellsAt t items params := by
  induction rest generalizing before start last s w with
  | nil =>
      rw [startOf, evalConsLoop, if_pos rfl] at run
      obtain ⟨rfl, rfl, rfl⟩ := seen_pure.1 run
      exact ⟨[], .done _ _, rfl, (List.append_nil _).symm, cells⟩
  | cons item rest ih =>
      obtain ⟨a, expr⟩ := item
      have listed : (a, expr) ∈ items := parts ▸ List.mem_append_right _ List.mem_cons_self
      have here {u : State} (whole : CellsAt u items params) :
          CellsAt u ((a, expr) :: rest) (.ref a) := cells_at_drop parts whole
      have parts' : items = (before ++ [(a, expr)]) ++ rest := by rw [parts, List.append_cons]
      rw [startOf, evalConsLoop, if_neg (by simp)] at run
      obtain ⟨c, found, run⟩ := seen_load.1 run
      obtain ⟨_, c', found', _, car, _⟩ := here cells
      rw [found] at found'
      cases found'
      rw [car] at run
      obtain ⟨v, m, evaluated, run⟩ := (seen_operand rfl rfl (filled _ listed)).1 run
      have grown := observed_grows run
      have still : CellsAt m items params := fine.still m (grown.after (by simp [Watch.noted]))
      have value := fine.values v m (grown.values (by simp [Watch.noted]))
      obtain ⟨vc, known, run⟩ := seen_type_of.1 run
      have noError : vc.type ≠ .error := by
        intro isError
        rw [State.typeOf, known, Option.map_some, isError] at value
        exact value rfl
      rw [if_neg noError] at run
      obtain ⟨cell, next, u, foundCell, later, same⟩ := seen_link (seen_alloc.1 run)
      have collected := cells_at_collected (v := v) still other
      obtain ⟨_, c1, found1, _, _, tail1⟩ := here collected
      rw [foundCell] at found1
      cases found1
      obtain ⟨_, c2, found2, _, _, tail2⟩ := here still
      have start1 := cells_at_start tail1
      rw [start1] at later
      obtain ⟨vs, collects, length, seen, final⟩ := ih parts' collected
        (fun x mem same => Nat.ne_of_gt (cells_at_bound still x mem) (Ptr.ref.inj same)) later
      refine ⟨v :: vs, ?_, congrArg (· + 1) length, ?_, final⟩
      · refine .next found ?_ known noError found2 ?_
        · rw [car]
          exact evaluated
        · rw [cells_at_start tail2]
          exact collects
      · rw [seen, same]
        simp [Watch.noted, Watch.started]

theorem eval_cons_evaluates {items : List (Nat × Ptr)} {ctx params r : Ptr} (some_ : items ≠ [])
    (cells : CellsAt s items params) (filled : ∀ x ∈ items, x.2 ≠ .null)
    (run : Observed W (blEvalCons ctx params) s w r t w') (fine : Fine items params w') :
    w'.begun = true ∧ ∃ vs, Collects W ctx params .null s vs t ∧ vs.length = items.length ∧
      w'.evaluated = w.evaluated ++ items.map Prod.snd ∧ CellsAt t items params := by
  have start := cells_at_start cells
  have more : params ≠ .null := by
    rw [start]
    cases items with
    | nil => exact absurd rfl some_
    | cons item rest => simp [startOf]
  rw [blEvalCons, if_neg more] at run
  have inner : Observed W (evalConsLoop ctx params .null .null) s w r t w' :=
    (seen_tail (c := .evalConsLoop ctx params .null .null) rfl).1 run
  have shape := inner
  rw [evalConsLoop, if_neg more] at shape
  obtain ⟨c, _, shape⟩ := seen_load.1 shape
  refine ⟨(observed_grows shape).begun rfl, ?_⟩
  rw [start] at inner
  obtain ⟨vs, collects, rest⟩ := eval_cons_loop_evaluates (List.nil_append items).symm cells filled
    (fun _ _ => by simp) inner fine
  rw [← start] at collects
  exact ⟨vs, collects, rest⟩

end Collecting

section Lists

variable {W : World} {s t u : State} {w w' : Watch} {ctx : Ptr}

theorem head_value_unique {h v v' : Ptr} {u' : State} (first : HeadValue W ctx h s v u)
    (second : HeadValue W ctx h s v' u') : v = v' ∧ u = u' := by
  cases first with
  | symbol known type found _ =>
      cases second with
      | symbol _ _ found' _ => exact runs_functional found found'
      | other known' other =>
          rw [known] at known'
          cases known'
          exact absurd type other
  | other known other =>
      cases second with
      | symbol known' type _ _ =>
          rw [known] at known'
          cases known'
          exact absurd type other
      | other _ _ => exact ⟨rfl, rfl⟩

/-- The head of a list is there and is not called, so the list is taken for a
list of values. -/
def HeadPlain (W : World) (ctx : Ptr) (s : State) (h : Ptr) : Prop :=
  ∃ v u c, HeadValue W ctx h s v u ∧ u.cell v = some c ∧ ¬ Called c.type

theorem seen_apply_plain {expr v r : Ptr} {c : Cell} (known : s.cell v = some c)
    (plain : ¬ Called c.type) (run : Observed W (evalApply ctx expr v) s w r t w') :
    Observed W (blEvalCons ctx expr >>= fun retval => pure (orNull retval)) s w.started r t w' := by
  obtain ⟨c', found, run⟩ := seen_load.1 run
  rw [known] at found
  cases found
  cases kind : c.type <;> rw [kind] at run plain <;> first
    | exact run
    | exact absurd (by decide) plain

/-- A call that takes the place of the list evaluates no operand itself. -/
theorem seen_apply_called {expr v r : Ptr} {c : Cell} (known : s.cell v = some c)
    (isCalled : Called c.type) (run : Observed W (evalApply ctx expr v) s w r t w') :
    w'.evaluated = w.evaluated := by
  obtain ⟨c', found, run⟩ := seen_load.1 run
  rw [known] at found
  cases found
  have nothing {program : Prog Ptr} (isQuiet : Quiet program)
      (run : Observed W program s w.started r t w') : w'.evaluated = w.evaluated := by
    have kept : w'.evaluated = w.started.evaluated := quiet_keeps isQuiet rfl run
    exact kept
  cases kind : c.type <;> rw [kind] at run isCalled
  case error => exact nothing (allows_pure v) run
  case operNative => exact nothing (quiet_native ctx expr v) run
  case operDo =>
      refine nothing (allows_seq (allows_load expr) fun e => ?_) run
      exact allows_seq (allows_call (c := .bodyLoop .doElement ctx e.cdr nullVal) trivial) fun _ =>
        allows_pure _
  case operIf =>
      refine nothing (allows_seq (quiet_eval_if false ctx expr) fun retval => ?_) run
      refine allows_seq (allows_type_of retval) fun kind => ?_
      split
      · exact allows_pure _
      · exact allows_call (c := .evalLoop ctx retval) trivial
  case operWhile =>
      refine nothing (allows_seq (allows_load expr) fun e => ?_) run
      exact allows_seq (allows_list_first e.cdr) fun cond =>
        allows_call (c := .whileLoop ctx expr cond) trivial
  case funcBl => exact nothing (quiet_func_bl ctx expr v) run
  case operBl => exact nothing (quiet_oper_bl expr v) run
  all_goals exact absurd isCalled (by decide)

/-- The evaluation of a list, where it is the first thing that is done, goes by
the head. -/
theorem eval_list_by_head {params e1 r : Ptr} {a : Nat} {rest : List (Nat × Ptr)}
    (cells : CellsAt s ((a, e1) :: rest) params) (filled : e1 ≠ .null)
    (run : Observed W (blEval .operand ctx params) s {} r t w')
    (fine : Fine ((a, e1) :: rest) params w') :
    w'.begun = true ∧
    ((∃ v u w, HeadValue W ctx e1 s v u ∧ CellsAt u ((a, e1) :: rest) params ∧
      w.evaluated = [] ∧ Observed W (evalApply ctx params v) u w r t w') ∨
    ((∀ v u, ¬ HeadValue W ctx e1 s v u) ∧ w'.evaluated = [])) := by
  have cells' := cells
  obtain ⟨rfl, c, known, type, rfl, _⟩ := cells'
  have outer : Observed W (evalBody ctx (.ref a)) s {} r t w' :=
    (seen_tail (c := .eval .operand ctx (.ref a)) rfl).1 run
  rw [evalBody, if_neg (by simp)] at outer
  have inner : Observed W (evalLoopBody ctx (.ref a)) s {} r t w' :=
    (seen_tail (c := .evalLoop ctx (.ref a)) rfl).1 outer
  rw [evalLoopBody, if_neg (by simp)] at inner
  obtain ⟨c', found, inner⟩ := seen_load.1 inner
  rw [known] at found
  cases found
  rw [type] at inner
  simp only [if_neg filled] at inner
  obtain ⟨head, headKnown, inner⟩ := seen_load.1 inner
  refine ⟨(observed_grows inner).begun rfl, ?_⟩
  by_cases isSymbol : head.type = .symbol
  · rw [if_pos isSymbol] at inner
    obtain ⟨v, u, found, inner⟩ := (seen_call (c := .ctxGet ctx c.car) rfl).1 inner
    by_cases unbound : v = .null
    · right
      rw [if_pos unbound] at inner
      refine ⟨fun v' u' value => ?_, ?_⟩
      · cases value with
        | symbol _ _ found' bound => exact bound ((runs_functional found' found).1.trans unbound)
        | other known' other =>
            rw [headKnown] at known'
            cases known'
            exact other isSymbol
      · refine quiet_keeps ?_ rfl inner
        exact allows_seq (allows_member head.sVal) fun name => allows_alloc _
    · left
      rw [if_neg unbound] at inner
      refine ⟨v, u, _, .symbol headKnown isSymbol found unbound, ?_, rfl, inner⟩
      exact fine.still u ((observed_grows inner).after (by simp [called, Watch.answered]))
  · left
    rw [if_neg isSymbol] at inner
    exact ⟨c.car, s, _, .other headKnown isSymbol, cells, rfl, inner⟩

/-- Every operand is evaluated once, or none where the list is taken for a call. -/
theorem eval_list_evaluates {params e1 r : Ptr} {a : Nat} {rest : List (Nat × Ptr)}
    (cells : CellsAt s ((a, e1) :: rest) params) (filled : ∀ x ∈ (a, e1) :: rest, x.2 ≠ .null)
    (run : Observed W (blEval .operand ctx params) s {} r t w')
    (fine : Fine ((a, e1) :: rest) params w') :
    w'.begun = true ∧
      (w'.evaluated = ((a, e1) :: rest).map Prod.snd ↔ HeadPlain W ctx s e1) := by
  have none_ : [] ≠ ((a, e1) :: rest).map Prod.snd := by simp
  obtain ⟨begun, byHead⟩ := eval_list_by_head cells (filled _ List.mem_cons_self) run fine
  refine ⟨begun, ?_⟩
  rcases byHead with ⟨v, u, w, head, still, fresh, applied⟩ | ⟨unbound, seen⟩
  · have shape := applied
    obtain ⟨c, known, _⟩ := seen_load.1 shape
    by_cases isCalled : Called c.type
    · have seen := (seen_apply_called known isCalled applied).trans fresh
      refine ⟨fun whole => absurd (seen.symm.trans whole) none_, ?_⟩
      rintro ⟨v', u', c', head', known', plain⟩
      obtain ⟨rfl, rfl⟩ := head_value_unique head head'
      rw [known] at known'
      cases known'
      exact absurd isCalled plain
    · refine ⟨fun _ => ⟨v, u, c, head, known, isCalled⟩, fun _ => ?_⟩
      obtain ⟨L, m, w1, collected, last⟩ := seen_bind.1 (seen_apply_plain known isCalled applied)
      obtain ⟨_, _, rfl⟩ := seen_pure.1 last
      obtain ⟨_, vs, _, _, seen, _⟩ := eval_cons_evaluates (by simp) still filled collected fine
      rw [seen]
      change w.evaluated ++ _ = _
      rw [fresh, List.nil_append]
  · refine ⟨fun whole => absurd (seen.symm.trans whole) none_, ?_⟩
    rintro ⟨v, u, _, head, _⟩
    exact absurd head (unbound v u)

end Lists

end BearLang.OperandEvaluation
