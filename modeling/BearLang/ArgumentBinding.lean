import BearLang.ContextRefinement
import BearLang.ListEvaluation

/-!
# Arguments and parameters

`bl_set_params` binds the parameters in the closure of a function, one by one.
The arguments come from `bl_eval` of the argument list, which takes a list whose
head can be called for a call.
-/

namespace BearLang.ArgumentBinding

open CallPrograms ContextRefinement

set_option autoImplicit false

section Functions

/-- A context cell whose arrays have the size it says, and that takes its own
bindings. -/
def OpenContext (s : State) (p : Ptr) (c : Cell) (ctx : Ctx) : Prop :=
  s.cell p = some c ∧ c.type = .ctx ∧ c.tail = .ctx ctx ∧ Sized ctx ∧ ctx.writeToParent = false

/-- A function with these parameters, whose names have these ids, and the
context its body runs in. -/
structure FunctionValue (s : State) (func inner : Ptr) (params : List Ptr) (ids : List Nat) :
    Prop where
  cell : ∃ f, s.cell func = some f ∧ f.type = .funcBl ∧ ListAt s params f.cdr ∧
    f.innerClosure = some inner
  named : params.map (symIdOf s) = ids.map some
  closure : ∃ c ctx, OpenContext s inner c ctx

def Bound (s : State) (ctx : Ptr) (id : Nat) (v : Ptr) : Prop :=
  step (.ctxVal ctx id) s = some (v, s)

end Functions

section Parameters

variable {W : World} {s t : State}

theorem sym_ids_kept {keys : List Ptr} {ids : List Nat} (kept : KeepsWords s t)
    (named : keys.map (symIdOf s) = ids.map some) : keys.map (symIdOf t) = ids.map some := by
  rw [← named]
  refine List.map_congr_left fun key mem => ?_
  have known : symIdOf s key ∈ ids.map some := named ▸ List.mem_map_of_mem mem
  obtain ⟨id, _, same⟩ := List.mem_map.1 known
  obtain ⟨cell, found, _⟩ := Option.bind_eq_some_iff.1 same.symm
  exact sym_id_kept kept found

theorem stored_kept {a : Nat} {c : Cell} {ctx : Ctx} (found : s.cell (.ref a) = some c) :
    (s.put a { c with tail := .ctx ctx }).cell (.ref a) = some { c with tail := .ctx ctx } :=
  State.cell_put_same (State.ref_lt_fresh found) _

/-- What a slot holds after the values are bound in order. -/
def lastBound : List (Nat × Ptr) → Nat → Ptr → Ptr
  | [], _, old => old
  | (id, v) :: rest, i, old => lastBound rest i (if i = id then v else old)

theorem last_bound_other {pairs : List (Nat × Ptr)} {i : Nat} (other : ∀ p ∈ pairs, p.1 ≠ i)
    (old : Ptr) : lastBound pairs i old = old := by
  induction pairs generalizing old with
  | nil => rfl
  | cons pair rest ih =>
      have ne : i ≠ pair.1 := fun same => other pair List.mem_cons_self same.symm
      rw [lastBound, if_neg ne]
      exact ih (fun p mem => other p (List.mem_cons_of_mem _ mem)) old

theorem last_bound_member {ids : List Nat} {vs : List Ptr} (distinct : ids.Nodup) {p : Nat × Ptr}
    (mem : p ∈ ids.zip vs) (old : Ptr) : lastBound (ids.zip vs) p.1 old = p.2 := by
  induction ids generalizing vs old with
  | nil => simp at mem
  | cons id ids ih =>
      cases vs with
      | nil => simp at mem
      | cons v vs =>
          rw [List.zip_cons_cons] at mem ⊢
          obtain ⟨fresh, distinct'⟩ := List.nodup_cons.1 distinct
          rcases List.mem_cons.1 mem with rfl | later
          · rw [lastBound, if_pos rfl]
            refine last_bound_other (fun q inside same => fresh ?_) v
            have key : q.1 = id := same
            rw [← key]
            exact (List.of_mem_zip inside).1
          · rw [lastBound]
            exact ih distinct' later _

/-- What binding the parameters leaves: the other cells are as before. -/
structure Binds (s t : State) (a : Nat) (c : Cell) (old : Ctx) (pairs : List (Nat × Ptr)) :
    Prop where
  others : ∀ p, p ≠ .ref a → t.cell p = s.cell p
  same : t.fresh = s.fresh ∧ t.symbolTable = s.symbolTable
  closure : ∃ new, OpenContext t (.ref a) { c with tail := .ctx new } new ∧
    new.parent = old.parent ∧ new.ctxGet = old.ctxGet ∧
    ∀ i, new.vals.getD i .null = lastBound pairs i (old.vals.getD i .null)

/-- The loop of `bl_set_params`, with no more values than parameters. -/
theorem set_params_binds {a : Nat} {c : Cell} {old : Ctx} {params vs : List Ptr} {ids : List Nat}
    {names vals : Ptr} (closure : OpenContext s (.ref a) c old) (listed : ListAt s params names)
    (given : ListAt s vs vals) (named : params.map (symIdOf s) = ids.map some)
    (enough : vs.length ≤ params.length) (some_ : vs ≠ []) :
    ∃ t, (runtime W).Runs (blSetParams (.ref a) names vals) s () t ∧
      Binds s t a c old (ids.zip vs) := by
  induction params generalizing s c old vs ids names vals with
  | nil => exact absurd (List.length_eq_zero_iff.1 (Nat.le_zero.1 enough)) some_
  | cons name params ih =>
      cases vs with
      | nil => contradiction
      | cons v vs =>
      cases ids with
      | nil => simp at named
      | cons id ids =>
      obtain ⟨n, nc, rfl, nKnown, nType, rfl, listed'⟩ := listed
      obtain ⟨m, mc, rfl, mKnown, mType, rfl, given'⟩ := given
      simp only [List.map_cons, List.cons.injEq] at named
      obtain ⟨keyCell, keyFound, symId⟩ := Option.bind_eq_some_iff.1 named.1
      obtain ⟨found, type, tail, sized, own⟩ := closure
      obtain ⟨new, stored, bind⟩ := ctx_set_stores (W := W) mc.car found tail sized own keyFound symId
      have kept := keeps_words_put found new
      -- the cells of both lists are list cells, and the context is none
      have apart : ∀ {p : Ptr} {d : Cell}, s.cell p = some d → d.type = .cons → p ≠ .ref a := by
        rintro p d known isCons rfl
        rw [found] at known
        cases known
        rw [type] at isCons
        cases isCons
      have mKnown' := (State.cell_put_other (apart mKnown mType)
        { c with tail := .ctx new }).trans mKnown
      have nKnown' := (State.cell_put_other (apart nKnown nType)
        { c with tail := .ctx new }).trans nKnown
      have here : OpenContext (s.put a { c with tail := .ctx new }) (.ref a)
          { c with tail := .ctx new } new :=
        ⟨stored_kept found, type, rfl, stored.sized, stored.writeToParent.trans own⟩
      have begin_ : ∀ {r : State},
          (runtime W).Runs (setParamsLoop (.ref a) (.ref n) (.ref m)) s () r ↔
          (runtime W).Runs (if mc.cdr = .null then pure () else load (.ref n) >>= fun name =>
            call (.setParams (.ref a) name.cdr mc.cdr)) (s.put a { c with tail := .ctx new }) () r := by
        intro r
        rw [setParamsLoop, if_neg (by simp), runs_after (runs_load nKnown),
          runs_after (runs_load mKnown), runs_after bind, runs_after (runs_load mKnown')]
      cases vs with
      | nil =>
          have last : mc.cdr = .null := given'
          refine ⟨_, runs_call (c := .setParams (.ref a) (.ref n) (.ref m)) (begin_.2 ?_),
            ⟨fun p other => State.cell_put_other other _, ⟨State.fresh_put s a _, rfl⟩, new, here,
              stored.parent, stored.ctxGet, fun i => ?_⟩⟩
          · rw [if_pos last]
            exact runs_pure_self _ _
          · rw [stored.vals, List.zip_cons_cons, List.zip_nil_right, lastBound, lastBound]
      | cons w vs =>
          obtain ⟨t, run, others, ⟨size, table⟩, final, openFinal, parent, plain, slots⟩ := ih here
            (list_at_kept kept listed') (list_at_kept kept given') (sym_ids_kept kept named.2)
            (Nat.succ_le_succ_iff.1 enough) (by simp)
          have more : mc.cdr ≠ .null := by
            obtain ⟨k, _, isRef, _⟩ := given'
            rw [isRef]
            simp
          refine ⟨t, runs_call (c := .setParams (.ref a) (.ref n) (.ref m)) (begin_.2 ?_),
            ⟨fun p other => (others p other).trans (State.cell_put_other other _),
              ⟨size.trans (State.fresh_put s a _), table⟩, final, openFinal,
              parent.trans stored.parent, plain.trans stored.ctxGet, fun i => ?_⟩⟩
          · rw [if_neg more, runs_after (runs_load nKnown')]
            exact run
          · rw [slots i, stored.vals, List.zip_cons_cons, lastBound]

/-- What binding as many values as parameters leaves: other slots, and all other
cells, are as before. -/
structure ParamsSet (s t : State) (a : Nat) (c : Cell) (old : Ctx) (ids : List Nat)
    (vs : List Ptr) : Prop where
  others : ∀ p, p ≠ .ref a → t.cell p = s.cell p
  closure : ∃ new, OpenContext t (.ref a) { c with tail := .ctx new } new ∧
    (∀ i, i ∉ ids → new.vals.getD i .null = old.vals.getD i .null) ∧
    ∀ p ∈ ids.zip vs, new.vals.getD p.1 .null = p.2

theorem set_params_runs {a : Nat} {c : Cell} {old : Ctx} {params vs : List Ptr} {ids : List Nat}
    {names vals : Ptr} (closure : OpenContext s (.ref a) c old) (listed : ListAt s params names)
    (given : ListAt s vs vals) (named : params.map (symIdOf s) = ids.map some)
    (arity : params.length = vs.length) (some_ : vs ≠ []) (distinct : ids.Nodup) :
    ∃ t, (runtime W).Runs (blSetParams (.ref a) names vals) s () t ∧
      ParamsSet s t a c old ids vs := by
  obtain ⟨t, run, others, _, new, opened, _, _, slots⟩ :=
    set_params_binds (W := W) closure listed given named (Nat.le_of_eq arity.symm) some_
  refine ⟨t, run, others, new, opened, fun i outside => ?_, fun p mem => ?_⟩
  · rw [slots i]
    refine last_bound_other (fun p inside same => outside ?_) _
    rw [← same]
    exact (List.of_mem_zip inside).1
  · rw [slots p.1]
    exact last_bound_member distinct mem _

end Parameters

section Calls

/-- The values that are called when they stand at the head of a list. -/
def Called (t : ValType) : Prop :=
  t ∈ [ValType.error, .operNative, .operDo, .operIf, .operWhile, .funcBl, .operBl]

instance (t : ValType) : Decidable (Called t) :=
  inferInstanceAs (Decidable (t ∈ [ValType.error, .operNative, .operDo, .operIf, .operWhile,
    .funcBl, .operBl]))

/-- The expression is a call of a function. Its argument list is looked at as any
list is, for what its head is; then the arguments are evaluated in order, none
to an error, and the expression is a list as before. -/
inductive ArgumentsEvaluate (W : World) (ctx expr func first : Ptr) (vs : List Ptr)
    (s s1 t : State) : Prop
  | call {s0 : State} {e e' l : Cell} {h arg : Ptr} {more : List Ptr}
      (list : s.cell expr = some e) (isList : e.type = .cons)
      (head : HeadValue W ctx e.car s func s0) (function : s0.typeOf func = some .funcBl)
      (again : s0.cell expr = some e') (arguments : s0.cell e'.cdr = some l)
      (isList' : l.type = .cons) (headOfArguments : HeadValue W ctx l.car s0 first s1)
      (values : Collects W ctx e'.cdr .null s1 vs t) (still : ListAt t (h :: arg :: more) expr)
      (filled : h ≠ .null)

/-- The run gets to the body of the function, in a context that binds the ids to
the values. -/
def StartsBound (W : World) (program : Prog Ptr) (s : State) (func : Ptr) (ids : List Nat)
    (vs : List Ptr) : Prop :=
  ∃ t f inner, (runtime W).Reaches program s (runFuncBody func) t ∧ t.cell func = some f ∧
    f.innerClosure = some inner ∧ ∀ p ∈ ids.zip vs, Bound t inner p.1 p.2

variable {W : World} {ctx : Ptr} {s t : State}

/-- A list whose head is not called is the list of its values. -/
theorem apply_evaluates_list {expr v r : Ptr} {c : Cell} (known : s.cell v = some c)
    (plain : ¬ Called c.type) (run : (runtime W).Runs (blEvalCons ctx expr) s r t)
    (filled : r ≠ .null) : (runtime W).Runs (evalApply ctx expr v) s r t := by
  have whole : (runtime W).Runs
      (blEvalCons ctx expr >>= fun retval => pure (orNull retval)) s r t := by
    rw [runs_after run, orNull, if_neg filled]
    exact runs_pure_self _ _
  rw [evalApply, runs_after (runs_load known)]
  cases kind : c.type <;> first
    | exact whole
    | exact absurd (by rw [kind]; decide) plain

theorem head_closed (disciplined : ∀ D, W.Disciplined D) {h v : Ptr} (closed : Closed s)
    (awayCtx : Away [] s ctx) (awayHead : Away [] s h) (head : HeadValue W ctx h s v t) :
    Closed t ∧ s.fresh ≤ t.fresh := by
  cases head with
  | symbol known type found bound =>
      refine ⟨(runs_secluded disciplined closed (fun D good => ?_) found).1,
        fresh_le_of_grows (runs_grows found)⟩
      exact safe_ctx_get (good _ awayCtx) (good _ awayHead)
  | other known type => exact ⟨closed, Nat.le_refl _⟩

theorem away_parts (closed : Closed s) {p : Ptr} {c : Cell} (known : s.cell p = some c) :
    Away [] s c.car ∧ Away [] s c.cdr := by
  obtain ⟨a, rfl⟩ := State.ref_of_cell known
  exact away_of_cell closed known List.not_mem_nil

theorem bound_of_slot {p : Ptr} {c : Cell} {ctx : Ctx} (opened : OpenContext s p c ctx) {id : Nat}
    {v : Ptr} (slot : ctx.vals.getD id .null = v) (isValue : v ≠ .null) : Bound s p id v := by
  obtain ⟨known, _, tail, _⟩ := opened
  have held : ctx.vals[id]? = some v := by
    rw [List.getD_eq_getElem?_getD] at slot
    cases found : ctx.vals[id]? with
    | none =>
        rw [found] at slot
        exact absurd slot.symm isValue
    | some w =>
        rw [found] at slot
        exact congrArg some slot
  simp only [Bound, step, known, Option.bind_some, Cell.asCtx, tail, held, Option.map_some]

/-- The values that are collected are cells. -/
theorem collects_values {i last : Ptr} {vs : List Ptr} (collects : Collects W ctx i last s vs t) :
    ∀ v ∈ vs, v ≠ .null := by
  induction collects with
  | done => exact fun _ mem => absurd mem List.not_mem_nil
  | next _ _ value _ _ _ ih =>
      intro w mem
      rcases List.mem_cons.1 mem with rfl | later
      · exact cell_ne_null value
      · exact ih w later

/-- From the bound arguments on. -/
theorem bound_call_reaches {expr func args inner : Ptr} {e : Cell} {s0 : State} {h arg : Ptr}
    {more params vs : List Ptr} {ids : List Nat} (known : s0.cell expr = some e)
    (evaluated : (runtime W).Runs (blEval .callArguments ctx e.cdr) s0 args t)
    (still : ListAt t (h :: arg :: more) expr) (filled : h ≠ .null) (given : ListAt t vs args)
    (function : FunctionValue t func inner params ids) (arity : params.length = vs.length)
    (values : ∀ v ∈ vs, v ≠ .null) (some_ : vs ≠ []) (distinct : ids.Nodup) :
    StartsBound W (evalFuncBl ctx expr func) s0 func ids vs := by
  obtain ⟨⟨f, found, kind, listed, innerIs⟩, named, c, old, opened⟩ := function
  obtain ⟨a, rfl⟩ := State.ref_of_cell opened.1
  obtain ⟨t', bind, others, new, opened', _, slots⟩ :=
    set_params_runs (W := W) opened listed given named arity some_ distinct
  have long : 1 < (arg :: more).length + 1 := by simp
  have other : func ≠ .ref a := by
    rintro rfl
    rw [opened.1] at found
    cases found
    rw [opened.2.1] at kind
    cases kind
  have enter : (runtime W).Runs (enterFunc func) t () t := runs_step rfl
  refine ⟨t', f, .ref a, ?_, (others func other).trans found, innerIs, fun p mem => ?_⟩
  · refine reaches_after (runs_load known) (reaches_after evaluated ?_)
    refine reaches_after (list_len_runs still filled) (reaches_after enter ?_)
    refine reaches_after (runs_load found) (reaches_after (runs_member innerIs t) ?_)
    rw [if_pos long]
    exact reaches_after bind (.refl _ _)
  · exact bound_of_slot opened' (slots p mem) (values p.2 (List.of_mem_zip mem).2)

/-- The values of the arguments reach the parameters, unless the argument list is
itself taken for a call. -/
theorem arguments_reach_parameters (disciplined : ∀ D, W.Disciplined D) {site : Site}
    {expr func first inner : Ptr} {vs params : List Ptr} {ids : List Nat} {s1 : State}
    (closed : Closed s) (awayCtx : Away [] s ctx)
    (evaluated : ArgumentsEvaluate W ctx expr func first vs s s1 t)
    (plain : ∃ c, s1.cell first = some c ∧ ¬ Called c.type)
    (function : FunctionValue t func inner params ids) (arity : params.length = vs.length)
    (distinct : ids.Nodup) : StartsBound W (blEval site ctx expr) s func ids vs := by
  obtain ⟨list, isList, head, function0, again, arguments, isList', headOfArguments, values, still,
    filled⟩ := evaluated
  rename_i s0 e e' l h arg more
  obtain ⟨c, firstCell, notCalled⟩ := plain
  obtain ⟨closed0, later0⟩ := head_closed disciplined closed awayCtx (away_parts closed list).1 head
  have awayCtx0 := away_later later0 awayCtx
  have awayArguments := (away_parts closed0 again).2
  obtain ⟨closed1, later1⟩ := head_closed disciplined closed0 awayCtx0
    (away_parts closed0 arguments).1 headOfArguments
  have nonempty : ∃ v rest, vs = v :: rest := by
    have isCell := cell_ne_null arguments
    generalize e'.cdr = i at values isCell
    cases values with
    | done => contradiction
    | next => exact ⟨_, _, rfl⟩
  obtain ⟨v, rest, rfl⟩ := nonempty
  obtain ⟨a, collected, given⟩ := eval_cons_runs disciplined values closed1
    (away_later later1 awayCtx0) (away_later later1 awayArguments)
  have evaluatedArguments : (runtime W).Runs (blEval .callArguments ctx e'.cdr) s0 (.ref a) t :=
    (eval_runs_apply .callArguments arguments isList' headOfArguments).2
      (apply_evaluates_list firstCell notCalled collected (by simp))
  obtain ⟨t', f, inner', reached, rest⟩ := bound_call_reaches again evaluatedArguments still filled
    given function arity (collects_values values) (by simp) distinct
  obtain ⟨fc, funcCell, funcType⟩ := Option.map_eq_some_iff.1 function0
  refine ⟨t', f, inner', reaches_trans (eval_reaches_apply site list isList head) ?_, rest⟩
  rw [evalApply]
  refine reaches_after (runs_load funcCell) ?_
  rw [funcType]
  exact reached

/-- `(fun f (x) x)` and `(fun g (x) 5)` in a context, and the calls `(f g)` and
`(f 5)`. -/
def twoFunctions : State where
  cells := staticCells ++
    [{ type := .symbol, w0 := .str (text "f"), w1 := .ofNat 0 },
     { type := .symbol, w0 := .str (text "g"), w1 := .ofNat 1 },
     { type := .symbol, w0 := .str (text "x"), w1 := .ofNat 2 },
     .mkNumber 5, .mkCons (.ref 9) .null, .mkCons (.ref 9) .null, .mkCons (.ref 10) .null,
     .mkCtx { Ctx.new 8 .null with
       keys := [.ref 7, .ref 8, .null, .null, .null, .null, .null, .null]
       vals := [.ref 17, .ref 18, .null, .null, .null, .null, .null, .null] },
     .mkCtx (.new 8 (.ref 14)), .mkCtx (.new 8 (.ref 14)),
     .mkClosure .funcBl (.ref 12) (.ref 11) (.ref 14) (.ref 15) (.ref 7) .null,
     .mkClosure .funcBl (.ref 13) (.ref 11) (.ref 14) (.ref 16) (.ref 8) .null,
     .mkCons (.ref 8) .null, .mkCons (.ref 7) (.ref 19),
     .mkCons (.ref 10) .null, .mkCons (.ref 7) (.ref 21)]
  symbolTable := [⟨text "x", 9⟩, ⟨text "g", 8⟩, ⟨text "f", 7⟩]
  lastSymId := 3

/-- `(f 5)`: the number reaches the parameter. -/
theorem arguments_reach_parameters_number :
    StartsBound World.bare (blEval .operand (.ref 14) (.ref 22)) twoFunctions (.ref 17) [2]
      [.ref 10] := by
  have closed : Closed twoFunctions := closed_of_check (by decide) (by decide) (by decide)
  have away : Away [] twoFunctions (.ref 14) := fun a same => by
    cases same
    exact ⟨by decide, List.not_mem_nil⟩
  have still : ListAt (twoFunctions.collected .null (.ref 10)) [.ref 7, .ref 10] (.ref 22) :=
    ⟨22, _, rfl, rfl, rfl, rfl, 21, _, rfl, rfl, rfl, rfl, rfl⟩
  have evaluated : ArgumentsEvaluate World.bare (.ref 14) (.ref 22) (.ref 17) (.ref 10) [.ref 10]
      twoFunctions twoFunctions (twoFunctions.collected .null (.ref 10)) :=
    .call rfl rfl (.symbol rfl rfl ⟨9, rfl⟩ (by decide)) rfl rfl rfl rfl
      (.other rfl (by decide)) (.next rfl ⟨9, rfl⟩ rfl (by decide) rfl (.done _ _)) still (by decide)
  have params : ListAt (twoFunctions.collected .null (.ref 10)) [.ref 9] (.ref 11) :=
    ⟨11, _, rfl, rfl, rfl, rfl, rfl⟩
  have function : FunctionValue (twoFunctions.collected .null (.ref 10)) (.ref 17) (.ref 15)
      [.ref 9] [2] :=
    ⟨⟨_, rfl, rfl, params, rfl⟩, rfl, _, _, rfl, rfl, rfl, ⟨rfl, rfl⟩, rfl⟩
  exact arguments_reach_parameters bare_disciplined closed away evaluated ⟨_, rfl, by decide⟩
    function rfl (by decide)

/-- What the parameter with an id is bound to when the body of a function starts. -/
def noteBinding (id : Nat) : Op → State → List (Option Ptr)
  | .startBody func, s =>
      [((s.cell func).bind Cell.innerClosure).bind fun inner =>
        (step (.ctxVal inner id) s).map Prod.fst]
  | _, _ => []

/-- `(f g)`: the argument list is taken for a call of `g`, and `x` is bound to
nothing. -/
theorem function_argument_lost :
    ArgumentsEvaluate World.bare (.ref 14) (.ref 20) (.ref 17) (.ref 18) [.ref 18]
      twoFunctions twoFunctions (twoFunctions.collected .null (.ref 18)) ∧
    FunctionValue (twoFunctions.collected .null (.ref 18)) (.ref 17) (.ref 15) [.ref 9] [2] ∧
    ¬ StartsBound World.bare (blEval .operand (.ref 14) (.ref 20)) twoFunctions (.ref 17) [2]
      [.ref 18] := by
  refine ⟨?_, ?_, ?_⟩
  · have still : ListAt (twoFunctions.collected .null (.ref 18)) [.ref 7, .ref 8] (.ref 20) :=
      ⟨20, _, rfl, rfl, rfl, rfl, 19, _, rfl, rfl, rfl, rfl, rfl⟩
    exact .call rfl rfl (.symbol rfl rfl ⟨9, rfl⟩ (by decide)) rfl rfl rfl rfl
      (.symbol rfl rfl ⟨9, rfl⟩ (by decide)) (.next rfl ⟨9, rfl⟩ rfl (by decide) rfl (.done _ _))
      still (by decide)
  · have params : ListAt (twoFunctions.collected .null (.ref 18)) [.ref 9] (.ref 11) :=
      ⟨11, _, rfl, rfl, rfl, rfl, rfl⟩
    exact ⟨⟨_, rfl, rfl, params, rfl⟩, rfl, _, _, rfl, rfl, rfl, ⟨rfl, rfl⟩, rfl⟩
  · rintro ⟨t, f, inner, reached, found, closure, bound⟩
    have run : ∃ v final, ((runtime World.bare).logging (noteBinding 2)).Runs
        (blEval .operand (.ref 14) (.ref 20)) (twoFunctions, []) v
        (final, [some .null, some .null]) := ⟨_, _, 20, rfl⟩
    obtain ⟨v, final, run⟩ := run
    have noted := noted_of_performs ⟨_, reached⟩ run
    have slot : step (.ctxVal inner 2) t = some (.ref 18, t) := bound (2, .ref 18) (by simp)
    have seen : noteBinding 2 (.startBody (.ref 17)) t = [some (.ref 18)] := by
      simp only [noteBinding, found, Option.bind_some, closure, slot, Option.map_some]
    have member := noted (some (.ref 18)) (seen ▸ List.mem_singleton.2 rfl)
    simp at member

end Calls

end BearLang.ArgumentBinding
