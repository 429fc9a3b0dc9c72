import BearLang.Handlers
import BearLang.OperandEvaluation

/-!
# The evaluations of `foreach`

`bl_oper_foreach` goes from cell to cell and reads the link to the next one after the
body was evaluated. The name is assigned before each evaluation, and what it is read
as depends on the context.
-/

namespace BearLang.Iteration

open CallPrograms OperatorCalls SubExpressions EvaluatedValues ContextRefinement Assignments
  ArgumentBinding OperandEvaluation Handlers

set_option autoImplicit false

section Bindings

variable {W : World} {s t : State} {ctx key q v : Ptr} {id : Nat}

/-- The context and its parent are whole, and no context is its own parent. -/
def InScope (s : State) (ctx : Ptr) : Prop :=
  ∃ c, ContextAt s ctx c ∧ (c.parent ≠ .null → c.parent ≠ ctx ∧ ∃ d, ContextAt s c.parent d)

theorem in_scope_step {op : Op} {answer : op.Answer} (stepped : step op s = some (answer, t))
    (inScope : InScope s ctx) : InScope t ctx := by
  obtain ⟨c, known, above⟩ := inScope
  obtain ⟨c', known', parent, _⟩ := context_step stepped known
  refine ⟨c', known', fun filled => ?_⟩
  rw [parent] at filled ⊢
  obtain ⟨other, d, held⟩ := above filled
  obtain ⟨d', held', _⟩ := context_step stepped held
  exact ⟨other, d', held'⟩

theorem in_scope_runs {α : Type} {program : Prog α} {r : α} (inScope : InScope s ctx)
    (run : (runtime W).Runs program s r t) : InScope t ctx := by
  have keeps : ∀ op u answer after, InScope u ctx → True →
      (runtime W).step op u = some (answer, after) → InScope after ctx :=
    fun _ _ _ _ held _ stepped => in_scope_step stepped held
  exact guarded_invariant (fun _ _ => True) keeps (reaches_done_of_runs run)
    (fun _ _ _ => trivial) inScope

/-- A run of `bl_ctx_set` stores the value where assignments go. -/
theorem ctx_set_inverts {r : Ptr} (inScope : InScope s ctx)
    (run : (runtime W).Runs (blCtxSet ctx key v) s r t) :
    r = v ∧ ∃ c q id, ContextAt s ctx c ∧ target ctx c = q ∧ symIdOf s key = some id ∧
      AssignmentStored q key id v s t := by
  obtain ⟨c, known, above⟩ := inScope
  have here := context_at_ctx known
  have whole := run
  rw [blCtxSet, runs_after (runs_load_at here)] at run
  obtain ⟨k, m, loaded, rest⟩ := runs_bind.1 run
  obtain ⟨k', keyFound, rfl, rfl⟩ := mapped_spec (runs_step_iff.1 loaded)
  cases symId : k'.symId with
  | none =>
      rw [symId] at rest
      obtain ⟨_, _, fault, _⟩ := runs_bind.1 rest
      have trapped : (runtime W).Runs (trap : Prog Nat) m _ _ := fault
      obtain ⟨answer, _⟩ := runs_perform.1 trapped
      exact Empty.elim answer
  | some id =>
      rw [runs_after (runs_member symId m)] at rest
      obtain ⟨_, u, stored, _⟩ := runs_bind.1 rest
      have stepped := runs_step_iff.1 stored
      have reached : target ctx c ≠ .null := by
        intro none_
        have none_' : (if c.writeToParent = true then c.parent else ctx) = .null := none_
        simp only [none_', step, State.modify] at stepped
        cases stepped
      obtain ⟨d, goes⟩ : ∃ d, ContextAt m (target ctx c) d := by
        by_cases redirected : c.writeToParent = true
        · have parent : target ctx c = c.parent := if_pos redirected
          rw [parent] at reached ⊢
          exact (above reached).2
        · have own : target ctx c = ctx := if_neg redirected
          rw [own]
          exact ⟨c, known⟩
      obtain ⟨cell, found, tail, sized, plain⟩ := goes
      obtain ⟨b, isRef⟩ : ∃ b, target ctx c = .ref b := by
        cases q : target ctx c with
        | ref b => exact ⟨b, rfl⟩
        | null => rw [q] at found; cases found
        | wild => rw [q] at found; cases found
      rw [isRef] at found
      obtain ⟨new, spec, run'⟩ := ctx_set_target (W := W) (v := v) here isRef found tail sized
        keyFound symId
      obtain ⟨rfl, rfl⟩ := runs_functional whole run'
      refine ⟨rfl, c, .ref b, id, known, isRef, ?_, b, cell, d, new, rfl, found, tail, sized, plain,
        spec, rfl⟩
      rw [symIdOf, keyFound]
      exact symId

/-- What the context that assignments go to holds under the id of the name is what the
name is read as: it is plain, and a context that redirects assignments holds nothing
else under it; or it is a path that leads to the same. -/
def Shows (s : State) (ctx key : Ptr) : Prop :=
  ∃ c id, ContextAt s ctx c ∧ symIdOf s key = some id ∧
    ((PlainSymbol s key id ∧ (c.writeToParent = true →
        c.Empty id ∨ c.vals[id]? = some (boundTo s c.parent id))) ∨
      (∃ first rest, PathSymbol s key first rest) ∧
        ∃ n i, Names s ctx key n i (boundTo s (target ctx c) id))

theorem plain_symbol_sym_id {i : Nat} (named : PlainSymbol s key i) : symIdOf s key = some i := by
  obtain ⟨cell, _, known, _, _, symId, _⟩ := named
  rw [symIdOf, known]
  exact symId

/-- A value that was assigned is read exactly if the name shows it. -/
theorem reads_iff_shows {c : Ctx} (inScope : InScope s ctx) (here : ContextAt s ctx c)
    (symId : symIdOf s key = some id) (bound : boundTo s (target ctx c) id = v)
    (filled : v ≠ .null) : (∃ n i, Names s ctx key n i v) ↔ Shows s ctx key := by
  have ctxHere := context_at_ctx here
  constructor
  · rintro ⟨n, i, names⟩
    refine ⟨c, id, here, symId, ?_⟩
    rw [bound]
    cases names with
    | plain named found =>
        left
        have same : i = id := Option.some.inj ((plain_symbol_sym_id named).symm.trans symId)
        subst same
        refine ⟨named, fun redirected => ?_⟩
        have parent : boundTo s c.parent i = v := by
          rw [← bound, target, if_pos redirected]
        rw [parent]
        cases found with
        | here known plain inside slot filled =>
            rw [ctxHere] at known
            cases known
            exact .inr slot
        | above known plain empty later =>
            rw [ctxHere] at known
            cases known
            exact .inl empty
    | path named known plainCtx interned module interned' member =>
        exact .inr ⟨⟨_, _, named⟩, n, i, .path named known plainCtx interned module interned' member⟩
  · rintro ⟨c', id', here', symId', shown⟩
    have same := context_at_ctx here'
    rw [ctxHere] at same
    cases same
    rw [symId] at symId'
    cases symId'
    rcases shown with ⟨named, holds⟩ | ⟨_, names⟩
    · have finds : ∃ n, Finds s id ctx n v := by
        by_cases redirected : c.writeToParent = true
        · have parent : boundTo s c.parent id = v := by
            rw [← bound, target, if_pos redirected]
          rcases holds redirected with empty | own
          · obtain ⟨c', known, above⟩ := inScope
            have same := context_at_ctx known
            rw [ctxHere] at same
            cases same
            have parentFilled : c.parent ≠ .null := by
              intro none_
              rw [none_] at parent
              exact filled parent.symm
            obtain ⟨_, d, held⟩ := above parentFilled
            rw [bound_to_context (context_at_ctx held)] at parent
            obtain ⟨n, later⟩ := finds_of_reads held parent filled
            obtain ⟨cell, found, _, _, plain⟩ := here
            obtain ⟨a, rfl⟩ := State.ref_of_cell found
            exact ⟨n, .above ctxHere plain empty later⟩
          · rw [parent] at own
            refine finds_of_reads here ?_ filled
            rw [List.getD_eq_getElem?_getD, own, Option.getD_some]
        · rw [target, if_neg redirected, bound_to_context ctxHere] at bound
          exact finds_of_reads here bound filled
      obtain ⟨n, found⟩ := finds
      exact ⟨n, id, .plain named found⟩
    · rw [bound] at names
      exact names

theorem words_kept {r : Ptr} (inScope : InScope s ctx)
    (run : (runtime W).Runs (blCtxSet ctx key v) s r t) : KeepsWords s t := by
  obtain ⟨_, c, q, id, _, _, _, b, cell, old, new, rfl, found, _, _, _, _, rfl⟩ :=
    ctx_set_inverts inScope run
  exact keeps_words_put found new

theorem set_reads_iff {r : Ptr} (inScope : InScope s ctx)
    (run : (runtime W).Runs (blCtxSet ctx key v) s r t) (filled : v ≠ .null) :
    (∃ n i, Names t ctx key n i v) ↔ Shows t ctx key := by
  have inScope' := in_scope_runs inScope run
  have words := words_kept inScope run
  obtain ⟨_, c, q, id, here, goes, symId, stored⟩ := ctx_set_inverts inScope run
  obtain ⟨keyCell, keyFound, _⟩ := Option.bind_eq_some_iff.1 symId
  have symId' : symIdOf t key = some id := (sym_id_kept words keyFound).trans symId
  obtain ⟨b, cell, old, new, rfl, found, tail, sized, plain, spec, rfl⟩ := stored
  have bound := bound_to_stored found tail spec (.ref b) id
  rw [if_pos ⟨rfl, rfl⟩] at bound
  by_cases own : ctx = .ref b
  · subst own
    have same := context_at_ctx here
    rw [ctxAt, found, Option.bind_some, Cell.asCtx, tail] at same
    cases same
    have goes' : target (.ref b) new = .ref b := by
      rw [target, spec.writeToParent, spec.parent]
      exact goes
    refine reads_iff_shows inScope' (context_put found spec plain) symId' ?_ filled
    rw [goes']
    exact bound
  · have here' : ContextAt (s.put b { cell with tail := .ctx new }) ctx c := by
      obtain ⟨k, held, rest⟩ := here
      exact ⟨k, by rw [State.cell_put_other own, held], rest⟩
    refine reads_iff_shows inScope' here' symId' ?_ filled
    rw [goes]
    exact bound

end Bindings

section Loop

variable {W : World} {s m t : State} {ctx key e r : Ptr} {visits : List Evaluation}
  {items : List (Nat × Ptr)}

theorem foreach_end : Asks W (call (.foreachLoop ctx key .null e)) m visits r t ↔
    visits = [] ∧ r = nullVal ∧ ∃ v, (runtime W).Runs (blCtxSet ctx key .null) m v t := by
  refine (asks_call (c := .foreachLoop ctx key .null e) rfl).trans ?_
  change Asks W (foreachLoop ctx key .null e) m visits r t ↔ _
  rw [foreachLoop, if_pos rfl]
  constructor
  · intro asks
    obtain ⟨v, u, run, rest⟩ := (traced_silent (silent_ctx_set ctx key .null)).1 asks
    obtain ⟨rfl, rfl, rfl⟩ := asks_pure.1 rest
    exact ⟨rfl, rfl, v, run⟩
  · rintro ⟨rfl, rfl, v, run⟩
    exact (asks_after (silent_ctx_set ctx key .null) run).2 (asks_pure_self _ _)

/-- One turn: the name is assigned, the body evaluated, and the link read. -/
structure Turn (W : World) (ctx key e i : Ptr) (m : State) (visit : Evaluation) (x next : Ptr)
    (a : State) : Prop where
  cell : ∃ c, m.cell i = some c ∧ c.car = x
  evaluated : ∃ r b v, (runtime W).Runs (blCtxSet ctx key x) m r b ∧
    (runtime W).Runs (blEval .foreachExpr ctx e) b v a ∧
    visit = evaluation .foreachExpr ctx e b v a
  link : ∃ c, a.cell i = some c ∧ c.cdr = next

theorem foreach_turn {i : Ptr} (filled : i ≠ .null) :
    Asks W (call (.foreachLoop ctx key i e)) m visits r t ↔
      ∃ visit x next a rest, Turn W ctx key e i m visit x next a ∧ visits = visit :: rest ∧
        Asks W (call (.foreachLoop ctx key next e)) a rest r t := by
  refine (asks_call (c := .foreachLoop ctx key i e) rfl).trans ?_
  change Asks W (foreachLoop ctx key i e) m visits r t ↔ _
  rw [foreachLoop, if_neg filled]
  constructor
  · intro asks
    obtain ⟨c, known, asks⟩ := asks_load.1 asks
    obtain ⟨u, b, set, asks⟩ := (traced_silent (silent_ctx_set ctx key c.car)).1 asks
    obtain ⟨v, a, rest, run, later, rfl⟩ := asks_eval.1 asks
    obtain ⟨c', known', ends⟩ := asks_load.1 later
    exact ⟨_, c.car, c'.cdr, a, rest, ⟨⟨c, known, rfl⟩, ⟨u, b, v, set, run, rfl⟩, c', known', rfl⟩,
      rfl, ends⟩
  · rintro ⟨visit, x, next, a, rest, ⟨⟨c, known, rfl⟩, ⟨u, b, v, set, run, rfl⟩, c', known', rfl⟩, rfl,
      asks⟩
    refine asks_load.2 ⟨c, known, (asks_after (silent_ctx_set ctx key c.car) set).2 ?_⟩
    exact asks_eval.2 ⟨v, a, rest, run, asks_load.2 ⟨c', known', asks⟩, rfl⟩

def EvaluatesWith (ctx key e x : Ptr) (visit : Evaluation) : Prop :=
  ∃ b v a, visit = evaluation .foreachExpr ctx e b v a ∧ ∃ n id, Names b ctx key n id x

def KeepsLinks (s t : State) : Prop :=
  ∀ p c, s.cell p = some c → c.cdr ≠ .null → ∃ d, t.cell p = some d ∧ d.cdr = c.cdr

theorem cells_at_start {p q : Ptr} (first : CellsAt s items p) (second : CellsAt t items q) :
    p = q := by
  cases items with
  | nil => exact Eq.trans first (Eq.symm second)
  | cons item rest => exact first.1.trans second.1.symm

/-- As long as the cells of the list stay as they are, there is one turn for each of
them, with its element. -/
theorem turns_follow_cells {i : Ptr} (inScope : InScope m ctx) (cells : CellsAt m items i)
    (filled : ∀ item ∈ items, item.2 ≠ .null)
    (asks : Asks W (call (.foreachLoop ctx key i e)) m visits r t)
    (kept : ∀ visit ∈ visits, CellsAt visit.after items i ∧ Shows visit.before ctx key) :
    List.Forall₂ (fun item visit => EvaluatesWith ctx key e item.2 visit) items visits := by
  induction items generalizing m i visits with
  | nil =>
      have none_ : i = .null := cells
      rw [none_] at asks
      obtain ⟨rfl, _⟩ := foreach_end.1 asks
      exact .nil
  | cons item rest ih =>
      obtain ⟨isRef, c, known, type, car, later⟩ := cells
      obtain ⟨visit, x, next, a, others, turn, rfl, goesOn⟩ :=
        (foreach_turn (cell_ne_null known)).1 asks
      obtain ⟨⟨c', known', isCar⟩, ⟨u, b, v, set, run, rfl⟩, d, link, isCdr⟩ := turn
      rw [known] at known'
      cases known'
      have isItem : x = item.2 := isCar.symm.trans car
      subst isItem
      obtain ⟨here, shows⟩ := kept _ List.mem_cons_self
      have read := (set_reads_iff inScope set (filled item List.mem_cons_self)).2 shows
      obtain ⟨_, d', link', _, _, rest'⟩ := here
      have sameCell : d' = d := Option.some.inj (link'.symm.trans link)
      subst sameCell
      rw [isCdr] at rest'
      refine .cons ⟨b, v, a, rfl, read⟩ ?_
      refine ih (in_scope_runs (in_scope_runs inScope set) run) rest'
        (fun item mem => filled item (List.mem_cons_of_mem _ mem)) goesOn fun visit mem => ?_
      obtain ⟨⟨_, d'', _, _, _, last⟩, shows'⟩ := kept visit (List.mem_cons_of_mem _ mem)
      refine ⟨?_, shows'⟩
      rw [cells_at_start rest' last]
      exact last

/-- The cells of a list, whatever the last one is linked to. -/
def Spine (s : State) : List (Nat × Ptr) → Ptr → Prop
  | [], _ => True
  | (a, x) :: rest, p => p = .ref a ∧ ∃ c, s.cell p = some c ∧ c.type = .cons ∧ c.car = x ∧
      Spine s rest c.cdr

def EndsAt (s : State) (items : List (Nat × Ptr)) : Prop :=
  ∀ item, items.getLast? = some item → ∀ c, s.cell (.ref item.1) = some c → c.cdr = .null

theorem spine_of_cells {p : Ptr} (cells : CellsAt s items p) : Spine s items p := by
  induction items generalizing p with
  | nil => trivial
  | cons item rest ih =>
      obtain ⟨isRef, c, known, type, car, later⟩ := cells
      exact ⟨isRef, c, known, type, car, ih later⟩

theorem cells_of_spine {p : Ptr} (some_ : items ≠ []) (spine : Spine s items p)
    (ends : EndsAt s items) : CellsAt s items p := by
  induction items generalizing p with
  | nil => exact absurd rfl some_
  | cons item rest ih =>
      obtain ⟨isRef, c, known, type, car, later⟩ := spine
      refine ⟨isRef, c, known, type, car, ?_⟩
      cases rest with
      | nil => exact ends item rfl c (isRef ▸ known)
      | cons item' rest => exact ih (List.cons_ne_nil _ _) later ends

/-- What holds of the cells and the links from one state to a later one. -/
structure Later (s t : State) : Prop where
  grows : Grows s t
  links : KeepsLinks s t

theorem later_trans {u : State} (first : Later s t) (second : Later t u) : Later s u := by
  refine ⟨grows_trans first.grows second.grows, fun p c known filled => ?_⟩
  obtain ⟨d, found, same⟩ := first.links p c known filled
  obtain ⟨d', found', same'⟩ := second.links p d found (same ▸ filled)
  exact ⟨d', found', same'.trans same⟩

theorem later_of_words (kept : KeepsWords s t) : Later s t := by
  refine ⟨fun p c known => ?_, fun p c known _ => ?_⟩
  · obtain ⟨d, found, type, word, _⟩ := kept p c known
    exact ⟨d, found, type, word⟩
  · obtain ⟨d, found, _, _, word⟩ := kept p c known
    exact ⟨d, found, by rw [Cell.cdr, word, Cell.cdr]⟩

def LaterAt (s t : State) (a : Nat) : Prop :=
  ∀ c, s.cell (.ref a) = some c → ∃ d, t.cell (.ref a) = some d ∧ d.type = c.type ∧ d.w0 = c.w0 ∧
    (c.cdr ≠ .null → d.cdr = c.cdr)

theorem later_at (later : Later s t) (a : Nat) : LaterAt s t a := by
  intro c known
  obtain ⟨d, found, type, word⟩ := later.grows _ c known
  refine ⟨d, found, type, word, fun filled => ?_⟩
  obtain ⟨d', found', same⟩ := later.links _ c known filled
  rw [found] at found'
  cases found'
  exact same

theorem spine_at {p : Ptr} (later : ∀ item ∈ items, LaterAt s t item.1) (spine : Spine s items p) :
    Spine t items p := by
  induction items generalizing p with
  | nil => trivial
  | cons item rest ih =>
      obtain ⟨rfl, c, known, type, car, further⟩ := spine
      obtain ⟨d, found, type', word, link⟩ := later item List.mem_cons_self c known
      refine ⟨rfl, d, found, type'.trans type, by rw [Cell.car, word]; exact car, ?_⟩
      cases rest with
      | nil => trivial
      | cons item' rest =>
          have filled : c.cdr ≠ .null := by
            rw [further.1]
            simp
          rw [link filled]
          exact ih (fun item mem => later item (List.mem_cons_of_mem _ mem)) further

theorem spine_later {p : Ptr} (later : Later s t) (spine : Spine s items p) : Spine t items p :=
  spine_at (fun item _ => later_at later item.1) spine

theorem ends_at (later : ∀ item ∈ items, LaterAt s t item.1) (ends : EndsAt t items) :
    EndsAt s items := by
  intro item last c known
  by_contra filled
  obtain ⟨d, found, _, _, link⟩ := later item (List.mem_of_getLast? last) c known
  exact filled ((link filled).symm.trans (ends item last d found))

theorem ends_before (later : Later s t) (ends : EndsAt t items) : EndsAt s items :=
  ends_at (fun item _ => later_at later item.1) ends

/-- A loop of as many turns as the list has cells goes over the list and leaves it. -/
theorem turns_keep_cells {i : Ptr} (inScope : InScope m ctx) (spine : Spine m items i)
    (filled : ∀ item ∈ items, item.2 ≠ .null) (some_ : items ≠ [])
    (asks : Asks W (call (.foreachLoop ctx key i e)) m visits r t)
    (each : List.Forall₂ (fun item visit => EvaluatesWith ctx key e item.2 visit) items visits)
    (keeps : ∀ visit ∈ visits, KeepsLinks visit.before visit.after) :
    ∃ f, EndsAt f items ∧ Later m f ∧
      ∀ visit ∈ visits, Later m visit.after ∧ Later visit.after f ∧ Shows visit.before ctx key := by
  induction items generalizing m i visits with
  | nil => exact absurd rfl some_
  | cons item rest ih =>
      obtain ⟨isRef, c, known, type, car, further⟩ := spine
      obtain ⟨visit, x, next, a, others, turn, rfl, goesOn⟩ :=
        (foreach_turn (cell_ne_null known)).1 asks
      obtain ⟨⟨c', known', isCar⟩, ⟨u, b, v, set, run, rfl⟩, d, link, isCdr⟩ := turn
      rw [known] at known'
      cases known'
      have isItem : x = item.2 := isCar.symm.trans car
      subst isItem
      obtain ⟨b', v', a', same, read⟩ := (List.forall₂_cons.1 each).1
      cases same
      have shows := (set_reads_iff inScope set (filled item List.mem_cons_self)).1 read
      have first : Later m a := later_trans (later_of_words (words_kept inScope set))
        ⟨runs_grows run, keeps _ List.mem_cons_self⟩
      have inScope' := in_scope_runs (in_scope_runs inScope set) run
      cases rest with
      | nil =>
          cases (List.forall₂_cons.1 each).2
          have none_ : next = .null := by
            by_contra more
            obtain ⟨_, _, _, _, _, _, same, _⟩ := (foreach_turn more).1 goesOn
            cases same
          refine ⟨a, fun z last k held => ?_, first, fun visit mem => ?_⟩
          · cases last
            have held' : a.cell i = some k := isRef ▸ held
            rw [held'] at link
            cases link
            exact isCdr.trans none_
          · rw [List.mem_singleton.1 mem]
            exact ⟨first, ⟨grows_refl a, fun _ k held _ => ⟨k, held, rfl⟩⟩, shows⟩
      | cons item' rest =>
          have inside : c.cdr ≠ .null := by
            rw [further.1]
            simp
          obtain ⟨d', link', same⟩ := first.links i c known inside
          have sameCell : d' = d := Option.some.inj (link'.symm.trans link)
          subst sameCell
          have spine' : Spine a (item' :: rest) next := by
            rw [← isCdr, same]
            exact spine_later first further
          obtain ⟨f, ends, after, all⟩ := ih inScope' spine'
            (fun item mem => filled item (List.mem_cons_of_mem _ mem)) (List.cons_ne_nil _ _) goesOn
            (List.forall₂_cons.1 each).2 fun visit mem => keeps visit (List.mem_cons_of_mem _ mem)
          refine ⟨f, ends, later_trans first after, fun visit mem => ?_⟩
          rcases List.mem_cons.1 mem with rfl | mem
          · exact ⟨first, after, shows⟩
          · obtain ⟨before, later, shows'⟩ := all visit mem
            exact ⟨later_trans first before, later, shows'⟩

end Loop

section Foreach

variable {W : World} {s s' m t : State} {ctx expr key e l L r : Ptr} {visits : List Evaluation}
  {items : List (Nat × Ptr)}

inductive Turns (W : World) (ctx key e : Ptr) :
    Ptr → State → List Evaluation → Ptr → State → Prop
  | none (i : Ptr) (m : State) : Turns W ctx key e i m [] i m
  | next {i x j k : Ptr} {m a t : State} {visit : Evaluation} {visits : List Evaluation}
      (turn : Turn W ctx key e i m visit x j a) (later : Turns W ctx key e j a visits k t) :
      Turns W ctx key e i m (visit :: visits) k t

theorem asks_of_turns {i : Ptr} {u : State} {w : Ptr} (turns : Turns W ctx key e i m visits .null t)
    (last : (runtime W).Runs (blCtxSet ctx key .null) t w u) :
    Asks W (call (.foreachLoop ctx key i e)) m visits nullVal u := by
  generalize none_ : Ptr.null = k at turns
  induction turns with
  | none i m =>
      subst none_
      exact foreach_end.2 ⟨rfl, rfl, w, last⟩
  | @next i x j k m a t visit visits turn later ih =>
      obtain ⟨c, known, _⟩ := turn.cell
      exact (foreach_turn (cell_ne_null known)).2 ⟨visit, x, j, a, visits, turn, rfl,
        ih last none_⟩

theorem turns_end {i j : Ptr} (turns : Turns W ctx key e i m visits j t) (cells : CellsAt m items i)
    (length : visits.length = items.length) (kept : ∀ visit ∈ visits, CellsAt visit.after items i) :
    j = .null := by
  induction turns generalizing items with
  | none i m =>
      cases items with
      | nil => exact cells
      | cons item rest => cases length
  | @next i x j k m a t visit visits turn later ih =>
      cases items with
      | nil => cases length
      | cons item rest =>
          obtain ⟨_, ⟨u, b, v, set, run, rfl⟩, d, link, isCdr⟩ := turn
          obtain ⟨_, d', link', _, _, rest'⟩ := kept _ List.mem_cons_self
          have sameCell : d' = d := Option.some.inj (link'.symm.trans link)
          subst sameCell
          rw [isCdr] at rest'
          refine ih rest' (Nat.succ.inj length) fun visit mem => ?_
          obtain ⟨_, d'', _, _, _, last⟩ := kept visit (List.mem_cons_of_mem _ mem)
          rw [cells_at_start rest' last]
          exact last

/-- `foreach` evaluates its second operand, and then its third in a loop. -/
theorem asks_foreach {n : Nat} {others others' : List Ptr} {key' l' : Ptr}
    (called : OperatorCall W .foreach ctx expr s n s')
    (operands : ListAt s' (key :: l :: others) (.ref n))
    (value : (runtime W).Runs (blEval .operand ctx l) s' L m)
    (again : ListAt m (key' :: l' :: e :: others') (.ref n)) :
    ∀ visits r t, (Asks W (evalBody ctx expr) s visits r t ↔ ∃ turns r',
      Asks W (call (.foreachLoop ctx key L e)) m turns r' t ∧
        visits = evaluation .operand ctx l s' L m :: turns ∧ r = orNull r') := by
  intro visits r t
  refine (asks_operator called).trans ?_
  have third : (runtime W).Runs (blListThird (.ref n)) m e m := by
    obtain ⟨q, tail, list⟩ := list_rest_runs (W := W) again
    rw [blListThird, runs_after tail]
    exact list_second_runs list
  have code (r' : Ptr) : Asks W (blOperForeach ctx (.ref n)) s' visits r' t ↔
      ∃ turns, Asks W (call (.foreachLoop ctx key L e)) m turns r' t ∧
        visits = evaluation .operand ctx l s' L m :: turns := by
    rw [blOperForeach, asks_after (silent_list_first _) (list_first_runs operands), evalSecond,
      bind_assoc, asks_after (silent_list_second _) (list_second_runs operands),
      asks_evaluated value]
    refine exists_congr fun turns => and_congr_left fun _ => ?_
    exact asks_after (silent_list_third _) third
  constructor
  · rintro ⟨r', asks, rfl⟩
    obtain ⟨turns, loop, rfl⟩ := (code r').1 asks
    exact ⟨turns, r', loop, rfl, rfl⟩
  · rintro ⟨turns, r', loop, rfl, rfl⟩
    exact ⟨r', (code r').2 ⟨turns, loop, rfl⟩, rfl⟩

/-- The body is evaluated once for each element, with the name bound to it. -/
def Iterates (ctx key e : Ptr) (items : List (Nat × Ptr)) (turns : List Evaluation) : Prop :=
  List.Forall₂ (fun item visit => EvaluatesWith ctx key e item.2 visit) items turns

/-- There are elements, no evaluation of the body changes the cells of the list, and the
name shows what is assigned to it. -/
structure Undisturbed (ctx key L : Ptr) (items : List (Nat × Ptr)) (turns : List Evaluation) :
    Prop where
  some_ : items ≠ []
  cells : ∀ visit ∈ turns, CellsAt visit.after items L
  shows_ : ∀ visit ∈ turns, Shows visit.before ctx key

/-- The value `L` of the second operand is the list of these elements, in the state in
which the loop starts. -/
structure ForeachOf (W : World) (ctx expr key e : Ptr) (s : State) (items : List (Nat × Ptr))
    (first : Evaluation) (L : Ptr) (m : State) : Prop where
  call : ∃ n s' l others key' l' others', OperatorCall W .foreach ctx expr s n s' ∧
    ListAt s' (key :: l :: others) (.ref n) ∧ (runtime W).Runs (blEval .operand ctx l) s' L m ∧
    ListAt m (key' :: l' :: e :: others') (.ref n) ∧ first = evaluation .operand ctx l s' L m
  list : (items = [] ∧ EmptyList m L) ∨
    (items ≠ [] ∧ (∀ item ∈ items, item.2 ≠ .null) ∧ CellsAt m items L)
  inScope : InScope m ctx

variable {first : Evaluation}

/-- An evaluation of `(foreach key L e)` evaluates `e` once for each element of the list,
with the name bound to it, exactly if it is undisturbed; and if the evaluations of `e`
come back and leave the list as it is, it comes to an end. -/
theorem foreach_iterates_iff (form : ForeachOf W ctx expr key e s items first L m) :
    (∀ turns r t, Asks W (evalBody ctx expr) s (first :: turns) r t →
      (Undisturbed ctx key L items turns → Iterates ctx key e items turns) ∧
      ((∀ visit ∈ turns, KeepsLinks visit.before visit.after) →
        Iterates ctx key e items turns → Undisturbed ctx key L items turns)) ∧
    ∀ turns j t w u, Turns W ctx key e L m turns j t → turns.length = items.length → items ≠ [] →
      (∀ visit ∈ turns, CellsAt visit.after items L) →
      (runtime W).Runs (blCtxSet ctx key .null) t w u →
      Asks W (evalBody ctx expr) s (first :: turns) nullVal u := by
  obtain ⟨n, s', l, others, key', l', others', called, operands, value, again, rfl⟩ := form.call
  have code := asks_foreach called operands value again
  refine ⟨fun turns r t asks => ?_, ?_⟩
  · obtain ⟨turns', r', loop, same, rfl⟩ := (code _ _ _).1 asks
    obtain rfl : turns = turns' := (List.cons.inj same).2
    rcases form.list with ⟨rfl, c, known, _⟩ | ⟨some_, filled, cells⟩
    · refine ⟨fun held => absurd rfl held.some_, fun _ each => ?_⟩
      obtain ⟨_, _, _, _, _, _, rfl, _⟩ := (foreach_turn (cell_ne_null known)).1 loop
      cases each
    · constructor
      · intro held
        exact turns_follow_cells form.inScope cells filled loop fun visit mem =>
          ⟨held.cells visit mem, held.shows_ visit mem⟩
      · intro keeps each
        have spine := spine_of_cells cells
        obtain ⟨f, ends, _, all⟩ := turns_keep_cells form.inScope spine filled some_ loop each keeps
        refine ⟨some_, fun visit mem => ?_, fun visit mem => (all visit mem).2.2⟩
        obtain ⟨before, later, _⟩ := all visit mem
        exact cells_of_spine some_ (spine_later before spine) (ends_before later ends)
  · intro turns j t w u stages length some_ kept last
    rcases form.list with ⟨rfl, _⟩ | ⟨_, _, cells⟩
    · exact absurd rfl some_
    · have none_ := turns_end stages cells length kept
      subst none_
      exact (code _ _ _).2 ⟨turns, nullVal, asks_of_turns stages last, rfl, rfl⟩

/-- `l` is the list of 5, and `x` unbound; the forms are `(foreach x l x)` and
`(foreach x None x)`. -/
def foreachForms : State where
  cells := staticCells ++
    [{ type := .symbol, w0 := .str (text "foreach"), w1 := .ofNat 0 },
     { type := .symbol, w0 := .str (text "x"), w1 := .ofNat 1 },
     { type := .symbol, w0 := .str (text "l"), w1 := .ofNat 2 },
     { type := .operNative, w0 := .code (.builtin .foreach) },
     .mkCtx { Ctx.new 8 .null with
       keys := [.ref 7, .null, .ref 9, .null, .null, .null, .null, .null]
       vals := [.ref 10, .null, .ref 13, .null, .null, .null, .null, .null] },
     .mkNumber 5, .mkCons (.ref 12) .null, .mkCons (.ref 8) .null, .mkCons (.ref 9) (.ref 14),
     .mkCons (.ref 8) (.ref 15), .mkCons (.ref 7) (.ref 16), .mkCons nullVal (.ref 14),
     .mkCons (.ref 8) (.ref 18), .mkCons (.ref 7) (.ref 19)]
  symbolTable := [⟨text "l", 9⟩, ⟨text "x", 8⟩, ⟨text "foreach", 7⟩]
  lastSymId := 3

/-- `(foreach x l x)` -/
theorem foreach_iterates_iff_five : ∃ first turns t,
    Asks World.bare (evalBody (.ref 11) (.ref 17)) foreachForms (first :: turns) nullVal t ∧
      Iterates (.ref 11) (.ref 8) (.ref 8) [(13, .ref 12)] turns := by
  have facts : ∃ first m b u, ForeachOf World.bare (.ref 11) (.ref 17) (.ref 8) (.ref 8)
        foreachForms [(13, .ref 12)] first (.ref 13) m ∧
      Turn World.bare (.ref 11) (.ref 8) (.ref 8) (.ref 13) m
        (evaluation .foreachExpr (.ref 11) (.ref 8) b (.ref 12) b) (.ref 12) .null b ∧
      CellsAt b [(13, .ref 12)] (.ref 13) ∧ Shows b (.ref 11) (.ref 8) ∧
      (runtime World.bare).Runs (blCtxSet (.ref 11) (.ref 8) .null) b .null u := by
    refine ⟨_, _, _, _, ⟨⟨16, _, .ref 9, [.ref 8], .ref 8, .ref 9, [], ⟨_, _, _, _, _, _, rfl, rfl,
      .symbol rfl rfl ⟨9, rfl⟩ (by decide), rfl, rfl, rfl, rfl, rfl, rfl, rfl⟩,
      ⟨16, _, rfl, rfl, rfl, rfl, 15, _, rfl, rfl, rfl, rfl, 14, _, rfl, rfl, rfl, rfl, rfl⟩,
      ⟨9, rfl⟩,
      ⟨16, _, rfl, rfl, rfl, rfl, 15, _, rfl, rfl, rfl, rfl, 14, _, rfl, rfl, rfl, rfl, rfl⟩, rfl⟩,
      .inr ⟨by simp, by simp, rfl, _, rfl, rfl, rfl, rfl⟩,
      _, ⟨_, rfl, rfl, ⟨rfl, rfl⟩, rfl⟩, fun filled => absurd rfl filled⟩,
      ⟨⟨_, rfl, rfl⟩, ⟨_, _, _, ⟨9, rfl⟩, ⟨9, rfl⟩, rfl⟩, _, rfl, rfl⟩,
      ⟨rfl, _, rfl, rfl, rfl, rfl⟩, ⟨_, 1, ⟨_, rfl, rfl, ⟨rfl, rfl⟩, rfl⟩, rfl,
        .inl ⟨⟨_, text "x", rfl, rfl, rfl, rfl, by decide, by decide⟩, fun marked => nomatch marked⟩⟩,
      ⟨9, rfl⟩⟩
  obtain ⟨first, m, b, u, form, turn, cells, shows_, last⟩ := facts
  obtain ⟨iterates, ends⟩ := foreach_iterates_iff form
  have undisturbed : ∀ visit ∈ [evaluation .foreachExpr (.ref 11) (.ref 8) b (.ref 12) b],
      CellsAt visit.after [(13, .ref 12)] (.ref 13) ∧ Shows visit.before (.ref 11) (.ref 8) := by
    intro visit mem
    rw [List.mem_singleton.1 mem]
    exact ⟨cells, shows_⟩
  have asks := ends _ _ _ _ u (.next turn (.none _ _)) rfl (by simp)
    (fun visit mem => (undisturbed visit mem).1) last
  exact ⟨first, _, u, asks, (iterates _ _ _ asks).1 ⟨by simp, fun visit mem =>
    (undisturbed visit mem).1, fun visit mem => (undisturbed visit mem).2⟩⟩

/-- `(foreach x None x)` evaluates `x` once, unbound. -/
theorem foreach_none_evaluates : ∃ first m b a v t,
    ForeachOf World.bare (.ref 11) (.ref 20) (.ref 8) (.ref 8) foreachForms [] first nullVal m ∧
      Asks World.bare (evalBody (.ref 11) (.ref 20)) foreachForms
        [first, evaluation .foreachExpr (.ref 11) (.ref 8) b v a] nullVal t ∧
      boundTo b (.ref 11) 1 = .null ∧
      ¬ Iterates (.ref 11) (.ref 8) (.ref 8) []
        [evaluation .foreachExpr (.ref 11) (.ref 8) b v a] := by
  have facts : ∃ s' b a v u, OperatorCall World.bare .foreach (.ref 11) (.ref 20) foreachForms 19
        s' ∧
      ListAt s' [.ref 8, nullVal, .ref 8] (.ref 19) ∧
      (runtime World.bare).Runs (blEval .operand (.ref 11) nullVal) s' nullVal s' ∧
      EmptyList s' nullVal ∧ InScope s' (.ref 11) ∧
      Turn World.bare (.ref 11) (.ref 8) (.ref 8) nullVal s'
        (evaluation .foreachExpr (.ref 11) (.ref 8) b v a) .null .null a ∧
      (runtime World.bare).Runs (blCtxSet (.ref 11) (.ref 8) .null) a .null u ∧
      boundTo b (.ref 11) 1 = .null :=
    ⟨_, _, _, _, _, ⟨_, _, _, _, _, _, rfl, rfl, .symbol rfl rfl ⟨9, rfl⟩ (by decide), rfl, rfl,
      rfl, rfl, rfl, rfl, rfl⟩,
      ⟨19, _, rfl, rfl, rfl, rfl, 18, _, rfl, rfl, rfl, rfl, 14, _, rfl, rfl, rfl, rfl, rfl⟩,
      ⟨9, rfl⟩, ⟨_, rfl, .inl rfl, rfl, rfl⟩,
      ⟨_, ⟨_, rfl, rfl, ⟨rfl, rfl⟩, rfl⟩, fun filled => absurd rfl filled⟩,
      ⟨⟨_, rfl, rfl⟩, ⟨_, _, _, ⟨9, rfl⟩, ⟨9, rfl⟩, rfl⟩, _, rfl, rfl⟩, ⟨9, rfl⟩, rfl⟩
  obtain ⟨s', b, a, v, u, called, operands, value, empty, inScope, turn, last, unbound⟩ := facts
  refine ⟨_, s', b, a, v, u, ⟨⟨19, s', nullVal, [.ref 8], .ref 8, nullVal, [], called, operands,
    value, operands, rfl⟩, .inl ⟨rfl, empty⟩, inScope⟩, ?_, unbound, fun each => nomatch each⟩
  exact (asks_foreach called operands value operands _ _ _).2
    ⟨_, nullVal, asks_of_turns (.next turn (.none _ _)) last, rfl, rfl⟩

end Foreach

end BearLang.Iteration
