import BearLang.Execution
import BearLang.ListGraphs

/-!
# Loops over lists come to an end

In a heap without cycles every walk along the links ends: the length of a list,
its last cell, appending to it and its text. A walk may end with a fault, where
a link leads to no cell, but it does not go on for ever.
-/

namespace BearLang.ListGraphs

open CallPrograms AcyclicRelations

set_option autoImplicit false

section Reading

variable {W : World} {s : State} {α β : Type}

/-- The program ends, and leaves the state as it is. -/
structure ReadsOnly (W : World) (program : Prog α) (s : State) : Prop where
  settles : (runtime W).Settles program s
  same : ∀ v t, (runtime W).Runs program s v t → t = s

theorem reads_pure (v : α) : ReadsOnly W (pure v) s where
  settles := settles_of_runs (runs_pure_self v s)
  same _ _ run := (runs_pure.1 run).2.symm

theorem reads_trap : ReadsOnly W (trap : Prog α) s where
  settles := settles_perform fun answer => nomatch answer
  same v t run := by
    obtain ⟨answer, _⟩ := runs_perform.1 run
    exact nomatch answer

theorem reads_bind {g : Prog α} {f : α → Prog β} (first : ReadsOnly W g s)
    (rest : ∀ v, (runtime W).Runs g s v s → ReadsOnly W (f v) s) : ReadsOnly W (g >>= f) s where
  settles := by
    refine settles_bind first.settles fun v t run => ?_
    cases first.same v t run
    exact (rest v run).settles
  same v t run := by
    obtain ⟨w, u, before, after⟩ := runs_bind.1 run
    cases first.same w u before
    exact (rest w before).same v t after

theorem reads_load {p : Ptr} {f : Cell → Prog α}
    (rest : ∀ c, s.cell p = some c → ReadsOnly W (f c) s) : ReadsOnly W (load p >>= f) s := by
  have loaded : ∀ c t, (runtime W).Runs (load p) s c t → s.cell p = some c ∧ t = s := by
    intro c t run
    obtain ⟨c', found, rfl, rfl⟩ := mapped_spec (runs_step_iff.1 run)
    exact ⟨found, rfl⟩
  refine reads_bind ⟨settles_perform fun c t _ => settles_of_runs (runs_pure_self c t),
    fun c t run => (loaded c t run).2⟩ fun c run => rest c (loaded c s run).1

theorem reads_member {value : Option α} : ReadsOnly W (member value) s := by
  cases value with
  | none => exact reads_trap
  | some v => exact reads_pure v

theorem reads_call {c : Call} (reads : ReadsOnly W (body W c) s) : ReadsOnly W (call c) s where
  settles := settles_invoke reads.settles fun v t _ => settles_of_runs (runs_pure_self v t)
  same v t run := reads.same v t (runs_call_iff.1 run)

theorem reads_ite {c : Prop} [Decidable c] {yes no : Prog α} (first : ReadsOnly W yes s)
    (second : ReadsOnly W no s) : ReadsOnly W (if c then yes else no) s := by
  split
  · exact first
  · exact second

end Reading

section Walks

variable {W : World} {s : State}

/-- Induction along the links: a fact about pointers holds if it does once it
holds for all that a cell is linked to. -/
theorem along_links (acyclic : Acyclic (Link s)) {P : Ptr → Prop} (null : P .null) (wild : P .wild)
    (walk : ∀ a, (∀ c, s.cell (.ref a) = some c → ∀ p ∈ linked c, P p) → P (.ref a)) (p : Ptr) :
    P p := by
  have sources : ∀ a b, Link s a b → a ∈ { a | a < s.fresh } := by
    rintro a b ⟨c, found, _⟩
    exact State.ref_lt_fresh found
  have each : ∀ a, P (.ref a) := by
    intro a
    induction accessible_of_acyclic (Set.finite_lt_nat s.fresh) sources acyclic a with
    | intro a _ ih =>
        refine walk a fun c found p mem => ?_
        cases p with
        | null => exact null
        | wild => exact wild
        | ref b => exact ih b ⟨c, found, mem⟩
  cases p with
  | null => exact null
  | wild => exact wild
  | ref a => exact each a

theorem car_linked (c : Cell) : c.car ∈ linked c := by simp [linked]

theorem cdr_linked (c : Cell) : c.cdr ∈ linked c := by simp [linked]

theorem value_linked (c : Cell) : c.err.errVal ∈ linked c := by simp [linked]

theorem list_len_loop_reads (acyclic : Acyclic (Link s)) (L : Ptr) :
    ∀ count, ReadsOnly W (call (.listLen L count)) s := by
  induction L using along_links acyclic with
  | null => exact fun count => reads_call (c := .listLen .null count) (reads_pure count)
  | wild =>
      intro count
      exact reads_call (c := .listLen .wild count) (reads_load fun c found => nomatch found)
  | walk a ih =>
      intro count
      refine reads_call (c := .listLen (.ref a) count) (reads_load fun c found => ?_)
      exact ih c found c.cdr (cdr_linked c) (count + 1)

theorem last_cell_reads (acyclic : Acyclic (Link s)) (L : Ptr) :
    ReadsOnly W (call (.lastCell L)) s := by
  induction L using along_links acyclic with
  | null => exact reads_call (c := .lastCell .null) (reads_load fun c found => nomatch found)
  | wild => exact reads_call (c := .lastCell .wild) (reads_load fun c found => nomatch found)
  | walk a ih =>
      refine reads_call (c := .lastCell (.ref a)) (reads_load fun c found => ?_)
      exact reads_ite (reads_pure _) (ih c found c.cdr (cdr_linked c))

theorem errmsg_reads {E : Ptr} (value : ∀ c, s.cell E = some c →
    ReadsOnly W (blSerSexp c.err.errVal) s) : ReadsOnly W (blErrmsg E) s := by
  refine reads_load fun c found => ?_
  refine reads_bind reads_member fun code _ => ?_
  have custom : ReadsOnly W (load c.err.errSym >>= fun sym => member sym.sVal >>= fun name =>
      blSerSexp c.err.errVal >>= fun val => pure (snprintf 1023 (name ++ text ": " ++ val))) s := by
    refine reads_load fun sym _ => ?_
    refine reads_bind reads_member fun name _ => ?_
    exact reads_bind (value c found) fun val _ => reads_pure _
  dsimp only
  repeat' apply reads_ite
  all_goals first
    | exact custom
    | exact reads_trap
    | exact reads_pure _

/-- The text of a value, and the rest of a list of which it is a cell. -/
theorem ser_sexp_reads (acyclic : Acyclic (Link s)) (expr : Ptr) :
    ReadsOnly W (blSerSexp expr) s ∧ ∀ retval, ReadsOnly W (call (.serLoop expr retval)) s := by
  induction expr using along_links acyclic with
  | null =>
      exact ⟨reads_call (c := .serSexp .null) (reads_pure []),
        fun retval => reads_call (c := .serLoop .null retval) (reads_pure retval)⟩
  | wild =>
      exact ⟨reads_call (c := .serSexp .wild) (reads_load fun c found => nomatch found),
        fun retval => reads_call (c := .serLoop .wild retval)
          (reads_load fun c found => nomatch found)⟩
  | walk a ih =>
      have list : ∀ retval, ReadsOnly W (call (.serLoop (.ref a) retval)) s := by
        intro retval
        refine reads_call (c := .serLoop (.ref a) retval) (reads_load fun c found => ?_)
        refine reads_bind (ih c found c.car (car_linked c)).1 fun newval _ => ?_
        exact (ih c found c.cdr (cdr_linked c)).2 _
      refine ⟨reads_call (c := .serSexp (.ref a)) (reads_load fun c found => ?_), list⟩
      have first := (ih c found c.car (car_linked c)).1
      have second := (ih c found c.cdr (cdr_linked c)).1
      have member_ : ∀ {α : Type} {value : Option α} {f : α → CStr},
          ReadsOnly W (member value >>= fun v => pure (f v)) s := fun {α value f} =>
        reads_bind reads_member fun v _ => reads_pure _
      cases c.type with
      | error => exact errmsg_reads fun c' found' => (ih c' found' _ (value_linked c')).1
      | symbol => exact reads_member
      | string => exact member_
      | number => exact member_
      | bool => exact member_
      | funcBl => exact reads_bind second fun _ _ => reads_bind first fun _ _ => reads_pure _
      | operBl => exact reads_bind first fun _ _ => reads_pure _
      | cons => exact reads_ite (reads_pure _) (reads_bind (list _) fun _ _ => reads_pure _)
      | _ => exact reads_pure _

end Walks

section Ends

variable {W : World} {s : State}

/-- What the list functions and the serialiser rely on. -/
structure ListsEnd (W : World) (s : State) : Prop where
  acyclic : Acyclic (Link s)
  len : ∀ L, (runtime W).Settles (blListLen L) s
  last : ∀ L, (runtime W).Settles (blListLast L) s
  append : ∀ L val, (runtime W).Settles (blListAppend L val) s
  text : ∀ v, (runtime W).Settles (blSerSexp v) s

theorem list_len_reads (acyclic : Acyclic (Link s)) (L : Ptr) : ReadsOnly W (blListLen L) s := by
  refine reads_ite (reads_pure 0) (reads_load fun c _ => ?_)
  refine reads_ite (reads_pure 0) (reads_ite (reads_pure 0) ?_)
  exact list_len_loop_reads acyclic L 0

theorem list_last_reads (acyclic : Acyclic (Link s)) (L : Ptr) : ReadsOnly W (blListLast L) s := by
  refine reads_ite (reads_pure _) (reads_bind (last_cell_reads acyclic L) fun last _ => ?_)
  exact reads_load fun c _ => reads_pure _

theorem list_append_settles (acyclic : Acyclic (Link s)) (L val : Ptr) :
    (runtime W).Settles (blListAppend L val) s := by
  have prepend : (runtime W).Settles (blListPrepend L val) s :=
    settles_of_runs (runs_alloc _ s)
  unfold blListAppend
  split
  · exact prepend
  · refine settles_bind (last_cell_reads acyclic L).settles fun last t _ => ?_
    refine settles_perform fun new u _ => settles_perform fun _ v _ => ?_
    exact settles_of_runs (runs_pure_self L v)

theorem lists_end_of_acyclic (acyclic : Acyclic (Link s)) : ListsEnd W s where
  acyclic := acyclic
  len L := (list_len_reads acyclic L).settles
  last L := (list_last_reads acyclic L).settles
  append := list_append_settles acyclic
  text v := (ser_sexp_reads acyclic v).1.settles

variable {site : Site} {ctx expr : Ptr}

/-- The lists stay finite trees, and every walk along them ends, if and only if no
append puts a value behind a list that the value leads back to, and no call
without arguments is made with an expression that None leads back to. -/
theorem lists_stay_finite_iff (disciplined : ∀ D, W.Disciplined D) (closed : Closed s)
    (awayCtx : Away [] s ctx) (awayExpr : Away [] s expr) (acyclic : Acyclic (Link s)) :
    (∀ q t, (runtime W).Reaches (blEval site ctx expr) s q t → ListsEnd W t) ↔
      ∀ op before, (runtime W).Performs (blEval site ctx expr) s op before → ¬ Closes op before := by
  rw [← graph_stays_acyclic_iff disciplined closed awayCtx awayExpr acyclic]
  constructor
  · intro always q t reached
    exact (always q t reached).acyclic
  · intro always q t reached
    exact lists_end_of_acyclic (always q t reached)

end Ends

section Examples

theorem acyclic_of_check {s : State}
    (descending : ∀ pair ∈ s.cells.zipIdx, ∀ p ∈ linked pair.1, p.below pair.2) :
    Acyclic (Link s) := by
  apply acyclic_of_descending id
  rintro a b ⟨c, found, mem⟩
  have listed : (c, a) ∈ s.cells.zipIdx := List.mem_zipIdx_iff_getElem?.2 found
  exact of_decide_eq_true (descending (c, a) listed _ mem)

/-- `(append x x)`, where `x` is the list `(1)`. -/
def selfAppend : State where
  cells := staticCells ++
    [{ type := .symbol, w0 := .str (text "append"), w1 := .ofNat 0 },
     { type := .symbol, w0 := .str (text "x"), w1 := .ofNat 1 },
     { type := .operNative, w0 := .code (.builtin .append) },
     .mkCtx { Ctx.new 8 .null with
       keys := [.ref 7, .ref 8, .null, .null, .null, .null, .null, .null]
       vals := [.ref 9, .ref 12, .null, .null, .null, .null, .null, .null] },
     .mkNumber 1, .mkCons (.ref 11) .null, .mkCons (.ref 8) .null, .mkCons (.ref 8) (.ref 13),
     .mkCons (.ref 7) (.ref 14)]
  symbolTable := [⟨text "x", 8⟩, ⟨text "append", 7⟩]
  lastSymId := 2

theorem self_append_closed : Closed selfAppend :=
  closed_of_check (by decide) (by decide) (by decide)

theorem self_append_acyclic : Acyclic (Link selfAppend) := acyclic_of_check (by decide)

theorem self_append_away {a : Nat} (bound : a < selfAppend.fresh) : Away [] selfAppend (.ref a) := by
  rintro b same
  cases same
  exact ⟨bound, List.not_mem_nil⟩

theorem lists_stay_finite_self :
    (∀ q t, (runtime World.bare).Reaches (blEval .operand (.ref 10) (.ref 15)) selfAppend q t →
        ListsEnd World.bare t) ↔
      ∀ op before, (runtime World.bare).Performs (blEval .operand (.ref 10) (.ref 15)) selfAppend op
        before → ¬ Closes op before :=
  lists_stay_finite_iff bare_disciplined self_append_closed (self_append_away (by decide))
    (self_append_away (by decide)) self_append_acyclic

/-- `(append x x)` makes the list an element of itself. -/
theorem self_append_cycle :
    ¬ ∀ (s : State) (ctx expr : Ptr), Closed s → Away [] s ctx → Away [] s expr →
      Acyclic (Link s) → ∀ q t, (runtime World.bare).Reaches (blEval .operand ctx expr) s q t →
        ListsEnd World.bare t := by
  intro always
  have run : ∃ v t, (runtime World.bare).Runs (blEval .operand (.ref 10) (.ref 15)) selfAppend v t ∧
      t.cell (.ref 12) = some (.mkCons (.ref 11) (.ref 16)) ∧
      t.cell (.ref 16) = some (.mkCons (.ref 12) .null) := ⟨_, _, ⟨12, rfl⟩, rfl, rfl⟩
  obtain ⟨v, t, run, list, new⟩ := run
  have ends := always selfAppend (.ref 10) (.ref 15) self_append_closed
    (self_append_away (by decide)) (self_append_away (by decide)) self_append_acyclic _ t
    (reaches_done_of_runs run)
  have there : Link t 12 16 := ⟨_, list, cdr_linked (.mkCons (.ref 11) (.ref 16))⟩
  have back : Link t 16 12 := ⟨_, new, car_linked (.mkCons (.ref 12) .null)⟩
  exact ends.acyclic 12 (.tail (.single there) back)

end Examples

end BearLang.ListGraphs
