import BearLang.Execution
import BearLang.HeapRegions

/-!
# Evaluating a list

What the head of a list is taken to be, and what `bl_eval_cons` gives: the list
of the values of the elements, evaluated in order. The new list cells are known
to nothing but the loop that links them, so no evaluation changes them.
-/

namespace BearLang

open CallPrograms

set_option autoImplicit false

section Lists

/-- A proper list of cells with these elements. -/
def ListAt (s : State) : List Ptr → Ptr → Prop
  | [], p => p = .null
  | x :: xs, p => ∃ a c, p = .ref a ∧ s.cell p = some c ∧ c.type = .cons ∧ c.car = x ∧
      ListAt s xs c.cdr

theorem list_at_unique {s : State} {xs ys : List Ptr} {p : Ptr} (first : ListAt s xs p)
    (second : ListAt s ys p) : xs = ys := by
  induction xs generalizing ys p with
  | nil =>
      cases ys with
      | nil => rfl
      | cons y ys =>
          obtain ⟨a, _, known, _⟩ := second
          rw [first] at known
          cases known
  | cons x xs ih =>
      obtain ⟨a, c, rfl, known, _, car, rest⟩ := first
      cases ys with
      | nil => cases second
      | cons y ys =>
          obtain ⟨a', c', _, known', _, car', rest'⟩ := second
          rw [known] at known'
          cases known'
          rw [← car, ← car', ih rest rest']

variable {W : World}

theorem list_len_loop_runs {s : State} {xs : List Ptr} {p : Ptr} (list : ListAt s xs p)
    (count : Nat) : (runtime W).Runs (listLenLoop p count) s (count + xs.length) s := by
  induction xs generalizing p count with
  | nil =>
      have empty : p = .null := list
      rw [listLenLoop, if_pos empty]
      exact runs_pure_self _ _
  | cons x xs ih =>
      obtain ⟨a, c, rfl, known, _, _, rest⟩ := list
      rw [listLenLoop, if_neg (by simp), runs_after (runs_load known)]
      have later := ih rest (count + 1)
      rw [List.length_cons, Nat.add_comm xs.length 1, ← Nat.add_assoc]
      exact runs_call (c := .listLen c.cdr (count + 1)) later

/-- The length of a list whose first element is no null pointer. -/
theorem list_len_runs {s : State} {x : Ptr} {xs : List Ptr} {p : Ptr}
    (list : ListAt s (x :: xs) p) (filled : x ≠ .null) :
    (runtime W).Runs (blListLen p) s (xs.length + 1) s := by
  have whole := list_len_loop_runs (W := W) list 0
  obtain ⟨a, c, rfl, known, type, car, _⟩ := list
  have notNull : c.type ≠ .null := by
    rw [type]
    decide
  rw [blListLen, if_neg (by simp), runs_after (runs_load known), if_neg notNull, car,
    if_neg filled]
  rw [Nat.zero_add, List.length_cons] at whole
  exact runs_call (c := .listLen (.ref a) 0) whole

theorem list_first_runs {s : State} {x : Ptr} {xs : List Ptr} {p : Ptr}
    (list : ListAt s (x :: xs) p) : (runtime W).Runs (blListFirst p) s x s := by
  obtain ⟨a, c, rfl, known, _, rfl, _⟩ := list
  rw [blListFirst, if_neg (by simp), runs_after (runs_load known)]
  exact runs_pure_self _ _

theorem list_rest_runs {s : State} {x : Ptr} {xs : List Ptr} {p : Ptr}
    (list : ListAt s (x :: xs) p) :
    ∃ q, (runtime W).Runs (blListRest p) s q s ∧ ListAt s xs q := by
  obtain ⟨a, c, rfl, known, _, _, rest⟩ := list
  refine ⟨c.cdr, ?_, rest⟩
  rw [blListRest, if_neg (by simp), runs_after (runs_load known)]
  exact runs_pure_self _ _

theorem list_second_runs {s : State} {x y : Ptr} {xs : List Ptr} {p : Ptr}
    (list : ListAt s (x :: y :: xs) p) : (runtime W).Runs (blListSecond p) s y s := by
  obtain ⟨q, rest, list'⟩ := list_rest_runs (W := W) list
  obtain ⟨a, c, rfl, known, _⟩ := list
  rw [blListSecond, if_neg (by simp), runs_after rest]
  exact list_first_runs list'

theorem first_of_list {s : State} {xs : List Ptr} {p : Ptr} (list : ListAt s xs p) :
    (runtime W).Runs (blListFirst p) s (xs.headD .null) s := by
  cases xs with
  | nil =>
      have none_ : p = .null := list
      rw [blListFirst, if_pos none_]
      exact runs_pure_self _ _
  | cons x xs => exact list_first_runs list

theorem second_of_list {s : State} {xs : List Ptr} {p : Ptr} (list : ListAt s xs p) :
    (runtime W).Runs (blListSecond p) s (xs.tail.headD .null) s := by
  cases xs with
  | nil =>
      have none_ : p = .null := list
      rw [blListSecond, if_pos none_]
      exact runs_pure_self _ _
  | cons x xs =>
      obtain ⟨q, run, rest⟩ := list_rest_runs (W := W) list
      have filled : p ≠ .null := by
        obtain ⟨_, _, rfl, _⟩ := list
        simp
      rw [blListSecond, if_neg filled, runs_after run]
      exact first_of_list rest

theorem list_first_same {s t : State} {L x : Ptr}
    (run : (runtime W).Runs (blListFirst L) s x t) : s = t := by
  rw [blListFirst] at run
  split at run
  · exact (runs_pure.1 run).2
  · obtain ⟨c, _, run⟩ := runs_load_iff.1 run
    exact (runs_pure.1 run).2

theorem list_second_same {s t : State} {L x : Ptr}
    (run : (runtime W).Runs (blListSecond L) s x t) : s = t := by
  rw [blListSecond] at run
  split at run
  · exact (runs_pure.1 run).2
  · rename_i filled
    rw [blListRest, if_neg filled, bind_assoc] at run
    obtain ⟨c, _, run⟩ := runs_load_iff.1 run
    exact list_first_same run

end Lists

section Heads

variable {W : World} {ctx expr : Ptr} {s s' : State}

/-- What stands at the head of a list is taken to be: the value of a symbol, and
anything else itself. -/
inductive HeadValue (W : World) (ctx : Ptr) : Ptr → State → Ptr → State → Prop
  | symbol {h v : Ptr} {s s' : State} {c : Cell} (known : s.cell h = some c)
      (type : c.type = .symbol) (found : (runtime W).Runs (blCtxGet ctx h) s v s')
      (bound : v ≠ .null) : HeadValue W ctx h s v s'
  | other {h : Ptr} {s : State} {c : Cell} (known : s.cell h = some c)
      (type : c.type ≠ .symbol) : HeadValue W ctx h s h s

theorem cell_ne_null {p : Ptr} {c : Cell} (known : s.cell p = some c) : p ≠ .null := by
  rintro rfl
  cases known

theorem head_ne_null {h v : Ptr} (head : HeadValue W ctx h s v s') : h ≠ .null := by
  cases head with
  | symbol known => exact cell_ne_null known
  | other known => exact cell_ne_null known

/-- The rule for a first statement whose run is known, along a run. -/
theorem reaches_after {α β : Type} {p : Prog α} {f : α → Prog β} {t : State} {v : α}
    {q : Prog β} {u : State} (first : (runtime W).Runs p s v t)
    (later : (runtime W).Reaches (f v) t q u) : (runtime W).Reaches (p >>= f) s q u :=
  reaches_trans (reaches_of_runs first) later

theorem reaches_call {c : Call} {q : Prog c.Answer} {t : State}
    (later : (runtime W).Reaches (body W c) s q t) : (runtime W).Reaches (call c) s q t := by
  refine .invoke ?_
  rw [Program.bind_done]
  exact later

/-- The evaluation of a list gets to the application of what its head is. -/
theorem eval_reaches_apply {e : Cell} {v : Ptr} (site : Site) (known : s.cell expr = some e)
    (type : e.type = .cons) (head : HeadValue W ctx e.car s v s') :
    (runtime W).Reaches (blEval site ctx expr) s (evalApply ctx expr v) s' := by
  have body : (runtime W).Reaches (evalBody ctx expr) s (evalApply ctx expr v) s' := by
    rw [evalBody, if_neg (cell_ne_null known)]
    refine reaches_call (c := .evalLoop ctx expr) ?_
    change (runtime W).Reaches (evalLoopBody ctx expr) s (evalApply ctx expr v) s'
    rw [evalLoopBody, if_neg (cell_ne_null known)]
    refine reaches_after (runs_load known) ?_
    simp only [type]
    rw [if_neg (head_ne_null head)]
    cases head with
    | symbol held kind found bound =>
        refine reaches_after (runs_load held) ?_
        rw [if_pos kind]
        refine reaches_after found ?_
        rw [if_neg bound]
        exact .refl _ _
    | other held kind =>
        refine reaches_after (runs_load held) ?_
        rw [if_neg kind]
        exact .refl _ _
  exact reaches_call (c := .eval site ctx expr) body

theorem eval_runs_apply {e : Cell} {v r : Ptr} {t : State} (site : Site)
    (known : s.cell expr = some e) (type : e.type = .cons) (head : HeadValue W ctx e.car s v s') :
    (runtime W).Runs (blEval site ctx expr) s r t ↔ (runtime W).Runs (evalApply ctx expr v) s' r t :=
  reaches_runs_iff (eval_reaches_apply site known type head)

/-- What the call of an operator notes in the cell of its argument list. -/
def Cell.invokedAs (c : Cell) (sym : Ptr) (customData : Nat) : Cell :=
  { c with invokedSym := sym, customData := customData }

/-- A list depends on its cells only, and of them on the kinds and the words. -/
theorem list_at_words {s t : State} {xs : List Ptr} {p : Ptr}
    (kept : ∀ q c, s.cell q = some c → c.type = .cons → ∃ d, t.cell q = some d ∧
      d.type = c.type ∧ d.w0 = c.w0 ∧ d.w1 = c.w1) (list : ListAt s xs p) : ListAt t xs p := by
  induction xs generalizing p with
  | nil => exact list
  | cons x xs ih =>
      obtain ⟨a, c, rfl, known, type, car, rest⟩ := list
      obtain ⟨d, found, type', word, word'⟩ := kept _ c known type
      refine ⟨a, d, rfl, found, type'.trans type, ?_, ?_⟩
      · rw [Cell.car, word]
        exact car
      · rw [Cell.cdr, word']
        exact ih rest

theorem list_at_kept {s t : State} {xs : List Ptr} {p : Ptr}
    (kept : ∀ q c, s.cell q = some c → ∃ d, t.cell q = some d ∧ d.type = c.type ∧ d.w0 = c.w0 ∧
      d.w1 = c.w1) (list : ListAt s xs p) : ListAt t xs p :=
  list_at_words (fun q c known _ => kept q c known) list

/-- The call of a native operator with arguments gets to its code. -/
theorem eval_reaches_native {e e' op args : Cell} {v : Ptr} {n : Nat} {code : Native} (site : Site)
    (known : s.cell expr = some e) (type : e.type = .cons) (head : HeadValue W ctx e.car s v s')
    (operator : s'.cell v = some op) (native : op.type = .operNative)
    (points : op.codePtr = some code) (again : s'.cell expr = some e') (rest : e'.cdr = .ref n)
    (arguments : s'.cell (.ref n) = some args) :
    (runtime W).Reaches (blEval site ctx expr) s
      (call (.native code ctx (.ref n)) >>= fun retval => pure (orNull retval))
      (s'.put n (args.invokedAs e'.car op.customData)) := by
  refine reaches_trans (eval_reaches_apply site known type head) ?_
  have noted : (runtime W).Runs (setInvoked (.ref n) e'.car op.customData) s' ()
      (s'.put n (args.invokedAs e'.car op.customData)) :=
    runs_set_invoked arguments e'.car op.customData
  refine reaches_after (runs_load operator) ?_
  simp only [native]
  refine reaches_after (runs_load again) (reaches_after (runs_load operator) ?_)
  refine reaches_after (runs_member points s') ?_
  rw [if_neg (by rw [rest]; simp)]
  refine reaches_after (runs_load again) ?_
  rw [rest]
  exact reaches_after noted (.refl _ _)

end Heads

section Collecting

/-- The value goes into a new list cell behind the last one. -/
def State.collected (s : State) (last v : Ptr) : State :=
  let made := s.allocated (.mkCons v .null)
  match last with
  | .ref a =>
      match made.cells[a]? with
      | some c => made.put a { c with w1 := .addr s.fresh }
      | none => made
  | _ => made

/-- The elements of the list from `i` on are evaluated in order, none to an
error; each value is collected before the next evaluation starts. -/
inductive Collects (W : World) (ctx : Ptr) : Ptr → Ptr → State → List Ptr → State → Prop
  | done (last : Ptr) (s : State) : Collects W ctx .null last s [] s
  | next {i last v : Ptr} {c vc c' : Cell} {s m t : State} {vs : List Ptr}
      (cell : s.cell i = some c)
      (evaluated : (runtime W).Runs (blEval .listElement ctx c.car) s v m)
      (value : m.cell v = some vc) (noError : vc.type ≠ .error) (cell' : m.cell i = some c')
      (rest : Collects W ctx c'.cdr (.ref m.fresh) (m.collected last v) vs t) :
      Collects W ctx i last s (v :: vs) t

theorem collected_first (s : State) (v : Ptr) :
    s.collected .null v = s.allocated (.mkCons v .null) := rfl

theorem collected_behind {s : State} {a : Nat} {w : Ptr}
    (last : s.cell (.ref a) = some (.mkCons w .null)) (v : Ptr) :
    s.collected (.ref a) v =
      (s.allocated (.mkCons v .null)).put a (.mkCons w (.ref s.fresh)) := by
  have held : (s.allocated (.mkCons v .null)).cells[a]? = some (.mkCons w .null) :=
    State.cell_allocated_old last _
  simp only [State.collected, held]
  rfl

variable {W : World} {ctx : Ptr}

theorem eval_cons_turn (start : Ptr) {i last v r : Ptr} {c vc c' : Cell} {s m t : State}
    (cell : s.cell i = some c)
    (evaluated : (runtime W).Runs (blEval .listElement ctx c.car) s v m)
    (value : m.cell v = some vc) (noError : vc.type ≠ .error)
    (linked : last = .null ∨ ∃ a w, last = .ref a ∧ m.cell last = some (.mkCons w .null))
    (cell' : (m.collected last v).cell i = some c')
    (rest : (runtime W).Runs (evalConsLoop ctx c'.cdr (if last = .null then .ref m.fresh else start)
      (.ref m.fresh)) (m.collected last v) r t) :
    (runtime W).Runs (evalConsLoop ctx i start last) s r t := by
  rw [evalConsLoop, if_neg (cell_ne_null cell), runs_after (runs_load cell),
    runs_after evaluated, runs_after (runs_type_of value), if_neg noError,
    runs_after (runs_alloc _ m)]
  rcases linked with rfl | ⟨a, w, rfl, held⟩
  · rw [collected_first] at cell' rest
    rw [if_pos rfl] at rest ⊢
    rw [runs_after (runs_load cell')]
    exact runs_call (c := .evalConsLoop ctx c'.cdr (.ref m.fresh) (.ref m.fresh)) rest
  · have old := State.cell_allocated_old held (.mkCons v .null)
    rw [collected_behind held] at cell' rest
    have link : (runtime W).Runs (setCdr .build (.ref a) (.ref m.fresh))
        (m.allocated (.mkCons v .null)) ()
        ((m.allocated (.mkCons v .null)).put a (.mkCons w (.ref m.fresh))) :=
      runs_set_cdr old .build (.ref m.fresh)
    rw [if_neg (by simp)] at rest ⊢
    rw [runs_after link, runs_after (runs_load cell')]
    exact runs_call (c := .evalConsLoop ctx c'.cdr start (.ref m.fresh)) rest

/-- The list under construction ends with a cell for `w` at `a`, and its cells are
pointed to by each other only. -/
structure Growing (used : List Nat) (a : Nat) (w : Ptr) (s : State) : Prop where
  secluded : Secluded used s
  listed : a ∈ used
  last : s.cell (.ref a) = some (.mkCons w .null)

/-- What an evaluation from `s` to `m`, and the cell for its value, do to it. -/
structure GrownBy (used : List Nat) (a : Nat) (w v : Ptr) (s m : State) : Prop where
  growing : Growing (used ++ [m.fresh]) m.fresh v (m.collected (.ref a) v)
  last : m.cell (.ref a) = some (.mkCons w .null)
  linked : (m.collected (.ref a) v).cell (.ref a) = some (.mkCons w (.ref m.fresh))
  kept : ∀ b ∈ used, b ≠ a → (m.collected (.ref a) v).cell (.ref b) = s.cell (.ref b)
  away : ∀ p, Away used m p → Away (used ++ [m.fresh]) (m.collected (.ref a) v) p
  others : ∀ p c, p ≠ .ref a → m.cell p = some c → (m.collected (.ref a) v).cell p = some c
  later : s.fresh ≤ m.fresh
  secluded : Secluded used m

theorem grown_by_evaluation (disciplined : ∀ D, W.Disciplined D) {used : List Nat} {a : Nat}
    {w expr v : Ptr} {s m : State} (growing : Growing used a w s) (awayCtx : Away used s ctx)
    (awayExpr : Away used s expr) {site : Site}
    (evaluated : (runtime W).Runs (blEval site ctx expr) s v m) : GrownBy used a w v s m := by
  obtain ⟨secluded, listed, lastCell⟩ := growing
  obtain ⟨secluded', _, same⟩ := eval_secluded disciplined secluded awayCtx awayExpr evaluated
  have lastCell' : m.cell (.ref a) = some (.mkCons w .null) := by rw [same a listed, lastCell]
  have aOld : a < m.fresh := State.ref_lt_fresh lastCell'
  have collected := collected_behind lastCell' v
  have newCell : (m.collected (.ref a) v).cell (.ref m.fresh) = some (.mkCons v .null) := by
    rw [collected, State.cell_put_other fun h => Nat.ne_of_gt aOld (Ptr.ref.inj h)]
    exact State.cell_allocated_new m _
  have secluded'' : Secluded (used ++ [m.fresh]) (m.collected (.ref a) v) := by
    rw [collected]
    exact secluded_put (secluded_new secluded' _) (List.mem_append_left _ listed) _
  refine ⟨⟨secluded'', List.mem_append_right _ (List.mem_singleton.2 rfl), newCell⟩, lastCell', ?_,
    ?_, ?_, ?_, fresh_le_of_grows (runs_grows evaluated), secluded'⟩
  · rw [collected]
    refine State.cell_put_same ?_ _
    rw [State.fresh_allocated]
    exact Nat.lt_succ_of_lt aOld
  · intro b mem other
    have bOld : b < m.fresh := secluded'.old b mem
    rw [← same b mem, collected, State.cell_put_other fun h => other (Ptr.ref.inj h)]
    simp only [State.cell, State.allocated, State.fresh] at bOld ⊢
    rw [List.getElem?_append_left bOld]
  · intro p away b isRef
    have inside := away b isRef
    rw [collected, State.fresh_put, State.fresh_allocated]
    refine ⟨Nat.lt_succ_of_lt inside.1, fun mem => ?_⟩
    rcases List.mem_append.1 mem with old | new
    · exact inside.2 old
    · exact Nat.ne_of_lt inside.1 (List.mem_singleton.1 new)
  · intro p c other known
    rw [collected, State.cell_put_other other]
    exact State.cell_allocated_old known _

/-- What the loop has collected stays as it is while it goes on. -/
theorem collects_behind (disciplined : ∀ D, W.Disciplined D) {i last : Ptr} {s t : State}
    {vs : List Ptr} (collects : Collects W ctx i last s vs t) {start : Ptr} (started : start ≠ .null)
    {a : Nat} {w : Ptr} {used : List Nat} (isLast : last = .ref a) (growing : Growing used a w s)
    (awayCtx : Away used s ctx) (awayList : Away used s i) :
    (runtime W).Runs (evalConsLoop ctx i start last) s start t ∧ ListAt t (w :: vs) last ∧
      ∀ b ∈ used, b ≠ a → t.cell (.ref b) = s.cell (.ref b) := by
  induction collects generalizing a w used with
  | done last s =>
      subst isLast
      refine ⟨?_, ⟨a, _, rfl, growing.last, rfl, Cell.mk_cons_car w .null, rfl⟩, fun _ _ _ => rfl⟩
      rw [evalConsLoop, if_pos rfl, if_neg started]
      exact runs_pure_self _ _
  | @next i last v c vc c' s m t vs cell evaluated value noError cell' rest ih =>
      subst isLast
      obtain ⟨n, rfl, unlisted⟩ : ∃ n, i = .ref n ∧ n ∉ used := by
        obtain ⟨n, rfl⟩ := State.ref_of_cell cell
        exact ⟨n, rfl, (awayList n rfl).2⟩
      have awayElement := (away_of_cell growing.secluded cell unlisted).1
      have grown := grown_by_evaluation disciplined growing awayCtx awayElement evaluated
      have awayRest : Away used m c'.cdr := (away_of_cell grown.secluded cell' unlisted).2
      obtain ⟨run, list, kept⟩ := ih rfl grown.growing (grown.away _ (away_later grown.later awayCtx))
        (grown.away _ awayRest)
      have nOther : Ptr.ref n ≠ .ref a := fun h => unlisted (Ptr.ref.inj h ▸ growing.listed)
      have aOld : a < m.fresh := State.ref_lt_fresh grown.last
      refine ⟨?_, ?_, ?_⟩
      · refine eval_cons_turn start cell evaluated value noError (.inr ⟨a, w, rfl, grown.last⟩)
          (grown.others _ _ nOther cell') ?_
        rw [if_neg (by simp)]
        exact run
      · refine ⟨a, .mkCons w (.ref m.fresh), rfl, ?_, rfl, Cell.mk_cons_car w _, ?_⟩
        · rw [kept a (List.mem_append_left _ growing.listed) (Nat.ne_of_lt aOld), grown.linked]
        · rw [Cell.mk_cons_cdr]
          exact list
      · intro b mem other
        have bOld : b < m.fresh := grown.secluded.old b mem
        rw [kept b (List.mem_append_left _ mem) (Nat.ne_of_lt bOld), grown.kept b mem other]

theorem growing_first {s : State} (closed : Closed s) (v : Ptr) :
    Growing [s.fresh] s.fresh v (s.collected .null v) ∧
      ∀ p, Away [] s p → Away [s.fresh] (s.collected .null v) p := by
  refine ⟨⟨secluded_new closed (.mkCons v .null), List.mem_singleton.2 rfl,
    State.cell_allocated_new s _⟩, fun p away b isRef => ?_⟩
  have inside := (away b isRef).1
  rw [collected_first, State.fresh_allocated]
  exact ⟨Nat.lt_succ_of_lt inside, fun mem => Nat.ne_of_lt inside (List.mem_singleton.1 mem)⟩

/-- `bl_eval_cons` gives the list of the values of the elements. -/
theorem eval_cons_runs (disciplined : ∀ D, W.Disciplined D) {i v : Ptr} {s t : State}
    {vs : List Ptr} (collects : Collects W ctx i .null s (v :: vs) t) (closed : Closed s)
    (awayCtx : Away [] s ctx) (awayList : Away [] s i) :
    ∃ a, (runtime W).Runs (blEvalCons ctx i) s (.ref a) t ∧ ListAt t (v :: vs) (.ref a) := by
  cases collects with
  | @next _ _ _ c vc c' _ m _ _ cell evaluated value noError cell' rest =>
      have awayFirst : Away [] s c.car := by
        obtain ⟨n, rfl⟩ := State.ref_of_cell cell
        exact (away_of_cell closed cell List.not_mem_nil).1
      obtain ⟨closed', _, _⟩ := eval_secluded disciplined closed awayCtx awayFirst evaluated
      have later := fresh_le_of_grows (runs_grows evaluated)
      obtain ⟨growing, further⟩ := growing_first closed' v
      have awayRest : Away [] m c'.cdr := by
        obtain ⟨n, rfl⟩ := State.ref_of_cell cell
        exact (away_of_cell closed' cell' List.not_mem_nil).2
      have started : Ptr.ref m.fresh ≠ .null := by simp
      obtain ⟨run, list, _⟩ := collects_behind disciplined rest started rfl growing
        (further _ (away_later later awayCtx)) (further _ awayRest)
      refine ⟨m.fresh, ?_, list⟩
      have turn := eval_cons_turn .null cell evaluated value noError (.inl rfl)
        (State.cell_allocated_old cell' _) (by
          rw [if_pos rfl]
          exact run)
      rw [blEvalCons, if_neg (cell_ne_null cell)]
      exact runs_call (c := .evalConsLoop ctx i .null .null) turn

end Collecting

end BearLang
