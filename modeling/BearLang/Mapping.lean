import BearLang.Iteration
import BearLang.ListGraphs

/-!
# `map` and calls

`bl_oper_map` binds the parameter of the function to one element of the list after the
other, and collects the value of every body expression. A call binds the same parameter,
but runs the body with `bl_eval_funcbody`, which gives the value of the last expression
and looks at the head of each expression before it evaluates it.
-/

namespace BearLang.Mapping

open CallPrograms OperatorCalls EvaluatedValues ContextRefinement Iteration ListGraphs

set_option autoImplicit false

section Calls

variable {W : World} {s b t m : State} {ctx expr func inner e j x v r : Ptr}

/-- What a call of a function of one parameter does once its argument is evaluated. -/
def callOn (func x : Ptr) : Prog Ptr := do
  enterFunc func
  let f ← load func
  let inner ← member f.innerClosure
  let names ← load f.cdr
  let _ ← blCtxSet inner names.car x
  runFuncBody func

/-- The first parameter of the function is bound to the value in its closure. -/
def Binds (W : World) (func inner x : Ptr) (s b : State) : Prop :=
  ∃ f names r, s.cell func = some f ∧ f.innerClosure = some inner ∧ s.cell f.cdr = some names ∧
    (runtime W).Runs (blCtxSet inner names.car x) s r b

theorem ctx_set_keeps_words {key : Ptr} (run : (runtime W).Runs (blCtxSet ctx key x) s r t) :
    KeepsWords s t := by
  rw [blCtxSet, loadCtx, bind_assoc] at run
  obtain ⟨cell, _, run⟩ := runs_load_iff.1 run
  obtain ⟨c, _, run⟩ := runs_member_iff.1 run
  obtain ⟨k, _, run⟩ := runs_load_iff.1 run
  obtain ⟨id, _, run⟩ := runs_member_iff.1 run
  obtain ⟨_, u, stored, rest⟩ := runs_bind.1 run
  obtain ⟨_, rfl⟩ := runs_pure.1 rest
  obtain ⟨a, old, new, isRef, known, set, rfl⟩ := modify_spec (runs_step_iff.1 stored)
  rw [isRef] at known
  obtain ⟨_, made, _, _, rfl⟩ := set_ctx_spec set
  exact keeps_words_put known made

def OneParameter (s : State) (func inner : Ptr) : Prop :=
  ∃ f name, s.cell func = some f ∧ f.type = .funcBl ∧ f.innerClosure = some inner ∧
    ListAt s [name] f.cdr

/-- The expression `e` of a body that starts at `j` does not call the function, as far as
its head shows, and is the only one of the body after it was evaluated in a call. -/
structure OnlyBody (W : World) (func inner e j : Ptr) (b : State) : Prop where
  apart : ∀ h p, (runtime W).Runs (bodyHead inner e) b h p → h ≠ func
  only : ∀ h p v t, (runtime W).Runs (bodyHead inner e) b h p →
    (runtime W).Runs (blEval .funcBody inner e) p v t → ∃ c, t.cell j = some c ∧ c.cdr = .null

/-- A call of a function with one body expression looks at the head of the expression,
and then evaluates it. -/
theorem call_on_iff {f f' c : Cell} (binds : Binds W func inner x s b)
    (function : s.cell func = some f) (function' : b.cell func = some f')
    (closure : f'.innerClosure = some inner) (body : b.cell f.car = some c) (isBody : c.car = e)
    (only : OnlyBody W func inner e f.car b) :
    (runtime W).Runs (callOn func x) s v t ↔ ∃ h p, (runtime W).Runs (bodyHead inner e) b h p ∧
      (runtime W).Runs (blEval .funcBody inner e) p v t := by
  obtain ⟨g, names, r, held, closure', listed, set⟩ := binds
  rw [function] at held
  cases held
  obtain ⟨g', held', _, word⟩ := runs_grows set func f function
  rw [function'] at held'
  cases held'
  have start : f'.car = f.car := by rw [Cell.car, word, Cell.car]
  have enter : (runtime W).Runs (enterFunc func) s () s := runs_step rfl
  have begun : (runtime W).Runs (startBody func) b () b := runs_step rfl
  rw [callOn, runs_after enter, runs_after (runs_load function), runs_after (runs_member closure' s),
    runs_after (runs_load listed), runs_after set, runFuncBody, runs_after begun,
    runs_after (runs_load function'), start]
  have loop {w : Ptr} {u : State} : (runtime W).Runs (call (.funcbody func f.car)) b w u ↔
      ∃ h p, (runtime W).Runs (bodyHead inner e) b h p ∧
        (runtime W).Runs (blEval .funcBody inner e) p w u := by
    refine (runs_call_iff (c := .funcbody func f.car)).trans ?_
    change (runtime W).Runs (funcbodyLoop func f.car) b w u ↔ _
    rw [funcbodyLoop, runs_after (runs_load body), runs_after (runs_load function'),
      runs_after (runs_member closure b), isBody]
    constructor
    · intro run
      obtain ⟨h, p, looked, run⟩ := runs_bind.1 run
      rw [if_neg (only.apart h p looked)] at run
      obtain ⟨w', u', value, run⟩ := runs_bind.1 run
      obtain ⟨d, known, ended⟩ := only.only h p w' u' looked value
      rw [runs_after (runs_load known), if_pos ended] at run
      obtain ⟨rfl, rfl⟩ := runs_pure.1 run
      exact ⟨h, p, looked, value⟩
    · rintro ⟨h, p, looked, value⟩
      obtain ⟨d, known, ended⟩ := only.only h p w u looked value
      rw [runs_after looked, if_neg (only.apart h p looked), runs_after value,
        runs_after (runs_load known), if_pos ended]
      exact runs_pure_self _ _
  constructor
  · intro run
    obtain ⟨w, u, body, run⟩ := runs_bind.1 run
    obtain ⟨h, p, looked, value⟩ := loop.1 body
    have left : (runtime W).Runs leave u () u := runs_step rfl
    rw [runs_after left] at run
    obtain ⟨rfl, rfl⟩ := runs_pure.1 run
    rw [or_null_evaluated value]
    exact ⟨h, p, looked, value⟩
  · rintro ⟨h, p, looked, value⟩
    have left : (runtime W).Runs leave t () t := runs_step rfl
    rw [runs_after (loop.2 ⟨h, p, looked, value⟩), runs_after left, or_null_evaluated value]
    exact runs_pure_self _ _

end Calls

section Loops

variable {W : World} {func inner i j last last' r : Ptr} {es : List Ptr} {s t u : State}

structure BodyValue where
  before : State
  value : Ptr
  after : State

/-- One turn of the loop over the list: the element, the state in which the loop comes to
it, the state once it is bound, and the evaluations of the body. -/
structure MapTurn where
  elem : Ptr
  start : State
  bound : State
  body : List BodyValue

/-- The body expressions `es`, from the cell `j` on, are evaluated in order, none to an
error, and each value is linked behind the last. -/
inductive Bodies (W : World) (func inner : Ptr) :
    List Ptr → Ptr → Ptr → State → List BodyValue → Ptr → State → Prop
  | done (last : Ptr) (s : State) : Bodies W func inner [] .null last s [] last s
  | next {es : List Ptr} {j last last' v : Ptr} {f c vc c' : Cell} {s m t : State}
      {ys : List BodyValue} (function : s.cell func = some f)
      (closure : f.innerClosure = some inner) (cell : s.cell j = some c)
      (evaluated : (runtime W).Runs (blEval .operand inner c.car) s v m)
      (value : m.cell v = some vc) (noError : vc.type ≠ .error)
      (cell' : (m.collected last v).cell j = some c')
      (rest : Bodies W func inner es c'.cdr (.ref m.fresh) (m.collected last v) ys last' t) :
      Bodies W func inner (c.car :: es) j last s (⟨s, v, m⟩ :: ys) last' t

/-- The turns from the cell `i` on to the end of the list. -/
inductive Turns (W : World) (func inner : Ptr) (es : List Ptr) :
    Ptr → Ptr → State → List MapTurn → State → Prop
  | done (last : Ptr) (s : State) : Turns W func inner es .null last s [] s
  | next {i last last' : Ptr} {f c d : Cell} {s b m t : State} {ys : List BodyValue}
      {turns : List MapTurn} (element : s.cell i = some c) (function : s.cell func = some f)
      (binds : Binds W func inner c.car s b) (bodies : Bodies W func inner es f.car last b ys last' m)
      (link : m.cell i = some d) (rest : Turns W func inner es d.cdr last' m turns t) :
      Turns W func inner es i last s (⟨c.car, s, b, ys⟩ :: turns) t

def values (turns : List MapTurn) : List Ptr := (turns.flatMap MapTurn.body).map BodyValue.value

theorem values_cons (turn : MapTurn) (turns : List MapTurn) :
    values (turn :: turns) = turn.body.map BodyValue.value ++ values turns := by
  rw [values, List.flatMap_cons, List.map_append]
  rfl

theorem map_loop_next {c f : Cell} {b : State} {retval : Ptr} (element : s.cell i = some c)
    (function : s.cell func = some f) (binds : Binds W func inner c.car s b) :
    (runtime W).Runs (call (.mapLoop func i last retval)) s r u ↔
      (runtime W).Runs (call (.mapBody func i f.car last retval)) b r u := by
  obtain ⟨f', names, w, function', closure, listed, set⟩ := binds
  rw [function] at function'
  cases function'
  have enter : (runtime W).Runs (enterFunc func) s () s := runs_step rfl
  have begun : (runtime W).Runs (startBody func) b () b := runs_step rfl
  refine (runs_call_iff (c := .mapLoop func i last retval)).trans ?_
  change (runtime W).Runs (mapLoop func i last retval) s r u ↔ _
  rw [mapLoop, if_neg (cell_ne_null element), runs_after (runs_load element),
    runs_after (runs_load function), runs_after (runs_member closure s), runs_after (runs_load listed),
    runs_after enter, runs_after set, runs_after begun]

theorem map_body_end {d : Cell} {retval : Ptr} (link : s.cell i = some d) :
    (runtime W).Runs (call (.mapBody func i .null last retval)) s r u ↔
      (runtime W).Runs (call (.mapLoop func d.cdr last retval)) s r u := by
  have left : (runtime W).Runs leave s () s := runs_step rfl
  refine (runs_call_iff (c := .mapBody func i .null last retval)).trans ?_
  change (runtime W).Runs (mapBody func i .null last retval) s r u ↔ _
  rw [mapBody, if_pos rfl, runs_after left, runs_after (runs_load link)]

/-- One body expression, up to the next call of the inner loop. -/
theorem map_body_next {f c vc c' : Cell} {v retval : Ptr} {m : State}
    (function : s.cell func = some f) (closure : f.innerClosure = some inner)
    (cell : s.cell j = some c) (evaluated : (runtime W).Runs (blEval .operand inner c.car) s v m)
    (value : m.cell v = some vc) (noError : vc.type ≠ .error)
    (linked : last = .null ∨ ∃ a w, last = .ref a ∧ m.cell last = some (.mkCons w .null))
    (cell' : (m.collected last v).cell j = some c') :
    (runtime W).Runs (call (.mapBody func i j last retval)) s r u ↔
      (runtime W).Runs (call (.mapBody func i c'.cdr (.ref m.fresh)
        (if last = .null then .ref m.fresh else retval))) (m.collected last v) r u := by
  refine (runs_call_iff (c := .mapBody func i j last retval)).trans ?_
  change (runtime W).Runs (mapBody func i j last retval) s r u ↔ _
  rw [mapBody, if_neg (cell_ne_null cell), runs_after (runs_load function),
    runs_after (runs_member closure s), runs_after (runs_load cell), runs_after evaluated,
    runs_after (runs_type_of value), if_neg noError, runs_after (runs_alloc _ m)]
  rcases linked with rfl | ⟨a, w, rfl, held⟩
  · rw [collected_first] at cell' ⊢
    rw [if_pos rfl, if_pos rfl, runs_after (runs_load cell')]
  · have old := State.cell_allocated_old held (.mkCons v .null)
    rw [collected_behind held] at cell' ⊢
    have link : (runtime W).Runs (setCdr .build (.ref a) (.ref m.fresh))
        (m.allocated (.mkCons v .null)) ()
        ((m.allocated (.mkCons v .null)).put a (.mkCons w (.ref m.fresh))) :=
      runs_set_cdr old .build (.ref m.fresh)
    rw [if_neg (by simp), if_neg (by simp), runs_after link, runs_after (runs_load cell')]

/-- What is linked behind the end of a growing list, from `s` to `t`. -/
def Links (used used' : List Nat) (a a' : Nat) (w w' : Ptr) (vs : List Ptr) (s t : State) : Prop :=
  ∀ u zs, ListAt u (w' :: zs) (.ref a') →
    (∀ b ∈ used', b ≠ a' → u.cell (.ref b) = t.cell (.ref b)) →
    ListAt u (w :: (vs ++ zs)) (.ref a) ∧ ∀ b ∈ used, b ≠ a → u.cell (.ref b) = s.cell (.ref b)

theorem links_same {used : List Nat} (a : Nat) (w : Ptr)
    (same : ∀ b ∈ used, t.cell (.ref b) = s.cell (.ref b)) : Links used used a a w w [] s t :=
  fun _ _ list kept => ⟨list, fun b mem other => (kept b mem other).trans (same b mem)⟩

theorem links_trans {used used' used'' : List Nat} {a a' a'' : Nat} {w w' w'' : Ptr}
    {vs vs' : List Ptr} (first : Links used used' a a' w w' vs s t)
    (second : Links used' used'' a' a'' w' w'' vs' t u) :
    Links used used'' a a'' w w'' (vs ++ vs') s u := by
  intro n zs list kept
  obtain ⟨list', kept'⟩ := second n zs list kept
  rw [List.append_assoc]
  exact first n (vs' ++ zs) list' kept'

theorem links_grown {used : List Nat} {a : Nat} {w v : Ptr} {m : State}
    (growing : Growing used a w s) (grown : GrownBy used a w v s m) :
    Links used (used ++ [m.fresh]) a m.fresh w v [v] s (m.collected (.ref a) v) := by
  intro n zs list kept
  have aOld : a < m.fresh := State.ref_lt_fresh grown.last
  refine ⟨⟨a, .mkCons w (.ref m.fresh), rfl, ?_, rfl, Cell.mk_cons_car w _, ?_⟩, fun b mem other => ?_⟩
  · rw [kept a (List.mem_append_left _ growing.listed) (Nat.ne_of_lt aOld), grown.linked]
  · rw [Cell.mk_cons_cdr]
    exact list
  · have bOld : b < m.fresh := grown.secluded.old b mem
    rw [kept b (List.mem_append_left _ mem) (Nat.ne_of_lt bOld), grown.kept b mem other]

theorem later_collected {a : Nat} {w v : Ptr} (last : s.cell (.ref a) = some (.mkCons w .null)) :
    Later s (s.collected (.ref a) v) := by
  rw [collected_behind last]
  have old := State.cell_allocated_old last (.mkCons v .null)
  refine ⟨grows_trans (grows_allocated s _) (grows_put old rfl rfl), fun p c known filled => ?_⟩
  have other : p ≠ .ref a := by
    rintro rfl
    rw [last] at known
    cases known
    exact filled (Cell.mk_cons_cdr w .null)
  exact ⟨c, by rw [State.cell_put_other other, State.cell_allocated_old known], rfl⟩

def KeepLinks (ys : List BodyValue) : Prop := ∀ y ∈ ys, KeepsLinks y.before y.after

/-- The rest of a turn, when the list under construction has a cell. -/
theorem bodies_behind (disciplined : ∀ D, W.Disciplined D) {ys : List BodyValue}
    (bodies : Bodies W func inner es j last s ys last' t) {used : List Nat} {a : Nat} {w : Ptr}
    (isLast : last = .ref a) (growing : Growing used a w s) (awayFunc : Away used s func)
    (awayList : Away used s i) (awayBody : Away used s j) :
    ∃ used' a' w', last' = .ref a' ∧ Growing used' a' w' t ∧ Away used' t func ∧ Away used' t i ∧
      Links used used' a a' w w' (ys.map BodyValue.value) s t ∧
      (∀ retval r u, (runtime W).Runs (call (.mapBody func i j last retval)) s r u ↔
        (runtime W).Runs (call (.mapBody func i .null last' retval)) t r u) ∧
      (KeepLinks ys → Later s t) := by
  induction bodies generalizing used a w with
  | done last s =>
      exact ⟨used, a, w, isLast, growing, awayFunc, awayList, links_same a w fun _ _ => rfl,
        fun _ _ _ => Iff.rfl, fun _ => later_of_words fun p c known => ⟨c, known, rfl, rfl, rfl⟩⟩
  | @next es j last last' v f c vc c' s m t ys function closure cell evaluated value noError cell'
      rest ih =>
      subst isLast
      have awayInner : Away used s inner :=
        (closure_of_holds (away_fields growing.secluded awayFunc function)).2.1 inner closure
      have awayExpr : Away used s c.car := (away_fields growing.secluded awayBody cell).car
      have grown := grown_by_evaluation disciplined growing awayInner awayExpr evaluated
      have further {p : Ptr} (away : Away used s p) :
          Away (used ++ [m.fresh]) (m.collected (.ref a) v) p :=
        grown.away p (away_later grown.later away)
      have awayRest : Away (used ++ [m.fresh]) (m.collected (.ref a) v) c'.cdr :=
        (away_fields grown.growing.secluded (further awayBody) cell').cdr
      obtain ⟨used', a', w', isLast', growing', awayFunc', awayList', links, runs, later⟩ :=
        ih rfl grown.growing (further awayFunc) (further awayList) awayRest
      refine ⟨used', a', w', isLast', growing', awayFunc', awayList',
        links_trans (links_grown growing grown) links, fun retval r u => ?_, fun keeps => ?_⟩
      · rw [map_body_next function closure cell evaluated value noError
          (.inr ⟨a, w, rfl, grown.last⟩) cell', if_neg (by simp)]
        exact runs retval r u
      · obtain ⟨first, others⟩ := List.forall_mem_cons.1 keeps
        have evaluation : Later s m := ⟨runs_grows evaluated, first⟩
        exact later_trans evaluation (later_trans (later_collected grown.last) (later others))

/-- Binding a parameter leaves what the program cannot reach as it is. -/
theorem binds_beside (disciplined : ∀ D, W.Disciplined D) {x : Ptr} {used : List Nat} {b : State}
    (secluded : Secluded used s) (awayFunc : Away used s func) (awayElement : Away used s x)
    (binds : Binds W func inner x s b) :
    Secluded used b ∧ (∀ c ∈ used, b.cell (.ref c) = s.cell (.ref c)) ∧
      (∀ p, Away used s p → Away used b p) ∧ Later s b := by
  obtain ⟨f, names, r, function, closure, listed, set⟩ := binds
  have holds := away_fields secluded awayFunc function
  have awayInner : Away used s inner := (closure_of_holds holds).2.1 inner closure
  have awayName : Away used s names.car := (away_fields secluded holds.cdr listed).car
  obtain ⟨secluded', _, same⟩ := runs_secluded disciplined secluded
    (fun D good => ctx_set_safe (good _ awayInner) (good _ awayName) (good _ awayElement)) set
  have le := fresh_le_of_grows (runs_grows set)
  exact ⟨secluded', same, fun p away => away_later le away,
    later_of_words (ctx_set_keeps_words set)⟩

/-- The elements of the turns begin with those of a list whose links are kept. -/
def Follows (s : State) (i : Ptr) (turns : List MapTurn) : Prop :=
  ∀ items, Spine s items i → (∀ turn ∈ turns, KeepLinks turn.body) →
    ∃ others, turns.map MapTurn.elem = items.map Prod.snd ++ others

theorem follows_next {turn : MapTurn} {turns : List MapTurn} {c d : Cell} {m : State}
    (element : s.cell i = some c) (isElem : turn.elem = c.car) (link : m.cell i = some d)
    (later : KeepLinks turn.body → Later s m) (rest : Follows m d.cdr turns) :
    Follows s i (turn :: turns) := by
  intro items spine keeps
  obtain ⟨first, others⟩ := List.forall_mem_cons.1 keeps
  cases items with
  | nil => exact ⟨_, rfl⟩
  | cons item items =>
      obtain ⟨_, c', element', _, car, further⟩ := spine
      rw [element] at element'
      cases element'
      have spine' : Spine m items d.cdr := by
        cases items with
        | nil => trivial
        | cons item' items =>
            have filled : c.cdr ≠ .null := by
              rw [further.1]
              simp
            obtain ⟨d', link', same⟩ := (later first).links i c element filled
            rw [link] at link'
            cases link'
            rw [same]
            exact spine_later (later first) further
      obtain ⟨more, same⟩ := rest items spine' others
      refine ⟨more, ?_⟩
      rw [List.map_cons, List.map_cons, same, isElem, car]
      rfl

theorem turns_behind (disciplined : ∀ D, W.Disciplined D) {turns : List MapTurn}
    (run : Turns W func inner es i last s turns t) {used : List Nat} {a : Nat} {w : Ptr}
    (isLast : last = .ref a) (growing : Growing used a w s) (awayFunc : Away used s func)
    (awayList : Away used s i) :
    (∀ retval, (runtime W).Runs (call (.mapLoop func i last retval)) s retval t) ∧
      (∃ used' a' w', Growing used' a' w' t ∧ Links used used' a a' w w' (values turns) s t) ∧
      Follows s i turns := by
  induction run generalizing used a w with
  | done last s =>
      refine ⟨fun retval => runs_call (c := .mapLoop func .null last retval) ?_,
        ⟨used, a, w, growing, links_same a w fun _ _ => rfl⟩, fun items spine _ => ?_⟩
      · change (runtime W).Runs (mapLoop func .null last retval) s retval s
        rw [mapLoop, if_pos rfl]
        exact runs_pure_self _ _
      · cases items with
        | nil => exact ⟨[], rfl⟩
        | cons item items => cases spine.1
  | @next i last last' f c d s b m t ys turns element function binds bodies link rest ih =>
      subst isLast
      have awayElement := (away_fields growing.secluded awayList element).car
      have awayBody := (away_fields growing.secluded awayFunc function).car
      obtain ⟨secluded, same, further, laterBound⟩ :=
        binds_beside disciplined growing.secluded awayFunc awayElement binds
      have bound : Growing used a w b :=
        ⟨secluded, growing.listed, by rw [same a growing.listed, growing.last]⟩
      obtain ⟨used', a', w', isLast', growing', awayFunc', awayList', links, runs, later⟩ :=
        bodies_behind disciplined bodies rfl bound (further _ awayFunc) (further _ awayList)
          (further _ awayBody)
      have awayRest := (away_fields growing'.secluded awayList' link).cdr
      obtain ⟨loop, ⟨used'', a'', w'', growing'', links'⟩, follows⟩ :=
        ih isLast' growing' awayFunc' awayRest
      refine ⟨fun retval => ?_, ⟨used'', a'', w'', growing'', ?_⟩, ?_⟩
      · rw [map_loop_next element function binds, runs, map_body_end link]
        exact loop retval
      · rw [values_cons]
        have whole := links_trans (links_same a w same) (links_trans links links')
        exact whole
      · exact follows_next element rfl link (fun keeps => later_trans laterBound (later keeps)) follows

/-- All turns: the list of the values, if the body has an expression. -/
theorem turns_give (disciplined : ∀ D, W.Disciplined D) {e : Ptr} {turns : List MapTurn}
    (run : Turns W func inner (e :: es) i .null s turns t) (some_ : i ≠ .null) (closed : Closed s)
    (awayFunc : Away [] s func) (awayList : Away [] s i) :
    (∃ a, (runtime W).Runs (call (.mapLoop func i .null .null)) s (.ref a) t ∧
      ListAt t (values turns) (.ref a)) ∧ Follows s i turns := by
  cases run with
  | done => contradiction
  | @next _ _ last' f c d _ b m _ ys turns element function binds bodies link rest =>
      have awayElement := (away_fields closed awayList element).car
      have awayBody := (away_fields closed awayFunc function).car
      obtain ⟨closed', _, further, laterBound⟩ :=
        binds_beside disciplined closed awayFunc awayElement binds
      cases bodies with
      | @next _ _ _ _ v f' c' vc c'' _ n _ ys function' closure cell evaluated value noError cell' more =>
          have awayInner : Away [] b inner :=
            (closure_of_holds (away_fields closed' (further _ awayFunc) function')).2.1 inner closure
          have awayExpr := (away_fields closed' (further _ awayBody) cell).car
          obtain ⟨closed'', _, _⟩ := eval_secluded disciplined closed' awayInner awayExpr evaluated
          have le := fresh_le_of_grows (runs_grows evaluated)
          obtain ⟨growing, beside⟩ := growing_first closed'' v
          have on {p : Ptr} (away : Away [] s p) : Away [n.fresh] (n.collected .null v) p :=
            beside p (away_later le (further p away))
          have awayMore := (away_fields growing.secluded (on awayBody) cell').cdr
          obtain ⟨used', a', w', isLast', growing', awayFunc', awayList', links, runs, later⟩ :=
            bodies_behind disciplined more rfl growing (on awayFunc) (on awayList) awayMore
          have awayRest := (away_fields growing'.secluded awayList' link).cdr
          obtain ⟨loop, ⟨used'', a'', w'', growing'', links'⟩, follows⟩ :=
            turns_behind disciplined rest isLast' growing' awayFunc' awayRest
          refine ⟨⟨n.fresh, ?_, ?_⟩, ?_⟩
          · rw [map_loop_next element function binds,
              map_body_next function' closure cell evaluated value noError (.inl rfl) cell', if_pos rfl,
              runs, map_body_end link]
            exact loop _
          · have last : ListAt t [w''] (.ref a'') :=
              ⟨a'', _, rfl, growing''.last, rfl, Cell.mk_cons_car w'' .null, Cell.mk_cons_cdr w'' .null⟩
            obtain ⟨list, _⟩ := links_trans links links' t [] last fun _ _ _ => rfl
            rw [List.append_nil] at list
            rw [values_cons]
            exact list
          · refine follows_next element rfl link (fun keeps => ?_) follows
            obtain ⟨first, others⟩ := List.forall_mem_cons.1 keeps
            have evaluation : Later b n := ⟨runs_grows evaluated, first⟩
            have new : Later n (n.collected .null v) :=
              later_of_words (keeps_words_allocated n (.mkCons v .null))
            exact later_trans laterBound (later_trans evaluation (later_trans new (later others)))

theorem turns_give_nothing {turns : List MapTurn} (run : Turns W func inner [] i last s turns t)
    (retval : Ptr) :
    (runtime W).Runs (call (.mapLoop func i last retval)) s retval t ∧ values turns = [] := by
  induction run with
  | done last s =>
      refine ⟨runs_call (c := .mapLoop func .null last retval) ?_, rfl⟩
      change (runtime W).Runs (mapLoop func .null last retval) s retval s
      rw [mapLoop, if_pos rfl]
      exact runs_pure_self _ _
  | @next i last last' f c d s b m t ys turns element function binds bodies link rest ih =>
      generalize start : f.car = j at bodies
      cases bodies with
      | done =>
          obtain ⟨loop, nothing⟩ := ih
          refine ⟨?_, ?_⟩
          · rw [map_loop_next element function binds, start, map_body_end link]
            exact loop
          · rw [values_cons, nothing]
            rfl

end Loops

section Agreement

variable {W : World} {ctx expr func inner L r : Ptr} {s m t : State} {xs es : List Ptr}
  {turns : List MapTurn}

/-- The operands of a call of `map` are evaluated to a function of one parameter and to
`L`. -/
structure MapOf (W : World) (ctx expr func inner L : Ptr) (s m : State) : Prop where
  call : ∃ n s' params, OperatorCall W .map ctx expr s n s' ∧
    (runtime W).Runs (blEvalCons ctx (.ref n)) s' params m ∧ ListAt m [func, L] params
  function : OneParameter m func inner

/-- As many values as elements, and each what a call of the function on the element gives
in the state in which the loop comes to it. -/
def Agrees (W : World) (same : State → Ptr → State → Ptr → Prop) (func : Ptr) (xs : List Ptr)
    (turns : List MapTurn) (r : Ptr) (t : State) : Prop :=
  ListValue t (values turns) r ∧ (values turns).length = xs.length ∧
    ∀ (k : Nat) (x : Ptr) (turn : MapTurn) (y : BodyValue), xs[k]? = some x →
      turns[k]? = some turn → (turns.flatMap MapTurn.body)[k]? = some y →
      ∃ v u, (runtime W).Runs (callOn func x) turn.start v u ∧ same y.after y.value u v

/-- What a call evaluates to see the head of its body does not change the value that the
body has. -/
def Steady (W : World) (same : State → Ptr → State → Ptr → Prop) (inner e : Ptr)
    (turn : MapTurn) : Prop :=
  ∀ y ∈ turn.body, ∃ h p v u, (runtime W).Runs (bodyHead inner e) turn.bound h p ∧
    (runtime W).Runs (blEval .funcBody inner e) p v u ∧ same y.after y.value u v

/-- There are elements, the body is one steady expression, and the list stays as it is;
or there is neither an element nor a body. -/
def Suits (W : World) (same : State → Ptr → State → Ptr → Prop) (inner : Ptr) (xs es : List Ptr)
    (turns : List MapTurn) (t : State) : Prop :=
  (xs ≠ [] ∧ ∃ e, es = [e] ∧ turns.map MapTurn.elem = xs ∧ ∀ turn ∈ turns, Steady W same inner e turn) ∨
    (xs = [] ∧ es = [] ∧ EmptyList t nullVal)

theorem map_code_runs {n : Nat} {s' : State} {params : Ptr} {f l : Cell}
    (operands : (runtime W).Runs (blEvalCons ctx (.ref n)) s' params m)
    (list : ListAt m [func, L] params) (function : m.cell func = some f) (isFunc : f.type = .funcBl)
    (isList : m.cell L = some l) (type : l.type = .cons) :
    (runtime W).Runs (blOperMap ctx (.ref n)) s' r t ↔
      (runtime W).Runs (call (.mapLoop func L .null .null)) m r t := by
  have checked := fixed_pair_checked (W := W) list function isFunc isList type (by decide) (by decide)
  have first := list_first_runs (W := W) list
  have second := list_second_runs (W := W) list
  obtain ⟨a, c, rfl, known, kind, _⟩ := list
  have noError : ¬ c.type = .error := by
    rw [kind]
    decide
  rw [blOperMap, runs_after operands, runs_after (runs_type_of known), if_neg noError,
    runs_after checked, if_neg (by simp), runs_after first, runs_after second]

theorem map_code_none {n : Nat} {s' : State} {params : Ptr} {f l : Cell}
    (operands : (runtime W).Runs (blEvalCons ctx (.ref n)) s' params m)
    (list : ListAt m [func, L] params) (function : m.cell func = some f) (isFunc : f.type = .funcBl)
    (isList : m.cell L = some l) (type : l.type = .null) :
    ∃ r t, (runtime W).Runs (blOperMap ctx (.ref n)) s' r t ∧ t.typeOf r = some .error := by
  have len := pair_length_runs (W := W) list (cell_ne_null function)
  obtain ⟨a, c, rfl, known, kind, rfl, b, d, isRef, known', _, rfl, _⟩ := list
  have noError : ¬ c.type = .error := by
    rw [kind]
    decide
  have bad : (runtime W).Runs (checkArgs [.funcBl, .cons] (.ref a) true) m (.null, false) m := by
    rw [checkArgs, runs_after (runs_load known), runs_after (runs_type_of function), isFunc,
      if_neg (by decide), if_neg (by decide), checkArgs, runs_after (runs_load known'),
      runs_after (runs_type_of isList), type, if_neg (by decide), if_pos (by decide), checkArgs]
    exact runs_pure_self _ _
  have types : (runtime W).Runs (argTypes [.funcBl, .cons] (.ref a)) m [f.type, l.type] m := by
    have ended : (runtime W).Runs (argTypes [] d.cdr) m [] m := runs_pure_self _ _
    have last : (runtime W).Runs (argTypes [.cons] c.cdr) m [l.type] m := by
      rw [argTypes, runs_after (runs_load known'), runs_after (runs_type_of isList), runs_after ended]
      exact runs_pure_self _ _
    rw [argTypes, runs_after (runs_load known), runs_after (runs_type_of function), runs_after last]
    exact runs_pure_self _ _
  have checked : ∃ e : Cell, e.type = .error ∧ (runtime W).Runs
      (blErrifInvalidFixedArgs (.ref a) [.funcBl, .cons]) m (.ref m.fresh) (m.allocated e) := by
    refine ⟨.mkErr .invalidArgType 2
      { maxArgs := 2
        providedArgs := 2
        expectedTypes := [.funcBl, .cons]
        providedTypes := [f.type, l.type] }, rfl, ?_⟩
    rw [blErrifInvalidFixedArgs]
    dsimp only [List.length_cons, List.length_nil]
    rw [runs_after len, if_neg (by simp), runs_after bad]
    dsimp only
    rw [if_neg (by simp), if_neg (by simp), runs_after types]
    exact runs_alloc _ m
  obtain ⟨e, isError, checked⟩ := checked
  refine ⟨.ref m.fresh, m.allocated e, ?_, ?_⟩
  · rw [blOperMap, runs_after operands, runs_after (runs_type_of known), if_neg noError,
      runs_after checked, if_pos (by simp)]
    exact runs_pure_self _ _
  · rw [State.typeOf, State.cell_allocated_new, Option.map_some, isError]

theorem turn_facts {i last : Ptr} (run : Turns W func inner es i last s turns t) :
    ∀ turn ∈ turns, ∃ f last last' n, turn.start.cell func = some f ∧
      Binds W func inner turn.elem turn.start turn.bound ∧
      Bodies W func inner es f.car last turn.bound turn.body last' n := by
  induction run with
  | done => exact fun _ mem => absurd mem List.not_mem_nil
  | next _ function binds bodies _ _ ih =>
      exact List.forall_mem_cons.2 ⟨⟨_, _, _, _, function, binds, bodies⟩, ih⟩

theorem bodies_length {j last last' : Ptr} {ys : List BodyValue}
    (bodies : Bodies W func inner es j last s ys last' t) : ys.length = es.length := by
  induction bodies with
  | done => rfl
  | next _ _ _ _ _ _ _ _ ih => rw [List.length_cons, List.length_cons, ih]

theorem values_length {k : Nat} (each : ∀ turn ∈ turns, turn.body.length = k) :
    (values turns).length = turns.length * k := by
  induction turns with
  | nil => simp [values]
  | cons turn turns ih =>
      obtain ⟨first, others⟩ := List.forall_mem_cons.1 each
      rw [values_cons, List.length_append, List.length_map, first, ih others, List.length_cons,
        Nat.succ_mul, Nat.add_comm]

theorem bodies_values {j last last' : Ptr} {ys : List BodyValue}
    (bodies : Bodies W func inner es j last s ys last' t) : ∀ y ∈ ys, y.value ≠ .null := by
  induction bodies with
  | done => exact fun _ mem => absurd mem List.not_mem_nil
  | next _ _ _ evaluated _ _ _ _ ih => exact List.forall_mem_cons.2 ⟨eval_ne_null evaluated, ih⟩

theorem values_filled {i last : Ptr} (run : Turns W func inner es i last s turns t) :
    ∀ v ∈ values turns, v ≠ .null := by
  intro v mem
  obtain ⟨y, inside, rfl⟩ := List.mem_map.1 mem
  obtain ⟨turn, inTurns, inBody⟩ := List.mem_flatMap.1 inside
  obtain ⟨_, _, _, _, _, _, bodies⟩ := turn_facts run turn inTurns
  exact bodies_values bodies y inBody

/-- With one value a turn, the values are in the order of the turns. -/
theorem single_value (each : ∀ turn ∈ turns, ∃ y, turn.body = [y]) {k : Nat} {turn : MapTurn}
    {y : BodyValue} (at_ : turns[k]? = some turn) :
    (turns.flatMap MapTurn.body)[k]? = some y ↔ turn.body = [y] := by
  induction turns generalizing k with
  | nil => simp at at_
  | cons first turns ih =>
      obtain ⟨⟨z, single⟩, others⟩ := List.forall_mem_cons.1 each
      rw [List.flatMap_cons, single, List.singleton_append]
      cases k with
      | zero =>
          rw [List.getElem?_cons_zero, Option.some.injEq] at at_
          rw [List.getElem?_cons_zero, ← at_, single, Option.some.injEq, List.cons.injEq]
          simp
      | succ k =>
          rw [List.getElem?_cons_succ] at at_ ⊢
          exact ih others at_

/-- A call of `map` with a list comes to its end if its turns do. -/
theorem map_result (disciplined : ∀ D, W.Disciplined D) (form : MapOf W ctx expr func inner L s m)
    (closed : Closed m) (isList : m.typeOf L = some .cons)
    (run : Turns W func inner es L .null m turns t) (site : Site) :
    ∃ r, (runtime W).Runs (blEval site ctx expr) s r t ∧
      (es = [] → r = nullVal ∧ values turns = []) ∧
      (es ≠ [] → ListAt t (values turns) r ∧ Follows m L turns) := by
  obtain ⟨n, s', params, called, operands, list⟩ := form.call
  obtain ⟨f, name, function, isFunc, _⟩ := form.function
  obtain ⟨l, known, type⟩ := Option.map_eq_some_iff.1 isList
  have code {q : Ptr} : (runtime W).Runs (blOperMap ctx (.ref n)) s' q t ↔
      (runtime W).Runs (call (.mapLoop func L .null .null)) m q t :=
    map_code_runs operands list function isFunc known type
  cases es with
  | nil =>
      obtain ⟨loop, nothing⟩ := turns_give_nothing run .null
      exact ⟨nullVal, (operator_call_runs called site).2 ⟨.null, code.2 loop, rfl⟩,
        fun _ => ⟨rfl, nothing⟩, fun some_ => absurd rfl some_⟩
  | cons e es =>
      obtain ⟨_, c, _, cell, _, rfl, _, d, _, cell', _, rfl, _⟩ := list
      have awayFunc := (ArgumentBinding.away_parts closed cell).1
      have awayList := (ArgumentBinding.away_parts closed cell').1
      obtain ⟨⟨a, loop, given⟩, follows⟩ :=
        turns_give disciplined run (cell_ne_null known) closed awayFunc awayList
      exact ⟨.ref a, (operator_call_runs called site).2 ⟨.ref a, code.2 loop, rfl⟩,
        (fun none_ => nomatch none_), fun _ => ⟨given, follows⟩⟩

theorem single_turn {e i last : Ptr} (run : Turns W func inner [e] i last s turns t) {turn : MapTurn}
    (mem : turn ∈ turns) : ∃ f f' c y, turn.start.cell func = some f ∧
      Binds W func inner turn.elem turn.start turn.bound ∧ turn.bound.cell func = some f' ∧
      f'.innerClosure = some inner ∧ turn.bound.cell f.car = some c ∧ c.car = e ∧ turn.body = [y] := by
  obtain ⟨f, last, last', n, function, binds, bodies⟩ := turn_facts run turn mem
  generalize start : f.car = j at bodies
  generalize turn.body = ys at bodies
  cases bodies with
  | @next _ _ _ _ v f' c _ _ _ _ _ ys function' closure cell _ _ _ _ rest =>
      rw [← start] at cell
      have nothing : ys = [] := List.length_eq_zero_iff.1 (bodies_length rest)
      exact ⟨f, f', c, _, function, binds, function', closure, cell, rfl, by rw [nothing]⟩

theorem single_bodies {e i last : Ptr} (run : Turns W func inner [e] i last s turns t) :
    ∀ turn ∈ turns, ∃ y, turn.body = [y] := by
  intro turn mem
  obtain ⟨_, _, _, y, _, _, _, _, _, _, single⟩ := single_turn run mem
  exact ⟨y, single⟩

theorem agrees_of_steady {e i last : Ptr} {same : State → Ptr → State → Ptr → Prop}
    (run : Turns W func inner [e] i last s turns t)
    (only : ∀ turn ∈ turns, ∀ f, turn.start.cell func = some f → OnlyBody W func inner e f.car turn.bound)
    (some_ : xs ≠ []) (elems : turns.map MapTurn.elem = xs)
    (steady : ∀ turn ∈ turns, Steady W same inner e turn) (given : ListAt t (values turns) r) :
    Agrees W same func xs turns r t := by
  have each := single_bodies run
  have length : (values turns).length = xs.length := by
    rw [values_length (k := 1) fun turn mem => ?_, Nat.mul_one, ← elems, List.length_map]
    obtain ⟨y, single⟩ := each turn mem
    rw [single, List.length_singleton]
  have filled : values turns ≠ [] := by
    intro none_
    rw [none_] at length
    exact some_ (List.length_eq_zero_iff.1 length.symm)
  refine ⟨.inr ⟨filled, values_filled run, given⟩, length, fun k x turn y element at_ held => ?_⟩
  have mem := List.mem_of_getElem? at_
  have isElem : x = turn.elem := by
    rw [← elems, List.getElem?_map, at_] at element
    exact (Option.some.inj element).symm
  have single := (single_value each at_).1 held
  obtain ⟨f, f', c, _, function, binds, function', closure, body, isBody, _⟩ := single_turn run mem
  obtain ⟨h, p, v, u, looked, value, alike⟩ := steady turn mem y (single ▸ List.mem_singleton.2 rfl)
  rw [isElem]
  exact ⟨v, u, (call_on_iff binds function function' closure body isBody
    (only turn mem f function)).2 ⟨h, p, looked, value⟩, alike⟩

theorem steady_of_call {e i last : Ptr} {same : State → Ptr → State → Ptr → Prop}
    (run : Turns W func inner [e] i last s turns t)
    (only : ∀ turn ∈ turns, ∀ f, turn.start.cell func = some f → OnlyBody W func inner e f.car turn.bound)
    (elems : turns.map MapTurn.elem = xs) {turn : MapTurn} (mem : turn ∈ turns) {y : BodyValue}
    (inBody : y ∈ turn.body)
    (calls : ∀ (k : Nat) (x : Ptr) (turn : MapTurn) (y : BodyValue), xs[k]? = some x →
      turns[k]? = some turn → (turns.flatMap MapTurn.body)[k]? = some y →
      ∃ v u, (runtime W).Runs (callOn func x) turn.start v u ∧ same y.after y.value u v) :
    ∃ h p v u, (runtime W).Runs (bodyHead inner e) turn.bound h p ∧
      (runtime W).Runs (blEval .funcBody inner e) p v u ∧ same y.after y.value u v := by
  have each := single_bodies run
  obtain ⟨k, at_⟩ := List.getElem?_of_mem mem
  have element : xs[k]? = some turn.elem := by
    rw [← elems, List.getElem?_map, at_]
    rfl
  have held : (turns.flatMap MapTurn.body)[k]? = some y := by
    obtain ⟨z, single⟩ := each turn mem
    rw [single, List.mem_singleton] at inBody
    rw [single_value each at_, single, inBody]
  obtain ⟨v, u, called, alike⟩ := calls k turn.elem turn y element at_ held
  obtain ⟨f, f', c, _, function, binds, function', closure, body, isBody, _⟩ := single_turn run mem
  obtain ⟨h, p, looked, value⟩ := (call_on_iff binds function function' closure body isBody
    (only turn mem f function)).1 called
  exact ⟨h, p, v, u, looked, value, alike⟩

/-- As many values as elements come from one expression in the body, and from the
elements that the list had at the start. -/
theorem lengths_of_agreement {e : Ptr} (run : Turns W func inner (e :: es) L .null m turns t)
    (isList : m.typeOf L = some .cons) (list : ListValue m xs L) (follows : Follows m L turns)
    (keeps : ∀ turn ∈ turns, KeepLinks turn.body) (length : (values turns).length = xs.length) :
    xs ≠ [] ∧ turns.map MapTurn.elem = xs ∧ es = [] := by
  have total : turns.length * (es.length + 1) = xs.length := by
    rw [← length, values_length fun turn mem => ?_]
    obtain ⟨_, _, _, _, _, _, bodies⟩ := turn_facts run turn mem
    exact bodies_length bodies
  have begun : 0 < turns.length := by
    cases run with
    | done => cases isList
    | next => simp
  have enough : turns.length ≤ xs.length := by
    rw [← total, Nat.mul_succ]
    exact Nat.le_add_left _ _
  have some_ : xs ≠ [] := by
    rintro rfl
    simp only [List.length_nil] at enough
    omega
  rcases list with ⟨none_, _⟩ | ⟨_, _, listed⟩
  · exact absurd none_ some_
  · obtain ⟨items, rfl, cells⟩ := OperandEvaluation.cells_of_list_at listed
    obtain ⟨others, elems⟩ := follows items (spine_of_cells cells) keeps
    have count := congrArg List.length elems
    rw [List.length_map, List.length_append] at count
    have noOthers : others = [] := List.length_eq_zero_iff.1 (by omega)
    rw [noOthers, List.append_nil] at elems
    refine ⟨some_, elems, List.length_eq_zero_iff.1 ?_⟩
    have same : turns.length * (es.length + 1) = turns.length * 1 := by omega
    have one := Nat.eq_of_mul_eq_mul_left begun same
    omega

/-- The expression is a value, or the name of a variable with the value. -/
inductive Stands (b : State) (inner : Ptr) : Ptr → Ptr → Prop
  | atom {e : Ptr} {c : Cell} (known : b.cell e = some c)
      (type : c.type ∉ [ValType.cons, .symbol]) : Stands b inner e e
  | named {e v : Ptr} {k id : Nat} (names : Names b inner e k id v) : Stands b inner e v

theorem stands_runs {b : State} {e v : Ptr} (stands : Stands b inner e v) (site : Site) :
    (runtime W).Runs (blEval site inner e) b v b := by
  cases stands with
  | atom known type => exact atom_evaluates known type site
  | named names => exact eval_named site names

/-- The head of the expression is seen without a change: it is no list, or headed by a value
other than `if`, or by the name of a variable, or it is an `if` whose condition and branch
stand for values, and this branch for no list. -/
inductive SeenAtOnce (b : State) (inner e : Ptr) : Prop
  | atom {c : Cell} (known : b.cell e = some c) (type : c.type ≠ .cons)
  | value {c h : Cell} (known : b.cell e = some c) (head : b.cell c.car = some h)
      (noSymbol : h.type ≠ .symbol) (noIf : h.type ≠ .operIf)
  | named {c : Cell} {k id : Nat} {v : Ptr} (known : b.cell e = some c) (type : c.type = .cons)
      (names : Names b inner c.car k id v)
  | choice {c h d rc : Cell} {cond yes no v r : Ptr} {flag : Bool} (known : b.cell e = some c)
      (type : c.type = .cons) (head : b.cell c.car = some h) (isIf : h.type = .operIf)
      (operands : ListAt b [cond, yes, no] c.cdr) (condition : Stands b inner cond v)
      (truth : b.cell v = some d) (isBool : d.type = .bool) (isFlag : d.bVal = some flag)
      (branch : Stands b inner (if flag then yes else no) r) (result : b.cell r = some rc)
      (noList : rc.type ≠ .cons)

theorem seen_at_once {e : Ptr} {b : State} (seen : SeenAtOnce b inner e) :
    ∃ h, (runtime W).Runs (bodyHead inner e) b h b := by
  cases seen with
  | @atom c known type =>
      refine ⟨.null, ?_⟩
      rw [bodyHead, runs_after (runs_load known), if_pos type]
      exact runs_pure_self _ _
  | @value c h known head noSymbol noIf =>
      refine ⟨.null, ?_⟩
      rw [bodyHead, runs_after (runs_load known)]
      split
      · exact runs_pure_self _ _
      · rw [runs_after (runs_load head), if_neg noSymbol, if_neg noIf]
        exact runs_pure_self _ _
  | @named c k id v known type names =>
      obtain ⟨cell, held, isSymbol⟩ := named_symbol names
      refine ⟨v, ?_⟩
      rw [bodyHead, runs_after (runs_load known), if_neg (not_not.2 type),
        runs_after (runs_load held), if_pos isSymbol]
      exact ctx_get_named names
  | @choice c h d rc cond yes no v r flag known type head isIf operands condition truth isBool
      isFlag branch result noList =>
      have noSymbol : h.type ≠ .symbol := by
        rw [isIf]
        decide
      have noError : d.type ≠ .error := by
        rw [isBool]
        decide
      have chosen : (runtime W).Runs (blEvalIf true inner e) b r b := by
        rw [blEvalIf, runs_after (runs_load known), runs_after (list_first_runs operands),
          runs_after (stands_runs condition _), runs_after (runs_load truth), if_neg noError,
          if_neg (not_not.2 isBool), runs_after (runs_member isFlag b), runs_after (runs_load known)]
        cases flag with
        | true =>
            rw [if_pos rfl, runs_after (list_second_runs operands)]
            exact stands_runs branch _
        | false =>
            obtain ⟨q, rest, list⟩ := list_rest_runs (W := W) operands
            have third : (runtime W).Runs (blListThird c.cdr) b no b := by
              rw [blListThird, runs_after rest]
              exact list_second_runs list
            rw [if_neg (by decide), runs_after third]
            exact stands_runs branch _
      refine ⟨.null, ?_⟩
      rw [bodyHead, runs_after (runs_load known), if_neg (not_not.2 type),
        runs_after (runs_load head), if_neg noSymbol, if_pos isIf, runs_after chosen,
        runs_after (runs_load result), if_neg noList]
      exact runs_pure_self _ _

theorem steady_of_seen {e i last : Ptr} {same : State → Ptr → State → Ptr → Prop}
    (run : Turns W func inner [e] i last s turns t) {turn : MapTurn} (mem : turn ∈ turns)
    (seen : SeenAtOnce turn.bound inner e) (alike : ∀ u v, same u v u v) :
    Steady W same inner e turn := by
  obtain ⟨h, looked⟩ := seen_at_once (W := W) seen
  obtain ⟨f, last, last', n, _, _, bodies⟩ := turn_facts run turn mem
  generalize f.car = j at bodies
  intro y inBody
  generalize turn.body = ys at bodies inBody
  cases bodies with
  | @next _ _ _ _ v _ _ _ _ _ a _ ys _ _ _ evaluated _ _ _ rest =>
      have nothing : ys = [] := List.length_eq_zero_iff.1 (bodies_length rest)
      rw [nothing, List.mem_singleton] at inBody
      subst inBody
      exact ⟨h, turn.bound, v, a, looked, runs_eval.2 (runs_eval.1 evaluated), alike a v⟩

/-- `(map f L)` gives the values of the calls of `f` on the elements exactly if there is
an element, `f` has one body expression, a call's look at the head of the expression does
not change its value, and the list is not made longer meanwhile. -/
theorem map_agrees_iff (disciplined : ∀ D, W.Disciplined D)
    (form : MapOf W ctx expr func inner L s m) (closed : Closed m) (list : ListValue m xs L)
    (site : Site) (same : State → Ptr → State → Ptr → Prop) :
    (m.typeOf L = some .cons → ∀ es turns t, Turns W func inner es L .null m turns t →
      (∀ e, es = [e] → ∀ turn ∈ turns, ∀ f, turn.start.cell func = some f →
        OnlyBody W func inner e f.car turn.bound) →
      ∃ r, (runtime W).Runs (blEval site ctx expr) s r t ∧
        (Suits W same inner xs es turns t → Agrees W same func xs turns r t) ∧
        ((∀ turn ∈ turns, KeepLinks turn.body) →
          Agrees W same func xs turns r t → Suits W same inner xs es turns t)) ∧
    (m.typeOf L = some .null →
      ∃ r t, (runtime W).Runs (blEval site ctx expr) s r t ∧ t.typeOf r = some .error) := by
  constructor
  · intro isList es turns t run only
    obtain ⟨r, result, nothing, given⟩ := map_result disciplined form closed isList run site
    refine ⟨r, result, fun suits => ?_, fun keeps agrees => ?_⟩
    · rcases suits with ⟨some_, e, rfl, elems, steady⟩ | ⟨rfl, rfl, empty⟩
      · exact agrees_of_steady run (only e rfl) some_ elems steady (given (by simp)).1
      · obtain ⟨rfl, none_⟩ := nothing rfl
        rw [Agrees, none_]
        exact ⟨.inl ⟨rfl, empty⟩, rfl, fun k x _ _ at_ => by simp at at_⟩
    · obtain ⟨given', length, calls⟩ := agrees
      cases es with
      | nil =>
          obtain ⟨rfl, none_⟩ := nothing rfl
          rw [none_] at given' length
          have noElement : xs = [] := List.length_eq_zero_iff.1 length.symm
          rcases given' with ⟨_, empty⟩ | ⟨some_, _⟩
          · exact .inr ⟨noElement, rfl, empty⟩
          · exact absurd rfl some_
      | cons e es =>
          have follows := (given (by simp)).2
          obtain ⟨some_, elems, single⟩ :=
            lengths_of_agreement run isList list follows keeps length
          subst single
          refine .inl ⟨some_, e, rfl, elems, fun turn mem y inBody => ?_⟩
          exact steady_of_call run (only e rfl) elems mem inBody calls
  · intro isNull
    obtain ⟨n, s', params, called, operands, list'⟩ := form.call
    obtain ⟨f, name, function, isFunc, _⟩ := form.function
    obtain ⟨l, known, type⟩ := Option.map_eq_some_iff.1 isNull
    obtain ⟨r, t, run, isError⟩ := map_code_none operands list' function isFunc known type
    have filled : r ≠ .null := by
      rintro rfl
      cases isError
    refine ⟨r, t, (operator_call_runs called site).2 ⟨r, run, ?_⟩, isError⟩
    rw [orNull, if_neg filled]

/-- `l` is the list of 5; `(fun f (x) x x)` and `(fun g (x) x)` are defined, and the
expressions are `(map f l)` and `(map g l)`. -/
def mapForms : State where
  cells := staticCells ++
    [{ type := .symbol, w0 := .str (text "map"), w1 := .ofNat 0 },
     { type := .symbol, w0 := .str (text "f"), w1 := .ofNat 1 },
     { type := .symbol, w0 := .str (text "g"), w1 := .ofNat 2 },
     { type := .symbol, w0 := .str (text "x"), w1 := .ofNat 3 },
     { type := .symbol, w0 := .str (text "l"), w1 := .ofNat 4 },
     { type := .operNative, w0 := .code (.builtin .map) },
     .mkNumber 5, .mkCons (.ref 13) .null,
     .mkCons (.ref 10) .null, .mkCons (.ref 10) .null, .mkCons (.ref 10) (.ref 16),
     .mkCtx { Ctx.new 8 .null with
       keys := [.ref 7, .ref 8, .ref 9, .null, .ref 11, .null, .null, .null]
       vals := [.ref 12, .ref 21, .ref 22, .null, .ref 14, .null, .null, .null] },
     .mkCtx (.new 8 (.ref 18)), .mkCtx (.new 8 (.ref 18)),
     .mkClosure .funcBl (.ref 17) (.ref 15) (.ref 18) (.ref 19) (.ref 8) .null,
     .mkClosure .funcBl (.ref 16) (.ref 15) (.ref 18) (.ref 20) (.ref 9) .null,
     .mkCons (.ref 11) .null, .mkCons (.ref 8) (.ref 23), .mkCons (.ref 7) (.ref 24),
     .mkCons (.ref 11) .null, .mkCons (.ref 9) (.ref 26), .mkCons (.ref 7) (.ref 27)]
  symbolTable := [⟨text "l", 11⟩, ⟨text "x", 10⟩, ⟨text "g", 9⟩, ⟨text "f", 8⟩, ⟨text "map", 7⟩]
  lastSymId := 5

/-- `(map g l)` -/
theorem map_agrees_iff_one : ∃ m turns t r,
    MapOf World.bare (.ref 18) (.ref 28) (.ref 22) (.ref 20) (.ref 14) mapForms m ∧
      (runtime World.bare).Runs (blEval .operand (.ref 18) (.ref 28)) mapForms r t ∧
      Agrees World.bare (fun _ v _ w => v = w) (.ref 22) [.ref 13] turns r t := by
  have facts : ∃ m b : State, ∃ f x : Cell,
      MapOf World.bare (.ref 18) (.ref 28) (.ref 22) (.ref 20) (.ref 14) mapForms m ∧ Closed m ∧
      ListValue m [.ref 13] (.ref 14) ∧ m.typeOf (.ref 14) = some .cons ∧
      Binds World.bare (.ref 22) (.ref 20) (.ref 13) m b ∧ m.cell (.ref 22) = some f ∧
      b.cell (.ref 22) = some f ∧ f.innerClosure = some (.ref 20) ∧ f.car = .ref 16 ∧
      m.cell (.ref 14) = some (.mkCons (.ref 13) .null) ∧
      b.cell (.ref 14) = some (.mkCons (.ref 13) .null) ∧
      b.cell (.ref 16) = some (.mkCons (.ref 10) .null) ∧ b.cell (.ref 10) = some x ∧
      x.type ≠ .cons ∧ b.cell (.ref 13) = some (.mkNumber 5) ∧
      (runtime World.bare).Runs (blEval .operand (.ref 20) (.ref 10)) b (.ref 13) b :=
    ⟨_, _, _, _, ⟨⟨27, _, _, ⟨_, _, _, _, _, _, rfl, rfl, .symbol rfl rfl ⟨9, rfl⟩ (by decide),
      rfl, rfl, rfl, rfl, rfl, rfl, rfl⟩, ⟨12, rfl⟩, 29, _, rfl, rfl, rfl, rfl, 30, _, rfl, rfl, rfl,
      rfl, rfl⟩, _, .ref 10, rfl, rfl, rfl, 15, _, rfl, rfl, rfl, rfl, rfl⟩,
      closed_of_check (by decide) (by decide) (by decide),
      .inr ⟨by simp, by simp, 14, _, rfl, rfl, rfl, rfl, rfl⟩, rfl,
      ⟨_, _, _, rfl, rfl, rfl, ⟨9, rfl⟩⟩, rfl, rfl, rfl, rfl, rfl, rfl, rfl, rfl, by decide, rfl,
      ⟨9, rfl⟩⟩
  obtain ⟨m, b, f, x, form, closed, list, isList, binds, function, function', closure, start, element,
    element', body, symbol, noCons, number, value⟩ := facts
  have bodies : Bodies World.bare (.ref 22) (.ref 20) [.ref 10] f.car .null b
      [⟨b, .ref 13, b⟩] (.ref b.fresh) (b.collected .null (.ref 13)) := by
    rw [start]
    exact .next function' closure body value number (by decide) (State.cell_allocated_old body _)
      (.done _ _)
  have turns : Turns World.bare (.ref 22) (.ref 20) [.ref 10] (.ref 14) .null m
      [⟨.ref 13, m, b, [⟨b, .ref 13, b⟩]⟩] (b.collected .null (.ref 13)) :=
    .next element function binds bodies (State.cell_allocated_old element' _) (.done _ _)
  have only : OnlyBody World.bare (.ref 22) (.ref 20) (.ref 10) f.car b := by
    have looked : (runtime World.bare).Runs (bodyHead (.ref 20) (.ref 10)) b .null b := by
      rw [bodyHead, runs_after (runs_load symbol), if_pos noCons]
      exact runs_pure_self _ _
    refine ⟨fun h p run => ?_, fun h p v t run evaluated => ?_⟩
    · obtain ⟨rfl, _⟩ := runs_functional run looked
      simp
    · obtain ⟨_, rfl⟩ := runs_functional run looked
      obtain ⟨_, rfl⟩ := runs_functional evaluated (runs_eval.2 (runs_eval.1 value))
      rw [start]
      exact ⟨_, body, rfl⟩
  obtain ⟨r, run, agrees, _⟩ := (map_agrees_iff bare_disciplined form closed list .operand
    fun _ v _ w => v = w).1 isList _ _ _ turns (by
      intro e single turn mem g held
      rw [List.mem_singleton.1 mem] at held ⊢
      cases single
      rw [function] at held
      cases held
      exact only)
  refine ⟨m, _, _, r, form, run, agrees (.inl ⟨by simp, _, rfl, rfl, fun turn mem => ?_⟩)⟩
  refine steady_of_seen turns mem ?_ fun _ _ => rfl
  rw [List.mem_singleton.1 mem]
  exact .atom symbol noCons

/-- `(map f l)` gives a list of two values for the one element. -/
theorem map_collects_every_expression : ∃ m turns t r,
    MapOf World.bare (.ref 18) (.ref 25) (.ref 21) (.ref 19) (.ref 14) mapForms m ∧
      ListValue m [.ref 13] (.ref 14) ∧
      Turns World.bare (.ref 21) (.ref 19) [.ref 10, .ref 10] (.ref 14) .null m turns t ∧
      (runtime World.bare).Runs (blEval .operand (.ref 18) (.ref 25)) mapForms r t ∧
      ∀ same, ¬ Agrees World.bare same (.ref 21) [.ref 13] turns r t := by
  have facts : ∃ m b : State, ∃ f : Cell,
      MapOf World.bare (.ref 18) (.ref 25) (.ref 21) (.ref 19) (.ref 14) mapForms m ∧ Closed m ∧
      ListValue m [.ref 13] (.ref 14) ∧ m.typeOf (.ref 14) = some .cons ∧
      Binds World.bare (.ref 21) (.ref 19) (.ref 13) m b ∧ m.cell (.ref 21) = some f ∧
      b.cell (.ref 21) = some f ∧ f.innerClosure = some (.ref 19) ∧ f.car = .ref 17 ∧
      m.cell (.ref 14) = some (.mkCons (.ref 13) .null) ∧
      b.cell (.ref 17) = some (.mkCons (.ref 10) (.ref 16)) ∧
      b.cell (.ref 16) = some (.mkCons (.ref 10) .null) ∧ b.cell (.ref 13) = some (.mkNumber 5) ∧
      (runtime World.bare).Runs (blEval .operand (.ref 19) (.ref 10)) b (.ref 13) b ∧
      (runtime World.bare).Runs (blEval .operand (.ref 19) (.ref 10)) (b.collected .null (.ref 13))
        (.ref 13) (b.collected .null (.ref 13)) ∧
      ((b.collected .null (.ref 13)).collected (.ref b.fresh) (.ref 13)).cell (.ref 16) =
        some (.mkCons (.ref 10) .null) ∧
      ((b.collected .null (.ref 13)).collected (.ref b.fresh) (.ref 13)).cell (.ref 14) =
        some (.mkCons (.ref 13) .null) :=
    ⟨_, _, _, ⟨⟨24, _, _, ⟨_, _, _, _, _, _, rfl, rfl, .symbol rfl rfl ⟨9, rfl⟩ (by decide),
      rfl, rfl, rfl, rfl, rfl, rfl, rfl⟩, ⟨12, rfl⟩, 29, _, rfl, rfl, rfl, rfl, 30, _, rfl, rfl, rfl,
      rfl, rfl⟩, _, .ref 10, rfl, rfl, rfl, 15, _, rfl, rfl, rfl, rfl, rfl⟩,
      closed_of_check (by decide) (by decide) (by decide),
      .inr ⟨by simp, by simp, 14, _, rfl, rfl, rfl, rfl, rfl⟩, rfl,
      ⟨_, _, _, rfl, rfl, rfl, ⟨9, rfl⟩⟩, rfl, rfl, rfl, rfl, rfl, rfl, rfl, rfl, ⟨9, rfl⟩, ⟨9, rfl⟩,
      rfl, rfl⟩
  obtain ⟨m, b, f, form, closed, list, isList, binds, function, function', closure, start, element,
    body, body', number, value, value', end_, link⟩ := facts
  have bodies : Bodies World.bare (.ref 21) (.ref 19) [.ref 10, .ref 10] f.car .null b
      [⟨b, .ref 13, b⟩, ⟨b.collected .null (.ref 13), .ref 13, b.collected .null (.ref 13)⟩]
      (.ref (b.collected .null (.ref 13)).fresh)
      ((b.collected .null (.ref 13)).collected (.ref b.fresh) (.ref 13)) := by
    rw [start]
    exact .next function' closure body value number (by decide) (State.cell_allocated_old body _)
      (.next (State.cell_allocated_old function' _) closure (State.cell_allocated_old body' _) value'
        (State.cell_allocated_old number _) (by decide) end_ (.done _ _))
  have turns := Turns.next element function binds bodies link (.done _ _)
  obtain ⟨r, run, _⟩ := map_result bare_disciplined form closed isList turns .operand
  exact ⟨m, _, _, r, form, list, turns, run, fun same agrees => nomatch agrees.2.1⟩

end Agreement

end BearLang.Mapping
