import BearLang.EvaluatedValues
import BearLang.OperandEvaluation

/-!
# The order in which the elements of a list are evaluated

`bl_eval_cons` threads the state through the elements from left to right, stops at the
first error, and otherwise links the values in a list of new cells.
-/

namespace BearLang.ElementOrder

open CallPrograms OperandEvaluation

set_option autoImplicit false

section Order

variable {W : World} {ctx : Ptr}

/-- The expressions are evaluated in order, each in the state that the one before and the
cell for its value left, and none to an error. -/
inductive Elements (W : World) (ctx : Ptr) :
    Ptr → State → List Ptr → List Ptr → State → Prop
  | done (last : Ptr) (s : State) : Elements W ctx last s [] [] s
  | next {last e v : Ptr} {T : ValType} {s m t : State} {es vs : List Ptr}
      (evaluated : (runtime W).Runs (blEval .listElement ctx e) s v m)
      (value : m.typeOf v = some T) (noError : T ≠ .error)
      (rest : Elements W ctx (.ref m.fresh) (m.collected last v) es vs t) :
      Elements W ctx last s (e :: es) (v :: vs) t

/-- No evaluation of an element modifies the cells of the list. -/
def Unmodified (W : World) (ctx last : Ptr) (s : State) (items : List (Nat × Ptr)) : Prop :=
  ∀ before e after vs v m n, items.map Prod.snd = before ++ e :: after →
    Elements W ctx last s before vs m → (runtime W).Runs (blEval .listElement ctx e) m v n →
      CellsAt n items (startOf items)

theorem unmodified_here {last v : Ptr} {item : Nat × Ptr} {items : List (Nat × Ptr)} {s m : State}
    (unmodified : Unmodified W ctx last s (item :: items))
    (evaluated : (runtime W).Runs (blEval .listElement ctx item.2) s v m) :
    CellsAt m (item :: items) (.ref item.1) :=
  unmodified [] item.2 _ [] v s m rfl (.done _ _) evaluated

theorem unmodified_later {last v : Ptr} {T : ValType} {item : Nat × Ptr} {items : List (Nat × Ptr)}
    {s m : State} (unmodified : Unmodified W ctx last s (item :: items))
    (evaluated : (runtime W).Runs (blEval .listElement ctx item.2) s v m)
    (value : m.typeOf v = some T) (noError : T ≠ .error) :
    Unmodified W ctx (.ref m.fresh) (m.collected last v) items := by
  intro before e after vs u k n parts elements run
  have whole := unmodified (item.2 :: before) e after (v :: vs) u k n
    (by rw [List.map_cons, parts, List.cons_append]) (.next evaluated value noError elements) run
  exact cells_at_drop (List.singleton_append (x := item)).symm whole

end Order

section Turns

variable {W : World} {ctx start last v r : Ptr} {T : ValType} {s m t : State}
  {item : Nat × Ptr} {items : List (Nat × Ptr)} {used : List Nat} {a : Nat} {w : Ptr}

theorem element_first (cells : CellsAt s (item :: items) (.ref item.1))
    (run : (runtime W).Runs (evalConsLoop ctx (.ref item.1) start last) s r t) :
    ∃ v m T, (runtime W).Runs (blEval .listElement ctx item.2) s v m ∧ m.typeOf v = some T := by
  obtain ⟨_, c, known, _, car, _⟩ := cells
  rw [evalConsLoop, if_neg (by simp), runs_after (runs_load known), car] at run
  obtain ⟨v, m, evaluated, run⟩ := runs_bind.1 run
  obtain ⟨T, n, typed, _⟩ := runs_bind.1 run
  obtain ⟨d, held, _⟩ := runs_load_iff.1 typed
  exact ⟨v, m, d.type, evaluated, by rw [State.typeOf, held, Option.map_some]⟩

theorem element_error (cells : CellsAt s (item :: items) (.ref item.1))
    (evaluated : (runtime W).Runs (blEval .listElement ctx item.2) s v m)
    (value : m.typeOf v = some .error) :
    (runtime W).Runs (evalConsLoop ctx (.ref item.1) start last) s v m := by
  obtain ⟨_, c, known, _, car, _⟩ := cells
  obtain ⟨d, held, kind⟩ := Option.map_eq_some_iff.1 value
  rw [evalConsLoop, if_neg (by simp), runs_after (runs_load known), car, runs_after evaluated,
    runs_after (runs_type_of held), if_pos kind]
  exact runs_pure_self _ _

theorem element_collected (cells : CellsAt s (item :: items) (.ref item.1))
    (evaluated : (runtime W).Runs (blEval .listElement ctx item.2) s v m)
    (value : m.typeOf v = some T) (noError : T ≠ .error)
    (linked : last = .null ∨ ∃ a w, last = .ref a ∧ m.cell last = some (.mkCons w .null))
    (still : CellsAt (m.collected last v) (item :: items) (.ref item.1)) :
    (runtime W).Reaches (evalConsLoop ctx (.ref item.1) start last) s
      (evalConsLoop ctx (startOf items) (if last = .null then .ref m.fresh else start) (.ref m.fresh))
      (m.collected last v) := by
  obtain ⟨_, c, known, _, car, _⟩ := cells
  obtain ⟨d, held, rfl⟩ := Option.map_eq_some_iff.1 value
  obtain ⟨_, c', known', _, _, later⟩ := still
  have next := cells_at_start later
  rw [evalConsLoop, if_neg (by simp)]
  refine reaches_after (runs_load known) ?_
  rw [car]
  refine reaches_after evaluated (reaches_after (runs_type_of held) ?_)
  rw [if_neg noError]
  refine reaches_after (runs_alloc _ m) ?_
  rcases linked with rfl | ⟨a, w, rfl, tail⟩
  · rw [collected_first] at known' ⊢
    rw [if_pos rfl, if_pos rfl]
    refine reaches_after (runs_load known') ?_
    rw [next]
    exact reaches_call (c := .evalConsLoop ctx (startOf items) (.ref m.fresh) (.ref m.fresh)) (.refl _ _)
  · have old := State.cell_allocated_old tail (.mkCons v .null)
    have link : (runtime W).Runs (setCdr .build (.ref a) (.ref m.fresh))
        (m.allocated (.mkCons v .null)) ()
        ((m.allocated (.mkCons v .null)).put a (.mkCons w (.ref m.fresh))) :=
      runs_set_cdr old .build (.ref m.fresh)
    rw [collected_behind tail] at known' ⊢
    rw [if_neg (by simp), if_neg (by simp)]
    refine reaches_after link (reaches_after (runs_load known') ?_)
    rw [next]
    exact reaches_call (c := .evalConsLoop ctx (startOf items) start (.ref m.fresh)) (.refl _ _)

end Turns

section Building

variable {W : World} {ctx start last v r : Ptr} {T : ValType} {s m t : State}
  {item : Nat × Ptr} {items after : List (Nat × Ptr)} {used : List Nat} {a : Nat} {w : Ptr}
  {es vs : List Ptr}

/-- The loop stands before these elements, and has a cell for `w` as its last one. -/
structure Building (W : World) (ctx : Ptr) (used : List Nat) (a : Nat) (w : Ptr)
    (items : List (Nat × Ptr)) (s : State) : Prop where
  growing : Growing used a w s
  context : Away used s ctx
  cells : CellsAt s items (startOf items)
  apart : ∀ item ∈ items, item.1 ∉ used
  unmodified : Unmodified W ctx (.ref a) s items

theorem building_step (start : Ptr) (disciplined : ∀ D, W.Disciplined D)
    (building : Building W ctx used a w (item :: items) s)
    (evaluated : (runtime W).Runs (blEval .listElement ctx item.2) s v m)
    (value : m.typeOf v = some T) (noError : T ≠ .error) :
    (runtime W).Reaches (evalConsLoop ctx (.ref item.1) start (.ref a)) s
        (evalConsLoop ctx (startOf items) start (.ref m.fresh)) (m.collected (.ref a) v) ∧
      Building W ctx (used ++ [m.fresh]) m.fresh v items (m.collected (.ref a) v) ∧
      GrownBy used a w v s m := by
  obtain ⟨growing, context, cells, apart, unmodified⟩ := building
  have turnCells : CellsAt s (item :: items) (.ref item.1) := cells
  have unlisted := apart item List.mem_cons_self
  obtain ⟨_, c, known, _, car, _⟩ := cells
  have awayElement : Away used s item.2 := by
    rw [← car]
    exact (away_of_cell growing.secluded known unlisted).1
  have grown := grown_by_evaluation disciplined growing context awayElement evaluated
  have whole := unmodified_here unmodified evaluated
  have still : CellsAt (m.collected (.ref a) v) (item :: items) (.ref item.1) := by
    refine cells_at_collected whole fun x mem same => ?_
    exact apart x mem (Ptr.ref.inj same ▸ growing.listed)
  refine ⟨?_, ⟨grown.growing, grown.away _ (away_later grown.later context), ?_, ?_, ?_⟩, grown⟩
  · exact element_collected turnCells evaluated value noError (.inr ⟨a, w, rfl, grown.last⟩) still
  · exact cells_at_drop (List.singleton_append (x := item)).symm still
  · intro x mem inside
    rcases List.mem_append.1 inside with old | new
    · exact apart x (List.mem_cons_of_mem _ mem) old
    · have bound := cells_at_bound whole x (List.mem_cons_of_mem _ mem)
      exact Nat.ne_of_lt bound (List.mem_singleton.1 new)
  · exact unmodified_later unmodified evaluated value noError

theorem building_start (disciplined : ∀ D, W.Disciplined D) (closed : Closed s)
    (context : Away [] s ctx) (cells : CellsAt s (item :: items) (.ref item.1))
    (unmodified : Unmodified W ctx .null s (item :: items))
    (evaluated : (runtime W).Runs (blEval .listElement ctx item.2) s v m)
    (value : m.typeOf v = some T) (noError : T ≠ .error) :
    (runtime W).Reaches (evalConsLoop ctx (.ref item.1) .null .null) s
        (evalConsLoop ctx (startOf items) (.ref m.fresh) (.ref m.fresh)) (m.collected .null v) ∧
      Building W ctx [m.fresh] m.fresh v items (m.collected .null v) ∧ s.fresh ≤ m.fresh := by
  have turnCells := cells
  obtain ⟨_, c, known, _, car, _⟩ := cells
  have awayElement : Away [] s item.2 := by
    rw [← car]
    exact (away_of_cell closed known List.not_mem_nil).1
  obtain ⟨closed', _, _⟩ := eval_secluded disciplined closed context awayElement evaluated
  have later := fresh_le_of_grows (runs_grows evaluated)
  obtain ⟨growing, further⟩ := growing_first closed' v
  have whole := unmodified_here unmodified evaluated
  have still : CellsAt (m.collected .null v) (item :: items) (.ref item.1) :=
    cells_at_collected whole fun _ _ => nofun
  refine ⟨?_, ⟨growing, further _ (away_later later context), ?_, ?_, ?_⟩, later⟩
  · exact element_collected turnCells evaluated value noError (.inl rfl) still
  · exact cells_at_drop (List.singleton_append (x := item)).symm still
  · intro x mem inside
    have bound := cells_at_bound whole x (List.mem_cons_of_mem _ mem)
    exact Nat.ne_of_lt bound (List.mem_singleton.1 inside)
  · exact unmodified_later unmodified evaluated value noError

/-- Elements that evaluate to no error leave the loop behind them, with the list of their
values, which no evaluation of a later one changes. -/
theorem elements_behind (start : Ptr) (disciplined : ∀ D, W.Disciplined D)
    (elements : Elements W ctx last s es vs m) (isLast : last = .ref a)
    (listed : items.map Prod.snd = es) (building : Building W ctx used a w (items ++ after) s) :
    ∃ used' b u made,
      (runtime W).Reaches (evalConsLoop ctx (startOf (items ++ after)) start last) s
        (evalConsLoop ctx (startOf after) start (.ref b)) m ∧
      Building W ctx used' b u after m ∧ CellsAt m ((a, w) :: made) (.ref a) ∧
      made.map Prod.snd = vs ∧ (∀ x ∈ made, s.fresh ≤ x.1) ∧
      ∀ b ∈ used, b ≠ a → m.cell (.ref b) = s.cell (.ref b) := by
  induction elements generalizing a w used items with
  | done last s =>
      subst isLast
      obtain rfl := List.map_eq_nil_iff.1 listed
      exact ⟨used, a, w, [], .refl _ _, building, ⟨rfl, _, building.growing.last, rfl,
        Cell.mk_cons_car w .null, rfl⟩, rfl, fun _ => nofun, fun _ _ _ => rfl⟩
  | @next last e v T s m t es vs evaluated value noError rest ih =>
      subst isLast
      cases items with
      | nil => cases listed
      | cons item items =>
          obtain ⟨rfl, listed'⟩ := List.cons.inj listed
          obtain ⟨turn, building', grown⟩ :=
            building_step start disciplined building evaluated value noError
          obtain ⟨used', b, u, made, onward, building'', cells, values, new, kept⟩ :=
            ih rfl listed' building'
          have aOld : a < m.fresh := State.ref_lt_fresh grown.last
          refine ⟨used', b, u, (m.fresh, v) :: made, reaches_trans turn onward, building'', ?_,
            congrArg (v :: ·) values, ?_, ?_⟩
          · refine ⟨rfl, .mkCons w (.ref m.fresh), ?_, rfl, Cell.mk_cons_car w _, ?_⟩
            · rw [kept a (List.mem_append_left _ building.growing.listed) (Nat.ne_of_lt aOld),
                grown.linked]
            · rw [Cell.mk_cons_cdr]
              exact cells
          · intro x mem
            rcases List.mem_cons.1 mem with rfl | mem
            · exact grown.later
            · have later := State.ref_lt_fresh building'.growing.last
              have := new x mem
              have := grown.later
              omega
          · intro b mem other
            have bOld : b < m.fresh := grown.secluded.old b mem
            rw [kept b (List.mem_append_left _ mem) (Nat.ne_of_lt bOld), grown.kept b mem other]

/-- An element evaluates to an error, and those before it to none. -/
def FailsAt (W : World) (ctx last : Ptr) (s : State) (es : List Ptr) (r : Ptr) (t : State) : Prop :=
  ∃ before e after vs m, es = before ++ e :: after ∧ Elements W ctx last s before vs m ∧
    (runtime W).Runs (blEval .listElement ctx e) m r t ∧ t.typeOf r = some .error

/-- The value is a list of these values, all of whose cells are new. -/
def FreshList (s t : State) (vs : List Ptr) (r : Ptr) : Prop :=
  ∃ made, made.map Prod.snd = vs ∧ CellsAt t made r ∧ ∀ x ∈ made, s.fresh ≤ x.1

theorem fails_later {e : Ptr} (evaluated : (runtime W).Runs (blEval .listElement ctx e) s v m)
    (value : m.typeOf v = some T) (noError : T ≠ .error)
    (fails : FailsAt W ctx (.ref m.fresh) (m.collected last v) es r t) :
    FailsAt W ctx last s (e :: es) r t := by
  obtain ⟨before, e', after, vs, n, rfl, elements, run, error⟩ := fails
  exact ⟨e :: before, e', after, v :: vs, n, rfl, .next evaluated value noError elements, run, error⟩

/-- A loop that returns has evaluated all elements, or those up to an error. -/
theorem loop_evaluates (disciplined : ∀ D, W.Disciplined D)
    (building : Building W ctx used a w items s)
    (run : (runtime W).Runs (evalConsLoop ctx (startOf items) start (.ref a)) s r t) :
    FailsAt W ctx (.ref a) s (items.map Prod.snd) r t ∨
      ∃ vs, Elements W ctx (.ref a) s (items.map Prod.snd) vs t := by
  induction items generalizing a w used s with
  | nil =>
      rw [startOf, evalConsLoop, if_pos rfl] at run
      obtain ⟨_, rfl⟩ := runs_pure.1 run
      exact .inr ⟨[], .done _ _⟩
  | cons item items ih =>
      obtain ⟨v, m, T, evaluated, value⟩ := element_first building.cells run
      by_cases error : T = .error
      · subst error
        obtain ⟨rfl, rfl⟩ := runs_functional run (element_error building.cells evaluated value)
        exact .inl ⟨[], item.2, _, [], s, rfl, .done _ _, evaluated, value⟩
      · obtain ⟨turn, building', _⟩ :=
          building_step start disciplined building evaluated value error
        rcases ih building' ((reaches_runs_iff turn).1 run) with fails | ⟨vs, elements⟩
        · exact .inl (fails_later evaluated value error fails)
        · exact .inr ⟨v :: vs, .next evaluated value error elements⟩

end Building

section Whole

variable {W : World} {ctx p : Ptr} {s : State} {items : List (Nat × Ptr)}

theorem eval_cons_reaches (ctx : Ptr) (s : State) (a : Nat) :
    (runtime W).Reaches (blEvalCons ctx (.ref a)) s (evalConsLoop ctx (.ref a) .null .null) s := by
  rw [blEvalCons, if_neg (by simp)]
  exact reaches_call (c := .evalConsLoop ctx (.ref a) .null .null) (.refl _ _)

/-- List evaluation threads the state through the elements in order: it gives the first
error and evaluates nothing behind it, or else a new list of all values. -/
theorem list_evaluated_in_order (disciplined : ∀ D, W.Disciplined D) (closed : Closed s)
    (context : Away [] s ctx) (cells : CellsAt s items p) (some_ : items ≠ [])
    (unmodified : Unmodified W ctx .null s items) :
    (∀ r t, FailsAt W ctx .null s (items.map Prod.snd) r t →
      (runtime W).Runs (blEvalCons ctx p) s r t) ∧
    (∀ vs t, Elements W ctx .null s (items.map Prod.snd) vs t →
      ∃ r, (runtime W).Runs (blEvalCons ctx p) s r t ∧ FreshList s t vs r) ∧
    ∀ r t, (runtime W).Runs (blEvalCons ctx p) s r t →
      FailsAt W ctx .null s (items.map Prod.snd) r t ∨
        ∃ vs, Elements W ctx .null s (items.map Prod.snd) vs t := by
  cases items with
  | nil => exact absurd rfl some_
  | cons item items =>
      obtain rfl := cells.1
      have entered := eval_cons_reaches (W := W) ctx s item.1
      refine ⟨fun r t fails => (reaches_runs_iff entered).2 ?_, fun vs t elements => ?_,
        fun r t run => ?_⟩
      · obtain ⟨before, e, after, vs, m, parts, elements, run, error⟩ := fails
        cases elements with
        | done =>
            obtain ⟨rfl, _⟩ := List.cons.inj parts
            exact element_error cells run error
        | @next _ e' v T _ m' _ before vs evaluated value noError rest =>
            obtain ⟨rfl, parts'⟩ := List.cons.inj parts
            obtain ⟨passed, failing, rfl, rfl, parts''⟩ := List.map_eq_append_iff.1 parts'
            obtain ⟨item', behind, rfl, rfl, _⟩ := List.map_eq_cons_iff.1 parts''
            obtain ⟨turn, building, _⟩ := building_start disciplined closed context cells unmodified
              evaluated value noError
            obtain ⟨_, _, _, _, onward, building', _⟩ :=
              elements_behind (.ref m'.fresh) disciplined rest rfl rfl building
            exact (reaches_runs_iff (reaches_trans turn onward)).2
              (element_error building'.cells run error)
      · cases elements with
        | @next _ _ v T _ m _ _ vs evaluated value noError rest =>
            obtain ⟨turn, building, later⟩ := building_start disciplined closed context cells unmodified
              evaluated value noError
            rw [← List.append_nil items] at turn building
            obtain ⟨_, _, _, made, onward, _, listed, values, new, _⟩ :=
              elements_behind (.ref m.fresh) disciplined rest rfl rfl building
            refine ⟨.ref m.fresh, (reaches_runs_iff (reaches_trans entered
              (reaches_trans turn onward))).2 ?_, (m.fresh, v) :: made, congrArg (v :: ·) values, listed, ?_⟩
            · rw [startOf, evalConsLoop, if_pos rfl, if_neg (by simp)]
              exact runs_pure_self _ _
            · intro x mem
              rcases List.mem_cons.1 mem with rfl | mem
              · exact later
              · have := new x mem
                have := State.ref_lt_fresh building.growing.last
                omega
      · have inner := (reaches_runs_iff entered).1 run
        obtain ⟨v, m, T, evaluated, value⟩ := element_first cells inner
        by_cases error : T = .error
        · subst error
          obtain ⟨rfl, rfl⟩ := runs_functional inner (element_error cells evaluated value)
          exact .inl ⟨[], item.2, _, [], s, rfl, .done _ _, evaluated, value⟩
        · obtain ⟨turn, building, _⟩ := building_start disciplined closed context cells unmodified
            evaluated value error
          rcases loop_evaluates disciplined building ((reaches_runs_iff turn).1 inner) with
            fails | ⟨vs, elements⟩
          · exact .inl (fails_later evaluated value error fails)
          · exact .inr ⟨v :: vs, .next evaluated value error elements⟩

def twoElements : State :=
  { cells := staticCells ++ [.mkCtx (.new 8 .null), .mkNumber 1, .mkStr [], .mkCons (.ref 8) (.ref 11),
      .mkCons (.ref 9) .null] }

theorem list_evaluated_in_order_two : ∃ t r, (runtime World.bare).Runs
    (blEvalCons (.ref 7) (.ref 10)) twoElements r t ∧
      FreshList twoElements t [.ref 8, .ref 9] r := by
  have cells : CellsAt twoElements [(10, .ref 8), (11, .ref 9)] (.ref 10) :=
    ⟨rfl, _, rfl, rfl, rfl, rfl, _, rfl, rfl, rfl, rfl⟩
  have first : (runtime World.bare).Runs (blEval .listElement (.ref 7) (.ref 8)) twoElements (.ref 8)
      twoElements := ⟨8, rfl⟩
  have second : (runtime World.bare).Runs (blEval .listElement (.ref 7) (.ref 9))
      (twoElements.collected .null (.ref 8)) (.ref 9) (twoElements.collected .null (.ref 8)) := ⟨8, rfl⟩
  have unmodified : Unmodified World.bare (.ref 7) .null twoElements [(10, .ref 8), (11, .ref 9)] := by
    intro before e after vs v m n parts elements run
    cases elements with
    | done =>
        cases parts
        obtain ⟨_, rfl⟩ := runs_functional run first
        exact cells
    | next evaluated _ _ rest =>
        obtain ⟨rfl, parts'⟩ := List.cons.inj parts
        obtain ⟨rfl, rfl⟩ := runs_functional evaluated first
        cases rest with
        | done =>
            cases parts'
            obtain ⟨_, rfl⟩ := runs_functional run second
            exact ⟨rfl, _, rfl, rfl, rfl, rfl, _, rfl, rfl, rfl, rfl⟩
        | next => exact absurd (congrArg List.length parts') (by simp)
  obtain ⟨r, run, values⟩ := (list_evaluated_in_order bare_disciplined
    (closed_of_check (by decide) (by decide) (by decide))
    (fun _ isRef => Ptr.ref.inj isRef ▸ ⟨by decide, List.not_mem_nil⟩) cells nofun unmodified).2.1 _ _
    (.next first rfl nofun (.next second rfl nofun (.done _ _)))
  exact ⟨_, r, run, values⟩

end Whole

end BearLang.ElementOrder
