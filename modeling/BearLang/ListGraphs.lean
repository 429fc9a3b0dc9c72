import BearLang.AcyclicRelations
import BearLang.HeapRegions
import BearLang.ProgramConduct

/-!
# The graph of list links

A cell is linked to its `car` and `cdr`, and an error to the value it carries.
Memory is only ever linked at a new cell, at the last cell of a list that the
runtime is building, by `bl_list_append`, and by the call of an operator without
arguments. The lists that are being built are seen by nobody else, so a cycle can
come from the last two only.
-/

namespace BearLang.ListGraphs

open CallPrograms AcyclicRelations Relation

set_option autoImplicit false

section Links

/-- Where the list functions and the serialiser go from a cell. -/
def linked (c : Cell) : List Ptr := [c.car, c.cdr, c.err.errVal]

def Link (s : State) (a b : Nat) : Prop := ∃ c, s.cell (.ref a) = some c ∧ Ptr.ref b ∈ linked c

abbrev Leads (s : State) : Nat → Nat → Prop := ReflTransGen (Link s)

/-- The store of a `cdr` into a list that leads back to the cell stored into. -/
def Closes (op : Op) (s : State) : Prop :=
  ∃ site a b, op = .setCdr site (.ref a) (.ref b) ∧ site ≠ .build ∧ Leads s b a

variable {s t : State} {used : List Nat}

theorem linked_away (secluded : Secluded used s) {a b : Nat} (bound : a < s.fresh)
    (unlisted : a ∉ used) (link : Link s a b) : b < s.fresh ∧ b ∉ used := by
  obtain ⟨c, found, mem⟩ := link
  have holds := secluded.confined.cells a c ⟨bound, unlisted⟩ found
  have value := (err_of_holds holds).2
  simp only [linked, List.mem_cons, List.not_mem_nil, or_false] at mem
  rcases mem with same | same | same
  · exact holds.car b same.symm
  · exact holds.cdr b same.symm
  · exact value b same.symm

theorem leads_away (secluded : Secluded used s) {a b : Nat} (bound : a < s.fresh)
    (unlisted : a ∉ used) (leads : Leads s a b) : b < s.fresh ∧ b ∉ used := by
  induction leads with
  | refl => exact ⟨bound, unlisted⟩
  | tail _ link ih => exact linked_away secluded ih.1 ih.2 link

theorem new_cell_apart (secluded : Secluded used s) {val : Ptr} (away : Away used s val) {a : Nat}
    (mem : a ∈ used) : ¬ Leads (s.allocated (.mkCons val .null)) s.fresh a := by
  intro leads
  have listed := secluded_new secluded (.mkCons val .null)
  rcases ReflTransGen.cases_head leads with same | ⟨b, ⟨c, found, first⟩, rest⟩
  · exact Nat.lt_irrefl _ (same ▸ secluded.old a mem)
  · rw [State.cell_allocated_new] at found
    cases found
    have value : Ptr.ref b = val := by
      simp only [linked, Cell.mk_cons_car, Cell.mk_cons_cdr, List.mem_cons, List.not_mem_nil,
        or_false] at first
      rcases first with same | same | same
      · exact same
      · cases same
      · cases same
    obtain ⟨bound, unlisted⟩ := away b value.symm
    have outside : b ∉ used ++ [s.fresh] := by
      intro inside
      rcases List.mem_append.1 inside with old | new
      · exact unlisted old
      · exact Nat.ne_of_lt bound (List.mem_singleton.1 new)
    have later : b < (s.allocated (.mkCons val .null)).fresh := by
      rw [State.fresh_allocated]
      exact Nat.lt_succ_of_lt bound
    exact (leads_away listed later outside rest).2 (List.mem_append_left _ mem)

theorem link_step (closed : Secluded [] s) {op : Op} {answer : op.Answer}
    (allowed : (Region.outside [] s.fresh closed.room closed.made).discipline.allowedOp op)
    (stepped : step op s = some (answer, t)) {a b : Nat} (link : Link t a b) :
    Link s a b ∨ (∃ site, op = .setCdr site (.ref a) (.ref b)) ∨
      ((∃ c, op = .alloc c) ∧ a = s.fresh ∧ b < s.fresh) := by
  obtain ⟨d, found, mem⟩ := link
  cases known : s.cell (.ref a) with
  | some c =>
      obtain ⟨d', found', cell⟩ := step_cell stepped known
      cases found.symm.trans found'
      have same : linked d = linked c → Link s a b := fun same => ⟨c, known, same ▸ mem⟩
      cases cell with
      | same => exact .inl (same rfl)
      | cdr site q =>
          simp only [linked, List.mem_cons, List.not_mem_nil, or_false] at mem
          rcases mem with first | rest | value
          · exact .inl ⟨c, known, by simp [linked, first, Cell.car]⟩
          · rw [Cell.cdr, word_ptr_of_ptr] at rest
            exact .inr (.inl ⟨site, by rw [rest]⟩)
          · exact .inl ⟨c, known, by simp [linked, value, Cell.err]⟩
      | number i =>
          simp only [linked, List.mem_cons, List.not_mem_nil, or_false] at mem
          rcases mem with first | rest | value
          · exact .inl ⟨c, known, by simp [linked, first, Cell.car]⟩
          · cases rest
          · exact .inl ⟨c, known, by simp [linked, value, Cell.err]⟩
      | invoked => exact .inl (same rfl)
      | line => exact .inl (same rfl)
      | inner q lexical old sym _ tail =>
          exact .inl (same (by simp [linked, Cell.err, Cell.car, Cell.cdr, tail]))
      | mark old _ tail => exact .inl (same (by simp [linked, Cell.err, Cell.car, Cell.cdr, tail]))
      | store id key val old new _ tail =>
          exact .inl (same (by simp [linked, Cell.err, Cell.car, Cell.cdr, tail]))
  | none =>
      obtain ⟨here, rfl | ⟨name, rfl⟩⟩ := step_made stepped known found
      · refine .inr (.inr ⟨⟨d, rfl⟩, here, ?_⟩)
        have holds : (Region.outside [] s.fresh closed.room closed.made).discipline.Holds d := allowed
        have value := (err_of_holds holds).2
        simp only [linked, List.mem_cons, List.not_mem_nil, or_false] at mem
        rcases mem with same | same | same
        · exact (holds.car b same.symm).1
        · exact (holds.cdr b same.symm).1
        · exact (value b same.symm).1
      · have number := of_nat_no_addr s.lastSymId
        simp only [linked, List.mem_cons, List.not_mem_nil, or_false] at mem
        rcases mem with same | same | same
        · cases same
        · cases word : Word.ofNat s.lastSymId with
          | addr address => exact absurd word (number address)
          | zero => simp [Cell.cdr, word, Word.ptr] at same
          | _ => simp [Cell.cdr, word, Word.ptr] at same
        · cases same

/-- An operation that closes no cycle leaves a graph without one. -/
theorem acyclic_step (closed : Secluded [] s) {op : Op} {answer : op.Answer}
    (allowed : (Region.outside [] s.fresh closed.room closed.made).discipline.allowedOp op)
    (open_ : ∀ site a b, op = .setCdr site (.ref a) (.ref b) → ¬ Leads s b a)
    (acyclic : Acyclic (Link s)) (stepped : step op s = some (answer, t)) : Acyclic (Link t) := by
  by_cases linking : ∃ site a b, op = .setCdr site (.ref a) (.ref b)
  · obtain ⟨site, a, b, rfl⟩ := linking
    refine acyclic_add_edge (fun x y link => ?_) (open_ site a b rfl) acyclic
    rcases link_step closed allowed stepped link with old | ⟨_, same⟩ | ⟨⟨_, other⟩, _⟩
    · exact .inl old
    · cases same
      exact .inr ⟨rfl, rfl⟩
    · cases other
  · refine acyclic_add_source (n := s.fresh) (fun x y start link => ?_) (fun x link => ?_) acyclic
    · rcases link_step closed allowed stepped link with old | ⟨site, same⟩ | ⟨_, new, _⟩
      · exact old
      · exact absurd ⟨site, x, y, same⟩ linking
      · exact absurd new start
    · rcases link_step closed allowed stepped link with old | ⟨site, same⟩ | ⟨_, _, bound⟩
      · have bound : x < s.fresh := by
          obtain ⟨c, found, _⟩ := old
          exact State.ref_lt_fresh found
        exact Nat.lt_irrefl _ (linked_away closed bound List.not_mem_nil old).1
      · exact linking ⟨site, x, _, same⟩
      · exact Nat.lt_irrefl _ bound

theorem cycle_of_closes (closed : Secluded [] s) {op : Op}
    (allowed : (Region.outside [] s.fresh closed.room closed.made).discipline.allowedOp op)
    (closes : Closes op s) : ∃ answer t, step op s = some (answer, t) ∧ ¬ Acyclic (Link t) := by
  obtain ⟨site, a, b, rfl, _, back⟩ := closes
  have bound : a < s.fresh := (allowed.1 a rfl).1
  have held : s.cells[a]? = some s.cells[a] := List.getElem?_eq_getElem bound
  refine ⟨(), s.put a { s.cells[a] with w1 := .ofPtr (.ref b) }, ?_, ?_⟩
  · simp only [step, State.modify, held]
    rfl
  · refine cycle_of_edge (fun x y other link => ?_) ⟨_, State.cell_put_same bound _, ?_⟩ back
    · obtain ⟨c, found, mem⟩ := link
      refine ⟨c, ?_, mem⟩
      rw [State.cell_put_other fun same => other (Ptr.ref.inj same)]
      exact found
    · simp [linked, Cell.cdr]

end Links

section Builders

variable {W : World} {s t : State} {α β : Type}

/-- The list that ends in `last` is seen by nobody, and the pointers held beside
it lead elsewhere. -/
def Begun (last : Ptr) (held : List Ptr) (s : State) : Prop :=
  ∃ used, (last = .null ∨ ∃ a ∈ used, last = .ref a) ∧ Secluded used s ∧
    ∀ p ∈ held, Away used s p

/-- A list is linked at its end only while nobody sees it. -/
def building : Conduct bearLang State where
  op op s := ∀ a b, op = .setCdr .build (.ref a) (.ref b) → ¬ Leads s b a
  call
    | .evalConsLoop ctx i _ last, s => last ≠ .null → Begun last [ctx, i] s
    | .mapLoop func i last _, s => last ≠ .null → Begun last [func, i] s
    | .mapBody func i j last _, s => last ≠ .null → Begun last [func, i, j] s
    | .readListLoop _ L, s => Begun L [] s
    | _, _ => True
  always s := Secluded [] s

abbrev Builds (W : World) (program : Prog α) (s : State) : Prop :=
  program.Follows (runtime W) building s

/-- Code that links nothing and starts no loop in the middle of a list. -/
def plain : Discipline where
  good _ := True
  own _ := False
  links := False
  null := trivial
  wild := trivial
  static := fun _ _ => trivial
  own_good := fun _ _ => trivial

/-- Plain code keeps to the conduct. -/
theorem plain_builds {program : Prog α} {post : α → Prop} (safe : Safe plain program post)
    (s : State) : Builds W program s := by
  refine follows_of_meets (K := plain.contract) ?_ ?_ ?_ ?_ safe s
  · rintro op allowed s a b rfl
    exact (allowed.2.2.1 rfl).elim
  · intro op s answer t stepped
    cases op with
    | load p => exact ⟨holds_of_pointers fun _ _ => trivial, fun _ => trivial⟩
    | alloc c => exact ⟨trivial, fun links => links.elim⟩
    | _ => trivial
  · intro c allowed s
    cases c with
    | evalConsLoop ctx i start last =>
        intro filled
        exact (allowed.2.2.2.elim filled id).elim
    | mapLoop func i last retval =>
        intro filled
        exact (allowed.2.2.1.elim filled id).elim
    | mapBody func i j last retval =>
        intro filled
        exact (allowed.2.2.2.1.elim filled id).elim
    | readListLoop sc L => exact allowed.elim
    | _ => trivial
  · intro c answer
    cases c with
    | extensionLoop number vars buf => exact fun _ _ => trivial
    | _ => trivial

theorem builds_plain {program : Prog α} {post : Discipline → α → Prop}
    (safe : ∀ D : Discipline, (∀ p, D.good p) → Safe D program (post D)) (s : State) :
    Builds W program s :=
  plain_builds (safe plain fun _ => trivial) s

theorem builds_any {program : Prog α}
    (safe : ∀ D : Discipline, (∀ p, D.good p) → Safe D program fun _ => True) (s : State) :
    Builds W program s :=
  builds_plain safe s

theorem builds_load {p : Ptr} {f : Cell → Prog α}
    (rest : ∀ c, s.cell p = some c → Builds W (f c) s) : Builds W (load p >>= f) s := by
  refine ⟨(fun _ _ same => nomatch same), fun c u stepped _ => ?_⟩
  obtain ⟨c', found, rfl, rfl⟩ := mapped_spec stepped
  exact rest _ found

theorem builds_type_of {p : Ptr} {f : ValType → Prog α} (rest : ∀ kind, Builds W (f kind) s) :
    Builds W (typeOf p >>= f) s :=
  builds_load fun c _ => rest c.type

theorem builds_member {value : Option α} {f : α → Prog β}
    (rest : ∀ v, value = some v → Builds W (f v) s) : Builds W (member value >>= f) s := by
  cases value with
  | none => exact ⟨(fun _ _ same => nomatch same), fun answer => nomatch answer⟩
  | some v => exact rest v rfl

theorem builds_call {c : Call} (allowed : building.call c s) : Builds W (call c) s :=
  ⟨allowed, fun _ _ _ _ => trivial⟩

variable {used : List Nat}

/-- Code that was given no pointer to the list runs beside it. -/
theorem builds_beside (disciplined : ∀ D, W.Disciplined D) (secluded : Secluded used s)
    (closed : Secluded [] s) (out : α → Ptr) {g : Prog α} {f : α → Prog β}
    (own : Builds W g s) (safe : ∀ D : Discipline, (∀ p, Away used s p → D.good p) →
      Safe D g fun v => D.good (out v))
    (rest : ∀ v t, Secluded used t → Secluded [] t → s.fresh ≤ t.fresh → Away used t (out v) →
      Builds W (f v) t) : Builds W (g >>= f) s := by
  refine follows_bind own closed fun v t run always => ?_
  obtain ⟨secluded', away, _⟩ := runs_secluded_out out disciplined secluded safe run
  exact rest v t secluded' always (fresh_le_of_grows (runs_grows run)) away

theorem builds_alloc {val : Ptr} {f : Ptr → Prog α} (secluded : Secluded used s)
    (rest : Secluded (used ++ [s.fresh]) (s.allocated (.mkCons val .null)) →
      Secluded [] (s.allocated (.mkCons val .null)) →
      Builds W (f (.ref s.fresh)) (s.allocated (.mkCons val .null))) :
    Builds W (alloc (.mkCons val .null) >>= f) s := by
  refine ⟨(fun _ _ same => nomatch same), fun p t stepped always => ?_⟩
  cases stepped
  exact rest (secluded_new secluded _) always

theorem builds_link {a b : Nat} {f : Unit → Prog α} (listed : a ∈ used) (secluded : Secluded used s)
    (apart : ¬ Leads s b a)
    (rest : ∀ t, Secluded used t → Secluded [] t → t.fresh = s.fresh → Builds W (f ()) t) :
    Builds W (setCdr .build (.ref a) (.ref b) >>= f) s := by
  refine ⟨fun x y same => ?_, fun u t stepped always => ?_⟩
  · cases same
    exact apart
  · have modified : s.modify (.ref a) (fun c => some { c with w1 := .ofPtr (.ref b) }) =
        some (u, t) := stepped
    obtain ⟨c, old, new, same, found, made, rfl⟩ := modify_spec modified
    cases same
    exact rest _ (secluded_put secluded listed new) always (State.fresh_put s a new)

theorem away_more {p : Ptr} {n : Nat} (away : Away used s p) (old : s.fresh ≤ n) (le : n < t.fresh) :
    Away (used ++ [n]) t p := by
  intro a same
  obtain ⟨bound, unlisted⟩ := away a same
  refine ⟨by omega, fun mem => ?_⟩
  rcases List.mem_append.1 mem with inside | new
  · exact unlisted inside
  · have := List.mem_singleton.1 new
    omega

theorem away_fields {p : Ptr} {c : Cell} (secluded : Secluded used s) (away : Away used s p)
    (found : s.cell p = some c) :
    (Region.outside used s.fresh secluded.room secluded.made).discipline.Holds c := by
  obtain ⟨a, rfl⟩ := State.ref_of_cell found
  exact secluded.confined.cells a c (away a rfl) found

end Builders

section Loops

variable {W : World} {s : State}

theorem eval_cons_loop_builds (disciplined : ∀ D, W.Disciplined D) (closed : Secluded [] s)
    {ctx i start last : Ptr} (begun : Begun last [ctx, i] s) :
    Builds W (evalConsLoop ctx i start last) s := by
  obtain ⟨used, isLast, secluded, away⟩ := begun
  obtain ⟨awayCtx, away⟩ := List.forall_mem_cons.1 away
  have awayI := List.forall_mem_singleton.1 away
  unfold evalConsLoop
  split
  · trivial
  · refine builds_load fun c found => ?_
    have holds := away_fields secluded awayI found
    refine builds_beside disciplined secluded closed id
      (builds_plain (fun D good => safe_eval (good _) (good _)) s)
      (fun D good => safe_eval (good _ awayCtx) (good _ holds.car))
      fun retval t secluded' closed' le awayRet => ?_
    refine builds_type_of fun kind => ?_
    split
    · trivial
    · refine builds_alloc secluded' fun listed _ => ?_
      have later : t.fresh < (t.allocated (.mkCons retval .null)).fresh := by simp
      have new : t.fresh ∈ used ++ [t.fresh] := List.mem_append_right _ List.mem_cons_self
      have awayCtx' := away_more (away_later le awayCtx) (Nat.le_refl _) later
      have awayI' := away_more (away_later le awayI) (Nat.le_refl _) later
      split
      · refine builds_load fun c found => builds_call fun _ => ?_
        have rest := (away_fields listed awayI' found).cdr
        exact ⟨_, .inr ⟨_, new, rfl⟩, listed,
          List.forall_mem_cons.2 ⟨awayCtx', List.forall_mem_singleton.2 rest⟩⟩
      · rename_i filled
        obtain ⟨a, mem, rfl⟩ := isLast.resolve_left filled
        refine builds_link (List.mem_append_left _ mem) listed
          (new_cell_apart secluded' awayRet mem) fun u listed' _ same => ?_
        refine builds_load fun c found => builds_call fun _ => ?_
        have rest := (away_fields listed' (away_later same.ge awayI') found).cdr
        exact ⟨_, .inr ⟨_, new, rfl⟩, listed',
          List.forall_mem_cons.2 ⟨away_later same.ge awayCtx', List.forall_mem_singleton.2 rest⟩⟩

theorem map_loop_builds (disciplined : ∀ D, W.Disciplined D) (closed : Secluded [] s)
    {func i last retval : Ptr} (begun : Begun last [func, i] s) :
    Builds W (mapLoop func i last retval) s := by
  obtain ⟨used, isLast, secluded, away⟩ := begun
  obtain ⟨awayFunc, away⟩ := List.forall_mem_cons.1 away
  have awayI := List.forall_mem_singleton.1 away
  unfold mapLoop
  split
  · trivial
  · refine builds_load fun c found => ?_
    have holds := away_fields secluded awayI found
    refine builds_load fun f foundFunc => ?_
    have holdsFunc := away_fields secluded awayFunc foundFunc
    refine builds_member fun inner closure => ?_
    have awayInner : Away used s inner := (closure_of_holds holdsFunc).2.1 inner closure
    refine builds_load fun names foundNames => ?_
    have holdsNames := away_fields secluded holdsFunc.cdr foundNames
    refine builds_beside disciplined secluded closed (fun _ => .null)
      (builds_plain (fun D good => safe_enter_func (good _)) s)
      (fun D good => safe_weaken (safe_enter_func (good _ awayFunc)) fun _ _ => D.null)
      fun _ t secluded' closed' le _ => ?_
    refine builds_beside disciplined secluded' closed' id
      (builds_plain (fun D good => ctx_set_safe (good _) (good _) (good _)) t)
      (fun D good => ctx_set_safe (good _ (away_later le awayInner))
        (good _ (away_later le holdsNames.car)) (good _ (away_later le holds.car)))
      fun _ u secluded₂ closed₂ le₂ _ => ?_
    refine builds_beside disciplined secluded₂ closed₂ (fun _ => .null)
      (builds_plain (fun D good => safe_start_body (good _)) u)
      (fun D good => safe_weaken (safe_start_body (good _ (away_later le₂
        (away_later le awayFunc)))) fun _ _ => D.null)
      fun _ v secluded₃ _ le₃ _ => ?_
    refine builds_call fun _ => ?_
    have through : s.fresh ≤ v.fresh := Nat.le_trans le (Nat.le_trans le₂ le₃)
    exact ⟨used, isLast, secluded₃, List.forall_mem_cons.2 ⟨away_later through awayFunc,
      List.forall_mem_cons.2 ⟨away_later through awayI,
        List.forall_mem_singleton.2 (away_later through holdsFunc.car)⟩⟩⟩

theorem map_body_builds (disciplined : ∀ D, W.Disciplined D) (closed : Secluded [] s)
    {func i j last retval : Ptr} (begun : Begun last [func, i, j] s) :
    Builds W (mapBody func i j last retval) s := by
  obtain ⟨used, isLast, secluded, away⟩ := begun
  obtain ⟨awayFunc, away⟩ := List.forall_mem_cons.1 away
  obtain ⟨awayI, away⟩ := List.forall_mem_cons.1 away
  have awayJ := List.forall_mem_singleton.1 away
  unfold mapBody
  split
  · refine builds_beside disciplined secluded closed (fun _ => .null)
      (builds_plain (fun D _ => safe_leave) s)
      (fun D _ => safe_weaken safe_leave fun _ _ => D.null) fun _ t secluded' _ le _ => ?_
    refine builds_load fun c found => builds_call fun _ => ?_
    have rest := (away_fields secluded' (away_later le awayI) found).cdr
    exact ⟨used, isLast, secluded',
      List.forall_mem_cons.2 ⟨away_later le awayFunc, List.forall_mem_singleton.2 rest⟩⟩
  · refine builds_load fun f foundFunc => ?_
    have holdsFunc := away_fields secluded awayFunc foundFunc
    refine builds_member fun inner closure => ?_
    have awayInner : Away used s inner := (closure_of_holds holdsFunc).2.1 inner closure
    refine builds_load fun c found => ?_
    have holds := away_fields secluded awayJ found
    refine builds_beside disciplined secluded closed id
      (builds_plain (fun D good => safe_eval (good _) (good _)) s)
      (fun D good => safe_eval (good _ awayInner) (good _ holds.car))
      fun val t secluded' closed' le awayVal => ?_
    refine builds_type_of fun kind => ?_
    split
    · exact builds_plain (fun D good => safe_seq safe_leave fun _ _ => safe_pure (good val)) t
    · refine builds_alloc secluded' fun listed _ => ?_
      have later : t.fresh < (t.allocated (.mkCons val .null)).fresh := by simp
      have new : t.fresh ∈ used ++ [t.fresh] := List.mem_append_right _ List.mem_cons_self
      have awayFunc' := away_more (away_later le awayFunc) (Nat.le_refl _) later
      have awayI' := away_more (away_later le awayI) (Nat.le_refl _) later
      have awayJ' := away_more (away_later le awayJ) (Nat.le_refl _) later
      split
      · refine builds_load fun c found => builds_call fun _ => ?_
        have rest := (away_fields listed awayJ' found).cdr
        exact ⟨_, .inr ⟨_, new, rfl⟩, listed, List.forall_mem_cons.2 ⟨awayFunc',
          List.forall_mem_cons.2 ⟨awayI', List.forall_mem_singleton.2 rest⟩⟩⟩
      · rename_i filled
        obtain ⟨a, mem, rfl⟩ := isLast.resolve_left filled
        refine builds_link (List.mem_append_left _ mem) listed
          (new_cell_apart secluded' awayVal mem) fun u listed' _ same => ?_
        refine builds_load fun c found => builds_call fun _ => ?_
        have rest := (away_fields listed' (away_later same.ge awayJ') found).cdr
        exact ⟨_, .inr ⟨_, new, rfl⟩, listed',
          List.forall_mem_cons.2 ⟨away_later same.ge awayFunc',
            List.forall_mem_cons.2 ⟨away_later same.ge awayI', List.forall_mem_singleton.2 rest⟩⟩⟩

theorem read_form_safe (D : Discipline) (sc : Scanner) :
    Safe D (call (.readForm sc)) fun answer => D.good answer.1 :=
  safe_call (c := .readForm sc) trivial

theorem read_list_loop_builds (disciplined : ∀ D, W.Disciplined D) (closed : Secluded [] s)
    (sc : Scanner) {L : Ptr} (begun : Begun L [] s) : Builds W (readListLoop sc L) s := by
  obtain ⟨used, isLast, secluded, _⟩ := begun
  refine builds_beside disciplined secluded closed (fun answer => answer.1)
    (builds_plain (fun D _ => read_form_safe D sc) s) (fun D _ => read_form_safe D sc)
    fun answer t secluded' _ le away => ?_
  obtain ⟨e, sc⟩ := answer
  dsimp only
  split
  · trivial
  · refine builds_type_of fun kind => ?_
    split
    · trivial
    · refine builds_alloc secluded' fun listed _ => ?_
      have new : t.fresh ∈ used ++ [t.fresh] := List.mem_append_right _ List.mem_cons_self
      rcases isLast with rfl | ⟨a, mem, rfl⟩
      · exact ⟨(fun _ _ same => nomatch same), fun _ _ stepped => nomatch stepped⟩
      · refine builds_link (List.mem_append_left _ mem) listed
          (new_cell_apart secluded' away mem) fun u listed' _ same => ?_
        exact builds_call (c := .readListLoop sc (.ref t.fresh))
          ⟨_, .inr ⟨_, new, rfl⟩, listed', fun _ none_ => nomatch none_⟩

theorem read_list_builds (disciplined : ∀ D, W.Disciplined D) (closed : Secluded [] s)
    (sc : Scanner) : Builds W (readList sc) s := by
  have empty : ∀ (sc : Scanner) (t : State),
      Builds W (alloc (.mkCons .null .null) >>= fun p => pure (p, sc)) t := fun sc t =>
    builds_any (fun D _ => safe_seq (safe_alloc_good (holds_cons D.null D.null))
      fun _ _ => safe_pure trivial) t
  refine builds_beside disciplined closed closed (fun answer => answer.1)
    (builds_plain (fun D _ => read_form_safe D sc) s) (fun D _ => read_form_safe D sc)
    fun answer t secluded' _ le away => ?_
  obtain ⟨car, sc⟩ := answer
  dsimp only
  split
  · exact empty sc t
  · refine builds_type_of fun kind => ?_
    split
    · exact empty sc t
    · refine builds_alloc secluded' fun listed _ => ⟨?_, fun _ _ _ _ => trivial⟩
      exact ⟨_, .inr ⟨_, List.mem_append_right _ List.mem_cons_self, rfl⟩, listed,
        fun _ none_ => nomatch none_⟩

theorem read_form_body_builds (disciplined : ∀ D, W.Disciplined D) (closed : Secluded [] s)
    (slash : Bool) (sc : Scanner) : Builds W (readFormBody slash sc) s := by
  unfold readFormBody
  split
  · trivial
  · rename_i token sc _
    have made : ∀ (program : Prog Ptr) (sc : Scanner),
        (∀ D : Discipline, Safe D program D.good) →
        Builds W (program >>= fun retval => pure (retval, sc)) s := fun program sc safe =>
      builds_any (fun D _ => safe_seq (safe D) fun _ _ => safe_pure trivial) s
    have read : Builds W (readToken slash token sc) s := by
      cases token with
      | lparen => exact read_list_builds disciplined closed sc
      | string => exact made _ sc fun _ => safe_mk_str _
      | integer => exact made _ sc fun _ => safe_alloc_good (holds_number _)
      | symbol => exact made _ sc fun _ => safe_mk_symbol _
      | docstring => exact made _ sc fun _ => safe_alloc_good (holds_docstr _)
      | rparen => trivial
      | ifToken => trivial
      | doToken => trivial
      | whileToken => trivial
    refine follows_bind read closed fun answer t _ _ => ?_
    exact builds_any (fun D good => safe_seq (safe_set_line (good _) _)
      fun _ _ => safe_pure trivial) t

end Loops

section Modules

variable {W : World} {s : State} {α β : Type}

theorem builds_seq {g : Prog α} {f : α → Prog β} {post : Discipline → α → Prop}
    (closed : Secluded [] s) (safe : ∀ D : Discipline, (∀ p, D.good p) → Safe D g (post D))
    (rest : ∀ v t, Secluded [] t → Builds W (f v) t) : Builds W (g >>= f) s :=
  follows_bind (builds_plain safe s) closed fun v t _ closed' => rest v t closed'

theorem eval_file_builds (disciplined : ∀ D, W.Disciplined D) (closed : Secluded [] s) (ctx : Ptr)
    (contents : CStr) : Builds W (blEvalFile ctx contents) s := by
  have parse : Builds W (blParseFile contents) s :=
    follows_bind (read_list_builds disciplined closed _) closed fun _ _ _ _ => trivial
  refine follows_bind parse closed fun sexp t _ _ => ?_
  exact builds_plain (fun D good => safe_eval (good _) (good _)) t

theorem oper_include_builds (disciplined : ∀ D, W.Disciplined D) (closed : Secluded [] s)
    (ctx params : Ptr) : Builds W (blOperInclude W ctx params) s := by
  refine builds_seq closed (fun D good => eval_first_safe (good _) (good _)) fun filename t closed => ?_
  refine builds_seq closed (fun D good => str_of_safe (good _)) fun name t closed => ?_
  exact builds_seq closed (fun D _ => safe_member_any _) fun contents t closed =>
    eval_file_builds disciplined closed ctx contents

theorem import_found_builds (disciplined : ∀ D, W.Disciplined D) (closed : Secluded [] s)
    (ctx : Ptr) (name path : CStr) : Builds W (importFound W ctx name path) s := by
  have named : ∀ new t, Builds W
      (mkSymbol name >>= fun sym => blCtxSet ctx sym new >>= fun _ => pure new) t := fun new t =>
    builds_plain (fun D good => safe_seq (safe_mk_symbol _) fun sym _ =>
      safe_seq (ctx_set_safe (good _) (good _) (good _)) fun _ _ => safe_pure (good new)) t
  refine builds_seq closed (fun D _ => safe_member_any _) fun ext t closed => ?_
  split
  · split
    · exact builds_plain (fun D _ => safe_alloc_good (holds_err D.null D.null)) t
    · refine builds_seq closed (fun D good => safe_call (c := .modInit _ ctx) (good _))
        fun new t closed => ?_
      refine builds_seq closed (fun D _ => safe_mk_symbol _) fun filenameSym t closed => ?_
      refine builds_seq closed (fun D _ => safe_mk_str _) fun filename t closed => ?_
      exact builds_seq closed (fun D good => ctx_set_safe (good _) (good _) (good _))
        fun _ t _ => named new t
  · refine builds_seq closed (fun D _ => safe_member_any _) fun contents t closed => ?_
    refine builds_seq closed (fun D good => ctx_new_safe (good _)) fun new t closed => ?_
    refine builds_seq closed (fun D _ => safe_mk_symbol _) fun filenameSym t closed => ?_
    refine builds_seq closed (fun D _ => safe_mk_str _) fun filename t closed => ?_
    refine builds_seq closed (fun D good => ctx_set_safe (good _) (good _) (good _))
      fun _ t closed => ?_
    refine follows_bind (eval_file_builds disciplined closed new contents) closed
      fun result t _ closed => ?_
    refine builds_type_of fun kind => ?_
    split
    · trivial
    · exact named new t

theorem import_search_builds (disciplined : ∀ D, W.Disciplined D) (closed : Secluded [] s)
    (ctx moduleName : Ptr) : Builds W (importSearch W ctx moduleName) s := by
  have orElse : ∀ {p : Ptr} {more : CStr} {f : Ptr → Prog Ptr} {s : State}, Secluded [] s →
      (∀ q t, Secluded [] t → Builds W (f q) t) →
      Builds W (if p = .null then mkStr more >>= f else pure p >>= f) s := by
    intro p more f s closed rest
    split
    · exact builds_seq closed (fun D _ => safe_mk_str _) rest
    · exact rest p s closed
  refine builds_seq closed (fun D _ => safe_mk_symbol _) fun pathSym t closed => ?_
  refine builds_seq closed (fun D good => safe_ctx_get (good _) (good _)) fun curPath t closed => ?_
  refine builds_seq closed (fun D _ => safe_mk_symbol _) fun filenameSym t closed => ?_
  refine builds_seq closed (fun D good => safe_ctx_get (good _) (good _))
    fun modFilename t closed => ?_
  refine orElse closed fun curPath t closed => ?_
  refine orElse closed fun modFilename t closed => ?_
  refine builds_seq closed (fun D good => str_of_safe (good _)) fun filename t closed => ?_
  refine builds_seq closed (fun D good => safe_call (c := .pathLoop curPath _) (good _))
    fun dirs t closed => ?_
  refine builds_seq closed (fun D good => str_of_safe (good _)) fun name t closed => ?_
  split
  · exact builds_plain (fun D _ => err_modnotfound_safe _) t
  · exact import_found_builds disciplined closed ctx _ _

theorem oper_import_builds (disciplined : ∀ D, W.Disciplined D) (closed : Secluded [] s)
    (ctx params : Ptr) : Builds W (blOperImport W ctx params) s := by
  refine builds_seq closed (fun D good => list_first_safe (good _)) fun first t closed => ?_
  refine builds_seq closed (fun D good => str_of_safe (good _)) fun name t closed => ?_
  split
  · exact builds_plain (fun D good => import_nested_safe (good _) name) t
  · refine builds_load fun f _ => ?_
    split
    · refine builds_seq closed (fun D good => safe_ctx_get (good _) (good _))
        fun found t closed => ?_
      refine builds_type_of fun kind => ?_
      split
      · trivial
      · exact import_search_builds disciplined closed ctx _
    · exact import_search_builds disciplined closed ctx first

end Modules

section Runs

variable {W : World} {s t : State} {site : Site} {ctx expr : Ptr}

theorem body_builds (disciplined : ∀ D, W.Disciplined D) (closed : Secluded [] s) {c : Call}
    (allowed : (Region.outside [] s.fresh closed.room closed.made).discipline.allowedCall c)
    (called : building.call c s) : Builds W (body W c) s := by
  have outer : ∀ {p : Ptr},
      (Region.outside [] s.fresh closed.room closed.made).discipline.good p → Away [] s p := id
  by_cases builds : c.builds = true
  · cases c with
    | evalConsLoop ctx i start last =>
        refine eval_cons_loop_builds disciplined closed ?_
        by_cases filled : last = .null
        · exact ⟨[], .inl filled, closed, List.forall_mem_cons.2
            ⟨outer allowed.1, List.forall_mem_singleton.2 (outer allowed.2.1)⟩⟩
        · exact called filled
    | mapBody func i j last retval =>
        refine map_body_builds disciplined closed ?_
        by_cases filled : last = .null
        · exact ⟨[], .inl filled, closed, List.forall_mem_cons.2 ⟨outer allowed.1,
            List.forall_mem_cons.2 ⟨outer allowed.2.1,
              List.forall_mem_singleton.2 (outer allowed.2.2.1)⟩⟩⟩
        · exact called filled
    | readForm sc => exact read_form_body_builds disciplined closed W.slash sc
    | readListLoop sc L => exact read_list_loop_builds disciplined closed sc called
    | native op ctx params =>
        cases op with
        | extension number => cases builds
        | builtin op =>
            cases op <;> simp only [Call.builds, Builtin.reads, Bool.false_eq_true] at builds
            · exact oper_include_builds disciplined closed ctx params
            · exact oper_import_builds disciplined closed ctx params
    | _ => cases builds
  · have plainBody : c.builds = false := Bool.eq_false_iff.2 builds
    by_cases looping : ∃ func i last retval, c = .mapLoop func i last retval ∧ last ≠ .null
    · obtain ⟨func, i, last, retval, rfl, filled⟩ := looping
      exact map_loop_builds disciplined closed (called filled)
    · refine plain_builds (body_safe (disciplined plain) c ?_ (.inr plainBody)) s
      cases c with
      | mapLoop func i last retval =>
          have start : last = .null := by
            by_contra filled
            exact looping ⟨func, i, last, retval, rfl, filled⟩
          exact ⟨trivial, trivial, .inl start, trivial⟩
      | evalConsLoop ctx i start last => cases plainBody
      | mapBody func i j last retval => cases plainBody
      | readListLoop sc L => cases plainBody
      | readForm sc => trivial
      | splitLoop buf sep retval => trivial
      | _ => simp [Discipline.allowedCall, plain]

/-- Every link made at the end of a list under construction leads away from it. -/
theorem own_links_open (disciplined : ∀ D, W.Disciplined D) (closed : Secluded [] s)
    (awayCtx : Away [] s ctx) (awayExpr : Away [] s expr) {op : Op} {before : State}
    (performed : (runtime W).Performs (blEval site ctx expr) s op before) :
    building.op op before := by
  obtain ⟨next, reached⟩ := performed
  have at_ := fun {q : Prog Ptr} {t : State}
      (reached : (runtime W).Reaches (blEval site ctx expr) s q t) =>
    closed_reached (fun D => D.good) disciplined closed
      (fun D good => safe_eval (good _ awayCtx) (good _ awayExpr)) reached
  have follows := follows_reached (C := building) (fun c next t reached called => by
      obtain ⟨closed', safe⟩ := at_ reached
      exact body_builds disciplined closed' safe.1 called)
    (fun q t reached => (at_ reached).1) (.refl _ _) reached (builds_call trivial)
  exact follows.1

/-- An evaluation keeps the graph free of cycles, as long as no append and no call
without arguments closes one; and when one of them does, there is a cycle. -/
theorem graph_stays_acyclic_iff (disciplined : ∀ D, W.Disciplined D) (closed : Secluded [] s)
    (awayCtx : Away [] s ctx) (awayExpr : Away [] s expr) (acyclic : Acyclic (Link s)) :
    (∀ q t, (runtime W).Reaches (blEval site ctx expr) s q t → Acyclic (Link t)) ↔
      ∀ op before, (runtime W).Performs (blEval site ctx expr) s op before → ¬ Closes op before := by
  have at_ := fun {q : Prog Ptr} {t : State}
      (reached : (runtime W).Reaches (blEval site ctx expr) s q t) =>
    closed_reached (fun D => D.good) disciplined closed
      (fun D good => safe_eval (good _ awayCtx) (good _ awayExpr)) reached
  constructor
  · intro always op before performed closes
    obtain ⟨next, reached⟩ := performed
    obtain ⟨closed', safe⟩ := at_ reached
    obtain ⟨answer, t, stepped, cyclic⟩ := cycle_of_closes closed' safe.1 closes
    exact cyclic (always _ t (reaches_trans reached (.perform stepped (.refl _ _))))
  · intro open_ q t reached
    have keeps : ∀ op u answer after, Acyclic (Link u) →
        (∃ next, (runtime W).Reaches (blEval site ctx expr) s (.perform op next) u) →
        (runtime W).step op u = some (answer, after) → Acyclic (Link after) := by
      rintro op u answer after held ⟨next, there⟩ stepped
      obtain ⟨closed', safe⟩ := at_ there
      refine acyclic_step closed' safe.1 (fun place a b same leads => ?_) held stepped
      by_cases own : place = .build
      · subst own
        exact own_links_open disciplined closed awayCtx awayExpr ⟨next, there⟩ a b same leads
      · exact open_ op u ⟨next, there⟩ ⟨place, a, b, same, own, leads⟩
    exact guarded_invariant _ keeps reached (fun op before performed => performed) acyclic

end Runs

end BearLang.ListGraphs
