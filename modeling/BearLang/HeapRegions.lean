import BearLang.RuntimeDiscipline
import BearLang.StateInvariants

/-!
# Regions of the heap

A region is a set of addresses in which the static values lie. When the cells of
a region point into the region only, a run that starts with pointers into it
stays in it: it gives back such a pointer, and the cells outside are as before.
-/

namespace BearLang

open CallPrograms

set_option autoImplicit false

structure Region where
  mem : Nat → Prop
  static : ∀ a, a < staticCells.length → mem a

namespace Region

variable (R : Region)

/-- Code that holds pointers into the region, and no others. -/
def discipline : Discipline where
  good p := ∀ a, p = .ref a → R.mem a
  own p := ∀ a, p = .ref a → R.mem a
  null := fun _ same => nomatch same
  wild := fun _ same => nomatch same
  static := fun a bound b same => by
    cases same
    exact R.static a bound
  own_good := fun _ own => own

/-- The cells of the region, and the symbol table, point into the region. -/
structure Confines (s : State) : Prop where
  cells : ∀ a c, R.mem a → s.cell (.ref a) = some c → R.discipline.Holds c
  symbols : ∀ entry ∈ s.symbolTable, R.mem entry.sym

/-- A cell the operation makes lies in the region. -/
def Receives (op : Op) (s : State) : Prop :=
  ∀ answer t, step op s = some (answer, t) → s.fresh < t.fresh → R.mem s.fresh

variable {R} {s t : State}

theorem confines_allocated (confined : R.Confines s) {c : Cell} (holds : R.discipline.Holds c) :
    R.Confines (s.allocated c) := by
  refine ⟨fun a old mem found => ?_, confined.symbols⟩
  by_cases new : a = s.fresh
  · subst new
    rw [State.cell_allocated_new] at found
    cases found
    exact holds
  · refine confined.cells a old mem ?_
    simp only [State.cell, State.allocated, State.fresh] at found new ⊢
    rw [List.getElem?_append] at found
    split at found
    · exact found
    · rw [List.getElem?_singleton] at found
      split at found
      · omega
      · cases found

theorem confines_put (confined : R.Confines s) {a : Nat} {new : Cell}
    (holds : R.discipline.Holds new) : R.Confines (s.put a new) := by
  refine ⟨fun b old mem found => ?_, confined.symbols⟩
  by_cases same : b = a
  · subst same
    have bound : b < s.fresh := by
      have inside := State.ref_lt_fresh found
      rwa [State.fresh_put] at inside
    rw [State.cell_put_same bound] at found
    cases found
    exact holds
  · rw [State.cell_put_other fun h => same (Ptr.ref.inj h)] at found
    exact confined.cells b old mem found

theorem confines_modify (confined : R.Confines s) {p : Ptr} {f : Cell → Option Cell} {u : Unit}
    (good : R.discipline.good p)
    (keeps : ∀ c new, R.discipline.Holds c → f c = some new → R.discipline.Holds new)
    (modified : s.modify p f = some (u, t)) :
    R.Confines t ∧ ∀ a, ¬ R.mem a → t.cell (.ref a) = s.cell (.ref a) := by
  obtain ⟨a, c, new, rfl, known, made, rfl⟩ := modify_spec modified
  have mem : R.mem a := good a rfl
  refine ⟨confines_put confined (keeps c new (confined.cells a c mem known) made), ?_⟩
  intro b outside
  refine State.cell_put_other (fun same => outside ?_) new
  rwa [Ptr.ref.inj same]

section Slots

variable {D : Discipline}

theorem copy_slots_good {old slots : List Ptr} (n : Nat) (good : ∀ p ∈ old, D.good p)
    (goodSlots : ∀ p ∈ slots, D.good p) : ∀ p ∈ copySlots n old slots, D.good p := by
  induction n with
  | zero => exact goodSlots
  | succ n ih =>
      intro p mem
      rcases List.mem_or_eq_of_mem_set mem with before | rfl
      · exact ih p before
      · rw [List.getD_eq_getElem?_getD]
        cases found : old[n]? with
        | none => exact D.null
        | some q => exact good q (List.mem_of_getElem? found)

theorem grow_slots {c : Ctx} (slots : D.Slots c) (count : Nat) : D.Slots (c.grow count) := by
  have empty : ∀ p ∈ List.replicate count Ptr.null, D.good p := by
    intro p mem
    rw [(List.mem_replicate.1 mem).2]
    exact D.null
  exact ⟨copy_slots_good _ slots.keys empty, copy_slots_good _ slots.vals empty, slots.parent⟩

theorem store_slots {c new : Ctx} {id : Nat} {key val : Ptr} (slots : D.Slots c)
    (goodKey : D.good key) (goodVal : D.good val) (stored : c.store id key val = some new) :
    D.Slots new := by
  have grown : D.Slots (if id < c.valsCount then c else c.grow (id + 8)) := by
    split
    · exact slots
    · exact grow_slots slots _
  simp only [Ctx.store] at stored
  generalize (if id < c.valsCount then c else c.grow (id + 8)) = base at grown stored
  split at stored
  · cases stored
    refine ⟨fun p mem => ?_, fun p mem => ?_, grown.parent⟩
    · rcases List.mem_or_eq_of_mem_set mem with old | rfl
      · exact grown.keys p old
      · exact goodKey
    · rcases List.mem_or_eq_of_mem_set mem with old | rfl
      · exact grown.vals p old
      · exact goodVal
  · cases stored

theorem set_ctx_holds {c new : Cell} {f : Ctx → Option Ctx} (holds : D.Holds c)
    (keeps : ∀ old made, D.Slots old → f old = some made → D.Slots made)
    (set : c.setCtx f = some new) : D.Holds new := by
  have tail := holds.tail
  unfold Cell.setCtx at set
  split at set
  · rename_i old same
    obtain ⟨made, stored, rfl⟩ := Option.map_eq_some_iff.1 set
    rw [same] at tail
    exact ⟨holds.car, holds.cdr, keeps old made tail stored, holds.docstr, holds.invokedSym⟩
  · cases set

theorem set_inner_holds {c new : Cell} {q : Ptr} (holds : D.Holds c) (good : D.good q)
    (set : c.setInner q = some new) : D.Holds new := by
  have tail := holds.tail
  unfold Cell.setInner at set
  split at set
  · rename_i same
    cases set
    rw [same] at tail
    exact ⟨holds.car, holds.cdr, ⟨tail.1, good, tail.2.2⟩, holds.docstr, holds.invokedSym⟩
  · cases set

theorem set_i_val_holds {c new : Cell} {i : Int} (holds : D.Holds c)
    (set : (if c.iValWritable then some { c with w1 := .mpz i } else none) = some new) :
    D.Holds new := by
  split at set <;> cases set
  exact ⟨holds.car, D.wild, holds.tail, holds.docstr, holds.invokedSym⟩

end Slots

theorem symbol_good (entry : SymHash) (mem : R.mem entry.sym) :
    R.discipline.good (.ref entry.sym) := by
  intro a same
  cases same
  exact mem

/-- Outside of the region nothing changes when a cell of it is made. -/
theorem allocated_outside (c : Cell) (mem : R.mem s.fresh) {a : Nat} (outside : ¬ R.mem a) :
    (s.allocated c).cell (.ref a) = s.cell (.ref a) := by
  have other : a ≠ s.fresh := fun same => outside (same ▸ mem)
  simp only [State.cell, State.allocated, State.fresh] at other ⊢
  rw [List.getElem?_append]
  split
  · rfl
  · rename_i past
    have le : s.cells.length ≤ a := Nat.not_lt.1 past
    have beyond : a - s.cells.length ≠ 0 := by omega
    rw [List.getElem?_singleton, if_neg beyond, List.getElem?_eq_none le]

theorem confines_mk_symbol (confined : R.Confines s) (name : CStr)
    (receives : R.Receives (.mkSymbol name) s) :
    R.discipline.good (blMkSymbol name s).1 ∧ R.Confines (blMkSymbol name s).2 ∧
      ∀ a, ¬ R.mem a → (blMkSymbol name s).2.cell (.ref a) = s.cell (.ref a) := by
  cases found : s.symbolTable.find? (·.key == name) with
  | some entry =>
      have mem := confined.symbols entry (List.mem_of_find?_eq_some found)
      rw [SymbolInterning.mk_symbol_found found]
      exact ⟨symbol_good entry mem, confined, fun _ _ => rfl⟩
  | none =>
      have stepped : step (.mkSymbol name) s = some (blMkSymbol name s) := rfl
      rw [SymbolInterning.mk_symbol_entered found] at stepped ⊢
      have mem : R.mem s.fresh := receives _ _ stepped (by
        simp [SymbolInterning.entered, State.fresh, State.allocated])
      have plain : R.discipline.Holds
          { type := .symbol, w0 := .str name, w1 := .ofNat s.lastSymId } :=
        holds_plain (by simp) (of_nat_no_addr _)
      have made := confines_allocated confined plain
      refine ⟨fun a same => ?_, ⟨made.cells, fun entry inside => ?_⟩, fun a outside => ?_⟩
      · cases same
        exact mem
      · rcases List.mem_cons.1 inside with rfl | old
        · exact mem
        · exact confined.symbols entry old
      · exact allocated_outside _ mem outside

theorem ctx_slots {p : Ptr} {ctx : Ctx} (confined : R.Confines s) (good : R.discipline.good p)
    (found : (s.cell p).bind Cell.asCtx = some ctx) : R.discipline.Slots ctx := by
  obtain ⟨c, known, member⟩ := Option.bind_eq_some_iff.1 found
  obtain ⟨a, rfl⟩ := State.ref_of_cell known
  exact slots_of_holds (confined.cells a c (good a rfl) known) member

theorem confines_step {op : Op} {answer : op.Answer} (confined : R.Confines s)
    (allowed : R.discipline.allowedOp op) (receives : R.Receives op s)
    (stepped : step op s = some (answer, t)) :
    R.discipline.opAnswer op answer ∧ R.Confines t ∧
      ∀ a, ¬ R.mem a → t.cell (.ref a) = s.cell (.ref a) := by
  cases op with
  | load p =>
      obtain ⟨c, known, rfl, rfl⟩ := mapped_spec stepped
      refine ⟨⟨?_, fun _ => trivial⟩, confined, fun _ _ => rfl⟩
      obtain ⟨a, rfl⟩ := State.ref_of_cell known
      exact confined.cells a _ (allowed a rfl) known
  | alloc c =>
      have mem : R.mem s.fresh := receives _ _ stepped (by
        cases stepped
        simp)
      cases stepped
      have inside : ∀ a, Ptr.ref s.fresh = .ref a → R.mem a := fun a same => by
        cases same
        exact mem
      exact ⟨⟨inside, fun _ => inside⟩, confines_allocated confined allowed, fun a outside =>
        allocated_outside c mem outside⟩
  | setCdr site p q =>
      refine ⟨trivial, confines_modify confined allowed.1 (fun c new holds set => ?_) stepped⟩
      cases set
      have cdr : R.discipline.good (Word.ofPtr q).ptr := by
        rw [word_ptr_of_ptr]
        exact allowed.2.1
      exact ⟨holds.car, cdr, holds.tail, holds.docstr, holds.invokedSym⟩
  | setIVal p i =>
      refine ⟨trivial, confines_modify confined allowed (fun c new holds set => ?_) stepped⟩
      exact set_i_val_holds holds set
  | setInvoked p sym customData =>
      refine ⟨trivial, confines_modify confined allowed.1 (fun c new holds set => ?_) stepped⟩
      cases set
      exact ⟨holds.car, holds.cdr, holds.tail, holds.docstr, allowed.2⟩
  | setInner p q =>
      refine ⟨trivial, confines_modify confined allowed.1 (fun c new holds set => ?_) stepped⟩
      exact set_inner_holds holds allowed.2 set
  | setWriteToParent p =>
      refine ⟨trivial, confines_modify confined allowed (fun c new holds set => ?_) stepped⟩
      refine set_ctx_holds holds (fun old made slots marked => ?_) set
      cases marked
      exact ⟨slots.keys, slots.vals, slots.parent⟩
  | setLine p line =>
      refine ⟨trivial, confines_modify confined allowed (fun c new holds set => ?_) stepped⟩
      cases set
      exact ⟨holds.car, holds.cdr, holds.tail, holds.docstr, holds.invokedSym⟩
  | ctxVal ctx id =>
      obtain ⟨v, known, rfl, rfl⟩ := mapped_spec stepped
      obtain ⟨c, found, slot⟩ := Option.bind_eq_some_iff.1 known
      have slots := ctx_slots confined allowed found
      exact ⟨slots.vals v (List.mem_of_getElem? slot), confined, fun _ _ => rfl⟩
  | ctxKey ctx id =>
      obtain ⟨k, known, rfl, rfl⟩ := mapped_spec stepped
      obtain ⟨c, found, slot⟩ := Option.bind_eq_some_iff.1 known
      have slots := ctx_slots confined allowed found
      exact ⟨slots.keys k (List.mem_of_getElem? slot), confined, fun _ _ => rfl⟩
  | ctxStore ctx id key val =>
      refine ⟨trivial, confines_modify confined allowed.1 (fun c new holds set => ?_) stepped⟩
      exact set_ctx_holds holds (fun old made slots stored =>
        store_slots slots allowed.2.1 allowed.2.2 stored) set
  | mkSymbol name =>
      have made := confines_mk_symbol confined name receives
      have same := Option.some.inj stepped
      rw [same] at made
      exact made
  | write out =>
      cases stepped
      exact ⟨trivial, ⟨confined.cells, confined.symbols⟩, fun _ _ => rfl⟩
  | enterFunc func =>
      cases stepped
      exact ⟨trivial, confined, fun _ _ => rfl⟩
  | enterOper oper =>
      cases stepped
      exact ⟨trivial, confined, fun _ _ => rfl⟩
  | startBody func =>
      cases stepped
      exact ⟨trivial, confined, fun _ _ => rfl⟩
  | leave =>
      cases stepped
      exact ⟨trivial, confined, fun _ _ => rfl⟩
  | trap => cases stepped

variable {W : World} {α : Type}

/-- A finished run that starts in a region, with room for its new cells, stays
in it. -/
theorem runs_confined (disciplined : W.Disciplined R.discipline) (confined : R.Confines s)
    {program : Prog α} {post : α → Prop} {v : α} (safe : Safe R.discipline program post)
    (room : ∀ a, s.fresh ≤ a → a < t.fresh → R.mem a)
    (run : (runtime W).Runs program s v t) :
    post v ∧ R.Confines t ∧ ∀ a, ¬ R.mem a → t.cell (.ref a) = s.cell (.ref a) := by
  have guarded : ∀ op before, (runtime W).Performs program s op before → R.Receives op before := by
    intro op before performed answer after stepped grew
    obtain ⟨next, reached⟩ := performed
    have later := (reaches_runs_iff reached).1 run
    obtain ⟨answer', after', stepped', rest⟩ := runs_perform.1 later
    have same : some (answer, after) = some (answer', after') := stepped.symm.trans stepped'
    cases same
    have lower := fresh_le_of_grows (reaches_grows reached)
    have upper := fresh_le_of_grows (runs_grows rest)
    exact room _ lower (by omega)
  have keeps : ∀ op u answer after,
      (R.Confines u ∧ ∀ a, ¬ R.mem a → u.cell (.ref a) = s.cell (.ref a)) →
      R.discipline.contract.op op → R.Receives op u →
      (runtime W).step op u = some (answer, after) →
      R.discipline.contract.opAnswer op answer ∧ R.Confines after ∧
        ∀ a, ¬ R.mem a → after.cell (.ref a) = s.cell (.ref a) := by
    intro op u answer after held allowed receives stepped
    have stayed := confines_step held.1 allowed receives stepped
    exact ⟨stayed.1, stayed.2.1, fun a outside => (stayed.2.2 a outside).trans (held.2 a outside)⟩
  have kept := contract_invariant (runtime_honours trivial disciplined) keeps (reaches_done_of_runs run)
    guarded ⟨confined, fun _ _ => rfl⟩ safe
  exact ⟨kept.2, kept.1⟩

end Region

section Apart

variable {used : List Nat} {s t : State}

/-- The cells below an address, but for those listed. -/
def Region.outside (used : List Nat) (n : Nat) (room : staticCells.length ≤ n)
    (made : ∀ a ∈ used, staticCells.length ≤ a) : Region where
  mem a := a < n ∧ a ∉ used
  static := fun a bound => ⟨by omega, fun listed => by
    have := made a listed
    omega⟩

/-- The listed cells are pointed to by listed cells only, and no pointer leads
out of the allocated ones. -/
structure Secluded (used : List Nat) (s : State) : Prop where
  room : staticCells.length ≤ s.fresh
  made : ∀ a ∈ used, staticCells.length ≤ a
  old : ∀ a ∈ used, a < s.fresh
  confined : (Region.outside used s.fresh room made).Confines s

/-- No pointer leads out of the allocated cells. -/
abbrev Closed (s : State) : Prop := Secluded [] s

/-- A pointer that leads to no listed cell, and not out of the allocated ones. -/
def Away (used : List Nat) (s : State) (p : Ptr) : Prop :=
  ∀ a, p = .ref a → a < s.fresh ∧ a ∉ used

theorem holds_mono {D E : Discipline} (weaker : ∀ p, D.good p → E.good p) {c : Cell}
    (holds : D.Holds c) : E.Holds c where
  car := weaker _ holds.car
  cdr := weaker _ holds.cdr
  tail := by
    have tail := holds.tail
    cases same : c.tail with
    | zeros => trivial
    | closure lexical inner sym =>
        rw [same] at tail
        exact ⟨weaker _ tail.1, weaker _ tail.2.1, weaker _ tail.2.2⟩
    | ctx ctx =>
        rw [same] at tail
        exact ⟨fun p mem => weaker p (tail.keys p mem), fun p mem => weaker p (tail.vals p mem),
          weaker _ tail.parent⟩
    | err e =>
        rw [same] at tail
        exact ⟨weaker _ tail.1, weaker _ tail.2⟩
  docstr := weaker _ holds.docstr
  invokedSym := weaker _ holds.invokedSym

theorem away_of_cell (secluded : Secluded used s) {a : Nat} {c : Cell}
    (known : s.cell (.ref a) = some c) (unlisted : a ∉ used) :
    Away used s c.car ∧ Away used s c.cdr := by
  have holds := secluded.confined.cells a c ⟨State.ref_lt_fresh known, unlisted⟩ known
  exact ⟨holds.car, holds.cdr⟩

theorem confines_more {n m : Nat} {room : staticCells.length ≤ n} {more : staticCells.length ≤ m}
    {made : ∀ a ∈ used, staticCells.length ≤ a} (le : n ≤ m) (full : s.fresh ≤ n)
    (confined : (Region.outside used n room made).Confines s) :
    (Region.outside used m more made).Confines s := by
  have weaker : ∀ p, (Region.outside used n room made).discipline.good p →
      (Region.outside used m more made).discipline.good p := by
    intro p good a same
    have mem := good a same
    exact ⟨Nat.lt_of_lt_of_le mem.1 le, mem.2⟩
  refine ⟨fun a c mem found => ?_, fun entry mem => ?_⟩
  · have bound := State.ref_lt_fresh found
    exact holds_mono weaker (confined.cells a c ⟨by omega, mem.2⟩ found)
  · have inside := confined.symbols entry mem
    exact ⟨Nat.lt_of_lt_of_le inside.1 le, inside.2⟩

theorem away_later (le : s.fresh ≤ t.fresh) {p : Ptr} (away : Away used s p) : Away used t p :=
  fun a same => ⟨Nat.lt_of_lt_of_le (away a same).1 le, (away a same).2⟩

theorem away_known {p : Ptr} {c : Cell} (known : s.cell p = some c) : Away [] s p := by
  rintro a rfl
  exact ⟨State.ref_lt_fresh known, List.not_mem_nil⟩

variable {W : World}

/-- A finished run of a program that was given no pointer to a listed cell;
`out` is the pointer in its answer. -/
theorem runs_secluded_out {α : Type} (out : α → Ptr) (disciplined : ∀ D, W.Disciplined D)
    (secluded : Secluded used s) {program : Prog α} {v : α}
    (safe : ∀ D : Discipline, (∀ p, Away used s p → D.good p) →
      Safe D program fun v => D.good (out v))
    (run : (runtime W).Runs program s v t) :
    Secluded used t ∧ Away used t (out v) ∧ ∀ a ∈ used, t.cell (.ref a) = s.cell (.ref a) := by
  have le := fresh_le_of_grows (runs_grows run)
  have room : staticCells.length ≤ t.fresh := Nat.le_trans secluded.room le
  let R := Region.outside used t.fresh room secluded.made
  have confined : R.Confines s := confines_more le (Nat.le_refl _) secluded.confined
  have good : ∀ p, Away used s p → R.discipline.good p := fun p away => away_later le away
  have roomy : ∀ a, s.fresh ≤ a → a < t.fresh → R.mem a := fun a lower upper =>
    ⟨upper, fun listed => Nat.not_lt.2 lower (secluded.old a listed)⟩
  obtain ⟨away, confined', same⟩ :=
    Region.runs_confined (disciplined R.discipline) confined (safe R.discipline good) roomy run
  refine ⟨⟨room, secluded.made, fun a listed => ?_, confined'⟩, away, fun a listed => ?_⟩
  · exact Nat.lt_of_lt_of_le (secluded.old a listed) le
  · exact same a fun mem => mem.2 listed

theorem runs_secluded (disciplined : ∀ D, W.Disciplined D) (secluded : Secluded used s)
    {program : Prog Ptr} {v : Ptr}
    (safe : ∀ D : Discipline, (∀ p, Away used s p → D.good p) → Safe D program D.good)
    (run : (runtime W).Runs program s v t) :
    Secluded used t ∧ Away used t v ∧ ∀ a ∈ used, t.cell (.ref a) = s.cell (.ref a) :=
  runs_secluded_out id disciplined secluded safe run

/-- At every point of a run no pointer leads out of the allocated cells, and the
rest of the program holds pointers to them only. -/
theorem closed_reached {α : Type} (post : Discipline → α → Prop)
    (disciplined : ∀ D, W.Disciplined D) (closed : Secluded [] s) {p q : Prog α}
    (safe : ∀ D : Discipline, (∀ p, Away [] s p → D.good p) → Safe D p (post D))
    (reached : (runtime W).Reaches p s q t) :
    ∃ closed' : Secluded [] t, Safe (Region.outside [] t.fresh closed'.room closed'.made).discipline q
      (post (Region.outside [] t.fresh closed'.room closed'.made).discipline) := by
  have le := fresh_le_of_grows (reaches_grows reached)
  have room : staticCells.length ≤ t.fresh := Nat.le_trans closed.room le
  let R := Region.outside [] t.fresh room closed.made
  have confined : R.Confines s := confines_more le (Nat.le_refl _) closed.confined
  have good : ∀ p, Away [] s p → R.discipline.good p := fun p away => away_later le away
  have guarded : ∀ op next before answer after, (runtime W).Reaches p s (.perform op next) before →
      (runtime W).step op before = some (answer, after) →
      (runtime W).Reaches (next answer) after q t → R.Receives op before := by
    intro op next before answer after _ stepped later answer' after' stepped' grew
    cases stepped.symm.trans stepped'
    have upper := fresh_le_of_grows (reaches_grows later)
    exact ⟨Nat.lt_of_lt_of_le grew upper, List.not_mem_nil⟩
  have keeps : ∀ op u answer after, R.Confines u → R.discipline.contract.op op → R.Receives op u →
      (runtime W).step op u = some (answer, after) →
      R.discipline.contract.opAnswer op answer ∧ R.Confines after := by
    intro op u answer after held allowed receives stepped
    have stayed := Region.confines_step held allowed receives stepped
    exact ⟨stayed.1, stayed.2.1⟩
  have kept := contract_invariant_along (runtime_honours trivial (disciplined R.discipline)) keeps
    reached guarded confined (safe R.discipline good)
  exact ⟨⟨room, closed.made, fun _ mem => absurd mem List.not_mem_nil, kept.1⟩, kept.2⟩

theorem eval_secluded (disciplined : ∀ D, W.Disciplined D) (secluded : Secluded used s) {site : Site}
    {ctx expr v : Ptr} (awayCtx : Away used s ctx) (awayExpr : Away used s expr)
    (run : (runtime W).Runs (blEval site ctx expr) s v t) :
    Secluded used t ∧ Away used t v ∧ ∀ a ∈ used, t.cell (.ref a) = s.cell (.ref a) :=
  runs_secluded disciplined secluded (fun _ good => safe_eval (good _ awayCtx) (good _ awayExpr)) run

/-- A new list cell is listed; only its own fields point into the rest. -/
theorem secluded_new (secluded : Secluded used s) (c : Cell) :
    Secluded (used ++ [s.fresh]) (s.allocated c) where
  room := by
    rw [State.fresh_allocated]
    exact Nat.le_succ_of_le secluded.room
  made := by
    intro a mem
    rcases List.mem_append.1 mem with old | new
    · exact secluded.made a old
    · rw [List.mem_singleton.1 new]
      exact secluded.room
  old := by
    intro a mem
    rw [State.fresh_allocated]
    rcases List.mem_append.1 mem with old | new
    · exact Nat.lt_succ_of_lt (secluded.old a old)
    · rw [List.mem_singleton.1 new]
      exact Nat.lt_succ_self _
  confined := by
    have fits : ∀ a, a < s.fresh ∧ a ∉ used →
        a < (s.allocated c).fresh ∧ a ∉ used ++ [s.fresh] := by
      rintro a ⟨bound, unlisted⟩
      rw [State.fresh_allocated]
      refine ⟨Nat.lt_succ_of_lt bound, fun mem => ?_⟩
      rcases List.mem_append.1 mem with old | new
      · exact unlisted old
      · exact Nat.ne_of_lt bound (List.mem_singleton.1 new)
    refine ⟨fun a old mem found => ?_, fun entry mem => fits _ (secluded.confined.symbols entry mem)⟩
    have unlisted : a ∉ used ∧ a ≠ s.fresh := by
      constructor
      · exact fun listed => mem.2 (List.mem_append_left _ listed)
      · rintro rfl
        exact mem.2 (List.mem_append_right _ (List.mem_singleton.2 rfl))
    have bound : a < s.fresh := by
      have inside := mem.1
      rw [State.fresh_allocated] at inside
      omega
    have known : s.cell (.ref a) = some old := by
      simp only [State.cell, State.allocated, State.fresh] at found bound ⊢
      rwa [List.getElem?_append_left bound] at found
    refine holds_mono ?_ (secluded.confined.cells a old ⟨bound, unlisted.1⟩ known)
    intro p good b same
    exact fits b (good b same)

theorem secluded_put (secluded : Secluded used s) {a : Nat} (listed : a ∈ used) (new : Cell) :
    Secluded used (s.put a new) where
  room := by
    rw [State.fresh_put]
    exact secluded.room
  made := secluded.made
  old := by
    rw [State.fresh_put]
    exact secluded.old
  confined := by
    have fits : ∀ b, b < s.fresh ∧ b ∉ used → b < (s.put a new).fresh ∧ b ∉ used := by
      intro b inside
      rwa [State.fresh_put]
    refine ⟨fun b old mem found => ?_, fun entry mem => fits _ (secluded.confined.symbols entry mem)⟩
    have inside := mem
    simp only [Region.outside, State.fresh_put] at inside
    have other : Ptr.ref b ≠ .ref a := by
      intro same
      cases same
      exact inside.2 listed
    rw [State.cell_put_other other] at found
    refine holds_mono ?_ (secluded.confined.cells b old inside found)
    intro p good b same
    exact fits b (good b same)

def Cell.pointers (c : Cell) : List Ptr :=
  [c.car, c.cdr, c.docstr, c.invokedSym] ++
    match c.tail with
    | .zeros => []
    | .closure lexical inner sym => [lexical, inner, sym]
    | .ctx ctx => ctx.parent :: (ctx.keys ++ ctx.vals)
    | .err e => [e.errSym, e.errVal]

theorem holds_of_pointers {D : Discipline} {c : Cell} (good : ∀ p ∈ c.pointers, D.good p) :
    D.Holds c := by
  have front : ∀ p ∈ [c.car, c.cdr, c.docstr, c.invokedSym], D.good p := fun p mem =>
    good p (List.mem_append_left _ mem)
  refine ⟨front _ (by simp), front _ (by simp), ?_, front _ (by simp), front _ (by simp)⟩
  cases same : c.tail with
  | zeros => trivial
  | closure lexical inner sym =>
      simp only [Cell.pointers, same] at good
      exact ⟨good _ (by simp), good _ (by simp), good _ (by simp)⟩
  | ctx ctx =>
      simp only [Cell.pointers, same] at good
      exact ⟨fun p mem => good p (by simp [mem]), fun p mem => good p (by simp [mem]),
        good _ (by simp)⟩
  | err e =>
      simp only [Cell.pointers, same] at good
      exact ⟨good _ (by simp), good _ (by simp)⟩

def Ptr.below (n : Nat) : Ptr → Bool
  | .ref a => decide (a < n)
  | _ => true

theorem closed_of_check (room : staticCells.length ≤ s.fresh)
    (cells : ∀ c ∈ s.cells, ∀ p ∈ c.pointers, p.below s.fresh)
    (symbols : ∀ entry ∈ s.symbolTable, entry.sym < s.fresh) : Closed s where
  room := room
  made := fun _ mem => absurd mem List.not_mem_nil
  old := fun _ mem => absurd mem List.not_mem_nil
  confined := by
    refine ⟨fun a c _ found => ?_, fun entry mem => ⟨symbols entry mem, List.not_mem_nil⟩⟩
    have mem : c ∈ s.cells := List.mem_of_getElem? found
    refine holds_of_pointers fun p inside b same => ?_
    subst same
    exact ⟨of_decide_eq_true (cells c mem _ inside), List.not_mem_nil⟩

/-- At the start there is nothing but the static values. -/
theorem closed_initial : Closed State.initial :=
  closed_of_check (by decide) (by decide) (by decide)

end Apart

end BearLang
