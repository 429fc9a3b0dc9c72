import BearLang.HeapRegions

/-!
# None, True and False

The values with a static address are shared by all code. A store can hit None in
two statements only: `bl_list_append`, when None is the last cell of the list,
and the step of `inc` and `dec`. The first word of a cell is never stored into,
so the truth values stay what they are.
-/

namespace BearLang.SharedConstants

open CallPrograms

set_option autoImplicit false

/-- None has neither `car` nor `cdr`, and the truth values are what they say. -/
structure Intact (s : State) : Prop where
  none : ∃ c, s.cell nullVal = some c ∧ c.car = .null ∧ c.cdr = .null
  yes : (s.cell trueVal).bind Cell.bVal = some true
  no : (s.cell falseVal).bind Cell.bVal = some false

/-- An append behind None, and a step of None. -/
inductive WritesNone : Op → Prop
  | append (new : Ptr) (some_ : new ≠ .null) : WritesNone (.setCdr .append nullVal new)
  | step (i : Int) : WritesNone (.setIVal nullVal i)

section Invariant

variable {W : World} {s t : State}

/-- The truth values need no care. -/
theorem truth_of_statics (statics : Grows State.initial s) :
    (s.cell trueVal).bind Cell.bVal = some true ∧
      (s.cell falseVal).bind Cell.bVal = some false := by
  obtain ⟨yes, foundYes, _, wordYes⟩ := statics trueVal { type := .bool, w0 := .int 1 } rfl
  obtain ⟨no, foundNo, _, wordNo⟩ := statics falseVal { type := .bool } rfl
  rw [foundYes, foundNo]
  simp [Cell.bVal, wordYes, wordNo]

/-- Nothing links None, and None is not taken for a list. -/
def sparesNone : Discipline where
  good _ := True
  own p := p ≠ nullVal
  callable p := p ≠ nullVal
  null := trivial
  wild := trivial
  static := fun _ _ => trivial
  own_good := fun _ _ => trivial

theorem none_of_statics (statics : Grows State.initial s) :
    ∃ c, s.cell nullVal = some c ∧ c.type = .null ∧ c.w0 = .zero := by
  obtain ⟨c, found, type, word⟩ := statics nullVal { type := .null } rfl
  exact ⟨c, found, type, word⟩

theorem none_step {op : Op} {c d : Cell} (allowed : sparesNone.allowedOp op)
    (spared : ¬ WritesNone op) (cell : CellStep nullVal op c d) (empty : c.cdr = .null) :
    d.cdr = .null := by
  cases cell with
  | cdr site q =>
      cases site with
      | build => exact absurd rfl (allowed.2.2.1 rfl)
      | noArguments => exact absurd rfl (allowed.2.2.2 rfl)
      | append =>
          by_contra some_
          apply spared
          apply WritesNone.append
          intro same
          exact some_ (by rw [same]; rfl)
  | number i => exact absurd (.step i) spared
  | same => exact empty
  | invoked => exact empty
  | inner => exact empty
  | mark => exact empty
  | line => exact empty
  | store => exact empty

theorem intact_step {op : Op} {answer : op.Answer} (statics : Grows State.initial s)
    (intact : Intact s) (allowed : sparesNone.allowedOp op) (spared : ¬ WritesNone op)
    (stepped : step op s = some (answer, t)) : sparesNone.opAnswer op answer ∧ Intact t := by
  obtain ⟨c, found, car, cdr⟩ := intact.none
  obtain ⟨d, found', cell⟩ := step_cell stepped found
  have grown := grows_trans statics (step_grows stepped)
  have truth := truth_of_statics grown
  obtain ⟨d', found'', _, word⟩ := none_of_statics grown
  cases found'.symm.trans found''
  have carLater : d.car = .null := by
    rw [Cell.car, word]
    rfl
  refine ⟨?_, ⟨⟨d, found', carLater, none_step allowed spared cell cdr⟩, truth.1, truth.2⟩⟩
  cases op with
  | load p =>
      obtain ⟨e, known, rfl, rfl⟩ := mapped_spec stepped
      refine ⟨holds_of_pointers fun _ _ => trivial, fun list => ?_⟩
      rintro rfl
      obtain ⟨null, same, type, _⟩ := none_of_statics statics
      cases known.symm.trans same
      rw [type] at list
      cases list
  | alloc new =>
      cases stepped
      refine ⟨trivial, fun _ same => ?_⟩
      have zero : s.fresh = 0 := Ptr.ref.inj same
      have bound := State.ref_lt_fresh found
      omega
  | _ => trivial

theorem not_intact_of_writes {op : Op} (writes : WritesNone op) (intact : Intact s) :
    ∃ answer t, step op s = some (answer, t) ∧ ¬ Intact t := by
  obtain ⟨c, found, car, cdr⟩ := intact.none
  have held : s.cells[0]? = some c := found
  have changed : ∀ d : Cell, d.cdr ≠ .null → ¬ Intact (s.put 0 d) := by
    intro d other after
    obtain ⟨e, found', _, cdr'⟩ := after.none
    have here : (s.put 0 d).cell nullVal = some d :=
      State.cell_put_same (State.ref_lt_fresh found) d
    cases here.symm.trans found'
    exact other cdr'
  cases writes with
  | append new some_ =>
      refine ⟨(), s.put 0 { c with w1 := .ofPtr new }, ?_, changed _ ?_⟩
      · simp only [step, State.modify, nullVal, held]
        rfl
      · rwa [Cell.cdr, word_ptr_of_ptr]
  | step i =>
      have zero : c.w1 = .zero := by
        cases word : c.w1 <;> simp only [Cell.cdr, word, Word.ptr, reduceCtorEq] at cdr
        rfl
      refine ⟨(), s.put 0 { c with w1 := .mpz i }, ?_, changed _ (by simp [Cell.cdr, Word.ptr])⟩
      simp only [step, State.modify, nullVal, held, Cell.iValWritable, zero, if_true]
      rfl

end Invariant

section Runs

variable {W : World} {s t : State} {site : Site} {ctx expr : Ptr}

/-- The constants are intact at every point of an evaluation if and only if none
of its steps appends behind None, and none steps the number None is taken for. -/
theorem constants_stay_iff (disciplined : ∀ D, W.Disciplined D) (statics : Grows State.initial s)
    (intact : Intact s) :
    (∀ q t, (runtime W).Reaches (blEval site ctx expr) s q t → Intact t) ↔
      ∀ op before, (runtime W).Performs (blEval site ctx expr) s op before → ¬ WritesNone op := by
  constructor
  · intro always op before performed writes
    obtain ⟨next, reached⟩ := performed
    obtain ⟨answer, t, stepped, broken⟩ := not_intact_of_writes writes (always _ _ reached)
    exact broken (always _ t (reaches_trans reached (.perform stepped (.refl _ _))))
  · intro spared q t reached
    have keeps : ∀ op u answer after, Grows State.initial u ∧ Intact u →
        sparesNone.contract.op op → ¬ WritesNone op →
        (runtime W).step op u = some (answer, after) →
        sparesNone.contract.opAnswer op answer ∧ Grows State.initial after ∧ Intact after := by
      intro op u answer after held allowed here stepped
      have kept := intact_step held.1 held.2 allowed here stepped
      exact ⟨kept.1, grows_trans held.1 (step_grows stepped), kept.2⟩
    have kept := contract_invariant (runtime_honours trivial (disciplined sparesNone)) keeps reached
      spared ⟨statics, intact⟩ (safe_eval trivial trivial)
    exact kept.1.2

end Runs

section Examples

/-- `(append None 1)` in a context with `append` and `None`. -/
def appending : State where
  cells := staticCells ++
    [{ type := .symbol, w0 := .str (text "append"), w1 := .ofNat 0 },
     { type := .symbol, w0 := .str (text "None"), w1 := .ofNat 1 },
     { type := .operNative, w0 := .code (.builtin .append) },
     .mkCtx { Ctx.new 8 .null with
       keys := [.ref 7, .ref 8, .null, .null, .null, .null, .null, .null]
       vals := [.ref 9, nullVal, .null, .null, .null, .null, .null, .null] },
     .mkNumber 1, .mkCons (.ref 11) .null, .mkCons (.ref 8) (.ref 12), .mkCons (.ref 7) (.ref 13)]
  symbolTable := [⟨text "None", 8⟩, ⟨text "append", 7⟩]
  lastSymId := 2

theorem appending_intact : Grows State.initial appending ∧ Intact appending :=
  ⟨statics_of_append _ _ _ _, ⟨{ type := .null }, rfl, rfl, rfl⟩, rfl, rfl⟩

/-- The operands of `(append None 1)` leave the constants alone. -/
theorem constants_stay_literal :
    (∀ q t, (runtime World.bare).Reaches (blEval .operand (.ref 10) (.ref 8)) appending q t →
        Intact t) ↔
      ∀ op before, (runtime World.bare).Performs (blEval .operand (.ref 10) (.ref 8)) appending op
        before → ¬ WritesNone op :=
  constants_stay_iff bare_disciplined appending_intact.1 appending_intact.2

/-- `(append None 1)` links the new cell to None itself. -/
theorem none_gets_rest :
    ¬ ∀ (s : State) (ctx expr : Ptr), Grows State.initial s → Intact s →
      ∀ q t, (runtime World.bare).Reaches (blEval .operand ctx expr) s q t → Intact t := by
  intro always
  have run : ∃ v t, (runtime World.bare).Runs (blEval .operand (.ref 10) (.ref 14)) appending v t ∧
      (t.cell nullVal).map Cell.cdr = some (.ref 15) := ⟨_, _, ⟨12, rfl⟩, rfl⟩
  obtain ⟨v, t, run, rest⟩ := run
  have after := always appending (.ref 10) (.ref 14) appending_intact.1 appending_intact.2 _ t
    (reaches_done_of_runs run)
  obtain ⟨c, found, _, cdr⟩ := after.none
  rw [found, Option.map_some, cdr] at rest
  cases rest

end Examples

end BearLang.SharedConstants
