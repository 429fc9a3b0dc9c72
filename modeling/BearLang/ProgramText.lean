import BearLang.HeapRegions
import BearLang.ListEvaluation
import BearLang.ArgumentBinding
import BearLang.Trees

/-!
# Evaluation and the program text

An expression is made of the cells that `car` and `cdr` lead to. Of these cells
an evaluation can only change the number and the end of a list, and it does so
in three places: `inc` and `dec`, `append`, and the call of an operator without
arguments. The lists that the runtime itself links are new.
-/

namespace BearLang.ProgramText

open CallPrograms

set_option autoImplicit false

section Expressions

inductive Part (s : State) (expr : Ptr) : Ptr → Prop
  | root : Part s expr expr
  | car {p : Ptr} {c : Cell} (part : Part s expr p) (known : s.cell p = some c)
      (list : c.type = .cons) : Part s expr c.car
  | cdr {p : Ptr} {c : Cell} (part : Part s expr p) (known : s.cell p = some c)
      (list : c.type = .cons) : Part s expr c.cdr

/-- The kind of a cell and its contents: the two parts of a list cell, or the
number, the text or the symbol of an atom. -/
def SameContents (c d : Cell) : Prop := d.type = c.type ∧ d.w0 = c.w0 ∧ d.w1 = c.w1

def Unchanged (s t : State) (expr : Ptr) : Prop :=
  ∀ p c, Part s expr p → s.cell p = some c → ∃ d, t.cell p = some d ∧ SameContents c d

def evalTimes (ctx expr : Ptr) : Nat → Prog Unit
  | 0 => pure ()
  | n + 1 => do
      let _ ← blEval .operand ctx expr
      evalTimes ctx expr n

theorem part_of_cons {s : State} {expr p first rest : Ptr} (part : Part s expr p)
    (known : s.cell p = some (.mkCons first rest)) : Part s expr first ∧ Part s expr rest := by
  have car := Part.car part known rfl
  have cdr := Part.cdr part known rfl
  rw [Cell.mk_cons_car] at car
  rw [Cell.mk_cons_cdr] at cdr
  exact ⟨car, cdr⟩

theorem cons_at_same {s t : State} {expr p : Ptr} {lo : Nat} {c : Cell}
    (unchanged : Unchanged s t expr) (part : Part s expr p) (at_ : ConsAt s lo p c) :
    ∃ d, ConsAt t lo p d ∧ d.car = c.car ∧ d.cdr = c.cdr := by
  obtain ⟨a, rfl, bound, known, list⟩ := at_
  obtain ⟨d, found, type, word, word'⟩ := unchanged _ c part known
  refine ⟨d, ⟨a, rfl, bound, found, type.trans list⟩, ?_, ?_⟩
  · rw [Cell.car, Cell.car, word]
  · rw [Cell.cdr, Cell.cdr, word']

mutual

theorem denotes_unchanged {s t : State} {expr : Ptr} {lo : Nat} (unchanged : Unchanged s t expr) :
    ∀ (d : Datum) (p : Ptr), Part s expr p → Denotes s lo d p → Denotes t lo d p
  | .atom a, p, part, held => by
      simp only [Denotes] at held ⊢
      obtain ⟨c, known, atom⟩ := held
      obtain ⟨d, found, type, word, word'⟩ := unchanged p c part known
      refine ⟨d, found, ?_⟩
      rw [← atom]
      simp only [Cell.atom, type, Cell.iVal, Cell.sVal, word, word']
  | .list items, p, part, held => by
      simp only [Denotes] at held ⊢
      rcases held with ⟨empty, c, at_, car, cdr⟩ | ⟨filled, all⟩
      · obtain ⟨d, at', car', cdr'⟩ := cons_at_same unchanged part at_
        exact .inl ⟨empty, d, at', car'.trans car, cdr'.trans cdr⟩
      · exact .inr ⟨filled, denotes_all_unchanged unchanged items p part all⟩

theorem denotes_all_unchanged {s t : State} {expr : Ptr} {lo : Nat}
    (unchanged : Unchanged s t expr) :
    ∀ (items : List Datum) (p : Ptr), Part s expr p → DenotesAll s lo items p →
      DenotesAll t lo items p
  | [], p, _, held => by
      simp only [DenotesAll] at held ⊢
      exact held
  | d :: items, p, part, held => by
      simp only [DenotesAll] at held ⊢
      obtain ⟨c, at_, first, rest⟩ := held
      obtain ⟨e, at', car, cdr⟩ := cons_at_same unchanged part at_
      obtain ⟨a, rfl, _, known, list⟩ := at_
      refine ⟨e, at', ?_, ?_⟩
      · rw [car]
        exact denotes_unchanged unchanged d c.car (.car part known list) first
      · rw [cdr]
        exact denotes_all_unchanged unchanged items c.cdr (.cdr part known list) rest

end

end Expressions

section Writes

/-- The cell that an operation gives new contents, unless the runtime is linking
a list of its own. -/
def rewritten : Op → Option Ptr
  | .setIVal p _ => some p
  | .setCdr .append p _ => some p
  | .setCdr .noArguments p _ => some p
  | _ => none

/-- Code that links only cells from an address on. -/
def linksFrom (n : Nat) : Discipline where
  good _ := True
  own p := ∃ a, p = .ref a ∧ n ≤ a
  null := trivial
  wild := trivial
  static := fun _ _ => trivial
  own_good := fun _ _ => trivial

variable {s t : State}

theorem same_contents_refl (c : Cell) : SameContents c c := ⟨rfl, rfl, rfl⟩

/-- An operation leaves the contents of every cell but the one it rewrites or
links. -/
theorem step_contents {op : Op} {answer : op.Answer} (stepped : step op s = some (answer, t))
    {p : Ptr} {c : Cell} (known : s.cell p = some c) (spared : rewritten op ≠ some p)
    (unlinked : ∀ q, op ≠ .setCdr .build p q) : ∃ d, t.cell p = some d ∧ SameContents c d := by
  obtain ⟨d, found, cell⟩ := step_cell stepped known
  refine ⟨d, found, ?_⟩
  cases cell with
  | cdr site q =>
      cases site with
      | build => exact absurd rfl (unlinked q)
      | append => exact absurd rfl spared
      | noArguments => exact absurd rfl spared
  | number i => exact absurd rfl spared
  | _ => exact ⟨rfl, rfl, rfl⟩

end Writes

section Evaluation

variable {W : World} {s t : State} {ctx expr : Ptr}

theorem same_contents_trans {c d e : Cell} (first : SameContents c d) (second : SameContents d e) :
    SameContents c e :=
  ⟨second.1.trans first.1, second.2.1.trans first.2.1, second.2.2.trans first.2.2⟩

theorem eval_times_safe {D : Discipline} (good : D.good ctx) (goodExpr : D.good expr) (n : Nat) :
    Safe D (evalTimes ctx expr n) fun _ => True := by
  induction n with
  | zero => exact safe_pure trivial
  | succ n ih => exact safe_seq (safe_eval good goodExpr) fun _ _ => ih

/-- Evaluated any number of times, an expression is the same at every point, as
long as none of its own cells is stepped by `inc` or `dec`, appended to, or
called without arguments. -/
theorem evaluation_keeps_expression (disciplined : ∀ D, W.Disciplined D) {n : Nat} {q : Prog Unit}
    (reached : (runtime W).Reaches (evalTimes ctx expr n) s q t)
    (harmless : ∀ op before, (runtime W).Performs (evalTimes ctx expr n) s op before →
      ∀ p, rewritten op = some p → ¬ Part s expr p) : Unchanged s t expr := by
  have keeps : ∀ op u answer after, s.fresh ≤ u.fresh ∧ Unchanged s u expr →
      (linksFrom s.fresh).contract.op op → (∀ p, rewritten op = some p → ¬ Part s expr p) →
      (runtime W).step op u = some (answer, after) →
      (linksFrom s.fresh).contract.opAnswer op answer ∧ s.fresh ≤ after.fresh ∧
        Unchanged s after expr := by
    rintro op u answer after ⟨later, unchanged⟩ allowed spared stepped
    have grew := fresh_le_of_grows (step_grows stepped)
    refine ⟨?_, Nat.le_trans later grew, fun p c part known => ?_⟩
    · cases op with
      | alloc c =>
          cases stepped
          exact ⟨trivial, fun _ => ⟨u.fresh, rfl, later⟩⟩
      | load p => exact ⟨holds_of_pointers fun _ _ => trivial, fun _ => trivial⟩
      | _ => trivial
    · obtain ⟨d, found, same⟩ := unchanged p c part known
      have unlinked : ∀ q, op ≠ .setCdr .build p q := by
        rintro q rfl
        obtain ⟨a, rfl, new⟩ := allowed.2.2.1 rfl
        exact absurd (State.ref_lt_fresh known) (Nat.not_lt.2 new)
      obtain ⟨e, found', same'⟩ := step_contents stepped found (fun hit => spared p hit part) unlinked
      exact ⟨e, found', same_contents_trans same same'⟩
  exact (contract_invariant (runtime_honours trivial (disciplined _)) keeps reached harmless
    ⟨Nat.le_refl _, fun p c _ known => ⟨c, known, same_contents_refl c⟩⟩
    (eval_times_safe trivial trivial n)).1.2

/-- The calls `(f 5)` rewrite nothing. -/
theorem evaluation_keeps_expression_call : ∃ t,
    (runtime World.bare).Reaches (evalTimes (.ref 14) (.ref 22) 2) ArgumentBinding.twoFunctions
      (.done ()) t ∧ Unchanged ArgumentBinding.twoFunctions t (.ref 22) := by
  have run : ∃ t, ((runtime World.bare).logging fun op _ => (rewritten op).toList).Runs
      (evalTimes (.ref 14) (.ref 22) 2) (ArgumentBinding.twoFunctions, []) () (t, []) :=
    ⟨_, 22, rfl⟩
  obtain ⟨t, run⟩ := run
  have reached := reaches_of_monitored (reaches_done_of_runs run)
  refine ⟨t, reached, evaluation_keeps_expression bare_disciplined reached ?_⟩
  intro op before performed p hit
  have noted := noted_of_performs performed run p (by simp [hit])
  exact absurd noted List.not_mem_nil

/-- `(do (= x 5) (inc x))` in a context with the operators `=` and `inc`. -/
def countingText : State where
  cells := staticCells ++
    [{ type := .symbol, w0 := .str (text "="), w1 := .ofNat 0 },
     { type := .symbol, w0 := .str (text "inc"), w1 := .ofNat 1 },
     { type := .symbol, w0 := .str (text "x"), w1 := .ofNat 2 },
     { type := .operNative, w0 := .code (.builtin .set) },
     { type := .operNative, w0 := .code (.builtin .inc) },
     .mkCtx { Ctx.new 8 .null with
       keys := [.ref 7, .ref 8, .null, .null, .null, .null, .null, .null]
       vals := [.ref 10, .ref 11, .null, .null, .null, .null, .null, .null] },
     .mkNumber 5, .mkCons (.ref 13) .null, .mkCons (.ref 9) (.ref 14), .mkCons (.ref 7) (.ref 15),
     .mkCons (.ref 9) .null, .mkCons (.ref 8) (.ref 17), .mkCons (.ref 18) .null,
     .mkCons (.ref 16) (.ref 19), .mkCons (.ref 4) (.ref 20)]
  symbolTable := [⟨text "x", 9⟩, ⟨text "inc", 8⟩, ⟨text "=", 7⟩]
  lastSymId := 3

/-- The literal is the number that `inc` steps. -/
theorem literal_rewritten : ∃ t, (runtime World.bare).Runs (evalTimes (.ref 12) (.ref 21) 1)
    countingText () t ∧ ¬ Unchanged countingText t (.ref 21) := by
  refine ⟨_, ⟨22, rfl⟩, fun unchanged => ?_⟩
  have forms : Part countingText (.ref 21) (.ref 20) := (part_of_cons .root rfl).2
  have assignment : Part countingText (.ref 21) (.ref 16) := (part_of_cons forms rfl).1
  have operands : Part countingText (.ref 21) (.ref 15) := (part_of_cons assignment rfl).2
  have value : Part countingText (.ref 21) (.ref 14) := (part_of_cons operands rfl).2
  have literal : Part countingText (.ref 21) (.ref 13) := (part_of_cons value rfl).1
  obtain ⟨d, found, _, _, number⟩ := unchanged (.ref 13) (.mkNumber 5) literal rfl
  cases found
  cases number

end Evaluation

end BearLang.ProgramText
