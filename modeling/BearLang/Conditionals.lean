import BearLang.EvaluatedValues
import BearLang.ListEvaluation

/-!
# The `if` form

`bl_eval` replaces the form by the value of its branch and goes round its loop again,
so a value that is a symbol or a list is evaluated as an expression.
-/

namespace BearLang.Conditionals

open CallPrograms EvaluatedValues

set_option autoImplicit false

section Forms

variable {W : World} {s s' m t : State} {ctx expr c branch v r : Ptr} {b : Bool}

/-- An expression headed by `if`, looked up in `s'`, whose condition `c` is evaluated to
a truth value with `m` as the state afterwards, and the branch the form has there. A
branch that is absent is the null pointer. -/
structure IfForm (W : World) (ctx expr : Ptr) (s : State) (c : Ptr) (b : Bool) (branch : Ptr)
    (s' m : State) : Prop where
  head : ∃ e v d, s.cell expr = some e ∧ e.type = .cons ∧ HeadValue W ctx e.car s v s' ∧
    s'.cell v = some d ∧ d.type = .operIf
  condition : ∃ e cs, s'.cell expr = some e ∧ ListAt s' (c :: cs) e.cdr
  truth : ∃ v d, (runtime W).Runs (blEval (.ifCond false) ctx c) s' v m ∧ m.cell v = some d ∧
    d.type = .bool ∧ d.bVal = some b
  branches : ∃ e c' cs, m.cell expr = some e ∧ ListAt m (c' :: cs) e.cdr ∧
    branch = if b then cs.headD .null else cs.tail.headD .null

/-- A value that stays what it is when it is evaluated as an expression: any that is
neither a symbol nor a list, and those that happen to be their own value. -/
def Settled (W : World) (ctx : Ptr) (u : State) (v : Ptr) : Prop :=
  ∃ d, u.cell v = some d ∧ ((d.type ≠ .symbol ∧ d.type ≠ .cons) ∨
    (runtime W).Runs (blEval .value ctx v) u v u)

theorem eval_absent (site : Site) : (runtime W).Runs (blEval site ctx .null) s nullVal s := by
  refine runs_eval.2 ?_
  rw [evalBody, if_pos rfl]
  exact runs_pure_self _ _

theorem eval_loop_iff (there : v ≠ .null) :
    (runtime W).Runs (call (.evalLoop ctx v)) s r t ↔
      (runtime W).Runs (blEval .value ctx v) s r t := by
  rw [runs_eval, evalBody, if_neg there]

theorem eval_other {d : Cell} (known : s.cell v = some d) (noSymbol : d.type ≠ .symbol)
    (noCons : d.type ≠ .cons) : (runtime W).Runs (blEval .value ctx v) s v s := by
  refine (eval_loop_iff (cell_ne_null known)).1 (runs_call (c := .evalLoop ctx v) ?_)
  change (runtime W).Runs (evalLoopBody ctx v) s v s
  rw [evalLoopBody, if_neg (cell_ne_null known), runs_after (runs_load known)]
  split
  · exact runs_pure_self _ _
  · next isCons => exact absurd isCons noCons
  · next isSymbol => exact absurd isSymbol noSymbol
  · exact runs_pure_self _ _

theorem settled_iff : Settled W ctx s v ↔
    ∃ d, s.cell v = some d ∧ (runtime W).Runs (blEval .value ctx v) s v s := by
  constructor
  · rintro ⟨d, known, other | itself⟩
    · exact ⟨d, known, eval_other known other.1 other.2⟩
    · exact ⟨d, known, itself⟩
  · rintro ⟨d, known, itself⟩
    exact ⟨d, known, .inr itself⟩

theorem eval_if_runs (form : IfForm W ctx expr s c b branch s' m) :
    (runtime W).Runs (blEvalIf false ctx expr) s' r t ↔
      (runtime W).Runs (blEval (.ifBranch false) ctx branch) m r t := by
  obtain ⟨e, cs, known, list⟩ := form.condition
  obtain ⟨v, d, run, held, isBool, isTrue⟩ := form.truth
  obtain ⟨e', c', cs', known', list', same⟩ := form.branches
  have noError : ¬ d.type = .error := by
    rw [isBool]
    decide
  rw [blEvalIf, runs_after (runs_load known), runs_after (list_first_runs list), runs_after run,
    runs_after (runs_load held), if_neg noError, if_neg (not_not.2 isBool),
    runs_after (runs_member isTrue m), runs_after (runs_load known')]
  cases b with
  | true =>
      rw [if_pos rfl, runs_after (second_of_list list'), same]
      rfl
  | false =>
      obtain ⟨q, rest, behind⟩ := list_rest_runs (W := W) list'
      have third : (runtime W).Runs (blListThird e'.cdr) m (cs'.tail.headD .null) m := by
        rw [blListThird, runs_after rest]
        exact second_of_list behind
      rw [if_neg (by simp), runs_after third, same]
      rfl

/-- What comes of it is evaluated once more. -/
theorem if_runs (form : IfForm W ctx expr s c b branch s' m) (site : Site) :
    (runtime W).Runs (blEval site ctx expr) s r t ↔
      ∃ v u d, (runtime W).Runs (blEval (.ifBranch false) ctx branch) m v u ∧ u.cell v = some d ∧
        (runtime W).Runs (blEval .value ctx v) u r t := by
  obtain ⟨e, v, d, known, isCons, head, held, isIf⟩ := form.head
  rw [eval_runs_apply site known isCons head, evalApply, runs_after (runs_load held)]
  simp only [isIf]
  constructor
  · intro run
    obtain ⟨w, u, value, run⟩ := runs_bind.1 run
    have value := (eval_if_runs form).1 value
    obtain ⟨kind, u', typed, run⟩ := runs_bind.1 run
    obtain ⟨f, n, loaded, rest⟩ := runs_bind.1 typed
    obtain ⟨f', there, rfl, rfl⟩ := mapped_spec (runs_step_iff.1 loaded)
    obtain ⟨rfl, rfl⟩ := runs_pure.1 rest
    refine ⟨w, n, f', value, there, ?_⟩
    by_cases isError : f'.type = .error
    · rw [if_pos isError] at run
      obtain ⟨rfl, rfl⟩ := runs_pure.1 run
      exact eval_other there (by rw [isError]; decide) (by rw [isError]; decide)
    · rw [if_neg isError] at run
      exact (eval_loop_iff (cell_ne_null there)).1 run
  · rintro ⟨w, u, f, value, there, again⟩
    rw [runs_after ((eval_if_runs form).2 value), runs_after (runs_type_of there)]
    by_cases isError : f.type = .error
    · have itself : (runtime W).Runs (blEval .value ctx w) u w u :=
        eval_other there (by rw [isError]; decide) (by rw [isError]; decide)
      obtain ⟨rfl, rfl⟩ := runs_functional again itself
      rw [if_pos isError]
      exact runs_pure_self _ _
    · rw [if_neg isError]
      exact (eval_loop_iff (cell_ne_null there)).2 again

/-- The form gives what its condition and then its branch give exactly if what the
branch gives is not taken for code, and `None` if the branch is absent. -/
theorem if_yields_branch_iff (form : IfForm W ctx expr s c b branch s' m) (site : Site) :
    ((∀ r t, (runtime W).Runs (blEval site ctx expr) s r t ↔
        (runtime W).Runs (blEval (.ifBranch false) ctx branch) m r t) ↔
      ∀ v u, (runtime W).Runs (blEval (.ifBranch false) ctx branch) m v u → Settled W ctx u v) ∧
    (branch = .null → m.typeOf nullVal = some .null →
      (runtime W).Runs (blEval site ctx expr) s nullVal m) := by
  refine ⟨⟨fun same v u value => ?_, fun settled r t => ⟨fun run => ?_, fun value => ?_⟩⟩, ?_⟩
  · obtain ⟨w, n, d, value', there, itself⟩ := (if_runs form site).1 ((same v u).2 value)
    obtain ⟨rfl, rfl⟩ := runs_functional value value'
    exact settled_iff.2 ⟨d, there, itself⟩
  · obtain ⟨v, u, d, value, there, again⟩ := (if_runs form site).1 run
    obtain ⟨_, _, itself⟩ := settled_iff.1 (settled v u value)
    obtain ⟨rfl, rfl⟩ := runs_functional again itself
    exact value
  · obtain ⟨d, there, itself⟩ := settled_iff.1 (settled r t value)
    exact (if_runs form site).2 ⟨r, t, d, value, there, itself⟩
  · rintro rfl isNull
    obtain ⟨d, there, type⟩ := Option.map_eq_some_iff.1 isNull
    refine (if_runs form site).2 ⟨nullVal, m, d, eval_absent _, there, ?_⟩
    exact eval_other there (by rw [type]; decide) (by rw [type]; decide)

/-- The expressions are `(if True 'x)` and `(if True 5)`. -/
def ifForms : State where
  cells := staticCells ++
    [{ type := .symbol, w0 := .str (text "'x"), w1 := .ofNat 0 }, .mkNumber 5,
     .mkCtx (Ctx.new 8 .null), .mkCons (.ref 7) .null, .mkCons trueVal (.ref 10),
     .mkCons ifOperVal (.ref 11), .mkCons (.ref 8) .null, .mkCons trueVal (.ref 13),
     .mkCons ifOperVal (.ref 14)]
  symbolTable := [⟨text "'x", 7⟩]
  lastSymId := 1

/-- `(if True 5)` -/
theorem if_yields_branch_iff_five :
    (∀ r t, (runtime World.bare).Runs (blEval .operand (.ref 9) (.ref 15)) ifForms r t ↔
      (runtime World.bare).Runs (blEval (.ifBranch false) (.ref 9) (.ref 8)) ifForms r t) ↔
    ∀ v u, (runtime World.bare).Runs (blEval (.ifBranch false) (.ref 9) (.ref 8)) ifForms v u →
      Settled World.bare (.ref 9) u v := by
  have form : IfForm World.bare (.ref 9) (.ref 15) ifForms trueVal true (.ref 8) ifForms ifForms := by
    constructor
    · exact ⟨_, _, _, rfl, rfl, .other rfl (by decide), rfl, rfl⟩
    · exact ⟨_, [.ref 8], rfl, 14, _, rfl, rfl, rfl, rfl, 13, _, rfl, rfl, rfl, rfl, rfl⟩
    · exact ⟨trueVal, _, ⟨9, rfl⟩, rfl, rfl, rfl⟩
    · exact ⟨_, trueVal, [.ref 8], rfl, ⟨14, _, rfl, rfl, rfl, rfl, 13, _, rfl, rfl, rfl, rfl, rfl⟩,
        rfl⟩
  exact (if_yields_branch_iff form .operand).1

/-- The symbol that the branch of `(if True 'x)` gives is looked up. -/
theorem if_symbol_looked_up : ∃ v u,
    IfForm World.bare (.ref 9) (.ref 12) ifForms trueVal true (.ref 7) ifForms ifForms ∧
      (runtime World.bare).Runs (blEval (.ifBranch false) (.ref 9) (.ref 7)) ifForms v u ∧
      u.typeOf v = some .symbol ∧
      ¬ (runtime World.bare).Runs (blEval .operand (.ref 9) (.ref 12)) ifForms v u := by
  have value : ∃ u, (runtime World.bare).Runs (blEval (.ifBranch false) (.ref 9) (.ref 7)) ifForms
      (.ref 16) u ∧ u.typeOf (.ref 16) = some .symbol := ⟨_, ⟨9, rfl⟩, rfl⟩
  have whole : ∃ t, (runtime World.bare).Runs (blEval .operand (.ref 9) (.ref 12)) ifForms
      (.ref 17) t := ⟨_, 9, rfl⟩
  obtain ⟨u, value, isSymbol⟩ := value
  obtain ⟨t, whole⟩ := whole
  refine ⟨.ref 16, u, ?_, value, isSymbol, fun run => ?_⟩
  · constructor
    · exact ⟨_, _, _, rfl, rfl, .other rfl (by decide), rfl, rfl⟩
    · exact ⟨_, [.ref 7], rfl, 11, _, rfl, rfl, rfl, rfl, 10, _, rfl, rfl, rfl, rfl, rfl⟩
    · exact ⟨trueVal, _, ⟨9, rfl⟩, rfl, rfl, rfl⟩
    · exact ⟨_, trueVal, [.ref 7], rfl, ⟨11, _, rfl, rfl, rfl, rfl, 10, _, rfl, rfl, rfl, rfl, rfl⟩,
        rfl⟩
  · obtain ⟨same, _⟩ := runs_functional run whole
    cases same

end Forms

end BearLang.Conditionals
