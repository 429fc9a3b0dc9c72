import BearLang.BindingFaults
import BearLang.ContextStores
import BearLang.EvaluatedValues
import BearLang.OperatorActivations

/-!
# Definitions and calls that follow no null pointer

The empty list is a list cell with two null members when the reader makes it, a
null pointer at the end of a list, and `None` as a value. The operators that define
functions, the loop that binds parameters and the loop over a body each meet one of
these where they expect an element.
-/

namespace BearLang.CallSafety

open CallPrograms ContextRefinement ArgumentBinding Assignments OperatorActivations BindingFaults
open ContextStores

set_option autoImplicit false

section Faults

variable {W : World} {s t : State} {α β : Type}

end Faults

section Definitions

/-- `bl_oper_fn`, `bl_oper_fun` and `bl_oper_oper`. -/
inductive Definer where
  | fn | fun_ | oper
deriving DecidableEq, Repr

def Definer.builtin : Definer → Builtin
  | .fn => .fn
  | .fun_ => .defun
  | .oper => .oper

def Definer.kind : Definer → ValType
  | .fn => .funcBl
  | .fun_ => .funcBl
  | .oper => .operBl

/-- The operands of a definition; `fn` has no name. -/
def Definer.operands (definer : Definer) (name params : Ptr) (body : List Ptr) : List Ptr :=
  match definer with
  | .fn => params :: body
  | .fun_ => name :: params :: body
  | .oper => name :: params :: body

/-- The body without the docstring at its start, which `fn` does not look for. -/
def Definer.rest (definer : Definer) (s : State) (body : List Ptr) : List Ptr :=
  match definer, body with
  | .fn, body => body
  | _, [] => []
  | _, first :: body => if s.typeOf first = some .docstring then body else first :: body

variable {W : World} {s t : State} {ctx : Ptr}

end Definitions

section Looks

variable {W : World} {s t : State} {ctx inner e : Ptr} {α β : Type}

/-- Two programs with the same runs and the same faults. -/
structure SameRuns (W : World) (p q : Prog α) : Prop where
  faultless : ∀ s, Faultless W p s ↔ Faultless W q s
  runs : ∀ s v t, (runtime W).Runs p s v t ↔ (runtime W).Runs q s v t

theorem same_runs_refl (p : Prog α) : SameRuns W p p := ⟨fun _ => Iff.rfl, fun _ _ _ => Iff.rfl⟩

theorem same_runs_bind {p q : Prog α} {f g : α → Prog β} (first : SameRuns W p q)
    (rest : ∀ v, SameRuns W (f v) (g v)) : SameRuns W (p >>= f) (q >>= g) := by
  constructor
  · intro s
    rw [faultless_seq, faultless_seq, first.faultless s]
    refine and_congr_right fun _ => forall_congr' fun v => forall_congr' fun t => ?_
    rw [first.runs s v t, (rest v).faultless t]
  · intro s v t
    rw [runs_bind, runs_bind]
    refine exists_congr fun a => exists_congr fun m => ?_
    rw [first.runs s a m, (rest a).runs m v t]

/-- Which statement evaluates an expression makes no difference to the evaluation. -/
theorem same_runs_eval (first second : Site) (ctx expr : Ptr) :
    SameRuns W (blEval first ctx expr) (blEval second ctx expr) := by
  constructor
  · intro s
    have left : Faultless W (blEval first ctx expr) s ↔ Faultless W (evalBody ctx expr) s :=
      faultless_call_iff
    have right : Faultless W (blEval second ctx expr) s ↔ Faultless W (evalBody ctx expr) s :=
      faultless_call_iff
    rw [left, right]
  · intro s v t
    have left : (runtime W).Runs (blEval first ctx expr) s v t ↔
      (runtime W).Runs (evalBody ctx expr) s v t := runs_call_iff
    have right : (runtime W).Runs (blEval second ctx expr) s v t ↔
      (runtime W).Runs (evalBody ctx expr) s v t := runs_call_iff
    rw [left, right]

theorem same_runs_if (ctx expr : Ptr) :
    SameRuns W (blEvalIf true ctx expr) (blEvalIf false ctx expr) := by
  refine same_runs_bind (same_runs_refl _) fun e => same_runs_bind (same_runs_refl _) fun condExpr => ?_
  refine same_runs_bind (same_runs_eval _ _ ctx condExpr) fun cond => ?_
  refine same_runs_bind (same_runs_refl _) fun c => ?_
  split
  · exact same_runs_refl _
  split
  · exact same_runs_refl _
  refine same_runs_bind (same_runs_refl _) fun b => same_runs_bind (same_runs_refl _) fun e => ?_
  split
  · exact same_runs_bind (same_runs_refl _) fun branch => same_runs_eval _ _ ctx branch
  · exact same_runs_bind (same_runs_refl _) fun branch => same_runs_eval _ _ ctx branch

end Looks

section Bodies

variable {W : World} {s u m : State} {func inner j : Ptr} {program : Prog Ptr}

/-- The call has come to the cell `j` of the body, in the state `u`. -/
def Turn (W : World) (func : Ptr) (program : Prog Ptr) (s : State) (j : Ptr) (u : State) : Prop :=
  (runtime W).Reaches program s
    (call (.funcbody func j) >>= fun retval => leave >>= fun _ => pure (orNull retval)) u

end Bodies

section Opers

variable {W : World} {s u : State} {inner j r : Ptr} {program : Prog Ptr}

def Evaluates (W : World) (program : Prog Ptr) (s : State) : Prop :=
  Faultless W program s ∧ ∀ v t, (runtime W).Runs program s v t → ∃ c, t.cell v = some c

end Opers

section Calls

variable {W : World} {s t : State} {ctx expr f vals plist : Ptr} {params args rest : List Ptr}

end Calls

end BearLang.CallSafety
