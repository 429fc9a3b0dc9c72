import BearLang.AgreeingStates
import BearLang.CallSafety
import BearLang.Conditionals

/-!
# The body of a function

`bl_eval_funcbody` looks at the head of a body expression before it evaluates the
expression. A call of the function by itself rebinds the parameters and starts the body
again, so what follows the call is left out; an `if` is evaluated once to see what its
value is headed by, and once more for its value. The first evaluation leaves cells behind
that nothing points to, so what the body gives is compared up to such cells.
-/

namespace BearLang.BodyRunner

open CallPrograms EvaluatedValues RelocatedCode ContextStores ArgumentBinding

set_option autoImplicit false

section Bodies

variable {W : World} {s t u m p : State} {func inner e i j v w : Ptr} {n : Nat}

/-- The body expressions from the cell `i` on, evaluated each once and in order; the value
is that of the last. -/
inductive Sequential (W : World) (func : Ptr) : Ptr → State → Ptr → State → Prop
  | last {i inner v : Ptr} {s t : State} {c d : Cell} (cell : s.cell i = some c)
      (closure : ClosureOf s func inner)
      (evaluated : (runtime W).Runs (blEval .funcBody inner c.car) s v t)
      (cell' : t.cell i = some d) (ended : d.cdr = .null) : Sequential W func i s v t
  | next {i inner v w : Ptr} {s m t : State} {c d : Cell} (cell : s.cell i = some c)
      (closure : ClosureOf s func inner)
      (evaluated : (runtime W).Runs (blEval .funcBody inner c.car) s v m)
      (cell' : m.cell i = some d) (more : d.cdr ≠ .null) (rest : Sequential W func d.cdr m w t) :
      Sequential W func i s w t

/-- No symbol, or one that is looked up to something else than the function. -/
inductive NamesOther (W : World) (func inner h : Ptr) (s : State) : Prop
  | value {c : Cell} (cell : s.cell h = some c) (noSymbol : c.type ≠ .symbol)
  | symbol {c : Cell} {v : Ptr} (cell : s.cell h = some c) (isSymbol : c.type = .symbol)
      (found : (runtime W).Runs (blCtxGet inner h) s v s) (other : v ≠ func)

/-- The value `r` is its own value in `p`, and the `if`, evaluated there once more, gives it
again and leaves `p` again, but for where the cells lie that `s` has not. -/
def Repeats (W : World) (inner e r : Ptr) (s p : State) : Prop :=
  Conditionals.Settled W inner p r ∧ ∃ (q : Relocation) (m : State),
    (∀ a, a < s.fresh → q.map a = a) ∧ Moved q p m ∧
      (runtime W).Runs (blEval .funcBody inner e) p (r.moved q) m

/-- A look at the head of the expression does not come upon the function and makes no
difference: it evaluates nothing, or an `if` that changes nothing there is, or one that
does to the state the second time what it does the first time. -/
inductive Passes (W : World) (func inner e : Ptr) (s : State) : Prop
  | atom {c : Cell} (cell : s.cell e = some c) (noList : c.type ≠ .cons)
  | list {c h : Cell} (cell : s.cell e = some c) (isList : c.type = .cons)
      (head : s.cell c.car = some h) (noIf : h.type ≠ .operIf)
      (other : NamesOther W func inner c.car s)
  | branch {c h d : Cell} {r : Ptr} {p : State} (cell : s.cell e = some c) (isList : c.type = .cons)
      (head : s.cell c.car = some h) (isIf : h.type = .operIf)
      (first : (runtime W).Runs (blEvalIf true inner e) s r p) (value : p.cell r = some d)
      (other : d.type = .cons → NamesOther W func inner d.car p)
      (harmless : OnlyAdds s p ∨ Repeats W inner e r s p)

theorem names_other_runs {c : Cell} {rest : Prog Ptr} (filled : func ≠ .null)
    (other : NamesOther W func inner e s) (cell : s.cell e = some c)
    (unnamed : c.type ≠ .symbol → (runtime W).Runs rest s .null s) :
    ∃ h, h ≠ func ∧
      (runtime W).Runs (if c.type = .symbol then blCtxGet inner e else rest) s h s := by
  cases other with
  | value cell' noSymbol =>
      rw [cell] at cell'
      cases cell'
      refine ⟨.null, filled.symm, ?_⟩
      rw [if_neg noSymbol]
      exact unnamed noSymbol
  | @symbol _ v cell' isSymbol found other =>
      rw [cell] at cell'
      cases cell'
      refine ⟨v, other, ?_⟩
      rw [if_pos isSymbol]
      exact found

theorem names_other_cell (other : NamesOther W func inner e s) : ∃ c, s.cell e = some c := by
  cases other with
  | value cell => exact ⟨_, cell⟩
  | symbol cell => exact ⟨_, cell⟩

/-- The look at the head does not come upon the function, and changes nothing. -/
def SeenOnly (W : World) (func inner e : Ptr) (s : State) : Prop :=
  ∃ h, h ≠ func ∧ (runtime W).Runs (bodyHead inner e) s h s

theorem atom_seen {c : Cell} (filled : func ≠ .null) (cell : s.cell e = some c)
    (noList : c.type ≠ .cons) : SeenOnly W func inner e s := by
  refine ⟨.null, filled.symm, ?_⟩
  rw [bodyHead, runs_after (runs_load cell), if_pos noList]
  exact runs_pure_self _ _

theorem list_seen {c h : Cell} (filled : func ≠ .null) (cell : s.cell e = some c)
    (isList : c.type = .cons) (head : s.cell c.car = some h) (noIf : h.type ≠ .operIf)
    (other : NamesOther W func inner c.car s) : SeenOnly W func inner e s := by
  rcases names_other_runs filled other head fun _ => runs_pure_self _ _ with ⟨v, apart, run⟩
  refine ⟨v, apart, ?_⟩
  rw [bodyHead, runs_after (runs_load cell), if_neg (not_not.2 isList), runs_after (runs_load head),
    if_neg noIf]
  exact run

/-- The look at an `if` whose value is not headed by a name of the function. -/
theorem branch_looked {c h d : Cell} {r : Ptr} (filled : func ≠ .null) (cell : s.cell e = some c)
    (isList : c.type = .cons) (head : s.cell c.car = some h) (isIf : h.type = .operIf)
    (first : (runtime W).Runs (blEvalIf true inner e) s r p) (value : p.cell r = some d)
    (other : d.type = .cons → NamesOther W func inner d.car p) :
    ∃ v, v ≠ func ∧ (runtime W).Runs (bodyHead inner e) s v p := by
  have noSymbol : h.type ≠ .symbol := by
    rw [isIf]
    decide
  simp only [bodyHead, runs_after (runs_load cell), if_neg (not_not.2 isList),
    runs_after (runs_load head), if_neg noSymbol, if_pos isIf, runs_after first,
    runs_after (runs_load value)]
  by_cases list : d.type = .cons
  · rcases names_other_cell (other list) with ⟨rh, known⟩
    simp only [if_pos list, runs_after (runs_load known)]
    exact names_other_runs filled (other list) known fun _ => runs_pure_self _ _
  · simp only [if_neg list]
    exact ⟨.null, filled.symm, runs_pure_self _ _⟩

/-- An expression that is no call of the function is evaluated, and the loop goes on behind
it. -/
theorem loop_turn {c d : Cell} {h : Ptr} (cell : s.cell i = some c) (closure : ClosureOf s func inner)
    (looked : (runtime W).Runs (bodyHead inner c.car) s h p) (other : h ≠ func)
    (evaluated : (runtime W).Runs (blEval .funcBody inner c.car) p v m)
    (cell' : m.cell i = some d) :
    (runtime W).Reaches (funcbodyLoop func i) s
      (if d.cdr = .null then pure v else call (.funcbody func d.cdr)) m := by
  rcases closure with ⟨f, known, points⟩
  apply reaches_after (runs_load cell)
  apply reaches_after (runs_load known)
  apply reaches_after (runs_member points s)
  apply reaches_after looked
  rw [if_neg other]
  apply reaches_after evaluated
  apply reaches_after (runs_load cell')
  exact .refl _ _

/-- A call is over when the body is, and its value is that of the body. -/
theorem run_func_body_iff {f : Cell} (function : s.cell func = some f) :
    (runtime W).Runs (runFuncBody func) s v t ↔
      (runtime W).Runs (call (.funcbody func f.car)) s v t := by
  have begun : (runtime W).Runs (startBody func) s () s := runs_step rfl
  have left (u : State) : (runtime W).Runs leave u () u := runs_step rfl
  rw [runFuncBody, runs_after begun, runs_after (runs_load function)]
  constructor
  · intro run
    obtain ⟨w, u, body, rest⟩ := runs_bind.1 run
    rw [runs_after (left u), orNull, if_neg (funcbody_ne_null body)] at rest
    obtain ⟨rfl, rfl⟩ := runs_pure.1 rest
    exact body
  · intro body
    rw [runs_after body, runs_after (left t), orNull, if_neg (funcbody_ne_null body)]
    exact runs_pure_self _ _

/-- The body runner gives what the evaluation in order gives, where the cells there were, `n`
of them, stay the same, and others correspond one to one. -/
structure InOrder (W : World) (n : Nat) (func i : Ptr) (s : State) : Prop where
  forward : ∀ v t, (runtime W).Runs (call (.funcbody func i)) s v t →
    ∃ w u, Sequential W func i s w u ∧ Agree n v t w u
  back : ∀ w u, Sequential W func i s w u →
    ∃ v t, (runtime W).Runs (call (.funcbody func i)) s v t ∧ Agree n v t w u

end Bodies

end BearLang.BodyRunner
