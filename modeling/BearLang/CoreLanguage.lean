import BearLang.Division
import BearLang.Assignments
import BearLang.StructuredPrograms

/-!
# The core of the language

Expressions that only compute a value, and the forms `=`, `do`, `if` and `while`
over them. What a program of the core means is said over a store of variables;
how it lies in memory, by the list cells, symbols and values that the reader
makes of its text.
-/

namespace BearLang.CoreLanguage

open CallPrograms EqualValues OperandEvaluation StructuredPrograms

set_option autoImplicit false

section Syntax

/-- The operators of two operands that only compute. -/
inductive Operator where
  | add | sub | mult | div | mod | lt | gt | eq | and | or | xor
deriving DecidableEq, Repr

/-- A variable is the id of its symbol. -/
inductive Expr where
  | const (x : Simple)
  | var (x : Nat)
  | call (op : Operator) (left right : Expr)
  | negate (e : Expr)

mutual
inductive Form where
  | absent
  | value (e : Expr)
  | assign (x : Nat) (e : Expr)
  | block (body : Body)
  | branch (test : Expr) (yes no : Form)
  | loop (test : Expr) (body : Body)
inductive Body where
  | last (form : Form)
  | next (form : Form) (rest : Body)
end

end Syntax

section Meaning

abbrev Store := Nat → Option Simple

def Store.set (σ : Store) (x : Nat) (v : Simple) : Store := fun y => if y = x then some v else σ y

/-- The values of the operators where the language gives one: numbers with
numbers, texts with texts, and no division by zero. -/
def Operator.apply : Operator → Simple → Simple → Option Simple
  | .add, .number a, .number b => some (.number (a + b))
  | .add, .string a, .string b => some (.string (a ++ b))
  | .sub, .number a, .number b => some (.number (a - b))
  | .mult, .number a, .number b => some (.number (a * b))
  | .div, .number a, .number b => if b = 0 then none else some (.number (a.tdiv b))
  | .mod, .number a, .number b => if b = 0 then none else some (.number (a % b))
  | .lt, .number a, .number b => some (.bool (decide (a < b)))
  | .gt, .number a, .number b => some (.bool (decide (b < a)))
  | .eq, .number a, .number b => some (.bool (a == b))
  | .eq, .string a, .string b => some (.bool (a == b))
  | .and, .bool a, .bool b => some (.bool (a && b))
  | .or, .bool a, .bool b => some (.bool (a || b))
  | .xor, .bool a, .bool b => some (.bool (a ^^ b))
  | _, _, _ => none

def negation : Simple → Option Simple
  | .bool b => some (.bool (!b))
  | _ => none

def Expr.eval (σ : Store) : Expr → Option Simple
  | .const x => some x
  | .var x => σ x
  | .call op left right => do op.apply (← left.eval σ) (← right.eval σ)
  | .negate e => do negation (← e.eval σ)

def Expr.test (e : Expr) (σ : Store) : Option Bool :=
  match e.eval σ with
  | some (.bool b) => some b
  | _ => none

mutual
def Form.command : Form → Command Store Simple
  | .absent => .act fun σ => some (.none, σ)
  | .value e => .act fun σ => (e.eval σ).map fun v => (v, σ)
  | .assign x e => .act fun σ => (e.eval σ).map fun v => (v, σ.set x v)
  | .block body => body.command
  | .branch test yes no => .choose test.test yes.command no.command
  | .loop test body => .loop test.test body.command .none
def Body.command : Body → Command Store Simple
  | .last form => form.command
  | .next form rest => .next form.command rest.command
end

end Meaning

section Memory

def Operator.builtin : Operator → Builtin
  | .add => .add
  | .sub => .sub
  | .mult => .mult
  | .div => .div
  | .mod => .mod
  | .lt => .lt
  | .gt => .gt
  | .eq => .eq
  | .and => .and
  | .or => .or
  | .xor => .xor

/-- The head of an operator's call: a plain name, none of the variables, that is
bound to the operator. -/
def OperatorHead (s : State) (ctx : Ptr) (vars : Nat → Prop) (b : Builtin) (key : Ptr) : Prop :=
  ∃ id m v op, PlainSymbol s key id ∧ ¬ vars id ∧ Finds s id ctx m v ∧ s.cell v = some op ∧
    op.type = .operNative ∧ op.codePtr = some (.builtin b)

/-- The head of a form: the reader puts the form itself there. -/
def FormHead (s : State) (kind : ValType) (key : Ptr) : Prop := s.typeOf key = some kind

/-- A list cell with such a head, and where its operands are. -/
def CallAt (s : State) (head : Ptr → Prop) (p : Ptr) (n : Nat) : Prop :=
  ∃ c, s.cell p = some c ∧ c.type = .cons ∧ c.cdr = .ref n ∧ head c.car

def VarAt (s : State) (vars : Nat → Prop) (x : Nat) (p : Ptr) : Prop := PlainSymbol s p x ∧ vars x

def ExprAt (s : State) (ctx : Ptr) (vars : Nat → Prop) : Expr → Ptr → Prop
  | .const x, p => Holds s x p
  | .var x, p => VarAt s vars x p
  | .call op left right, p => ∃ n k q r, CallAt s (OperatorHead s ctx vars op.builtin) p n ∧
      CellsAt s [(n, q), (k, r)] (.ref n) ∧ ExprAt s ctx vars left q ∧ ExprAt s ctx vars right r
  | .negate e, p => ∃ n q, CallAt s (OperatorHead s ctx vars .not) p n ∧
      CellsAt s [(n, q)] (.ref n) ∧ ExprAt s ctx vars e q

/-- The `else` of an `if` may be left out. -/
def BranchesAt (s : State) (n : Nat) (test yes no : Ptr) : Prop :=
  ListAt s [test, yes, no] (.ref n) ∨ no = .null ∧ ListAt s [test, yes] (.ref n)

mutual
def FormAt (s : State) (ctx : Ptr) (vars : Nat → Prop) : Form → Ptr → Prop
  | .absent, p => p = .null
  | .value e, p => ExprAt s ctx vars e p
  | .assign x e, p => ∃ n k q r, CallAt s (OperatorHead s ctx vars .set) p n ∧
      CellsAt s [(n, q), (k, r)] (.ref n) ∧ VarAt s vars x q ∧ ExprAt s ctx vars e r
  | .block body, p => ∃ n, CallAt s (FormHead s .operDo) p n ∧ BodyAt s ctx vars body (.ref n)
  | .branch test yes no, p => ∃ n q r u, CallAt s (FormHead s .operIf) p n ∧
      BranchesAt s n q r u ∧ ExprAt s ctx vars test q ∧ FormAt s ctx vars yes r ∧
      FormAt s ctx vars no u
  | .loop test body, p => ∃ n c, CallAt s (FormHead s .operWhile) p n ∧
      s.cell (.ref n) = some c ∧ c.type = .cons ∧ ExprAt s ctx vars test c.car ∧
      BodyAt s ctx vars body c.cdr
def BodyAt (s : State) (ctx : Ptr) (vars : Nat → Prop) : Body → Ptr → Prop
  | .last form, q => ∃ c, s.cell q = some c ∧ c.type = .cons ∧ c.cdr = .null ∧
      FormAt s ctx vars form c.car
  | .next form rest, q => ∃ c, s.cell q = some c ∧ c.type = .cons ∧
      FormAt s ctx vars form c.car ∧ BodyAt s ctx vars rest c.cdr
end

/-- The state stands for the store: what is read from the context under the
name of a variable is its value, and an assignment is written there. -/
structure Stands (ctx : Ptr) (vars : Nat → Prop) (σ : Store) (s : State) : Prop where
  closed : Closed s
  context : ∃ c, Assignments.ContextAt s ctx c ∧ c.writeToParent = false
  none_ : Holds s .none nullVal
  true_ : Holds s (.bool true) trueVal
  false_ : Holds s (.bool false) falseVal
  bound : ∀ x v, σ x = some v → vars x ∧ ∃ m p, Finds s x ctx m p ∧ Holds s v p

end Memory

end BearLang.CoreLanguage
