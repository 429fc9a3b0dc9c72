import BearLang.HeapRegions
import BearLang.RelocatedRuntime
import Mathlib.Data.List.Forall2
import Mathlib.Logic.Relation

/-!
# States that agree up to unreachable cells

Two states agree when their cells stand for each other one to one, the cells below a bound
each for itself, and cells that stand for each other differ in their pointers at most, which
lead to cells that stand for each other again. A cell that stands for none is out of reach
of those that do.
-/

namespace BearLang

open CallPrograms RelocatedCode

set_option autoImplicit false

section Cells

def Word.shape : Word → Word
  | .addr _ => .zero
  | w => w

def Ctx.shape (c : Ctx) : Ctx :=
  { c with
    keys := List.replicate c.keys.length .null
    vals := List.replicate c.vals.length .null
    parent := .null }

def Tail.shape : Tail → Tail
  | .zeros => .zeros
  | .closure .. => .closure .null .null .null
  | .ctx c => .ctx c.shape
  | .err e => .err { e with errSym := .null, errVal := .null }

/-- The cell without its pointers and without the notes of calls. -/
def Cell.shape (c : Cell) : Cell :=
  { type := c.type, w0 := c.w0.shape, w1 := c.w1.shape, tail := c.tail.shape, lineNum := c.lineNum }

def Tail.links : Tail → List Ptr
  | .zeros => []
  | .closure lexical inner sym => [lexical, inner, sym]
  | .ctx c => c.parent :: (c.keys ++ c.vals)
  | .err e => [e.errSym, e.errVal]

/-- The pointers of the cell but for what calls note. -/
def Cell.links (c : Cell) : List Ptr := c.car :: c.cdr :: c.docstr :: c.tail.links

variable {r : Relocation} {sym : Ptr} {data : Nat} {c : Cell}

end Cells

section Agreement

variable {B C : Nat → Nat → Prop} {n : Nat} {s t u : State} {v w x : Ptr}

/-- Both pointers lead to cells that stand for each other, or both to none. -/
inductive Paired (B : Nat → Nat → Prop) : Ptr → Ptr → Prop
  | null : Paired B .null .null
  | wild : Paired B .wild .wild
  | ref {a b : Nat} (related : B a b) : Paired B (.ref a) (.ref b)

structure PairedCells (B : Nat → Nat → Prop) (c d : Cell) : Prop where
  shape : c.shape = d.shape
  links : List.Forall₂ (Paired B) c.links d.links

structure Corresponds (n : Nat) (B : Nat → Nat → Prop) (s t : State) : Prop where
  old : ∀ a, a < n → B a a
  functional : ∀ a b b', B a b → B a b' → b = b'
  injective : ∀ a a' b, B a b → B a' b → a = a'
  cells : ∀ a b, B a b → Option.Rel (PairedCells B) (s.cell (.ref a)) (t.cell (.ref b))
  table : List.Forall₂ (fun e f => e.key = f.key ∧ B e.sym f.sym) s.symbolTable t.symbolTable
  ids : s.lastSymId = t.lastSymId
  out : s.out = t.out

/-- The values and the states are the same, but for where cells made at `n` or later lie and
for cells out of reach. -/
def Agree (n : Nat) (v : Ptr) (s : State) (w : Ptr) (t : State) : Prop :=
  ∃ B, Corresponds n B s t ∧ Paired B v w

end Agreement

section OnlyAdds

variable {s t : State}

/-- Room for `k` cells is made at `n`. -/
def Relocation.shift (n k : Nat) (room : staticCells.length ≤ n) : Relocation where
  map a := if a < n then a else a + k
  injective := by
    intro a b same
    dsimp only at same
    split at same <;> split at same <;> omega
  static a low := if_pos (Nat.lt_of_lt_of_le low room)

end OnlyAdds

end BearLang
