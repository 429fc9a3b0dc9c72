import BearLang.Builtins
import BearLang.RelatedPrograms

/-!
# Cells at other addresses

A relocation sends every address to another one, and no two to the same. Two states agree
under it when the cells of the first lie at the new addresses in the second, and point to
new addresses. What `invoked_sym` and `custom_data` hold is left open: every call of a
native operator notes them in its argument list.
-/

namespace BearLang

open CallPrograms Program

set_option autoImplicit false

structure Relocation where
  map : Nat → Nat
  injective : Function.Injective map
  static : ∀ a, a < staticCells.length → map a = a

section Values

variable (r : Relocation)

def Ptr.moved : Ptr → Ptr
  | .null => .null
  | .ref a => .ref (r.map a)
  | .wild => .wild

def Word.moved : Word → Word
  | .addr a => .addr (r.map a)
  | w => w

def Ctx.moved (c : Ctx) : Ctx :=
  { c with
    keys := c.keys.map (Ptr.moved r)
    vals := c.vals.map (Ptr.moved r)
    parent := c.parent.moved r }

def ErrInfo.moved (e : ErrInfo) : ErrInfo :=
  { e with errSym := e.errSym.moved r, errVal := e.errVal.moved r }

def Tail.moved : Tail → Tail
  | .zeros => .zeros
  | .closure lexical inner sym => .closure (lexical.moved r) (inner.moved r) (sym.moved r)
  | .ctx c => .ctx (c.moved r)
  | .err e => .err (e.moved r)

/-- The cell at its new address, with what a call has noted there. -/
def Cell.moved (sym : Ptr) (data : Nat) (c : Cell) : Cell :=
  { type := c.type, w0 := c.w0.moved r, w1 := c.w1.moved r, tail := c.tail.moved r,
    docstr := c.docstr.moved r, invokedSym := sym, customData := data, lineNum := c.lineNum }

/-- The same cell but for its address and the notes of calls. -/
def CopyOf (c d : Cell) : Prop := ∃ sym data, d = c.moved r sym data

variable {r}

@[simp] theorem moved_of_ptr (p : Ptr) : (Word.ofPtr p).moved r = .ofPtr (p.moved r) := by
  cases p <;> rfl

end Values

section Cells

variable {r : Relocation} {sym : Ptr} {data : Nat} {c : Cell}

end Cells

section Contexts

variable {r : Relocation}

end Contexts

section States

variable {r : Relocation} {s t : State} {a : Nat} {p : Ptr}

/-- The second state is the first one with its cells at new addresses, and perhaps others
among them; what is allocated next lies at the new address of its own. -/
structure Moved (r : Relocation) (s t : State) : Prop where
  cells : ∀ a c, s.cells[a]? = some c → ∃ d, t.cells[r.map a]? = some d ∧ CopyOf r c d
  placed : ∀ a, s.fresh ≤ a → r.map a + s.fresh = a + t.fresh
  table : t.symbolTable = s.symbolTable.map fun e => ⟨e.key, r.map e.sym⟩
  ids : t.lastSymId = s.lastSymId
  out : t.out = s.out

def Relocation.comp (q r : Relocation) : Relocation where
  map a := q.map (r.map a)
  injective := q.injective.comp r.injective
  static a low := by rw [r.static a low, q.static a low]

variable {q : Relocation}

end States

section Operations

variable (r : Relocation)

variable {r} {s t : State}

end Operations

end BearLang
