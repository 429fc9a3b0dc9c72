import Mathlib.Algebra.Ring.Int.Defs
import Mathlib.Algebra.Ring.Nat
import Mathlib.Data.List.Basic

/-!
# Values, cells and the state of the runtime

`bl_val_t` of `types.h`. A value is a cell with a type tag, some header fields
and a union. The union is kept as its words, because the code reads one member
of it where another was written: `cdr`, `i_val`, `sym_id`, `bl_funcargs_ptr` and
`min_args` all start at the second word. A pointer that is not the address of a
value is `wild`, and following it or `NULL` is a fault.
-/

namespace BearLang

set_option autoImplicit false

abbrev Byte := UInt8

/-- The bytes of a C string, without the terminating zero. -/
abbrev CStr := List Byte

def chr (c : Char) : Byte := c.toNat.toUInt8

def text (s : String) : CStr := s.toList.map chr

/-- A C string read out of a buffer ends at the first zero byte. -/
def cString (bytes : CStr) : CStr := bytes.takeWhile (· != 0)

/-- `bl_val_type_t`, in the order of `data_types.inc`. -/
inductive ValType where
  | none | null | error | symbol | number | bool | string | cons | operNative | funcNative
  | operBl | funcBl | ctx | cptr | any | listEnd | operDo | operIf | operWhile | docstring | type
deriving DecidableEq, Repr

def ValType.code (t : ValType) : Nat := t.ctorIdx

/-- `bl_err_type_t`, numbered from 0 as in `err_types.inc`. -/
inductive ErrType where
  | any | unknown | parse | insufficientArgs | tooManyArgs | invalidArgType | symbolNotFound
  | divideByZero | custom | io | moduleNotFound | blCustom | internal
deriving DecidableEq, Repr

def ErrType.code (t : ErrType) : Nat := t.ctorIdx

/-- The operators of `builtins.inc`. -/
inductive Builtin where
  | profile | listbuiltins | aget | split | startswith | pmatch | add | sub | mult | div | mod
  | set | fn | defun | foreach | filtered | throw | oper | map | eq | lt | gt | print
  | and | not | or | xor | first | second | third | rest | append | prepend | reverse
  | includeFile | importModule | isset | serexp | inc | dec | parse | eval | tryCatch | quote
  | usingModule | doc | dir | mksym | ctxget | type
deriving DecidableEq, Repr

/-- What a `code_ptr` points to: a builtin, or an operator of an extension module. -/
inductive Native where
  | builtin (operator : Builtin)
  | extension (number : Nat)
deriving DecidableEq, Repr

/-- A `bl_val_t*`. -/
inductive Ptr where
  | null
  | ref (address : Nat)
  | wild
deriving DecidableEq, Repr

/-- One of the first two words of the union. `raw` is a non-zero word that is
no address of a value, such as a pointer to an array. -/
inductive Word where
  | zero
  | addr (address : Nat)
  | int (n : Nat)
  | str (s : CStr)
  | mpz (i : Int)
  | code (op : Native)
  | raw
deriving DecidableEq, Repr

def Word.ofPtr : Ptr → Word
  | .null => .zero
  | .ref address => .addr address
  | .wild => .raw

def Word.ofNat (n : Nat) : Word := if n = 0 then .zero else .int n

/-- The word read as a `bl_val_t*`. -/
def Word.ptr : Word → Ptr
  | .zero => .null
  | .addr address => .ref address
  | _ => .wild

@[simp] theorem word_ptr_of_ptr (p : Ptr) : (Word.ofPtr p).ptr = p := by
  cases p <;> rfl

/-- The members of a `BL_VAL_TYPE_CTX` union. -/
structure Ctx where
  keys : List Ptr
  vals : List Ptr
  valsCount : Nat
  parent : Ptr
  /-- the custom get function, by the number of its extension -/
  ctxGet : Option Nat
  writeToParent : Bool
deriving DecidableEq, Repr

/-- The members of `bl_err_t` behind the first two words. -/
structure ErrInfo where
  maxArgs : Nat := 0
  providedArgs : Nat := 0
  expectedTypes : List ValType := []
  providedTypes : List ValType := []
  symbolName : Option CStr := Option.none
  errmsg : Option CStr := Option.none
  errnum : Nat := 0
  errSym : Ptr := .null
  errVal : Ptr := .null
deriving DecidableEq, Repr

/-- The union behind its first two words. -/
inductive Tail where
  | zeros
  | closure (lexical inner sym : Ptr)
  | ctx (c : Ctx)
  | err (e : ErrInfo)
deriving DecidableEq, Repr

structure Cell where
  type : ValType
  w0 : Word := .zero
  w1 : Word := .zero
  tail : Tail := .zeros
  docstr : Ptr := .null
  invokedSym : Ptr := .null
  customData : Nat := 0
  lineNum : Nat := 0
deriving DecidableEq, Repr

namespace Cell

def car (c : Cell) : Ptr := c.w0.ptr

def cdr (c : Cell) : Ptr := c.w1.ptr

/-- `i_val`. A small number in its place is an `mpz_t` of size 0; an address in
its place would be a wild limb count. -/
def iVal (c : Cell) : Option Int :=
  match c.w1 with
  | .zero => some 0
  | .mpz i => some i
  | .int n => if n < 2 ^ 32 then some 0 else Option.none
  | _ => Option.none

/-- `i_val` can be a destination: an `mpz_t` made by GMP, or zero memory. -/
def iValWritable (c : Cell) : Bool :=
  match c.w1 with
  | .zero => true
  | .mpz _ => true
  | _ => false

def sVal (c : Cell) : Option CStr :=
  match c.w0 with
  | .str s => some s
  | _ => Option.none

def symId (c : Cell) : Option Nat :=
  match c.w1 with
  | .zero => some 0
  | .int n => some n
  | _ => Option.none

/-- `b_val` is the first byte; of an address it is not determined. -/
def bVal (c : Cell) : Option Bool :=
  match c.w0 with
  | .zero => some false
  | .int n => some (n != 0)
  | _ => Option.none

/-- `err_val.type`, as a number. -/
def errType (c : Cell) : Option Nat :=
  match c.w0 with
  | .zero => some 0
  | .int n => some n
  | _ => Option.none

def refType (c : Cell) : Option Nat := c.errType

def codePtr (c : Cell) : Option Native :=
  match c.w0 with
  | .code op => some op
  | _ => Option.none

/-- The context members of any cell; a cell that ends after its second word is
an empty context without parent. -/
def asCtx (c : Cell) : Option Ctx :=
  match c.tail with
  | .ctx c => some c
  | .zeros => some ⟨[], [], 0, .null, Option.none, false⟩
  | .err e =>
      if e.providedArgs = 0 ∧ e.expectedTypes = [] ∧ e.symbolName = Option.none then
        some ⟨[], [], 0, .null, Option.none, false⟩
      else Option.none
  | .closure .. => Option.none

def lexicalClosure (c : Cell) : Option Ptr :=
  match c.tail with
  | .closure lexical _ _ => some lexical
  | _ => Option.none

def innerClosure (c : Cell) : Option Ptr :=
  match c.tail with
  | .closure _ inner _ => some inner
  | _ => Option.none

def sym (c : Cell) : Option Ptr :=
  match c.tail with
  | .closure _ _ sym => some sym
  | _ => Option.none

def err (c : Cell) : ErrInfo :=
  match c.tail with
  | .err e => e
  | _ => {}

/-- `bl_mk_val(BL_VAL_TYPE_CONS)` with its two members set. -/
def mkCons (car cdr : Ptr) : Cell :=
  { type := .cons, w0 := .ofPtr car, w1 := .ofPtr cdr }

def mkNumber (i : Int) : Cell := { type := .number, w1 := .mpz i }

def mkStr (s : CStr) : Cell := { type := .string, w0 := .str s }

def mkDocstr (s : CStr) : Cell := { type := .docstring, w0 := .str s }

def mkErr (t : ErrType) (minArgs : Nat) (e : ErrInfo) : Cell :=
  { type := .error, w0 := .ofNat t.code, w1 := .ofNat minArgs, tail := .err e }

def mkType (t : ValType) : Cell := { type := .type, w0 := .ofNat t.code }

/-- A function or user-defined oper: body, parameters and closures. -/
def mkClosure (t : ValType) (body params lexical inner sym docstr : Ptr) : Cell :=
  { type := t, w0 := .ofPtr body, w1 := .ofPtr params, tail := .closure lexical inner sym,
    docstr := docstr }

@[simp] theorem mk_cons_car (car cdr : Ptr) : (mkCons car cdr).car = car := word_ptr_of_ptr car

@[simp] theorem mk_cons_cdr (car cdr : Ptr) : (mkCons car cdr).cdr = cdr := word_ptr_of_ptr cdr

@[simp] theorem mk_cons_type (car cdr : Ptr) : (mkCons car cdr).type = .cons := rfl

end Cell

/-- `struct sym_hash_t`: 31 bytes of a name and the symbol made for it. -/
structure SymHash where
  key : CStr
  sym : Nat
deriving DecidableEq, Repr

/-- The whole state of the runtime. Cells are never freed. The symbol table holds its newest
entry first, as a bucket of the hash table does until it is expanded; after that, entries
with one key of 31 bytes may stand in another order. -/
structure State where
  cells : List Cell
  symbolTable : List SymHash := []
  lastSymId : Nat := 0
  out : CStr := []
deriving Repr

/-- `null_val`, `true_val` and the other values with a static address. -/
def nullVal : Ptr := .ref 0
def trueVal : Ptr := .ref 1
def falseVal : Ptr := .ref 2
def ifOperVal : Ptr := .ref 3
def doOperVal : Ptr := .ref 4
def endListVal : Ptr := .ref 5
def whileOperVal : Ptr := .ref 6

def staticCells : List Cell :=
  [{ type := .null }, { type := .bool, w0 := .int 1 }, { type := .bool },
   { type := .operIf }, { type := .operDo }, { type := .listEnd }, { type := .operWhile }]

def State.initial : State := { cells := staticCells }

def blMkBool (b : Bool) : Ptr := if b then trueVal else falseVal

namespace State

@[grind =]
def cell (s : State) : Ptr → Option Cell
  | .ref address => s.cells[address]?
  | _ => none

def allocated (s : State) (c : Cell) : State := { s with cells := s.cells ++ [c] }

/-- The address the next allocation gives. -/
def fresh (s : State) : Nat := s.cells.length

def put (s : State) (address : Nat) (c : Cell) : State :=
  { s with cells := s.cells.set address c }

def typeOf (s : State) (p : Ptr) : Option ValType := (s.cell p).map Cell.type

@[simp] theorem fresh_allocated (s : State) (c : Cell) : (s.allocated c).fresh = s.fresh + 1 := by
  simp [fresh, allocated]

@[simp] theorem fresh_put (s : State) (a : Nat) (c : Cell) : (s.put a c).fresh = s.fresh := by
  simp [fresh, put]

/-- Only addresses lead to cells. -/
theorem ref_of_cell {s : State} {p : Ptr} {c : Cell} (known : s.cell p = some c) :
    ∃ a, p = .ref a := by
  cases p with
  | ref a => exact ⟨a, rfl⟩
  | null => cases known
  | wild => cases known

theorem ref_lt_fresh {s : State} {a : Nat} {c : Cell} (known : s.cell (.ref a) = some c) :
    a < s.fresh := by
  obtain ⟨bound, _⟩ := List.getElem?_eq_some_iff.1 known
  exact bound

theorem cell_allocated_old {s : State} {p : Ptr} {c : Cell} (known : s.cell p = some c)
    (extra : Cell) : (s.allocated extra).cell p = some c := by
  cases p with
  | ref a =>
      have bound := ref_lt_fresh known
      simp only [cell, allocated] at known ⊢
      rw [List.getElem?_append_left bound]
      exact known
  | null => simp [cell] at known
  | wild => simp [cell] at known

@[simp] theorem cell_allocated_new (s : State) (c : Cell) :
    (s.allocated c).cell (.ref s.fresh) = some c := by
  simp [cell, allocated, fresh]

theorem cell_put_same {s : State} {a : Nat} (bound : a < s.fresh) (c : Cell) :
    (s.put a c).cell (.ref a) = some c := by
  simp only [cell, put]
  exact List.getElem?_set_self bound

theorem cell_put_other {s : State} {a : Nat} {p : Ptr} (other : p ≠ .ref a) (c : Cell) :
    (s.put a c).cell p = s.cell p := by
  cases p with
  | ref b =>
      have ne : a ≠ b := fun same => other (by rw [same])
      simp only [cell, put]
      exact List.getElem?_set_ne ne
  | null => rfl
  | wild => rfl

end State

end BearLang
