import BearLang.Machine

/-!
# Lists and argument checks

`list_ops.c` and `error_tools.c`. A list is read through whatever `car` and
`cdr` show, so these functions take any value, as the code does.
-/

namespace BearLang

open CallPrograms

set_option autoImplicit false

section ListOps

def blListFirst (L : Ptr) : Prog Ptr :=
  if L = .null then pure .null
  else do
    let c ← load L
    pure c.car

def blListRest (L : Ptr) : Prog Ptr :=
  if L = .null then pure .null
  else do
    let c ← load L
    pure c.cdr

def blListSecond (L : Ptr) : Prog Ptr :=
  if L = .null then pure .null
  else do
    let rest ← blListRest L
    blListFirst rest

def blListThird (L : Ptr) : Prog Ptr := do
  let rest ← blListRest L
  blListSecond rest

def blListPrepend (L val : Ptr) : Prog Ptr := alloc (.mkCons val L)

def lastCellLoop (L : Ptr) : Prog Ptr := do
  let c ← load L
  if c.cdr = .null then pure L else call (.lastCell c.cdr)

def blListLast (L : Ptr) : Prog Ptr :=
  if L = .null then pure .null
  else do
    let last ← call (.lastCell L)
    let c ← load last
    pure c.car

def blListAppend (L val : Ptr) : Prog Ptr :=
  if L = .null then blListPrepend L val
  else do
    let last ← call (.lastCell L)
    let new ← alloc (.mkCons val .null)
    setCdr .append last new
    pure L

def listLenLoop (i : Ptr) (count : Nat) : Prog Nat :=
  if i = .null then pure count
  else do
    let c ← load i
    call (.listLen c.cdr (count + 1))

def blListLen (L : Ptr) : Prog Nat :=
  if L = .null then pure 0
  else do
    let c ← load L
    if c.type = .null then pure 0
    else if c.car = .null then pure 0
    else call (.listLen L 0)

def reverseLoop (L retval : Ptr) : Prog Ptr :=
  if L = .null then pure retval
  else do
    let c ← load L
    let retval ← blListPrepend retval c.car
    call (.reverseLoop c.cdr retval)

def blListReverse (L : Ptr) : Prog Ptr := call (.reverseLoop L .null)

def prependAll : List Ptr → Ptr → Prog Ptr
  | [], retval => pure retval
  | val :: vals, retval => do
      let retval ← blListPrepend retval val
      prependAll vals retval

def blMkList (vals : List Ptr) : Prog Ptr :=
  if vals = [] then alloc (.mkCons .null .null)
  else do
    let retval ← prependAll vals .null
    blListReverse retval

end ListOps

section ErrorTools

def typeOf (p : Ptr) : Prog ValType := do
  let c ← load p
  pure c.type

def longestList : Nat := 2 ^ 64 - 1

def blMkErr (t : ErrType) : Prog Ptr := alloc (.mkErr t 0 {})

def blErrSymnotfound (sym : CStr) : Prog Ptr :=
  alloc (.mkErr .symbolNotFound 0 { symbolName := some sym })

def blErrModnotfound (mod : CStr) : Prog Ptr :=
  alloc (.mkErr .moduleNotFound 0 { symbolName := some mod })

def blErrDivzero : Prog Ptr := blMkErr .divideByZero

def blErrifInvalidLen (L : Ptr) (min max : Nat) : Prog Ptr := do
  let t ← typeOf L
  if t = .error then pure L
  else
    let len ← blListLen L
    if min ≤ len ∧ len ≤ max then pure .null
    else
      let info : ErrInfo := { maxArgs := max, providedArgs := len }
      if len < min then alloc (.mkErr .insufficientArgs min info)
      else alloc (.mkErr .tooManyArgs min info)

/-- The checking loop: the first argument that is an error, or whether all
types are as expected. -/
def checkArgs : List ValType → Ptr → Bool → Prog (Ptr × Bool)
  | [], _, isGood => pure (.null, isGood)
  | expected :: rest, i, isGood => do
      let c ← load i
      let t ← typeOf c.car
      if t = .error then pure (c.car, isGood)
      else if expected ≠ t ∧ expected ≠ .any then checkArgs rest c.cdr false
      else checkArgs rest c.cdr isGood

def argTypes : List ValType → Ptr → Prog (List ValType)
  | [], _ => pure []
  | _ :: rest, i => do
      let c ← load i
      let t ← typeOf c.car
      let types ← argTypes rest c.cdr
      pure (t :: types)

def blErrifInvalidFixedArgs (params : Ptr) (expected : List ValType) : Prog Ptr := do
  let n := expected.length
  let invalid ← blErrifInvalidLen params n n
  if invalid ≠ .null then pure invalid
  else
    let (found, isGood) ← checkArgs expected params true
    if found ≠ .null then pure found
    else if isGood then pure .null
    else
      let provided ← argTypes expected params
      alloc (.mkErr .invalidArgType n
        { maxArgs := n, providedArgs := n, expectedTypes := expected, providedTypes := provided })

/-- The filling loop of `bl_errif_invalid_firstarg`, whose cursor stays where it is. -/
def otherArgTypes : Nat → Ptr → Prog (List ValType)
  | 0, _ => pure []
  | n + 1, i => do
      let c ← load i
      let t ← typeOf c.car
      let types ← otherArgTypes n i
      pure (t :: types)

def blErrifInvalidFirstarg (params : Ptr) (expected : ValType) : Prog Ptr := do
  let invalid ← blErrifInvalidLen params 1 longestList
  if invalid ≠ .null then pure invalid
  else
    let first ← blListFirst params
    let t ← typeOf first
    if t = expected then pure .null
    else
      let n ← blListLen params
      let c ← load params
      let provided ← otherArgTypes (n - 1) c.cdr
      alloc (.mkErr .invalidArgType 1
        { maxArgs := longestList, providedArgs := n
          expectedTypes := expected :: List.replicate (n - 1) .any
          providedTypes := t :: provided })

end ErrorTools

end BearLang
