import BearLang.Contexts

/-!
# Printing values, and strings

`bl_ser_sexp` and `bl_ser_naked_sexp` of `sexp.c`, `bl_errmsg` of
`error_tools.c`, and `string_ops.c`.
-/

namespace BearLang

open CallPrograms

set_option autoImplicit false

section Numbers

/-- `%llu` -/
def decimal (n : Nat) : CStr := (Nat.toDigits 10 n).map chr

def mpzGetStr : Int → CStr
  | .ofNat n => decimal n
  | .negSucc n => chr '-' :: decimal (n + 1)

end Numbers

section ErrorMessages

/-- `snprintf` into a buffer of `size` bytes. -/
def snprintf (size : Nat) (s : CStr) : CStr := s.take (size - 1)

def blSerType : ValType → CStr
  | .null => text "NULL"
  | .error => text "ERROR"
  | .symbol => text "SYMBOL"
  | .number => text "NUMBER"
  | .bool => text "BOOL"
  | .string => text "STRING"
  | .cons => text "CONS"
  | .operNative => text "OPER"
  | .funcBl => text "FUNCTION"
  | .funcNative => text "FUNCTION"
  | .ctx => text "CONTEXT"
  | .cptr => text "CPTR"
  | .any => text "ANY"
  | _ => text "UNKNOWN"

def blSerTypes (count : Nat) (types : List ValType) : CStr :=
  let retbuf := ((types.take count).map fun t => blSerType t ++ text ",").flatten
  (text "(" ++ retbuf).dropLast ++ text ")"

def blErrmsg (E : Ptr) : Prog CStr := do
  let c ← load E
  let e := c.err
  let code ← member c.errType
  let minArgs := c.symId.getD 0
  let message (s : CStr) : Prog CStr := pure (snprintf 1023 s)
  if code = ErrType.unknown.code then message (text "Unknown error!")
  else if code = ErrType.parse.code then
    message (text "Could not parse: TODO: implement this")
  else if code = ErrType.insufficientArgs.code then
    message (text "Insufficient arguments, expected at least " ++ decimal minArgs ++
      text ", received " ++ decimal e.providedArgs)
  else if code = ErrType.tooManyArgs.code then
    message (text "Too many arguments, expected no more than " ++ decimal e.maxArgs ++
      text ", received " ++ decimal e.providedArgs)
  else if code = ErrType.invalidArgType.code then
    message (text "Invalid arguments, expected " ++
      blSerTypes e.providedArgs e.expectedTypes ++ text " but got " ++
      blSerTypes e.providedArgs e.providedTypes)
  else if code = ErrType.symbolNotFound.code then
    message (text "Symbol " ++ e.symbolName.getD (text "(null)") ++
      text " not found in current environment or any parent environment")
  else if code = ErrType.divideByZero.code then message (text "Divide by zero!")
  else if code = ErrType.custom.code then
    message (text "Error code " ++ decimal e.errnum ++ text ", " ++
      e.errmsg.getD (text "(null)"))
  else if code = ErrType.io.code then message (text "General I/O error")
  else if code = ErrType.moduleNotFound.code then
    message (text "Module " ++ e.symbolName.getD (text "(null)") ++ text " could not be found")
  else if code = ErrType.blCustom.code then do
    let sym ← load e.errSym
    let name ← member sym.sVal
    let val ← blSerSexp e.errVal
    message (name ++ text ": " ++ val)
  else if code = ErrType.any.code then
    message (text "Invalid error: ANY is for use in try/catch!")
  else if code = ErrType.internal.code then message (text "Internal error")
  else trap

end ErrorMessages

section Serialiser

/-- The loop over the cells of a list; every element is followed by a blank. -/
def serLoop (L : Ptr) (retval : CStr) : Prog CStr :=
  if L = .null then pure retval
  else do
    let c ← load L
    let newval ← blSerSexp c.car
    call (.serLoop c.cdr (retval ++ newval ++ text " "))

def serSexpBody (expr : Ptr) : Prog CStr :=
  if expr = .null then pure []
  else do
    let c ← load expr
    match c.type with
    | .any => pure (text "<any>")
    | .operIf => pure (text "if")
    | .funcNative => pure (text "<nativefunction>")
    | .none => pure (text "None")
    | .null => pure (text "None")
    | .ctx => pure (text "<ctx>")
    | .error => blErrmsg expr
    | .symbol => member c.sVal
    | .string => do
        let s ← member c.sVal
        pure (text "\"" ++ s ++ text "\"")
    | .number => do
        let i ← member c.iVal
        pure (mpzGetStr i)
    | .bool => do
        let b ← member c.bVal
        pure (if b then text "True" else text "False")
    | .funcBl => do
        let args ← blSerSexp c.cdr
        let body ← blSerSexp c.car
        pure (snprintf 1024 (text "(fn " ++ args ++ text " " ++ body ++ text ")"))
    | .operNative => pure (text "<nativeoper>")
    | .operBl => do
        let body ← blSerSexp c.car
        pure (snprintf 1024 (text "(oper user-oper " ++ body ++ text ")"))
    | .cons =>
        if c.car = .null then pure (text "()")
        else do
          -- the last blank becomes the closing parenthesis
          let s ← call (.serLoop expr (text "("))
          pure (s.dropLast ++ text ")")
    | _ => pure []

def blSerNakedSexp (expr : Ptr) : Prog CStr := do
  let s ← blSerSexp expr
  let t ← typeOf expr
  pure (if t = .string then (s.drop 1).dropLast else s)

end Serialiser

section StringOps

def safeStrcat (a b : Option CStr) : Option CStr :=
  match a, b with
  | none, b => b
  | a, none => a
  | some a, some b => some (a ++ b)

def joinLoop (i : Ptr) (sep : CStr) (retval : Option CStr) : Prog (Option CStr) :=
  if i = .null then pure retval
  else do
    let c ← load i
    let retval := if retval ≠ none then safeStrcat retval (some sep) else retval
    let s ← blSerNakedSexp c.car
    call (.joinLoop c.cdr sep (safeStrcat retval (some s)))

def joinStr (L : Ptr) (sep : CStr) : Prog (Option CStr) := call (.joinLoop L sep none)

/-- The string cut at the match, and what follows the match. An empty separator leaves
the terminator where the rest begins. -/
def tailSubstr (s sep : CStr) : Option (CStr × CStr) :=
  (strstr sep s).map fun i => (s.take i, if sep = [] then [] else s.drop (i + sep.length))

/-- `while(tail != NULL)` of `split_str`, with the cut ahead of the test. -/
def splitLoop (buf sep : CStr) (retval : Ptr) : Prog Ptr :=
  match tailSubstr buf sep with
  | some (piece, tail) => do
      let s ← mkStr piece
      let retval ← blListPrepend retval s
      call (.splitLoop tail sep retval)
  | none =>
      if 0 < buf.length then do
        let s ← mkStr buf
        let retval ← blListPrepend retval s
        blListReverse retval
      else blListReverse retval

def splitStr (s sep : CStr) : Prog Ptr :=
  if s.length = 0 then pure nullVal
  else if s.length ≤ sep.length then do
    let s ← mkStr s
    blMkList [s]
  else call (.splitLoop s sep .null)

def strFirstToken (s sep : CStr) : Prog CStr := do
  let _ ← splitStr s sep
  let split ← splitStr s sep
  let first ← blListFirst split
  let c ← load first
  member c.sVal

def strReplace (s a b : CStr) : Prog (Option CStr) :=
  if strstr a s = none then pure (some s)
  else do
    let L ← splitStr s a
    joinStr L b

end StringOps

end BearLang
