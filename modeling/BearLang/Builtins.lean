import BearLang.Evaluator
import BearLang.Printer
import BearLang.Reader

/-!
# The builtin operators

`builtins.c`, in its order. An operator gets the context and its unevaluated
parameters. What the code takes from outside, files, the dynamic linker, the
clock and the operators of extension modules, is a `World`.
-/

namespace BearLang

open CallPrograms

set_option autoImplicit false

structure World where
  /-- what `unescape` finds in its local `slash` -/
  slash : Bool
  elapsed : CStr
  glob : CStr → List CStr
  readFile : CStr → Option CStr
  dirname : CStr → CStr
  basename : CStr → CStr
  /-- the extension in a library, or what `dlerror` says -/
  dlopen : CStr → Except CStr Nat
  oper : Nat → Ptr → Ptr → Prog Ptr
  customGet : Nat → Ptr → Ptr → Prog Ptr
  modInit : Nat → Ptr → Prog Ptr
  /-- the loops in the code of extensions -/
  loop : Nat → List Ptr → CStr → Prog (List Ptr × CStr) := fun _ _ _ => trap

section Names

def Builtin.all : List Builtin :=
  [.profile, .listbuiltins, .aget, .split, .startswith, .pmatch, .add, .sub, .mult, .div, .mod,
   .set, .fn, .defun, .foreach, .filtered, .throw, .oper, .map, .eq, .lt, .gt, .print,
   .and, .not, .or, .xor, .first, .second, .third, .rest, .append, .prepend, .reverse,
   .includeFile, .importModule, .isset, .serexp, .inc, .dec, .parse, .eval, .tryCatch, .quote,
   .usingModule, .doc, .dir, .mksym, .ctxget, .type]

def Builtin.symbol : Builtin → CStr
  | .profile => text "profile"
  | .listbuiltins => text "listbuiltins"
  | .aget => text "aget"
  | .split => text "split"
  | .startswith => text "startswith"
  | .pmatch => text "pmatch"
  | .add => text "+"
  | .sub => text "-"
  | .mult => text "*"
  | .div => text "/"
  | .mod => text "%"
  | .set => text "="
  | .fn => text "fn"
  | .defun => text "fun"
  | .foreach => text "foreach"
  | .filtered => text "filtered"
  | .throw => text "throw"
  | .oper => text "oper"
  | .map => text "map"
  | .eq => text "eq"
  | .lt => text "lt"
  | .gt => text "gt"
  | .print => text "print"
  | .and => text "and"
  | .not => text "not"
  | .or => text "or"
  | .xor => text "xor"
  | .first => text "first"
  | .second => text "second"
  | .third => text "third"
  | .rest => text "rest"
  | .append => text "append"
  | .prepend => text "prepend"
  | .reverse => text "reverse"
  | .includeFile => text "include"
  | .importModule => text "import"
  | .isset => text "isset"
  | .serexp => text "serexp"
  | .inc => text "inc"
  | .dec => text "dec"
  | .parse => text "parse"
  | .eval => text "eval"
  | .tryCatch => text "try"
  | .quote => text "quote"
  | .usingModule => text "using"
  | .doc => text "doc"
  | .dir => text "dir"
  | .mksym => text "mksym"
  | .ctxget => text "ctxget"
  | .type => text "type"

end Names

section Helpers

def strOf (p : Ptr) : Prog CStr := do
  let c ← load p
  member c.sVal

def intOf (p : Ptr) : Prog Int := do
  let c ← load p
  member c.iVal

def boolOf (p : Ptr) : Prog Bool := do
  let c ← load p
  member c.bVal

/-- An operand is the value of the parameter at a position. -/
def evalFirst (ctx params : Ptr) : Prog Ptr := do
  let e ← blListFirst params
  blEval .operand ctx e

def evalSecond (ctx params : Ptr) : Prog Ptr := do
  let e ← blListSecond params
  blEval .operand ctx e

/-- The same statements once `params` is the list of the values. -/
def evalFirstValue (ctx params : Ptr) : Prog Ptr := do
  let e ← blListFirst params
  blEval .value ctx e

def evalSecondValue (ctx params : Ptr) : Prog Ptr := do
  let e ← blListSecond params
  blEval .value ctx e

def paramLenCheck (params : Ptr) (min max : Nat) (body : Prog Ptr) : Prog Ptr := do
  let retval ← blErrifInvalidLen params min max
  if retval ≠ .null then pure retval else body

def blEvalFile (ctx : Ptr) (contents : CStr) : Prog Ptr := do
  let sexp ← blParseFile contents
  blEval .operand ctx sexp

end Helpers

section StringOperators

def blOperProfile (W : World) (ctx params : Ptr) : Prog Ptr := do
  let _ ← blEval .operand ctx params
  mkStr W.elapsed

def blOperThrow (ctx params : Ptr) : Prog Ptr :=
  paramLenCheck params 2 2 do
    let errtype ← blListFirst params
    let errval ← evalSecond ctx params
    alloc (.mkErr .blCustom 0 { errSym := errtype, errVal := orNull errval })

def prependSymbols : List CStr → Ptr → Prog Ptr
  | [], retval => pure retval
  | name :: names, retval => do
      let sym ← mkSymbol name
      let retval ← blListPrepend retval sym
      prependSymbols names retval

def blOperListbuiltins (params : Ptr) : Prog Ptr :=
  paramLenCheck params 0 0 do
    let retval ← prependSymbols (Builtin.all.map Builtin.symbol) .null
    blListReverse retval

def pmatchLoop (S L : Ptr) : Prog Ptr :=
  if L = .null then pure nullVal
  else do
    let c ← load L
    let entry ← load c.car
    let start ← strOf entry.car
    let s ← strOf S
    if start.isPrefixOf s then
      let rest ← load entry.cdr
      pure rest.car
    else call (.pmatchLoop S c.cdr)

def blOperPmatch (ctx params : Ptr) : Prog Ptr :=
  paramLenCheck params 2 2 do
    let params ← blEval .operand ctx params
    let S ← blListFirst params
    let L ← blListSecond params
    call (.pmatchLoop S L)

def blOperStartswith (ctx params : Ptr) : Prog Ptr := do
  let params ← blEval .operand ctx params
  let first ← blListFirst params
  let second ← blListSecond params
  let s ← strOf first
  let start ← strOf second
  pure (blMkBool (start.isPrefixOf s))

def blOperSplit (ctx params : Ptr) : Prog Ptr := do
  let params ← blEval .operand ctx params
  let first ← blListFirst params
  let second ← blListSecond params
  let s ← strOf first
  let sep ← strOf second
  splitStr s sep

end StringOperators

section ListOperators

def agetLoop (sym : CStr) (L retval : Ptr) : Prog Ptr :=
  if L = .null then pure retval
  else do
    let c ← load L
    let entry ← load c.car
    if entry.type ≠ .cons then blMkErr .parse
    else
      let key ← strOf entry.car
      if key = sym then
        let retval ← blListSecond c.car
        call (.agetLoop sym c.cdr retval)
      else call (.agetLoop sym c.cdr retval)

def blOperAget (ctx params : Ptr) : Prog Ptr := do
  let sym ← evalFirst ctx params
  let L ← evalSecond ctx params
  let name ← strOf sym
  let retval ← blErrSymnotfound name
  call (.agetLoop name L retval)

def foreachLoop (ctx sym L expr : Ptr) : Prog Ptr :=
  if L = .null then do
    let _ ← blCtxSet ctx sym .null
    pure nullVal
  else do
    let c ← load L
    let _ ← blCtxSet ctx sym c.car
    let _ ← blEval .foreachExpr ctx expr
    let c ← load L
    call (.foreachLoop ctx sym c.cdr expr)

def blOperForeach (ctx params : Ptr) : Prog Ptr := do
  let sym ← blListFirst params
  let L ← evalSecond ctx params
  let expr ← blListThird params
  call (.foreachLoop ctx sym L expr)

def blOperEq (ctx params : Ptr) : Prog Ptr := do
  let first ← evalFirst ctx params
  let second ← evalSecond ctx params
  let a ← load first
  let b ← load second
  if a.type = .type ∧ b.type = .type then pure (blMkBool (a.refType == b.refType))
  else if a.type = .string ∧ b.type = .string then pure (blMkBool (a.sVal == b.sVal))
  else do
    let x ← member a.iVal
    let y ← member b.iVal
    pure (blMkBool (x == y))

def filteredInner (ctx x I : Ptr) (isIn : Bool) : Prog Bool :=
  if I = .null then pure isIn
  else do
    let c ← load I
    let args ← blMkList [x, c.car]
    let eqResult ← blOperEq ctx args
    let b ← boolOf eqResult
    let c ← load I
    call (.filteredInner ctx x c.cdr (isIn || b))

def filteredLoop (ctx L items retval : Ptr) : Prog Ptr :=
  if L = .null then blListReverse retval
  else do
    let c ← load L
    let isIn : Bool ← call (.filteredInner ctx c.car items false)
    let retval ← if isIn then pure retval else blListPrepend retval c.car
    let c ← load L
    call (.filteredLoop ctx c.cdr items retval)

def blOperFiltered (ctx params : Ptr) : Prog Ptr := do
  let L ← evalFirst ctx params
  let items ← evalSecond ctx params
  call (.filteredLoop ctx L items .null)

def blOperParse (ctx params : Ptr) : Prog Ptr := do
  let params ← blEvalCons ctx params
  let t ← typeOf params
  if t = .error then pure params
  else
    let retval ← blErrifInvalidFixedArgs params [.string]
    if retval ≠ .null then pure retval
    else
      let p ← load params
      let s ← strOf p.car
      blParseSexp s

def blOperQuote (params : Ptr) : Prog Ptr := do
  let n ← blListLen params
  if n = 1 then blListFirst params else pure params

end ListOperators

section TryCatch

/-- The loop over the clauses, and the evaluation of the handler found last. -/
def tryLoop (ctx tryResult i catchSym finallySym catchExpr finallyExpr : Ptr) : Prog Ptr :=
  if i = .null then do
    let retval ← blEval .operand ctx catchExpr
    if finallyExpr ≠ .null then blEval .operand ctx finallyExpr else pure retval
  else do
    let c ← load i
    let clause ← load c.car
    if clause.type ≠ .cons then blMkErr .parse
    else
      let n ← blListLen c.car
      if n ≠ 3 then blMkErr .parse
      else if clause.car = catchSym then
        let errName ← blListSecond c.car
        let catchErr ← blCtxGet ctx errName
        let e ← load catchErr
        let t ← member e.errType
        let r ← load tryResult
        let thrown ← member r.errType
        if t = thrown ∨ t = ErrType.any.code then
          let handler ← blListThird c.car
          call (.tryLoop ctx tryResult c.cdr catchSym finallySym handler finallyExpr)
        else call (.tryLoop ctx tryResult c.cdr catchSym finallySym catchExpr finallyExpr)
      else if clause.car = finallySym then
        let cleanup ← blListSecond c.car
        call (.tryLoop ctx tryResult c.cdr catchSym finallySym catchExpr cleanup)
      else blMkErr .parse

def blOperTry (ctx params : Ptr) : Prog Ptr := do
  let tryExpr ← blListFirst params
  let tryResult ← blEval .tryExpr ctx tryExpr
  let t ← typeOf tryResult
  if t ≠ .error then pure tryResult
  else
    let others ← blListRest params
    let catchSym ← mkSymbol (text "catch")
    let finallySym ← mkSymbol (text "finally")
    let errSym ← mkSymbol (text "*ERR*")
    let _ ← blCtxSet ctx errSym tryResult
    call (.tryLoop ctx tryResult others catchSym finallySym tryResult .null)

end TryCatch

section Application

def blOperEval (ctx params : Ptr) : Prog Ptr := do
  let params ← blEval .operand ctx params
  let t ← typeOf params
  if t = .error then pure params
  else
    let n ← blListLen params
    if n = 1 then evalFirst ctx params else blEval .operand ctx params

/-- One element of the list: the first parameter is bound in the closure of the
function, and the body expressions are evaluated there. -/
def mapLoop (func i last retval : Ptr) : Prog Ptr :=
  if i = .null then pure retval
  else do
    let c ← load i
    let f ← load func
    let inner ← member f.innerClosure
    let names ← load f.cdr
    enterFunc func
    let _ ← blCtxSet inner names.car c.car
    startBody func
    call (.mapBody func i f.car last retval)

/-- The inner loop; every value is linked to the end of the result. -/
def mapBody (func i j last retval : Ptr) : Prog Ptr :=
  if j = .null then do
    leave
    let c ← load i
    call (.mapLoop func c.cdr last retval)
  else do
    let f ← load func
    let inner ← member f.innerClosure
    let c ← load j
    let val ← blEval .operand inner c.car
    let t ← typeOf val
    if t = .error then do
      leave
      pure val
    else
      let new ← alloc (.mkCons val .null)
      if last = .null then
        let c ← load j
        call (.mapBody func i c.cdr new new)
      else
        setCdr .build last new
        let c ← load j
        call (.mapBody func i c.cdr new retval)

def blOperMap (ctx params : Ptr) : Prog Ptr := do
  let params ← blEvalCons ctx params
  let t ← typeOf params
  if t = .error then pure params
  else
    let retval ← blErrifInvalidFixedArgs params [.funcBl, .cons]
    if retval ≠ .null then pure retval
    else
      let func ← blListFirst params
      let L ← blListSecond params
      call (.mapLoop func L .null .null)

end Application

section Arithmetic

def addSpread (x retval : Ptr) : Prog Ptr :=
  if x = .null then pure retval
  else do
    let c ← load x
    let retval ← blListPrepend retval c.car
    call (.addSpread c.cdr retval)

def addLists (ctx L retval : Ptr) : Prog Ptr :=
  if L = .null then blListReverse retval
  else do
    let c ← load L
    let x ← blEval .operand ctx c.car
    let t ← typeOf x
    let retval ← if t = .cons then call (.addSpread x retval) else blListPrepend retval x
    let c ← load L
    call (.addLists ctx c.cdr retval)

def addNumbers (ctx L : Ptr) (sum : Int) : Prog Int :=
  if L = .null then pure sum
  else do
    let c ← load L
    let x ← blEval .operand ctx c.car
    let i ← intOf x
    let c ← load L
    call (.addNumbers ctx c.cdr (sum + i))

def addStrings (ctx L : Ptr) (s : CStr) : Prog CStr :=
  if L = .null then pure s
  else do
    let c ← load L
    let x ← blEval .operand ctx c.car
    let more ← blSerNakedSexp x
    let c ← load L
    call (.addStrings ctx c.cdr (s ++ more))

/-- The modes of `+`, chosen by the first value. -/
def addMode (ctx params first : Ptr) : Prog Ptr := do
  let t ← typeOf first
  match t with
  | .number => do
      let sum : Int ← call (.addNumbers ctx params 0)
      alloc (.mkNumber sum)
  | .cons => call (.addLists ctx params .null)
  | _ => do
      let s : CStr ← call (.addStrings ctx params [])
      mkStr s

def blOperAdd (ctx params : Ptr) : Prog Ptr := do
  let t ← typeOf params
  if t = .null then blErrifInvalidLen nullVal 1 longestList
  else
    let L ← blEvalCons ctx params
    let t ← typeOf L
    if t = .error then pure L
    else
      let retval ← blErrifInvalidLen L 1 longestList
      if retval ≠ .null then pure retval
      else
        let first ← evalFirst ctx params
        let t ← typeOf first
        if t = .cons then
          let n ← blListLen params
          if n = 1 then
            let second ← blListFirst first
            addMode ctx first second
          else addMode ctx params first
        else addMode ctx params first

def blOperSub (ctx params : Ptr) : Prog Ptr := do
  let params ← blEval .operand ctx params
  let retval ← blErrifInvalidFixedArgs params [.number, .number]
  if retval ≠ .null then pure retval
  else
    let first ← blListFirst params
    let second ← blListSecond params
    let a ← intOf first
    let b ← intOf second
    alloc (.mkNumber (a - b))

def blOperMult (ctx params : Ptr) : Prog Ptr := do
  let params ← blEval .operand ctx params
  let retval ← blErrifInvalidFixedArgs params [.number, .number]
  if retval ≠ .null then pure retval
  else
    let first ← evalFirstValue ctx params
    let second ← evalSecondValue ctx params
    let a ← intOf first
    let b ← intOf second
    alloc (.mkNumber (a * b))

def blOperDiv (ctx params : Ptr) : Prog Ptr := do
  let params ← blEvalCons ctx params
  let retval ← blErrifInvalidFixedArgs params [.number, .number]
  if retval ≠ .null then pure retval
  else
    let first ← evalFirstValue ctx params
    let second ← evalSecondValue ctx params
    let b ← intOf second
    if b = 0 then blErrDivzero
    else
      let a ← intOf first
      alloc (.mkNumber (a.tdiv b))

/-- `mpz_mod` by zero ends the process. -/
def blOperMod (ctx params : Ptr) : Prog Ptr := do
  let first ← evalFirst ctx params
  let second ← evalSecond ctx params
  let a ← intOf first
  let b ← intOf second
  if b = 0 then trap else alloc (.mkNumber (a % b))

def blOperLt (ctx params : Ptr) : Prog Ptr := do
  let first ← evalFirst ctx params
  let second ← evalSecond ctx params
  let a ← intOf first
  let b ← intOf second
  pure (blMkBool (decide (a < b)))

def blOperGt (ctx params : Ptr) : Prog Ptr := do
  let first ← evalFirst ctx params
  let second ← evalSecond ctx params
  let a ← intOf first
  let b ← intOf second
  pure (blMkBool (decide (b < a)))

/-- `inc` and `dec`: the number a variable is bound to is changed in place. -/
def stepVariable (ctx params : Ptr) (by_ : Int) : Prog Ptr := do
  let symname ← blListFirst params
  let symval ← blCtxGet ctx symname
  let i ← intOf symval
  setIVal symval (i + by_)
  pure symval

def blOperInc (ctx params : Ptr) : Prog Ptr := stepVariable ctx params 1

def blOperDec (ctx params : Ptr) : Prog Ptr := stepVariable ctx params (-1)

end Arithmetic

section Definitions

def blOperSet (ctx params : Ptr) : Prog Ptr := do
  let retval ← evalSecond ctx params
  let name ← blListFirst params
  let _ ← blCtxSet ctx name retval
  pure retval

def printLoop (ctx i : Ptr) : Prog Unit :=
  if i = .null then pure ()
  else do
    let c ← load i
    let val ← blEval .operand ctx c.car
    let s ← blSerNakedSexp val
    write s
    let c ← load i
    call (.printLoop ctx c.cdr)

def blOperPrint (ctx params : Ptr) : Prog Ptr := do
  let i ← blEvalCons ctx params
  let t ← typeOf i
  if t = .error then pure i
  else
    call (.printLoop ctx params)
    pure nullVal

def blOperFn (ctx params : Ptr) : Prog Ptr := do
  let args ← blListFirst params
  let body ← blListRest params
  let inner ← blCtxNew ctx
  let sym ← mkSymbol (text "anonymous-lambda")
  alloc (.mkClosure .funcBl body args ctx inner sym .null)

/-- Body and docstring of a definition: a docstring at its start is taken off. -/
def stripDocstr (body : Ptr) : Prog (Ptr × Ptr) := do
  let b ← load body
  let first ← load b.car
  if first.type = .docstring then pure (b.cdr, b.car) else pure (body, .null)

def blOperFun (ctx params : Ptr) : Prog Ptr := do
  let args ← blListSecond params
  let rest ← blListRest params
  let body ← blListRest rest
  let (body, docstr) ← stripDocstr body
  let inner ← blCtxNew ctx
  let sym ← blListFirst params
  let retval ← alloc (.mkClosure .funcBl body args ctx inner sym docstr)
  let _ ← blCtxSet ctx sym retval
  pure retval

def blOperOper (ctx params : Ptr) : Prog Ptr := do
  let args ← blListSecond params
  let rest ← blListRest params
  let body ← blListRest rest
  let (body, docstr) ← stripDocstr body
  let inner ← blCtxNew ctx
  let retval ← alloc (.mkClosure .operBl body args ctx inner .null docstr)
  let name ← blListFirst params
  let _ ← blCtxSet ctx name retval
  pure retval

end Definitions

section Booleans

def blOperAnd (ctx params : Ptr) : Prog Ptr := do
  let first ← evalFirst ctx params
  let second ← evalSecond ctx params
  let a ← boolOf first
  if a then
    let b ← boolOf second
    pure (blMkBool b)
  else pure falseVal

def blOperNot (ctx params : Ptr) : Prog Ptr := do
  let first ← evalFirst ctx params
  let a ← boolOf first
  pure (blMkBool (!a))

def blOperOr (ctx params : Ptr) : Prog Ptr := do
  let first ← evalFirst ctx params
  let second ← evalSecond ctx params
  let a ← boolOf first
  if a then pure trueVal
  else
    let b ← boolOf second
    pure (blMkBool b)

def blOperXor (ctx params : Ptr) : Prog Ptr := do
  let first ← evalFirst ctx params
  let second ← evalSecond ctx params
  let a ← boolOf first
  let b ← boolOf second
  pure (blMkBool (a ^^ b))

end Booleans

section Elements

def blOperFirst (ctx params : Ptr) : Prog Ptr := do
  let params ← blEval .operand ctx params
  let n ← blListLen params
  if n = 1 then
    let L ← blListFirst params
    blListFirst L
  else blListFirst params

def blOperSecond (ctx params : Ptr) : Prog Ptr := do
  let params ← blEval .operand ctx params
  let n ← blListLen params
  if n = 1 then
    let L ← blListFirst params
    blListSecond L
  else blListSecond params

def blOperThird (ctx params : Ptr) : Prog Ptr := do
  let n ← blListLen params
  if n = 1 then
    let params ← evalFirst ctx params
    blListThird params
  else blListThird params

def blOperRest (ctx params : Ptr) : Prog Ptr := do
  let params ← blEval .operand ctx params
  let n ← blListLen params
  let params ← if n = 1 then evalFirstValue ctx params else pure params
  let retval ← blListRest params
  pure (orNull retval)

def blOperAppend (ctx params : Ptr) : Prog Ptr := do
  let L ← evalFirst ctx params
  let val ← evalSecond ctx params
  blListAppend L val

def blOperPrepend (ctx params : Ptr) : Prog Ptr := do
  let L ← evalFirst ctx params
  let val ← evalSecond ctx params
  blListPrepend L val

def blOperReverse (ctx params : Ptr) : Prog Ptr := do
  let params ← blEval .operand ctx params
  let n ← blListLen params
  let params ← if n = 1 then evalFirstValue ctx params else pure params
  blListReverse params

end Elements

section Modules

def blOperInclude (W : World) (ctx params : Ptr) : Prog Ptr := do
  let filename ← evalFirst ctx params
  let name ← strOf filename
  let contents ← member (W.readFile name)
  blEvalFile ctx contents

/-- `import a::b`: the module is taken out of another module. -/
def importNested (ctx : Ptr) (name : CStr) : Prog Ptr := do
  let split ← splitStr name (text "::")
  let c ← load split
  let otherName ← strOf c.car
  let otherSym ← mkSymbol otherName
  let other ← blCtxGet ctx otherSym
  if other = .null then blErrModnotfound otherName
  else
    let n ← blListLen split
    let (kname, new) ←
      if 2 < n then do
        let joined ← joinStr c.cdr (text "::")
        let kname ← member joined
        let key ← mkSymbol kname
        let args ← blMkList [key]
        let new ← call (.native (.builtin .importModule) other args)
        pure (kname, new)
      else do
        let rest ← load c.cdr
        let kname ← strOf rest.car
        let key ← mkSymbol kname
        let new ← blCtxGet other key
        pure (kname, new)
    if new = .null then blErrModnotfound kname
    else
      let last ← blListLast split
      let lastName ← strOf last
      let lastSym ← mkSymbol lastName
      let _ ← blCtxSet ctx lastSym new
      pure new

def pathLoop (p : Ptr) (pattern : CStr) : Prog CStr :=
  if p = .null then pure pattern
  else do
    let c ← load p
    let dir ← strOf c.car
    call (.pathLoop c.cdr (pattern ++ dir ++ text ","))

/-- The part of the glob pattern that lists the files of a module. -/
def modulePattern (name : CStr) : CStr :=
  text "/\x7b" ++ name ++ text ".bl," ++ text "lib" ++ name ++ text "\x7b.dylib,.so\x7d," ++
    name ++ text "/module.bl," ++ name ++ text "/lib" ++ name ++ text "\x7b.dylib,.so\x7d" ++
    text "\x7d"

/-- The first match that is no directory. -/
def firstFile (paths : List CStr) : Option CStr :=
  paths.find? fun path => path.getLast? != some (chr '/')

/-- `strrchr(fname, '.')+1` -/
def fileExtension (fname : CStr) : Option CStr :=
  if fname.contains (chr '.') then some ((fname.reverse.takeWhile (· != chr '.')).reverse)
  else none

def importFound (W : World) (ctx : Ptr) (name path : CStr) : Prog Ptr := do
  let ext ← member (fileExtension (W.basename path))
  if ext ≠ text "bl" then
    match W.dlopen path with
    | .error err => alloc (.mkErr .custom 0 { errmsg := some err })
    | .ok number => do
        let new ← call (.modInit number ctx)
        let filenameSym ← mkSymbol (text "*FILENAME*")
        let filename ← mkStr path
        let _ ← blCtxSet new filenameSym filename
        let sym ← mkSymbol name
        let _ ← blCtxSet ctx sym new
        pure new
  else do
    let contents ← member (W.readFile path)
    let new ← blCtxNew ctx
    let filenameSym ← mkSymbol (text "*FILENAME*")
    let filename ← mkStr path
    let _ ← blCtxSet new filenameSym filename
    let result ← blEvalFile new contents
    let t ← typeOf result
    if t = .error then pure result
    else
      let sym ← mkSymbol name
      let _ ← blCtxSet ctx sym new
      pure new

def importSearch (W : World) (ctx moduleName : Ptr) : Prog Ptr := do
  let pathSym ← mkSymbol (text "*PATH*")
  let curPath ← blCtxGet ctx pathSym
  let filenameSym ← mkSymbol (text "*FILENAME*")
  let modFilename ← blCtxGet ctx filenameSym
  let curPath ← if curPath = .null then mkStr (text ".") else pure curPath
  let modFilename ← if modFilename = .null then mkStr [] else pure modFilename
  let filename ← strOf modFilename
  let dir := if 0 < filename.length then W.dirname filename else []
  let start := text "\x7b" ++ (if 0 < dir.length then dir ++ text "," else [])
  let dirs : CStr ← call (.pathLoop curPath start)
  let name ← strOf moduleName
  match firstFile (W.glob (dirs.dropLast ++ text "\x7d" ++ modulePattern name)) with
  | none => blErrModnotfound name
  | some path => importFound W ctx name (path.take 4095)

def blOperImport (W : World) (ctx params : Ptr) : Prog Ptr := do
  let first ← blListFirst params
  let name ← strOf first
  if (strstr (text "::") name).isSome then importNested ctx name
  else
    let f ← load first
    if f.type = .symbol then
      let found ← blCtxGet ctx first
      let moduleName := if found = .null then first else found
      let t ← typeOf moduleName
      if t = .ctx then pure moduleName else importSearch W ctx moduleName
    else importSearch W ctx first

/-- The loop of `using m::*`; its bound is read again in every turn. -/
def usingLoop (ctx other : Ptr) (i : Nat) : Prog Ptr := do
  let o ← loadCtx other
  if i < o.valsCount then
    let val ← ctxVal other i
    if val ≠ .null then
      let key ← ctxKey other i
      let _ ← blCtxSet ctx key val
      call (.usingLoop ctx other (i + 1))
    else call (.usingLoop ctx other (i + 1))
  else pure nullVal

def blOperUsing (ctx params : Ptr) : Prog Ptr := do
  let sym ← blListFirst params
  let s ← strOf sym
  let split ← splitStr s (text "::")
  let last ← blListLast split
  let lastName ← strOf last
  let lastsym ← mkSymbol lastName
  let revSplit ← blListReverse split
  let revRest ← blListRest revSplit
  let allButLast ← blListReverse revRest
  let joined ← joinStr allButLast (text "::")
  let otherName ← member joined
  let otherSym ← mkSymbol otherName
  let other ← blCtxGet ctx otherSym
  if other = .null then blErrModnotfound otherName
  else if lastName = text "*" then call (.usingLoop ctx other 0)
  else
    let symval ← blCtxGet other lastsym
    if symval = .null then blErrSymnotfound lastName
    else
      let _ ← blCtxSet ctx lastsym symval
      pure symval

def blOperIsset (ctx params : Ptr) : Prog Ptr := do
  let sym ← blListFirst params
  let symval ← blCtxGet ctx sym
  pure (blMkBool (decide (symval ≠ .null)))

def blOperSerexp (ctx params : Ptr) : Prog Ptr := do
  let params ← blEval .operand ctx params
  let t ← typeOf params
  if t = .cons then
    let n ← blListLen params
    if n = 1 then
      let first ← blListFirst params
      let s ← blSerSexp first
      mkStr s
    else
      let s ← blSerSexp params
      mkStr s
  else
    let s ← blSerSexp params
    mkStr s

end Modules

section Documentation

def docLines (L : Ptr) (retval : CStr) : Prog CStr :=
  if L = .null then pure retval
  else do
    let c ← load L
    let line ← strOf c.car
    call (.docLines c.cdr (retval ++ text "\t" ++ line ++ text "\n"))

/-- A titled block with every line of the text indented. -/
def docBlock (title : CStr) (val : Ptr) : Prog CStr :=
  if val = .null then pure []
  else do
    let s ← strOf val
    let split ← splitStr s (text "\n")
    call (.docLines split (text "\n" ++ title ++ text "\n"))

def blGenmodDoc (sym mod : Ptr) : Prog Ptr := do
  let nameSym ← mkSymbol (text "*NAME*")
  let found ← blCtxGet mod nameSym
  let name ← strOf (if found = .null then sym else found)
  let summarySym ← mkSymbol (text "*SUMMARY*")
  let summary ← blCtxGet mod summarySym
  let summaryText ← if summary = .null then pure [] else do
    let s ← strOf summary
    pure (text " - " ++ s)
  let descriptionSym ← mkSymbol (text "*DESCRIPTION*")
  let description ← blCtxGet mod descriptionSym
  let descriptionText ← docBlock (text "DESCRIPTION") description
  let exampleSym ← mkSymbol (text "*EXAMPLE*")
  let example_ ← blCtxGet mod exampleSym
  let exampleText ← docBlock (text "EXAMPLE") example_
  mkStr (text "NAME\n\t" ++ name ++ summaryText ++ text "\n" ++ descriptionText ++
    (if description = .null then [] else text "\n") ++ exampleText)

/-- The members of a context, but contexts and names that start with a star. -/
def docMembers (ctx mod : Ptr) : Nat → Nat → CStr → Prog CStr
  | 0, _, retval => pure retval
  | count + 1, i, retval => do
      let val ← ctxVal mod i
      if val = .null then docMembers ctx mod count (i + 1) retval
      else
        let key ← ctxKey mod i
        let name ← strOf key
        let t ← typeOf val
        if name ≠ text "DOC" ∧ name.head? ≠ some (chr '*') ∧ t ≠ .ctx then
          let args ← blMkList [val]
          let doc ← call (.native (.builtin .doc) ctx args)
          let s ← strOf doc
          docMembers ctx mod count (i + 1)
            (retval ++ text "\n\t" ++ name ++ text "\n\t" ++ s ++ text "\n")
        else docMembers ctx mod count (i + 1) retval

def generateDoc (first val : Ptr) : Prog Ptr := do
  let v ← load val
  match v.type with
  | .funcBl => do
      let f ← load first
      let sym ← if f.type = .symbol then pure first else member v.sym
      let header ← blListPrepend v.cdr sym
      let s ← blSerSexp header
      mkStr s
  | .ctx => blGenmodDoc first val
  | _ => do
      let s ← blSerSexp val
      mkStr s

def blOperDoc (ctx params : Ptr) : Prog Ptr := do
  let first ← blListFirst params
  let evaluated ← blEval .operand ctx first
  let e ← load evaluated
  let val ← if e.type = .symbol then blCtxGet ctx evaluated else pure evaluated
  if val = .null then
    let name ← strOf first
    blErrSymnotfound name
  else
    let v ← load val
    if v.docstr ≠ .null then
      let s ← strOf v.docstr
      mkStr s
    else
      let found ← if v.type = .ctx then do
          let docSym ← mkSymbol (text "DOC")
          blCtxGet val docSym
        else pure .null
      let docstr ← if found = .null then generateDoc first val else pure found
      let s ← strOf docstr
      if v.type = .ctx then
        let c ← loadCtx val
        let s ← docMembers ctx val c.valsCount 0 (s ++ text "\nMEMBERS")
        mkStr s
      else mkStr s

def dirFrom (mod : Ptr) : Nat → Nat → Ptr → Prog Ptr
  | 0, _, retval => pure retval
  | count + 1, i, retval => do
      let val ← ctxVal mod i
      if val = .null then dirFrom mod count (i + 1) retval
      else
        let key ← ctxKey mod i
        let name ← strOf key
        if name = text "DOC" then dirFrom mod count (i + 1) retval
        else
          let s ← mkStr name
          let retval ← blListPrepend retval s
          dirFrom mod count (i + 1) retval

def evalVariable (ctx params : Ptr) : Prog Ptr := do
  let symname ← blListFirst params
  let found ← blCtxGet ctx symname
  blEval .operand ctx found

def blOperDir (ctx params : Ptr) : Prog Ptr := do
  let symval ← evalVariable ctx params
  let t ← typeOf symval
  if t ≠ .ctx then pure .null
  else
    let c ← loadCtx symval
    dirFrom symval c.valsCount 0 .null

def blOperMksym (ctx params : Ptr) : Prog Ptr := do
  let params ← blEval .operand ctx params
  let first ← blListFirst params
  let s ← strOf first
  mkSymbol s

def blOperCtxget (ctx params : Ptr) : Prog Ptr := do
  let symval ← evalVariable ctx params
  let t ← typeOf symval
  if t ≠ .ctx then pure .null
  else
    let second ← blListSecond params
    let t ← typeOf second
    let second ← if t = .cons then blEval .operand ctx second else pure second
    blCtxGet symval second

def blOperType (ctx params : Ptr) : Prog Ptr := do
  let params ← blEval .operand ctx params
  let t ← typeOf params
  if t = .error then pure params
  else
    let first ← blListFirst params
    let t ← typeOf first
    alloc (.mkType t)

end Documentation

/-- The function behind a builtin's `code_ptr`. -/
def builtinCode (W : World) (op : Builtin) (ctx params : Ptr) : Prog Ptr :=
  match op with
  | .profile => blOperProfile W ctx params
  | .listbuiltins => blOperListbuiltins params
  | .aget => blOperAget ctx params
  | .split => blOperSplit ctx params
  | .startswith => blOperStartswith ctx params
  | .pmatch => blOperPmatch ctx params
  | .add => blOperAdd ctx params
  | .sub => blOperSub ctx params
  | .mult => blOperMult ctx params
  | .div => blOperDiv ctx params
  | .mod => blOperMod ctx params
  | .set => blOperSet ctx params
  | .fn => blOperFn ctx params
  | .defun => blOperFun ctx params
  | .foreach => blOperForeach ctx params
  | .filtered => blOperFiltered ctx params
  | .throw => blOperThrow ctx params
  | .oper => blOperOper ctx params
  | .map => blOperMap ctx params
  | .eq => blOperEq ctx params
  | .lt => blOperLt ctx params
  | .gt => blOperGt ctx params
  | .print => blOperPrint ctx params
  | .and => blOperAnd ctx params
  | .not => blOperNot ctx params
  | .or => blOperOr ctx params
  | .xor => blOperXor ctx params
  | .first => blOperFirst ctx params
  | .second => blOperSecond ctx params
  | .third => blOperThird ctx params
  | .rest => blOperRest ctx params
  | .append => blOperAppend ctx params
  | .prepend => blOperPrepend ctx params
  | .reverse => blOperReverse ctx params
  | .includeFile => blOperInclude W ctx params
  | .importModule => blOperImport W ctx params
  | .isset => blOperIsset ctx params
  | .serexp => blOperSerexp ctx params
  | .inc => blOperInc ctx params
  | .dec => blOperDec ctx params
  | .parse => blOperParse ctx params
  | .eval => blOperEval ctx params
  | .tryCatch => blOperTry ctx params
  | .quote => blOperQuote params
  | .usingModule => blOperUsing ctx params
  | .doc => blOperDoc ctx params
  | .dir => blOperDir ctx params
  | .mksym => blOperMksym ctx params
  | .ctxget => blOperCtxget ctx params
  | .type => blOperType ctx params

end BearLang
