import BearLang.Contexts

/-!
# The evaluator

`eval.c`. `evalLoop` is the `while(true)` of `bl_eval`: the `if` form replaces
the expression by the value of a branch and goes round again. The marks
`enterFunc`, `enterOper`, `startBody` and `leave` do nothing; between them runs
one activation.
-/

namespace BearLang

open CallPrograms

set_option autoImplicit false

def setParamsLoop (ctx names vals : Ptr) : Prog Unit :=
  if names = .null then pure ()
  else do
    let name ← load names
    let val ← load vals
    let _ ← blCtxSet ctx name.car val.car
    let val ← load vals
    if val.cdr = .null then pure ()
    else
      let name ← load names
      call (.setParams ctx name.cdr val.cdr)

def blSetParams (ctx names vals : Ptr) : Prog Unit := call (.setParams ctx names vals)

def evalConsLoop (ctx i start last : Ptr) : Prog Ptr :=
  if i = .null then pure (if start = .null then nullVal else start)
  else do
    let c ← load i
    let retval ← blEval .listElement ctx c.car
    let t ← typeOf retval
    if t = .error then pure retval
    else
      let new ← alloc (.mkCons retval .null)
      if last = .null then
        let c ← load i
        call (.evalConsLoop ctx c.cdr new new)
      else
        setCdr .build last new
        let c ← load i
        call (.evalConsLoop ctx c.cdr start new)

def blEvalCons (ctx expr : Ptr) : Prog Ptr :=
  if expr = .null then pure nullVal else call (.evalConsLoop ctx expr .null .null)

def blEvalIf (probe : Bool) (ctx expr : Ptr) : Prog Ptr := do
  let e ← load expr
  let condExpr ← blListFirst e.cdr
  let cond ← blEval (.ifCond probe) ctx condExpr
  let c ← load cond
  if c.type = .error then pure cond
  else if c.type ≠ .bool then blMkErr .parse
  else
    let b ← member c.bVal
    let e ← load expr
    if b then
      let branch ← blListSecond e.cdr
      blEval (.ifBranch probe) ctx branch
    else
      let branch ← blListThird e.cdr
      blEval (.ifBranch probe) ctx branch

/-- `for(i=expr; i != NULL; i=i->cdr)` of `do`, `while` and of opers: the flag
says that the loop was left by the return of an error. -/
def bodyLoop (site : Site) (ctx i retval : Ptr) : Prog (Bool × Ptr) :=
  if i = .null then pure (false, retval)
  else do
    let c ← load i
    let retval ← blEval site ctx c.car
    let t ← if retval ≠ .null then typeOf retval else pure .null
    if t = .error then pure (true, retval)
    else
      let c ← load i
      call (.bodyLoop site ctx c.cdr retval)

def whileLoop (ctx expr cond : Ptr) : Prog Ptr := do
  let v ← blEval .whileCond ctx cond
  let c ← load v
  let b ← member c.bVal
  if b then
    let e ← load expr
    let body ← blListRest e.cdr
    let (stopped, retval) ← call (.bodyLoop .whileBody ctx body .null)
    if stopped then pure retval else call (.whileLoop ctx expr cond)
  else pure nullVal

/-- The function that the head of a body expression names, as far as
`bl_eval_funcbody` looks: a symbol, or an `if` whose value is a list headed by
a symbol. -/
def bodyHead (inner e : Ptr) : Prog Ptr := do
  let ec ← load e
  if ec.type ≠ .cons then pure .null
  else
    let h ← load ec.car
    if h.type = .symbol then blCtxGet inner ec.car
    else if h.type = .operIf then
      let ifResult ← blEvalIf true inner e
      let r ← load ifResult
      if r.type = .cons then
        let rh ← load r.car
        if rh.type = .symbol then blCtxGet inner r.car else pure .null
      else pure .null
    else pure .null

def funcbodyLoop (func i : Ptr) : Prog Ptr := do
  let ic ← load i
  let f ← load func
  let inner ← member f.innerClosure
  let symval ← bodyHead inner ic.car
  if symval = func then
    -- the tail call: rebind the parameters and start the body again
    let e ← load ic.car
    let args ← blEval .callArguments inner e.cdr
    let n ← blListLen args
    leave
    enterFunc func
    let f ← load func
    if 0 < n then blSetParams inner f.cdr args
    startBody func
    call (.funcbody func f.car)
  else
    let retval ← blEval .funcBody inner ic.car
    let ic ← load i
    if ic.cdr = .null then pure retval else call (.funcbody func ic.cdr)

def orNull (retval : Ptr) : Ptr := if retval = .null then nullVal else retval

/-- What is left of a call once the parameters are bound. -/
def runFuncBody (func : Ptr) : Prog Ptr := do
  startBody func
  let f ← load func
  let retval ← call (.funcbody func f.car)
  leave
  pure (orNull retval)

/-- The call of a `BL_VAL_TYPE_FUNC_BL` value. -/
def evalFuncBl (ctx expr car : Ptr) : Prog Ptr := do
  let e ← load expr
  let args ← blEval .callArguments ctx e.cdr
  let n ← blListLen expr
  enterFunc car
  let f ← load car
  let inner ← member f.innerClosure
  if 1 < n then blSetParams inner f.cdr args
  runFuncBody car

/-- The call of a `BL_VAL_TYPE_OPER_BL` value: the arguments are bound
unevaluated in a new child of the definition context. -/
def evalOperBl (expr car : Ptr) : Prog Ptr := do
  let e ← load expr
  let o ← load car
  let lexical ← member o.lexicalClosure
  let new ← blCtxNew lexical
  setInner car new
  let n ← blListLen expr
  enterOper car
  let o ← load car
  let inner ← member o.innerClosure
  if 1 < n then blSetParams inner o.cdr e.cdr
  let o ← load car
  let inner ← member o.innerClosure
  setWriteToParent inner
  let (_, retval) ← call (.bodyLoop .operBody inner o.car nullVal)
  leave
  pure (orNull retval)

/-- The call of a native operator. Without an argument list it gets `None`,
which is stored into the expression. -/
def evalNative (ctx expr car : Ptr) : Prog Ptr := do
  let e ← load expr
  let op ← load car
  let codePtr ← member op.codePtr
  if e.cdr = .null then setCdr .noArguments expr nullVal
  let e ← load expr
  setInvoked e.cdr e.car op.customData
  let retval ← call (.native codePtr ctx e.cdr)
  pure (orNull retval)

/-- The inner `switch(car->type)`. -/
def evalApply (ctx expr car : Ptr) : Prog Ptr := do
  let c ← load car
  match c.type with
  | .error => pure car
  | .operNative => evalNative ctx expr car
  | .operDo =>
      let e ← load expr
      let (_, retval) ← call (.bodyLoop .doElement ctx e.cdr nullVal)
      pure (orNull retval)
  | .operIf =>
      let retval ← blEvalIf false ctx expr
      let t ← typeOf retval
      if t = .error then pure retval else call (.evalLoop ctx retval)
  | .operWhile =>
      let e ← load expr
      let cond ← blListFirst e.cdr
      call (.whileLoop ctx expr cond)
  | .funcBl => evalFuncBl ctx expr car
  | .operBl => evalOperBl expr car
  | _ =>
      let retval ← blEvalCons ctx expr
      pure (orNull retval)

def evalLoopBody (ctx expr : Ptr) : Prog Ptr :=
  if expr = .null then pure nullVal
  else do
    let e ← load expr
    match e.type with
    | .error => pure expr
    | .cons =>
        if e.car = .null then pure nullVal
        else
          let head ← load e.car
          if head.type = .symbol then
            let car ← blCtxGet ctx e.car
            if car = .null then
              let name ← member head.sVal
              blErrSymnotfound name
            else evalApply ctx expr car
          else evalApply ctx expr e.car
    | .symbol =>
        let symval ← blCtxGet ctx expr
        if symval = .null then
          let name ← member e.sVal
          blErrSymnotfound name
        else pure symval
    | _ => pure expr

def evalBody (ctx expr : Ptr) : Prog Ptr :=
  if expr = .null then pure nullVal else call (.evalLoop ctx expr)

end BearLang
