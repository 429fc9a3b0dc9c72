import BearLang.Printer
import BearLang.Reader

/-!
# The compiler to C

`compile_string`, `compile_atom`, `compile_cons`, `compile_expr`, `compile_fun` and
`compile_file` of `blc`. What they print into the output file is the answer of the
program.
-/

namespace BearLang

open CallPrograms

set_option autoImplicit false

/-- `%d` of a `char`. -/
def signedChar (c : Byte) : Int := if c.toNat < 128 then c.toNat else c.toNat - 256

def compileString (s : CStr) : CStr :=
  text "(char[])\x7b" ++ (s.map fun c => mpzGetStr (signedChar c) ++ text ",").flatten ++ text "0\x7d"

def consText (car cdr : CStr) : CStr :=
  text "&(bl_val_t) \x7b.type = BL_VAL_TYPE_CONS, .car=" ++ car ++ text ", .cdr=" ++ cdr ++
    text "\x7d"

def compileCons (L : Ptr) : Prog CStr := do
  let c ← load L
  let car ← call (.compileAtom c.car)
  let c ← load L
  let cdr ← call (.compileAtom c.cdr)
  pure (consText car cdr)

def compileAtomBody (E : Ptr) : Prog CStr :=
  if E = .null then pure (text "NULL")
  else do
    let c ← load E
    match c.type with
    | .cons => compileCons E
    | .null => pure (text "NULL")
    | .symbol => do
        let s ← blSerSexp E
        pure (text "bl_mk_symbol(\"" ++ s ++ text "\")")
    | .number => do
        let s ← blSerSexp E
        pure (text "bl_mk_integer(\"" ++ s ++ text "\"")
    | .operDo => pure (text "&(bl_val_t) \x7b.type = BL_VAL_TYPE_OPER_DO\x7d")
    | .operIf => pure (text "&(bl_val_t) \x7b.type = BL_VAL_TYPE_OPER_IF\x7d")
    | .operWhile => pure (text "&(bl_val_t) \x7b.type = BL_VAL_TYPE_OPER_WHILE\x7d")
    | .bool => do
        let b ← member c.bVal
        pure (if b then text "&(bl_val_t) \x7b.type = BL_VAL_TYPE_BOOL, .b_val=true\x7d"
          else text "&(bl_val_t) \x7b.type = BL_VAL_TYPE_BOOL, .b_val=false\x7d")
    | .string => do
        let s ← member c.sVal
        pure (text "&(bl_val_t) \x7b.type=BL_VAL_TYPE_STRING, .s_val=" ++ compileString s ++
          text "\x7d")
    | _ => pure []

def compileExpr (infileName : CStr) (expr : Ptr) : Prog CStr := do
  let e ← load expr
  let code ← compileCons expr
  pure (text "\n#line " ++ decimal e.lineNum ++ text " \"" ++ infileName ++
    text "\"\nretval = bl_eval(ctx," ++ code ++ text ");\n")

section Files

def compileBodyLoop (infileName : CStr) (L : Ptr) : Prog (List CStr) :=
  if L = .null then pure []
  else do
    let c ← load L
    let expr ← compileExpr infileName c.car
    let c ← load L
    let exprs ← call (.compileBody infileName c.cdr)
    pure (expr :: exprs)

def compileFun (infileName : CStr) (funExpr : Ptr) : Prog FunctionCode := do
  let params ← blListRest funExpr
  let funName ← blListFirst params
  let _args ← blListSecond params
  let rest ← blListRest params
  let body ← blListRest rest
  let b ← load body
  let first ← typeOf b.car
  let f ← load funExpr
  let car ← load f.car
  let n ← load funName
  let name ← member n.sVal
  let exprs ← call (.compileBody infileName (if first = .docstring then b.cdr else body))
  pure
    { head := text "\n#line " ++ decimal car.lineNum ++ text " \"" ++ infileName ++ text "\"\n" ++
        text "bl_val_t* bl_" ++ name ++ text "(bl_val_t* ctx, bl_val_t* params) \x7b" ++
        text "params = bl_eval(ctx,params);" ++ text "bl_val_t* retval = NULL;"
      exprs := exprs
      last := text "return retval;" ++ text "\x7d" }

/-- The loop of `compile_file`: assignments are passed over, and any other form than a
function ends it. -/
def compileFormsLoop (infileName : CStr) (setOper funOper L : Ptr) : Prog (List FunctionCode) :=
  if L = .null then pure []
  else do
    let c ← load L
    let expr ← load c.car
    if expr.car = setOper then call (.compileForms infileName setOper funOper c.cdr)
    else if expr.car = funOper then
      let code ← compileFun infileName c.car
      let c ← load L
      let codes ← call (.compileForms infileName setOper funOper c.cdr)
      pure (code :: codes)
    else pure []

def compileFile (infileName contents : CStr) : Prog (CStr × List FunctionCode) := do
  let parsedFile ← blParseFile contents
  let t ← typeOf parsedFile
  if t = .error then pure ([], [])
  else
    let setOper ← mkSymbol (text "=")
    let funOper ← mkSymbol (text "fun")
    let codes ← call (.compileForms infileName setOper funOper parsedFile)
    pure (text "#include <bearlang/bearlang.h>\n", codes)

end Files

end BearLang
