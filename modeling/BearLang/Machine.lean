import BearLang.CallPrograms
import BearLang.Lexer

/-!
# Operations and procedures of the runtime

The C code is written as programs over the operations below: reading a cell,
allocating one, and one operation for each kind of store the code makes into a
cell that exists already. The recursive functions, and the loops that can run
without end because they follow links of the heap, are the procedures.
-/

namespace BearLang

open CallPrograms

set_option autoImplicit false

/-- Which statement stores a `cdr`: one that builds a list of its own cells,
`bl_list_append`, or the call of an operator that has no argument list. -/
inductive StoreSite where
  | build | append | noArguments
deriving DecidableEq, Repr

/-- Which statement evaluates an expression. A probe is the evaluation of an
`if` by `bl_eval_funcbody`, ahead of the evaluation of the body expression, and
`value` the evaluation of what an operand has been evaluated to. -/
inductive Site where
  | operand
  | value
  | listElement
  | callArguments
  | funcBody
  | doElement
  | operBody
  | whileCond
  | whileBody
  | ifCond (probe : Bool)
  | ifBranch (probe : Bool)
  | foreachExpr
  | tryExpr
deriving DecidableEq, Repr

inductive Op where
  | load (p : Ptr)
  | alloc (c : Cell)
  | setCdr (site : StoreSite) (p q : Ptr)
  | setIVal (p : Ptr) (i : Int)
  | setInvoked (p sym : Ptr) (customData : Nat)
  | setInner (p q : Ptr)
  | setWriteToParent (p : Ptr)
  | setLine (p : Ptr) (line : Nat)
  | ctxVal (ctx : Ptr) (id : Nat)
  | ctxKey (ctx : Ptr) (id : Nat)
  | ctxStore (ctx : Ptr) (id : Nat) (key val : Ptr)
  | mkSymbol (sym : CStr)
  | write (s : CStr)
  | enterFunc (func : Ptr)
  | enterOper (oper : Ptr)
  | startBody (func : Ptr)
  | leave
  | trap
deriving DecidableEq, Repr

@[reducible] def Op.Answer : Op → Type
  | .load _ => Cell
  | .alloc _ => Ptr
  | .ctxVal .. => Ptr
  | .ctxKey .. => Ptr
  | .mkSymbol _ => Ptr
  | .trap => Empty
  | _ => Unit

/-- The recursive functions, and the loops of the functions named. -/
inductive Call where
  -- eval.c
  | eval (site : Site) (ctx expr : Ptr)
  | evalLoop (ctx expr : Ptr)
  | evalConsLoop (ctx i start last : Ptr)
  | bodyLoop (site : Site) (ctx i retval : Ptr)
  | whileLoop (ctx expr cond : Ptr)
  | funcbody (func i : Ptr)
  | setParams (ctx names vals : Ptr)
  | native (op : Native) (ctx params : Ptr)
  -- ctx.c
  | ctxGet (ctx key : Ptr)
  | customGet (number : Nat) (ctx key : Ptr)
  -- list_ops.c
  | listLen (i : Ptr) (count : Nat)
  | lastCell (L : Ptr)
  | reverseLoop (L retval : Ptr)
  -- sexp.c
  | readForm (sc : Scanner)
  | readListLoop (sc : Scanner) (L : Ptr)
  | serSexp (expr : Ptr)
  | serLoop (L : Ptr) (retval : CStr)
  -- string_ops.c
  | splitLoop (buf sep : CStr) (retval : Ptr)
  | joinLoop (i : Ptr) (sep : CStr) (retval : Option CStr)
  -- builtins.c
  | pmatchLoop (S L : Ptr)
  | agetLoop (sym : CStr) (L retval : Ptr)
  | foreachLoop (ctx sym L expr : Ptr)
  | filteredLoop (ctx L items retval : Ptr)
  | filteredInner (ctx x I : Ptr) (isIn : Bool)
  | tryLoop (ctx tryResult i catchSym finallySym catchExpr finallyExpr : Ptr)
  | mapLoop (func i last retval : Ptr)
  | mapBody (func i j last retval : Ptr)
  | addLists (ctx L retval : Ptr)
  | addSpread (x retval : Ptr)
  | addNumbers (ctx L : Ptr) (sum : Int)
  | addStrings (ctx L : Ptr) (s : CStr)
  | printLoop (ctx i : Ptr)
  | pathLoop (p : Ptr) (pattern : CStr)
  | usingLoop (ctx other : Ptr) (i : Nat)
  | docLines (L : Ptr) (retval : CStr)
  | modInit (number : Nat) (ctx : Ptr)
  -- a loop of an extension module, with its variables and the text it builds
  | extensionLoop (number : Nat) (vars : List Ptr) (buf : CStr)
  -- blc/src/main.c
  | compileAtom (E : Ptr)
  | compileBody (infileName : CStr) (L : Ptr)
  | compileForms (infileName : CStr) (setOper funOper L : Ptr)

/-- What `compile_fun` writes: up to the first expression, each expression, and the end. -/
structure FunctionCode where
  head : CStr
  exprs : List CStr
  last : CStr
deriving DecidableEq, Repr

@[reducible] def Call.Answer : Call → Type
  | .bodyLoop .. => Bool × Ptr
  | .setParams .. => Unit
  | .listLen .. => Nat
  | .readForm _ => Ptr × Scanner
  | .readListLoop .. => Scanner
  | .serSexp _ => CStr
  | .serLoop .. => CStr
  | .splitLoop .. => Ptr
  | .joinLoop .. => Option CStr
  | .filteredInner .. => Bool
  | .addNumbers .. => Int
  | .addStrings .. => CStr
  | .printLoop .. => Unit
  | .pathLoop .. => CStr
  | .docLines .. => CStr
  | .extensionLoop .. => List Ptr × CStr
  | .compileAtom _ => CStr
  | .compileBody .. => List CStr
  | .compileForms .. => List FunctionCode
  | _ => Ptr

abbrev bearLang : Signature := ⟨Op, Op.Answer, Call, Call.Answer⟩

abbrev Prog (α : Type) := Program bearLang α

section Stores

/-- `snprintf(key,32,…)` keeps 31 bytes of a name. -/
def symKeySize : Nat := 31

def blMkSymbol (sym : CStr) (s : State) : Ptr × State :=
  match s.symbolTable.find? (·.key == sym) with
  | some entry => (.ref entry.sym, s)
  | none =>
      let made := s.allocated { type := .symbol, w0 := .str sym, w1 := .ofNat s.lastSymId }
      (.ref s.fresh,
        { made with
          lastSymId := s.lastSymId + 1
          symbolTable := ⟨sym.take symKeySize, s.fresh⟩ :: s.symbolTable })

/-- The copying loop of `bl_ctx_set`. -/
def copySlots : Nat → List Ptr → List Ptr → List Ptr
  | 0, _, slots => slots
  | i + 1, old, slots => (copySlots i old slots).set i (old.getD i .null)

/-- New zeroed arrays, with the old slots copied into them. -/
def Ctx.grow (c : Ctx) (count : Nat) : Ctx :=
  { c with
    valsCount := count
    vals := copySlots c.valsCount c.vals (List.replicate count .null)
    keys := copySlots c.valsCount c.keys (List.replicate count .null) }

/-- The stores of `bl_ctx_set`; outside the arrays they are a fault. -/
def Ctx.store (c : Ctx) (id : Nat) (key val : Ptr) : Option Ctx :=
  let c := if id < c.valsCount then c else c.grow (id + 8)
  if id < c.keys.length ∧ id < c.vals.length then
    some { c with keys := c.keys.set id key, vals := c.vals.set id val }
  else none

@[grind =]
def State.modify (s : State) (p : Ptr) (f : Cell → Option Cell) : Option (Unit × State) :=
  match p with
  | .ref address =>
      match s.cells[address]? with
      | some c => (f c).map fun c => ((), s.put address c)
      | none => none
  | _ => none

def Cell.setCtx (c : Cell) (f : Ctx → Option Ctx) : Option Cell :=
  match c.tail with
  | .ctx old => (f old).map fun new => { c with tail := .ctx new }
  | _ => none

def Cell.setInner (c : Cell) (q : Ptr) : Option Cell :=
  match c.tail with
  | .closure lexical _ sym => some { c with tail := .closure lexical q sym }
  | _ => none

/-- What each operation does. The marks around the body of a function or oper
change nothing; they say where an activation begins and ends. -/
@[grind =]
def step : (op : Op) → State → Option (op.Answer × State)
  | .load p, s => (s.cell p).map fun c => (c, s)
  | .alloc c, s => some (.ref s.fresh, s.allocated c)
  | .setCdr _ p q, s => s.modify p fun c => some { c with w1 := .ofPtr q }
  | .setIVal p i, s =>
      s.modify p fun c => if c.iValWritable then some { c with w1 := .mpz i } else none
  | .setInvoked p sym customData, s =>
      s.modify p fun c => some { c with invokedSym := sym, customData := customData }
  | .setInner p q, s => s.modify p fun c => c.setInner q
  | .setWriteToParent p, s =>
      s.modify p fun c => c.setCtx fun ctx => some { ctx with writeToParent := true }
  | .setLine p line, s => s.modify p fun c => some { c with lineNum := line }
  | .ctxVal ctx id, s => (((s.cell ctx).bind Cell.asCtx).bind (·.vals[id]?)).map fun v => (v, s)
  | .ctxKey ctx id, s => (((s.cell ctx).bind Cell.asCtx).bind (·.keys[id]?)).map fun k => (k, s)
  | .ctxStore ctx id key val, s =>
      s.modify ctx fun c => c.setCtx fun ctx => ctx.store id key val
  | .mkSymbol sym, s => some (blMkSymbol sym s)
  | .write out, s => some ((), { s with out := s.out ++ out })
  | .enterFunc _, s => some ((), s)
  | .enterOper _, s => some ((), s)
  | .startBody _, s => some ((), s)
  | .leave, s => some ((), s)
  | .trap, _ => none

end Stores

section Statements

def load (p : Ptr) : Prog Cell := .perform (.load p) .done
def alloc (c : Cell) : Prog Ptr := .perform (.alloc c) .done
def setCdr (site : StoreSite) (p q : Ptr) : Prog Unit := .perform (.setCdr site p q) .done
def setIVal (p : Ptr) (i : Int) : Prog Unit := .perform (.setIVal p i) .done
def setInvoked (p sym : Ptr) (customData : Nat) : Prog Unit :=
  .perform (.setInvoked p sym customData) .done
def setInner (p q : Ptr) : Prog Unit := .perform (.setInner p q) .done
def setWriteToParent (p : Ptr) : Prog Unit := .perform (.setWriteToParent p) .done
def setLine (p : Ptr) (line : Nat) : Prog Unit := .perform (.setLine p line) .done
def ctxVal (ctx : Ptr) (id : Nat) : Prog Ptr := .perform (.ctxVal ctx id) .done
def ctxKey (ctx : Ptr) (id : Nat) : Prog Ptr := .perform (.ctxKey ctx id) .done
def ctxStore (ctx : Ptr) (id : Nat) (key val : Ptr) : Prog Unit :=
  .perform (.ctxStore ctx id key val) .done
def mkSymbol (sym : CStr) : Prog Ptr := .perform (.mkSymbol sym) .done
def write (s : CStr) : Prog Unit := .perform (.write s) .done
def enterFunc (func : Ptr) : Prog Unit := .perform (.enterFunc func) .done
def enterOper (oper : Ptr) : Prog Unit := .perform (.enterOper oper) .done
def startBody (func : Ptr) : Prog Unit := .perform (.startBody func) .done
def leave : Prog Unit := .perform .leave .done

/-- A read of freed, absent or mistyped memory. -/
def trap {α : Type} : Prog α := .perform .trap (nomatch ·)

/-- A member that a cell may not have. -/
def member {α : Type} (value : Option α) : Prog α :=
  match value with
  | some value => .done value
  | none => trap

def call (c : Call) : Prog c.Answer := .invoke c .done

def blEval (site : Site) (ctx expr : Ptr) : Prog Ptr := call (.eval site ctx expr)
def blCtxGet (ctx key : Ptr) : Prog Ptr := call (.ctxGet ctx key)
def blSerSexp (expr : Ptr) : Prog CStr := call (.serSexp expr)

def mkStr (s : CStr) : Prog Ptr := alloc (.mkStr s)

end Statements

end BearLang
