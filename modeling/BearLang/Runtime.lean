import BearLang.Builtins
import BearLang.Compiler
import BearLang.ProgramReachability

/-!
# The runtime

The machine whose procedures are the functions and loops of the modules before
this one.
-/

namespace BearLang

open CallPrograms

set_option autoImplicit false

def nativeCode (W : World) (op : Native) (ctx params : Ptr) : Prog Ptr :=
  match op with
  | .builtin op => builtinCode W op ctx params
  | .extension number => W.oper number ctx params

def body (W : World) : (c : Call) → Prog c.Answer
  | .eval _ ctx expr => evalBody ctx expr
  | .evalLoop ctx expr => evalLoopBody ctx expr
  | .evalConsLoop ctx i start last => evalConsLoop ctx i start last
  | .bodyLoop site ctx i retval => bodyLoop site ctx i retval
  | .whileLoop ctx expr cond => whileLoop ctx expr cond
  | .funcbody func i => funcbodyLoop func i
  | .setParams ctx names vals => setParamsLoop ctx names vals
  | .native op ctx params => nativeCode W op ctx params
  | .ctxGet ctx key => ctxGetBody ctx key
  | .customGet number ctx key => W.customGet number ctx key
  | .listLen i count => listLenLoop i count
  | .lastCell L => lastCellLoop L
  | .reverseLoop L retval => reverseLoop L retval
  | .readForm sc => readFormBody W.slash sc
  | .readListLoop sc L => readListLoop sc L
  | .serSexp expr => serSexpBody expr
  | .serLoop L retval => serLoop L retval
  | .splitLoop buf sep retval => splitLoop buf sep retval
  | .joinLoop i sep retval => joinLoop i sep retval
  | .pmatchLoop S L => pmatchLoop S L
  | .agetLoop sym L retval => agetLoop sym L retval
  | .foreachLoop ctx sym L expr => foreachLoop ctx sym L expr
  | .filteredLoop ctx L items retval => filteredLoop ctx L items retval
  | .filteredInner ctx x I isIn => filteredInner ctx x I isIn
  | .tryLoop ctx tryResult i catchSym finallySym catchExpr finallyExpr =>
      tryLoop ctx tryResult i catchSym finallySym catchExpr finallyExpr
  | .mapLoop func i last retval => mapLoop func i last retval
  | .mapBody func i j last retval => mapBody func i j last retval
  | .addLists ctx L retval => addLists ctx L retval
  | .addSpread x retval => addSpread x retval
  | .addNumbers ctx L sum => addNumbers ctx L sum
  | .addStrings ctx L s => addStrings ctx L s
  | .printLoop ctx i => printLoop ctx i
  | .pathLoop p pattern => pathLoop p pattern
  | .usingLoop ctx other i => usingLoop ctx other i
  | .docLines L retval => docLines L retval
  | .modInit number ctx => W.modInit number ctx
  | .extensionLoop number vars buf => W.loop number vars buf
  | .compileAtom E => compileAtomBody E
  | .compileBody infileName L => compileBodyLoop infileName L
  | .compileForms infileName setOper funOper L => compileFormsLoop infileName setOper funOper L

def runtime (W : World) : Machine bearLang State where
  step := step
  body := body W

/-- A world without files and extension modules. -/
def World.bare : World where
  slash := false
  elapsed := text "0"
  glob _ := []
  readFile _ := none
  dirname path := path
  basename path := path
  dlopen _ := .error []
  oper _ _ _ := trap
  customGet _ _ _ := trap
  modInit _ _ := trap

end BearLang
