import BearLang.ContextRefinement
import BearLang.ProgramConduct
import BearLang.StateInvariants

/-!
# What the runtime stores into contexts and closures

A context is made empty, `bl_ctx_set` stores under the id in the cell that it is given as
a name, and only the call of an oper puts another context into a closure. The code of
every procedure is read for that once; an extension may do the same.
-/

namespace BearLang.ContextStores

open CallPrograms ContextRefinement

set_option autoImplicit false

section Conduct

/-- Arrays of the right size without a value. -/
def Empty (c : Ctx) : Prop := Sized c ∧ ∀ i, c.vals.getD i .null = .null

def storing : Conduct bearLang State where
  op
    | .alloc c, _ => c.type ≠ .symbol ∧ ∀ ctx, c.asCtx = some ctx → Empty ctx
    | .setInner p _, s => s.typeOf p = some .operBl
    | .ctxStore _ id key _, s => ∃ k, s.cell key = some k ∧ k.symId = some id
    | _, _ => True
  call _ _ := True
  always _ := True

/-- The program keeps to the conduct from any state. -/
def Stores (W : World) {α : Type} (program : Prog α) : Prop :=
  ∀ s, program.Follows (runtime W) storing s

/-- The code of extensions keeps to it. -/
structure Storing (W : World) : Prop where
  oper : ∀ number ctx params, Stores W (W.oper number ctx params)
  customGet : ∀ number ctx key, Stores W (W.customGet number ctx key)
  modInit : ∀ number ctx, Stores W (W.modInit number ctx)
  loop : ∀ number vars buf, Stores W (W.loop number vars buf)

end Conduct

section Statements

variable {W : World} {α β : Type}

theorem stores_pure (v : α) : Stores W (pure v : Prog α) := fun _ => trivial

theorem stores_seq {program : Prog α} {f : α → Prog β} (first : Stores W program)
    (rest : ∀ v, Stores W (f v)) : Stores W (program >>= f) := by
  intro s
  exact follows_bind (first s) trivial fun v t _ _ => rest v t

theorem stores_ite {c : Prop} [Decidable c] {yes no : Prog α} (first : Stores W yes)
    (second : Stores W no) : Stores W (if c then yes else no) := by
  split
  · exact first
  · exact second

theorem stores_branch {c : Prop} [Decidable c] {yes no : Prog α} {f : α → Prog β}
    (first : Stores W yes) (second : Stores W no) (rest : ∀ v, Stores W (f v)) :
    Stores W (if c then yes >>= f else no >>= f) :=
  stores_ite (stores_seq first rest) (stores_seq second rest)

theorem stores_call (c : Call) : Stores W (call c) := fun _ => ⟨trivial, fun _ _ _ _ => trivial⟩

theorem stores_op (op : Op) (allowed : ∀ s, storing.op op s) :
    Stores W (.perform op .done : Prog op.Answer) :=
  fun s => ⟨allowed s, fun _ _ _ _ => trivial⟩

theorem stores_trap : Stores W (trap : Prog α) := fun _ => ⟨trivial, fun answer => nomatch answer⟩

theorem stores_member (value : Option α) : Stores W (member value) := by
  cases value with
  | none => exact stores_trap
  | some v => exact stores_pure v

theorem stores_load (p : Ptr) : Stores W (load p) := stores_op (.load p) fun _ => trivial

/-- What is done with the cell that a pointer leads to, in the state it was read in. -/
theorem follows_load {p : Ptr} {f : Cell → Prog α} {s : State}
    (rest : ∀ c, s.cell p = some c → (f c).Follows (runtime W) storing s) :
    (load p >>= f).Follows (runtime W) storing s := by
  refine ⟨trivial, fun c t stepped _ => ?_⟩
  obtain ⟨c', known, rfl, rfl⟩ := mapped_spec stepped
  exact rest c' known

theorem follows_member {value : Option α} {f : α → Prog β} {s : State}
    (rest : ∀ v, value = some v → (f v).Follows (runtime W) storing s) :
    (member value >>= f).Follows (runtime W) storing s := by
  cases value with
  | none => exact ⟨trivial, fun answer => nomatch answer⟩
  | some v => exact rest v rfl

end Statements

section Contexts

variable {W : World}

theorem empty_new (count : Nat) (parent : Ptr) : Empty (.new count parent) := by
  refine ⟨⟨by simp [Ctx.new], by simp [Ctx.new]⟩, fun i => ?_⟩
  rw [Ctx.new, get_replicate_null]

theorem stores_ctx_new (parent : Ptr) : Stores W (blCtxNew parent) := by
  have made (count : Nat) : Stores W (alloc (.mkCtx (.new count parent))) := by
    refine stores_op _ fun _ => ⟨fun symbol => ?_, fun ctx is => ?_⟩
    · cases symbol
    · cases is
      exact empty_new count parent
  refine stores_ite (made 8) (stores_seq ?_ fun p => made p.valsCount)
  exact stores_seq (stores_load parent) fun c => stores_member c.asCtx

/-- The id is read from the name, and nothing happens between the two. -/
theorem stores_ctx_set (ctx key val : Ptr) : Stores W (blCtxSet ctx key val) := by
  intro s
  refine follows_bind ?_ trivial fun c t _ _ => ?_
  · exact stores_seq (stores_load ctx) (fun c => stores_member c.asCtx) s
  · refine follows_load fun k known => follows_member fun id named => ?_
    exact ⟨⟨k, known, named⟩, fun _ _ _ _ => trivial⟩

end Contexts

section Lists

variable {W : World}

def holdsContext (c : Cell) : Bool :=
  match c.tail with
  | .ctx _ => true
  | _ => false

/-- Cells that are neither contexts nor symbols. -/
theorem stores_alloc {c : Cell} (kind : (c.type == .symbol) = false) (plain : holdsContext c = false) :
    Stores W (alloc c) := by
  refine stores_op _ fun _ => ⟨fun symbol => ?_, fun ctx is => ?_⟩
  · rw [symbol] at kind
    cases kind
  have none_ : Empty ⟨[], [], 0, .null, none, false⟩ := ⟨⟨rfl, rfl⟩, fun _ => rfl⟩
  unfold Cell.asCtx at is
  split at is
  · rename_i table
    rw [holdsContext, table] at plain
    cases plain
  · cases is
    exact none_
  · split at is
    · cases is
      exact none_
    · cases is
  · cases is

theorem stores_type_of (p : Ptr) : Stores W (typeOf p) :=
  stores_seq (stores_load p) fun c => stores_pure c.type

theorem stores_list_first (L : Ptr) : Stores W (blListFirst L) :=
  stores_ite (stores_pure _) (stores_seq (stores_load L) fun c => stores_pure c.car)

theorem stores_list_rest (L : Ptr) : Stores W (blListRest L) :=
  stores_ite (stores_pure _) (stores_seq (stores_load L) fun c => stores_pure c.cdr)

theorem stores_list_second (L : Ptr) : Stores W (blListSecond L) :=
  stores_ite (stores_pure _) (stores_seq (stores_list_rest L) stores_list_first)

theorem stores_list_third (L : Ptr) : Stores W (blListThird L) :=
  stores_seq (stores_list_rest L) stores_list_second

theorem stores_cons (car cdr : Ptr) : Stores W (alloc (.mkCons car cdr)) := stores_alloc rfl rfl

theorem stores_str (s : CStr) : Stores W (mkStr s) := stores_alloc rfl rfl

theorem stores_err (t : ErrType) (min : Nat) (e : ErrInfo) : Stores W (alloc (.mkErr t min e)) :=
  stores_alloc rfl rfl

theorem stores_prepend (L val : Ptr) : Stores W (blListPrepend L val) := stores_cons val L

theorem stores_list_len (L : Ptr) : Stores W (blListLen L) := by
  refine stores_ite (stores_pure _) (stores_seq (stores_load L) fun c => ?_)
  exact stores_ite (stores_pure _) (stores_ite (stores_pure _) (stores_call (.listLen L 0)))

theorem stores_prepend_all (vals : List Ptr) (retval : Ptr) : Stores W (prependAll vals retval) := by
  induction vals generalizing retval with
  | nil => exact stores_pure retval
  | cons val vals ih => exact stores_seq (stores_prepend retval val) ih

theorem stores_mk_list (vals : List Ptr) : Stores W (blMkList vals) := by
  refine stores_ite (stores_cons _ _) (stores_seq (stores_prepend_all vals _) fun retval => ?_)
  exact stores_call (.reverseLoop retval .null)

theorem stores_invalid_len (L : Ptr) (min max : Nat) : Stores W (blErrifInvalidLen L min max) := by
  refine stores_seq (stores_type_of L) fun t => stores_ite (stores_pure _) ?_
  refine stores_seq (stores_list_len L) fun len => stores_ite (stores_pure _) ?_
  exact stores_ite (stores_err _ _ _) (stores_err _ _ _)

theorem stores_check_args (expected : List ValType) (i : Ptr) (isGood : Bool) :
    Stores W (checkArgs expected i isGood) := by
  induction expected generalizing i isGood with
  | nil => exact stores_pure _
  | cons kind rest ih =>
      refine stores_seq (stores_load i) fun c => stores_seq (stores_type_of c.car) fun t => ?_
      exact stores_ite (stores_pure _) (stores_ite (ih _ _) (ih _ _))

theorem stores_arg_types (expected : List ValType) (i : Ptr) : Stores W (argTypes expected i) := by
  induction expected generalizing i with
  | nil => exact stores_pure _
  | cons kind rest ih =>
      refine stores_seq (stores_load i) fun c => stores_seq (stores_type_of c.car) fun t => ?_
      exact stores_seq (ih _) fun types => stores_pure _

theorem stores_fixed_args (params : Ptr) (expected : List ValType) :
    Stores W (blErrifInvalidFixedArgs params expected) := by
  refine stores_seq (stores_invalid_len params _ _) fun invalid => stores_ite (stores_pure _) ?_
  refine stores_seq (stores_check_args expected params true) fun checked => ?_
  obtain ⟨found, isGood⟩ := checked
  refine stores_ite (stores_pure _) (stores_ite (stores_pure _) ?_)
  exact stores_seq (stores_arg_types _ _) fun provided => stores_err _ _ _

end Lists

section Texts

variable {W : World}

theorem stores_naked (p : Ptr) : Stores W (blSerNakedSexp p) :=
  stores_seq (stores_call (.serSexp p)) fun _ => stores_seq (stores_type_of p) fun _ =>
    stores_pure _

theorem stores_split (s sep : CStr) : Stores W (splitStr s sep) := by
  refine stores_ite (stores_pure _) (stores_ite ?_ (stores_call (.splitLoop s sep .null)))
  exact stores_seq (stores_str s) fun s => stores_mk_list [s]

theorem stores_errmsg (E : Ptr) : Stores W (blErrmsg E) := by
  refine stores_seq (stores_load E) fun c => stores_seq (stores_member _) fun code => ?_
  dsimp only
  repeat' apply stores_ite
  all_goals first
    | exact stores_pure _
    | exact stores_trap
    | exact stores_seq (stores_load _) fun sym => stores_seq (stores_member _) fun name =>
        stores_seq (stores_call (.serSexp c.err.errVal)) fun val => stores_pure _

theorem stores_ser_sexp (expr : Ptr) : Stores W (serSexpBody expr) := by
  refine stores_ite (stores_pure _) (stores_seq (stores_load expr) fun c => ?_)
  cases c.type with
  | error => exact stores_errmsg expr
  | symbol => exact stores_member _
  | string => exact stores_seq (stores_member _) fun s => stores_pure _
  | number => exact stores_seq (stores_member _) fun i => stores_pure _
  | bool => exact stores_seq (stores_member _) fun b => stores_pure _
  | funcBl =>
      exact stores_seq (stores_call (.serSexp c.cdr)) fun args =>
        stores_seq (stores_call (.serSexp c.car)) fun body => stores_pure _
  | operBl => exact stores_seq (stores_call (.serSexp c.car)) fun body => stores_pure _
  | cons =>
      refine stores_ite (stores_pure _) ?_
      exact stores_seq (stores_call (.serLoop expr (text "("))) fun s => stores_pure _
  | _ => exact stores_pure _

end Texts

section Builtins

variable {W : World}

theorem stores_eval (site : Site) (ctx expr : Ptr) : Stores W (blEval site ctx expr) :=
  stores_call (.eval site ctx expr)

theorem stores_eval_cons (ctx expr : Ptr) : Stores W (blEvalCons ctx expr) :=
  stores_ite (stores_pure _) (stores_call (.evalConsLoop ctx expr .null .null))

theorem stores_get (ctx key : Ptr) : Stores W (blCtxGet ctx key) := stores_call (.ctxGet ctx key)

theorem stores_ser (expr : Ptr) : Stores W (blSerSexp expr) := stores_call (.serSexp expr)

theorem stores_symbol (name : CStr) : Stores W (mkSymbol name) :=
  stores_op (.mkSymbol name) fun _ => trivial

theorem stores_slot (ctx : Ptr) (i : Nat) : Stores W (ctxVal ctx i) :=
  stores_op (.ctxVal ctx i) fun _ => trivial

theorem stores_key (ctx : Ptr) (i : Nat) : Stores W (ctxKey ctx i) :=
  stores_op (.ctxKey ctx i) fun _ => trivial

theorem stores_str_of (p : Ptr) : Stores W (strOf p) :=
  stores_seq (stores_load p) fun c => stores_member c.sVal

theorem stores_list_last (L : Ptr) : Stores W (blListLast L) := by
  refine stores_ite (stores_pure _) (stores_seq (stores_call (.lastCell L)) fun last => ?_)
  exact stores_seq (stores_load last) fun c => stores_pure c.car

theorem stores_prepend_symbols (names : List CStr) (retval : Ptr) :
    Stores W (prependSymbols names retval) := by
  induction names generalizing retval with
  | nil => exact stores_pure retval
  | cons name names ih =>
      exact stores_seq (stores_symbol name) fun sym => stores_seq (stores_prepend retval sym) ih

theorem stores_doc_members (ctx mod : Ptr) (count i : Nat) (retval : CStr) :
    Stores W (docMembers ctx mod count i retval) := by
  induction count generalizing i retval with
  | zero => exact stores_pure retval
  | succ count ih =>
      refine stores_seq (stores_slot mod i) fun val => stores_ite (ih _ _) ?_
      refine stores_seq (stores_key mod i) fun key => stores_seq (stores_str_of key) fun name => ?_
      refine stores_seq (stores_type_of val) fun t => stores_ite ?_ (ih _ _)
      refine stores_seq (stores_mk_list [val]) fun args => ?_
      refine stores_seq (stores_call (.native (.builtin .doc) ctx args)) fun doc => ?_
      exact stores_seq (stores_str_of doc) fun s => ih _ _

theorem stores_dir_from (mod : Ptr) (count i : Nat) (retval : Ptr) :
    Stores W (dirFrom mod count i retval) := by
  induction count generalizing i retval with
  | zero => exact stores_pure retval
  | succ count ih =>
      refine stores_seq (stores_slot mod i) fun val => stores_ite (ih _ _) ?_
      refine stores_seq (stores_key mod i) fun key => stores_seq (stores_str_of key) fun name => ?_
      refine stores_ite (ih _ _) (stores_seq (stores_str name) fun s => ?_)
      exact stores_seq (stores_prepend retval s) fun retval => ih _ _

theorem stores_parse_file (contents : CStr) : Stores W (blParseFile contents) := by
  refine stores_seq ?_ fun _ => stores_pure _
  refine stores_seq (stores_call (.readForm (scannerOf contents))) fun read => ?_
  refine stores_ite (stores_seq (stores_cons _ _) fun _ => stores_pure _) ?_
  refine stores_seq (stores_type_of read.1) fun _ => stores_ite ?_ ?_
  · exact stores_seq (stores_cons _ _) fun _ => stores_pure _
  · refine stores_seq (stores_cons _ _) fun retval => ?_
    exact stores_seq (stores_call (.readListLoop read.2 retval)) fun _ => stores_pure _

theorem stores_eval_file (ctx : Ptr) (contents : CStr) : Stores W (blEvalFile ctx contents) :=
  stores_seq (stores_parse_file contents) fun sexp => stores_eval .operand ctx sexp

theorem stores_join (L : Ptr) (sep : CStr) : Stores W (joinStr L sep) :=
  stores_call (.joinLoop L sep none)

theorem stores_import_nested (ctx : Ptr) (name : CStr) : Stores W (importNested ctx name) := by
  refine stores_seq (stores_split _ _) fun split => stores_seq (stores_load split) fun c => ?_
  refine stores_seq (stores_str_of c.car) fun otherName => ?_
  refine stores_seq (stores_symbol otherName) fun otherSym => ?_
  refine stores_seq (stores_get ctx otherSym) fun other => stores_ite (stores_err _ _ _) ?_
  refine stores_seq (stores_list_len split) fun n => ?_
  have later (kname : CStr) (new : Ptr) : Stores W (if new = .null then blErrModnotfound kname
      else blListLast split >>= fun last => strOf last >>= fun lastName =>
        mkSymbol lastName >>= fun lastSym => blCtxSet ctx lastSym new >>= fun _ => pure new) := by
    refine stores_ite (stores_err _ _ _) (stores_seq (stores_list_last split) fun last => ?_)
    refine stores_seq (stores_str_of last) fun lastName => ?_
    refine stores_seq (stores_symbol lastName) fun lastSym => ?_
    exact stores_seq (stores_ctx_set ctx lastSym new) fun _ => stores_pure new
  refine stores_ite ?_ ?_
  · refine stores_seq (stores_join c.cdr _) fun joined => stores_seq (stores_member joined) fun kname => ?_
    refine stores_seq (stores_symbol kname) fun key => stores_seq (stores_mk_list [key]) fun args => ?_
    exact stores_seq (stores_call (.native (.builtin .importModule) other args)) fun new =>
      later kname new
  · refine stores_seq (stores_load c.cdr) fun rest => stores_seq (stores_str_of rest.car) fun kname => ?_
    refine stores_seq (stores_symbol kname) fun key => ?_
    exact stores_seq (stores_get other key) fun new => later kname new

theorem stores_import_found (ctx : Ptr) (name path : CStr) :
    Stores W (importFound W ctx name path) := by
  have binds (new : Ptr) : Stores W (mkSymbol name >>= fun sym => blCtxSet ctx sym new >>= fun _ =>
      pure new) :=
    stores_seq (stores_symbol name) fun sym => stores_seq (stores_ctx_set ctx sym new) fun _ =>
      stores_pure new
  have filename {new : Ptr} {rest : Prog Ptr} (rests : Stores W rest) :
      Stores W (mkSymbol (text "*FILENAME*") >>= fun filenameSym => mkStr path >>= fun filename =>
        blCtxSet new filenameSym filename >>= fun _ => rest) :=
    stores_seq (stores_symbol _) fun filenameSym => stores_seq (stores_str path) fun filename =>
      stores_seq (stores_ctx_set new filenameSym filename) fun _ => rests
  refine stores_seq (stores_member _) fun ext => stores_ite ?_ ?_
  · cases W.dlopen path with
    | error err => exact stores_err _ _ _
    | ok number => exact stores_seq (stores_call (.modInit number ctx)) fun new => filename (binds new)
  · refine stores_seq (stores_member _) fun contents => stores_seq (stores_ctx_new ctx) fun new => ?_
    refine filename (stores_seq (stores_eval_file new contents) fun result => ?_)
    exact stores_seq (stores_type_of result) fun _ => stores_ite (stores_pure result) (binds new)

theorem stores_import_search (ctx moduleName : Ptr) :
    Stores W (importSearch W ctx moduleName) := by
  refine stores_seq (stores_symbol _) fun pathSym => stores_seq (stores_get ctx pathSym) fun curPath => ?_
  refine stores_seq (stores_symbol _) fun sym => stores_seq (stores_get ctx sym) fun modFilename => ?_
  refine stores_branch (stores_str _) (stores_pure _) fun curPath => ?_
  refine stores_branch (stores_str _) (stores_pure _) fun modFilename => ?_
  refine stores_seq (stores_str_of modFilename) fun filename => ?_
  refine stores_seq (stores_call (.pathLoop curPath _)) fun dirs => ?_
  refine stores_seq (stores_str_of moduleName) fun name => ?_
  cases firstFile (W.glob (dirs.dropLast ++ text "\x7d" ++ modulePattern name)) with
  | none => exact stores_err _ _ _
  | some path => exact stores_import_found ctx name _

theorem stores_import (ctx params : Ptr) : Stores W (blOperImport W ctx params) := by
  refine stores_seq (stores_list_first params) fun first => stores_seq (stores_str_of first) fun name => ?_
  refine stores_ite (stores_import_nested ctx name) (stores_seq (stores_load first) fun f => ?_)
  refine stores_ite (stores_seq (stores_get ctx first) fun found => ?_) (stores_import_search ctx first)
  refine stores_seq (stores_type_of _) fun _ => stores_ite (stores_pure _) ?_
  exact stores_import_search ctx _

theorem stores_using (ctx params : Ptr) : Stores W (blOperUsing ctx params) := by
  refine stores_seq (stores_list_first params) fun sym => stores_seq (stores_str_of sym) fun s => ?_
  refine stores_seq (stores_split s _) fun split => stores_seq (stores_list_last split) fun last => ?_
  refine stores_seq (stores_str_of last) fun lastName => ?_
  refine stores_seq (stores_symbol lastName) fun lastsym => ?_
  refine stores_seq (stores_call (.reverseLoop split .null)) fun revSplit => ?_
  refine stores_seq (stores_list_rest revSplit) fun revRest => ?_
  refine stores_seq (stores_call (.reverseLoop revRest .null)) fun allButLast => ?_
  refine stores_seq (stores_join allButLast _) fun joined => ?_
  refine stores_seq (stores_member joined) fun name => ?_
  refine stores_seq (stores_symbol name) fun otherSym => ?_
  refine stores_seq (stores_get ctx otherSym) fun other => ?_
  refine stores_ite (stores_err _ _ _) (stores_ite (stores_call (.usingLoop ctx other 0)) ?_)
  refine stores_seq (stores_get other lastsym) fun symval => stores_ite (stores_err _ _ _) ?_
  exact stores_seq (stores_ctx_set ctx lastsym symval) fun _ => stores_pure symval

theorem stores_doc_block (title : CStr) (val : Ptr) : Stores W (docBlock title val) := by
  refine stores_ite (stores_pure _) (stores_seq (stores_str_of val) fun s => ?_)
  exact stores_seq (stores_split s _) fun split => stores_call (.docLines split _)

theorem stores_genmod_doc (sym mod : Ptr) : Stores W (blGenmodDoc sym mod) := by
  refine stores_seq (stores_symbol _) fun nameSym => stores_seq (stores_get mod nameSym) fun found => ?_
  refine stores_seq (stores_str_of _) fun name => stores_seq (stores_symbol _) fun summarySym => ?_
  refine stores_seq (stores_get mod summarySym) fun summary => ?_
  have later (summaryText : CStr) : Stores W
      (mkSymbol (text "*DESCRIPTION*") >>= fun descriptionSym =>
        blCtxGet mod descriptionSym >>= fun description =>
        docBlock (text "DESCRIPTION") description >>= fun descriptionText =>
        mkSymbol (text "*EXAMPLE*") >>= fun exampleSym =>
        blCtxGet mod exampleSym >>= fun example_ =>
        docBlock (text "EXAMPLE") example_ >>= fun exampleText =>
        mkStr (text "NAME\n\t" ++ name ++ summaryText ++ text "\n" ++ descriptionText ++
          (if description = .null then [] else text "\n") ++ exampleText)) := by
    refine stores_seq (stores_symbol _) fun sym => stores_seq (stores_get mod sym) fun description => ?_
    refine stores_seq (stores_doc_block _ description) fun _ => stores_seq (stores_symbol _) fun sym => ?_
    refine stores_seq (stores_get mod sym) fun example_ => ?_
    exact stores_seq (stores_doc_block _ example_) fun _ => stores_str _
  refine stores_ite (later []) ?_
  exact stores_seq (stores_str_of summary) fun s => later _

theorem stores_generate_doc (first val : Ptr) : Stores W (generateDoc first val) := by
  have printed (p : Ptr) : Stores W (blSerSexp p >>= mkStr) := stores_seq (stores_ser p) stores_str
  refine stores_seq (stores_load val) fun v => ?_
  cases v.type with
  | funcBl =>
      refine stores_seq (stores_load first) fun f => ?_
      refine stores_branch (stores_pure first) (stores_member v.sym) fun sym => ?_
      exact stores_seq (stores_prepend v.cdr sym) fun header => printed header
  | ctx => exact stores_genmod_doc first val
  | _ => exact printed val

theorem stores_doc (ctx params : Ptr) : Stores W (blOperDoc ctx params) := by
  refine stores_seq (stores_list_first params) fun first => ?_
  refine stores_seq (stores_eval .operand ctx first) fun evaluated => ?_
  refine stores_seq (stores_load evaluated) fun e => ?_
  refine stores_branch (stores_get ctx evaluated) (stores_pure evaluated) fun val => ?_
  refine stores_ite (stores_seq (stores_str_of first) fun name => stores_err _ _ _) ?_
  refine stores_seq (stores_load val) fun v => ?_
  refine stores_ite (stores_seq (stores_str_of v.docstr) stores_str) ?_
  refine stores_ite (stores_seq (stores_symbol _) fun docSym =>
    stores_seq (stores_get val docSym) ?documented) (stores_seq (stores_pure _) ?documented)
  intro found
  refine stores_branch (stores_generate_doc first val) (stores_pure found) fun docstr => ?_
  refine stores_seq (stores_str_of docstr) fun s => stores_ite ?_ (stores_str s)
  refine stores_seq ?_ fun c => ?_
  · exact stores_seq (stores_load val) fun c => stores_member c.asCtx
  · exact stores_seq (stores_doc_members ctx val c.valsCount 0 _) stores_str

theorem stores_add_mode (ctx params first : Ptr) : Stores W (addMode ctx params first) := by
  have sum : Stores W (call (.addNumbers ctx params 0) >>= fun sum : Int => alloc (.mkNumber sum)) :=
    stores_seq (stores_call _) fun _ => stores_alloc rfl rfl
  have joined : Stores W (call (.addStrings ctx params []) >>= fun s : CStr => mkStr s) :=
    stores_seq (stores_call _) fun s => stores_str s
  refine stores_seq (stores_type_of first) fun t => ?_
  cases t with
  | number => exact sum
  | cons => exact stores_call (.addLists ctx params .null)
  | _ => exact joined

theorem stores_builtin (op : Builtin) (ctx params : Ptr) :
    Stores W (builtinCode W op ctx params) := by
  cases op
  case importModule => exact stores_import ctx params
  case usingModule => exact stores_using ctx params
  case doc => exact stores_doc ctx params
  all_goals
    simp only [builtinCode, blOperProfile, blOperAget, blOperSplit, blOperStartswith, blOperPmatch,
      blOperAdd, blOperSub, blOperMult, blOperDiv, blOperMod, blOperSet, blOperFn, blOperFun,
      blOperForeach, blOperFiltered, blOperThrow, blOperOper, blOperMap, blOperEq, blOperLt, blOperGt,
      blOperPrint, blOperAnd, blOperNot, blOperOr, blOperXor, blOperFirst, blOperSecond, blOperThird,
      blOperRest, blOperAppend, blOperPrepend, blOperReverse, blOperIsset, blOperSerexp, blOperInc,
      blOperDec, blOperParse, blOperEval, blOperTry, blOperQuote, blOperMksym, blOperListbuiltins,
      blOperInclude, blOperDir, blOperCtxget, evalVariable, blParseSexp,
      blOperType, evalFirst, evalSecond, evalFirstValue, evalSecondValue, paramLenCheck,
      strOf, intOf, boolOf, stepVariable, stripDocstr, blListAppend, blErrSymnotfound, blErrDivzero,
      blMkErr, blListReverse, loadCtx]
  all_goals
    repeat' first
      | with_reducible intro _
      | with_reducible apply stores_seq
      | with_reducible apply stores_ite
      | with_reducible exact stores_pure _
      | with_reducible exact stores_eval _ _ _
      | with_reducible exact stores_eval_cons _ _
      | with_reducible exact stores_get _ _
      | with_reducible exact stores_call _
      | with_reducible exact stores_load _
      | with_reducible exact stores_member _
      | with_reducible exact stores_type_of _
      | with_reducible exact stores_add_mode _ _ _
      | with_reducible exact stores_list_first _
      | with_reducible exact stores_list_second _
      | with_reducible exact stores_list_third _
      | with_reducible exact stores_list_rest _
      | with_reducible exact stores_list_len _
      | with_reducible exact stores_mk_list _
      | with_reducible exact stores_prepend _ _
      | with_reducible exact stores_prepend_symbols _ _
      | with_reducible exact stores_symbol _
      | with_reducible exact stores_str _
      | with_reducible exact stores_err _ _ _
      | with_reducible exact stores_ser _
      | with_reducible exact stores_naked _
      | with_reducible exact stores_split _ _
      | with_reducible exact stores_trap
      | with_reducible exact stores_fixed_args _ _
      | with_reducible exact stores_invalid_len _ _ _
      | with_reducible exact stores_ctx_set _ _ _
      | with_reducible exact stores_ctx_new _
      | with_reducible exact stores_eval_file _ _
      | with_reducible exact stores_dir_from _ _ _ _
      | exact stores_alloc rfl rfl
      | exact stores_op _ fun _ => trivial

end Builtins

section Evaluator

variable {W : World}

theorem stores_body_loop (site : Site) (ctx i retval : Ptr) :
    Stores W (bodyLoop site ctx i retval) := by
  refine stores_ite (stores_pure _) (stores_seq (stores_load i) fun c => ?_)
  refine stores_seq (stores_eval site ctx c.car) fun v => ?_
  refine stores_branch (stores_type_of v) (stores_pure _) fun t => stores_ite (stores_pure _) ?_
  exact stores_seq (stores_load i) fun c => stores_call (.bodyLoop site ctx c.cdr v)

theorem stores_eval_if (probe : Bool) (ctx expr : Ptr) : Stores W (blEvalIf probe ctx expr) := by
  refine stores_seq (stores_load expr) fun e => stores_seq (stores_list_first e.cdr) fun condExpr => ?_
  refine stores_seq (stores_eval _ ctx condExpr) fun cond => stores_seq (stores_load cond) fun c => ?_
  refine stores_ite (stores_pure cond) (stores_ite (stores_err _ _ _) ?_)
  refine stores_seq (stores_member c.bVal) fun b => stores_seq (stores_load expr) fun e => ?_
  refine stores_ite ?_ ?_
  · exact stores_seq (stores_list_second e.cdr) fun branch => stores_eval _ ctx branch
  · exact stores_seq (stores_list_third e.cdr) fun branch => stores_eval _ ctx branch

theorem stores_body_head (inner e : Ptr) : Stores W (bodyHead inner e) := by
  refine stores_seq (stores_load e) fun ec => stores_ite (stores_pure _) ?_
  refine stores_seq (stores_load ec.car) fun h => stores_ite (stores_get inner ec.car) ?_
  refine stores_ite (stores_seq (stores_eval_if true inner e) fun r => ?_) (stores_pure _)
  refine stores_seq (stores_load r) fun c => stores_ite ?_ (stores_pure _)
  exact stores_seq (stores_load c.car) fun h => stores_ite (stores_get inner c.car) (stores_pure _)

theorem stores_set_params (ctx names vals : Ptr) : Stores W (blSetParams ctx names vals) :=
  stores_call (.setParams ctx names vals)

theorem stores_funcbody (func i : Ptr) : Stores W (funcbodyLoop func i) := by
  have left : Stores W leave := stores_op .leave fun _ => trivial
  have enter : Stores W (enterFunc func) := stores_op (.enterFunc func) fun _ => trivial
  have again (f : Cell) : Stores W (startBody func >>= fun _ => call (.funcbody func f.car)) :=
    stores_seq (stores_op (.startBody func) fun _ => trivial) fun _ => stores_call _
  refine stores_seq (stores_load i) fun ic => stores_seq (stores_load func) fun f => ?_
  refine stores_seq (stores_member f.innerClosure) fun inner => ?_
  refine stores_seq (stores_body_head inner ic.car) fun symval => stores_ite ?_ ?_
  · refine stores_seq (stores_load ic.car) fun e => stores_seq (stores_eval _ inner e.cdr) fun args => ?_
    refine stores_seq (stores_list_len args) fun n => stores_seq left fun _ => stores_seq enter fun _ => ?_
    refine stores_seq (stores_load func) fun f => ?_
    exact stores_ite (stores_seq (stores_set_params inner f.cdr args) fun _ => again f) (again f)
  · refine stores_seq (stores_eval _ inner ic.car) fun retval => stores_seq (stores_load i) fun ic => ?_
    exact stores_ite (stores_pure retval) (stores_call (.funcbody func ic.cdr))

theorem stores_eval_func (ctx expr car : Ptr) : Stores W (evalFuncBl ctx expr car) := by
  have left : Stores W leave := stores_op .leave fun _ => trivial
  have rest : Stores W (runFuncBody car) :=
    stores_seq (stores_op (.startBody car) fun _ => trivial) fun _ =>
      stores_seq (stores_load car) fun f => stores_seq (stores_call (.funcbody car f.car)) fun _ =>
        stores_seq left fun _ => stores_pure _
  refine stores_seq (stores_load expr) fun e => stores_seq (stores_eval _ ctx e.cdr) fun args => ?_
  refine stores_seq (stores_list_len expr) fun n => ?_
  refine stores_seq (stores_op (.enterFunc car) fun _ => trivial) fun _ => ?_
  refine stores_seq (stores_load car) fun f => stores_seq (stores_member f.innerClosure) fun inner => ?_
  exact stores_ite (stores_seq (stores_set_params inner f.cdr args) fun _ => rest) rest

theorem stores_eval_native (ctx expr car : Ptr) : Stores W (evalNative ctx expr car) := by
  have rest (op : Cell) (codePtr : Native) : Stores W (load expr >>= fun e =>
      setInvoked e.cdr e.car op.customData >>= fun _ =>
      call (.native codePtr ctx e.cdr) >>= fun retval => pure (orNull retval)) :=
    stores_seq (stores_load expr) fun e =>
      stores_seq (stores_op (.setInvoked e.cdr e.car op.customData) fun _ => trivial) fun _ =>
        stores_seq (stores_call (.native codePtr ctx e.cdr)) fun _ => stores_pure _
  refine stores_seq (stores_load expr) fun e => stores_seq (stores_load car) fun op => ?_
  refine stores_seq (stores_member op.codePtr) fun codePtr => stores_ite ?_ (rest op codePtr)
  exact stores_seq (stores_op (.setCdr .noArguments expr nullVal) fun _ => trivial) fun _ =>
    rest op codePtr

/-- The context of a call is put into a cell that is an oper. -/
theorem oper_call_follows {s : State} {car : Ptr} (oper : s.typeOf car = some .operBl) (expr : Ptr) :
    (evalOperBl expr car).Follows (runtime W) storing s := by
  have later (e : Cell) : Stores W (blListLen expr >>= fun n => enterOper car >>= fun _ =>
      load car >>= fun o => member o.innerClosure >>= fun inner =>
      if 1 < n then blSetParams inner o.cdr e.cdr >>= fun _ => load car >>= fun o =>
        member o.innerClosure >>= fun inner => setWriteToParent inner >>= fun _ =>
        call (.bodyLoop .operBody inner o.car nullVal) >>= fun r => leave >>= fun _ =>
        pure (orNull r.2)
      else load car >>= fun o => member o.innerClosure >>= fun inner =>
        setWriteToParent inner >>= fun _ => call (.bodyLoop .operBody inner o.car nullVal) >>= fun r =>
        leave >>= fun _ => pure (orNull r.2)) := by
    have runs : Stores W (load car >>= fun o => member o.innerClosure >>= fun inner =>
        setWriteToParent inner >>= fun _ => call (.bodyLoop .operBody inner o.car nullVal) >>= fun r =>
        leave >>= fun _ => pure (orNull r.2)) := by
      refine stores_seq (stores_load car) fun o => stores_seq (stores_member _) fun inner => ?_
      refine stores_seq (stores_op (.setWriteToParent inner) fun _ => trivial) fun _ => ?_
      refine stores_seq (stores_call (.bodyLoop .operBody inner o.car nullVal)) fun r => ?_
      exact stores_seq (stores_op .leave fun _ => trivial) fun _ => stores_pure _
    refine stores_seq (stores_list_len expr) fun n => ?_
    refine stores_seq (stores_op (.enterOper car) fun _ => trivial) fun _ => ?_
    refine stores_seq (stores_load car) fun o => stores_seq (stores_member _) fun inner => ?_
    exact stores_ite (stores_seq (stores_set_params inner o.cdr e.cdr) fun _ => runs) runs
  refine follows_load fun e _ => follows_load fun o _ => follows_member fun lexical _ => ?_
  refine follows_bind (stores_ctx_new lexical s) trivial fun new t made _ => ?_
  exact ⟨type_of_grows (runs_grows made) oper, fun _ u _ _ => later e u⟩

theorem stores_apply (ctx expr car : Ptr) : Stores W (evalApply ctx expr car) := by
  intro s
  refine follows_load fun c known => ?_
  cases kind : c.type with
  | error => exact stores_pure car s
  | operNative => exact stores_eval_native ctx expr car s
  | operDo =>
      refine stores_seq (stores_load expr) (fun e => ?_) s
      exact stores_seq (stores_call (.bodyLoop .doElement ctx e.cdr nullVal)) fun _ => stores_pure _
  | operIf =>
      refine stores_seq (stores_eval_if false ctx expr) (fun retval => ?_) s
      refine stores_seq (stores_type_of retval) fun t => stores_ite (stores_pure retval) ?_
      exact stores_call (.evalLoop ctx retval)
  | operWhile =>
      refine stores_seq (stores_load expr) (fun e => ?_) s
      exact stores_seq (stores_list_first e.cdr) fun cond => stores_call (.whileLoop ctx expr cond)
  | funcBl => exact stores_eval_func ctx expr car s
  | operBl => exact oper_call_follows (by rw [State.typeOf, known, Option.map_some, kind]) expr
  | _ => exact stores_seq (stores_eval_cons ctx expr) (fun _ => stores_pure _) s

theorem stores_eval_loop (ctx expr : Ptr) : Stores W (evalLoopBody ctx expr) := by
  refine stores_ite (stores_pure _) (stores_seq (stores_load expr) fun e => ?_)
  cases e.type with
  | error => exact stores_pure expr
  | cons =>
      refine stores_ite (stores_pure _) (stores_seq (stores_load e.car) fun head => ?_)
      refine stores_ite (stores_seq (stores_get ctx e.car) fun car => ?_) (stores_apply ctx expr e.car)
      refine stores_ite ?_ (stores_apply ctx expr car)
      exact stores_seq (stores_member head.sVal) fun name => stores_err _ _ _
  | symbol =>
      refine stores_seq (stores_get ctx expr) fun symval => stores_ite ?_ (stores_pure symval)
      exact stores_seq (stores_member e.sVal) fun name => stores_err _ _ _
  | _ => exact stores_pure expr

theorem stores_native (extensions : Storing W) (op : Native) (ctx params : Ptr) :
    Stores W (nativeCode W op ctx params) := by
  cases op with
  | builtin op => exact stores_builtin op ctx params
  | extension number => exact extensions.oper number ctx params

theorem stores_ctx_get (ctx key : Ptr) : Stores W (ctxGetBody ctx key) := by
  refine stores_ite (stores_err _ _ _) (stores_seq ?_ fun c => ?_)
  · exact stores_seq (stores_load ctx) fun c => stores_member c.asCtx
  cases c.ctxGet with
  | some number => exact stores_call (.customGet number ctx key)
  | none =>
      refine stores_seq (stores_load key) fun k => stores_ite (stores_err _ _ _) ?_
      refine stores_seq (stores_member k.sVal) fun name => stores_ite (stores_symbol _) ?_
      cases strstr (text "::") name with
      | some i =>
          refine stores_seq (stores_symbol _) fun ctxKey => ?_
          refine stores_seq (stores_get ctx ctxKey) fun other => ?_
          refine stores_ite (stores_pure _) (stores_seq (stores_symbol _) fun symKey => ?_)
          exact stores_get other symKey
      | none =>
          refine stores_seq (stores_member k.symId) fun id => ?_
          refine stores_branch (stores_slot ctx id) (stores_pure _) fun retval => ?_
          exact stores_ite (stores_pure _) (stores_ite (stores_get c.parent key) (stores_pure _))

theorem stores_read_form (slash : Bool) (sc : Scanner) : Stores W (readFormBody slash sc) := by
  unfold readFormBody
  split
  · exact stores_pure _
  · rename_i token sc _
    refine stores_seq ?_ fun read => ?_
    · cases token with
      | lparen => 
          refine stores_seq (stores_call (.readForm sc)) fun read => ?_
          refine stores_ite (stores_seq (stores_cons _ _) fun _ => stores_pure _) ?_
          refine stores_seq (stores_type_of read.1) fun _ => stores_ite ?_ ?_
          · exact stores_seq (stores_cons _ _) fun _ => stores_pure _
          · refine stores_seq (stores_cons _ _) fun retval => ?_
            exact stores_seq (stores_call (.readListLoop read.2 retval)) fun _ => stores_pure _
      | string => exact stores_seq (stores_str _) fun _ => stores_pure _
      | integer => exact stores_seq (stores_alloc rfl rfl) fun _ => stores_pure _
      | docstring => exact stores_seq (stores_alloc rfl rfl) fun _ => stores_pure _
      | symbol => exact stores_seq (stores_symbol _) fun _ => stores_pure _
      | _ => exact stores_pure _
    · exact stores_seq (stores_op (.setLine read.1 read.2.lineno) fun _ => trivial) fun _ =>
        stores_pure _

theorem stores_split_loop (buf sep : CStr) (retval : Ptr) : Stores W (splitLoop buf sep retval) := by
  unfold splitLoop
  cases tailSubstr buf sep with
  | some found =>
      refine stores_seq (stores_str found.1) fun s => stores_seq (stores_prepend retval s) fun r => ?_
      exact stores_call (.splitLoop found.2 sep r)
  | none =>
      refine stores_ite ?_ (stores_call (.reverseLoop retval .null))
      refine stores_seq (stores_str buf) fun s => stores_seq (stores_prepend retval s) fun r => ?_
      exact stores_call (.reverseLoop r .null)

theorem stores_compile_atom (E : Ptr) : Stores W (compileAtomBody E) := by
  refine stores_ite (stores_pure _) (stores_seq (stores_load E) fun e => ?_)
  cases e.type with
  | cons =>
      refine stores_seq (stores_load E) fun c => stores_seq (stores_call (.compileAtom c.car)) fun _ => ?_
      refine stores_seq (stores_load E) fun c => stores_seq (stores_call (.compileAtom c.cdr)) fun _ => ?_
      exact stores_pure _
  | symbol => exact stores_seq (stores_ser E) fun s => stores_pure _
  | number => exact stores_seq (stores_ser E) fun s => stores_pure _
  | bool => exact stores_seq (stores_member e.bVal) fun b => stores_pure _
  | string => exact stores_seq (stores_member e.sVal) fun s => stores_pure _
  | _ => exact stores_pure _

/-- Every procedure keeps to the conduct. -/
theorem stores_body (extensions : Storing W) (c : Call) : Stores W (body W c) := by
  cases c
  case native op ctx params => exact stores_native extensions op ctx params
  case customGet number ctx key => exact extensions.customGet number ctx key
  case modInit number ctx => exact extensions.modInit number ctx
  case extensionLoop number vars buf => exact extensions.loop number vars buf
  case evalLoop ctx expr => exact stores_eval_loop ctx expr
  case bodyLoop site ctx i retval => exact stores_body_loop site ctx i retval
  case funcbody func i => exact stores_funcbody func i
  case serSexp expr => exact stores_ser_sexp expr
  case ctxGet ctx key => exact stores_ctx_get ctx key
  case readForm sc => exact stores_read_form W.slash sc
  case splitLoop buf sep retval => exact stores_split_loop buf sep retval
  case compileAtom E => exact stores_compile_atom E
  all_goals
    simp only [body, evalBody, evalConsLoop, whileLoop, setParamsLoop, listLenLoop, lastCellLoop,
      reverseLoop, readListLoop, serLoop, joinLoop, pmatchLoop, agetLoop, foreachLoop,
      filteredLoop, filteredInner, tryLoop, mapLoop, mapBody, addLists, addSpread, addNumbers,
      addStrings, printLoop, pathLoop, usingLoop, docLines, compileBodyLoop,
      compileFormsLoop, compileCons, compileExpr, compileFun, blOperEq, evalFirst, evalSecond, strOf,
      intOf, boolOf, loadCtx, blMkErr, blListReverse]
  all_goals
    repeat' first
      | with_reducible intro _
      | with_reducible apply stores_seq
      | with_reducible apply stores_ite
      | with_reducible exact stores_pure _
      | with_reducible exact stores_eval _ _ _
      | with_reducible exact stores_eval_cons _ _
      | with_reducible exact stores_get _ _
      | with_reducible exact stores_call _
      | with_reducible exact stores_load _
      | with_reducible exact stores_member _
      | with_reducible exact stores_type_of _
      | with_reducible exact stores_list_first _
      | with_reducible exact stores_list_second _
      | with_reducible exact stores_list_third _
      | with_reducible exact stores_list_rest _
      | with_reducible exact stores_list_len _
      | with_reducible exact stores_mk_list _
      | with_reducible exact stores_prepend _ _
      | with_reducible exact stores_prepend_symbols _ _
      | with_reducible exact stores_symbol _
      | with_reducible exact stores_str _
      | with_reducible exact stores_err _ _ _
      | with_reducible exact stores_ser _
      | with_reducible exact stores_naked _
      | with_reducible exact stores_split _ _
      | with_reducible exact stores_trap
      | with_reducible exact stores_fixed_args _ _
      | with_reducible exact stores_invalid_len _ _ _
      | with_reducible exact stores_ctx_set _ _ _
      | with_reducible exact stores_ctx_new _
      | with_reducible exact stores_eval_file _ _
      | with_reducible exact stores_dir_from _ _ _ _
      | exact stores_alloc rfl rfl
      | exact stores_op _ fun _ => trivial

end Evaluator

section Runs

variable {W : World} {α : Type} {s t : State}

/-- What every operation of a run keeps to. -/
theorem storing_performed (extensions : Storing W) {program : Prog α} (keeps : Stores W program)
    {op : Op} (performed : (runtime W).Performs program s op t) : storing.op op t := by
  obtain ⟨next, reached⟩ := performed
  have follows := follows_reached (fun c _ state _ _ => stores_body extensions c state)
    (fun _ _ _ => trivial) (.refl _ _) reached (keeps s)
  exact follows.1

/-- `bl_ctx_set` stores under the id in the cell it is given as a name. -/
theorem stored_under_name (extensions : Storing W) {program : Prog α} (keeps : Stores W program)
    {ctx key val : Ptr} {id : Nat}
    (performed : (runtime W).Performs program s (.ctxStore ctx id key val) t) :
    ∃ k, t.cell key = some k ∧ k.symId = some id :=
  storing_performed extensions keeps performed

/-- A value is stored under a symbol, and no symbol is changed. `(= 5 6)` stores under what
stands in the place of the id in a number, `append` to a symbol overwrites its id, and so do
`inc` and `dec` if the id is zero. -/
def SparesSymbols : Op → State → Prop
  | .ctxStore _ _ key _, s => s.typeOf key = some .symbol
  | .setCdr _ p _, s => s.typeOf p ≠ some .symbol
  | .setIVal p _, s => s.typeOf p ≠ some .symbol
  | _, _ => True

def ClosureOf (s : State) (func inner : Ptr) : Prop :=
  ∃ f, s.cell func = some f ∧ f.innerClosure = some inner

end Runs

end BearLang.ContextStores
