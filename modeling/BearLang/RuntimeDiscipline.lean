import BearLang.BuiltinDiscipline

/-!
# The runtime honours every discipline

The operators for modules and documentation, the dispatch of the builtins, and
all procedures together: one contract for each discipline that the code outside
`src` keeps to.
-/

namespace BearLang

open CallPrograms

set_option autoImplicit false

variable {D : Discipline}

section Modules

variable {ctx params : Ptr}

theorem oper_include_safe (linking : D.links) (W : World) (good : D.good ctx)
    (goodParams : D.good params) :
    Safe D (blOperInclude W ctx params) D.good := by
  refine safe_seq (eval_first_safe good goodParams) fun filename goodFile => ?_
  refine safe_seq (str_of_safe goodFile) fun name _ => ?_
  exact safe_seq (safe_member_any _) fun contents _ => eval_file_safe linking good contents

theorem import_nested_safe (good : D.good ctx) (name : CStr) :
    Safe D (importNested ctx name) D.good := by
  refine safe_seq (split_str_safe _ _) fun split goodSplit => ?_
  refine safe_seq (safe_load goodSplit) fun c holds => ?_
  refine safe_seq (str_of_safe holds.car) fun otherName _ => ?_
  refine safe_seq (safe_mk_symbol _) fun otherSym goodSym => ?_
  refine safe_seq (safe_ctx_get good goodSym) fun other goodOther => ?_
  split
  · exact err_modnotfound_safe _
  · refine safe_seq (list_len_safe goodSplit) fun n _ => ?_
    have later : ∀ (kname : CStr) (new : Ptr), D.good new → Safe D
        (if new = .null then blErrModnotfound kname
          else blListLast split >>= fun last => strOf last >>= fun lastName =>
            mkSymbol lastName >>= fun lastSym => blCtxSet ctx lastSym new >>= fun _ =>
              pure new) D.good := by
      intro kname new goodNew
      split
      · exact err_modnotfound_safe _
      · refine safe_seq (list_last_safe goodSplit) fun last goodLast => ?_
        refine safe_seq (str_of_safe goodLast) fun lastName _ => ?_
        refine safe_seq (safe_mk_symbol _) fun lastSym goodLastSym => ?_
        exact safe_seq (ctx_set_safe good goodLastSym goodNew) fun _ _ => safe_pure goodNew
    split
    · refine safe_seq (join_str_safe holds.cdr _) fun joined _ => ?_
      refine safe_seq (safe_member_any _) fun kname _ => ?_
      refine safe_seq (safe_mk_symbol _) fun key goodKey => ?_
      refine safe_seq (mk_list_one_safe goodKey) fun args goodArgs => ?_
      exact safe_seq (safe_call (c := .native (.builtin .importModule) other args)
        ⟨goodOther, goodArgs⟩) fun new goodNew => later kname new goodNew
    · refine safe_seq (safe_load holds.cdr) fun rest holdsRest => ?_
      refine safe_seq (str_of_safe holdsRest.car) fun kname _ => ?_
      refine safe_seq (safe_mk_symbol _) fun key goodKey => ?_
      exact safe_seq (safe_ctx_get goodOther goodKey) fun new goodNew => later kname new goodNew

theorem path_loop_safe {p : Ptr} (good : D.good p) (pattern : CStr) :
    Safe D (pathLoop p pattern) fun _ => True := by
  unfold pathLoop
  split
  · exact safe_pure trivial
  · refine safe_seq (safe_load good) fun c holds => ?_
    refine safe_seq (str_of_safe holds.car) fun dir _ => ?_
    exact safe_call (c := .pathLoop _ _) holds.cdr

/-- A new module gets its file name, and the importer a name for the module. -/
theorem import_found_safe (linking : D.links) (W : World) (good : D.good ctx) (name path : CStr) :
    Safe D (importFound W ctx name path) D.good := by
  have named : ∀ new, D.good new → Safe D
      (mkSymbol name >>= fun sym => blCtxSet ctx sym new >>= fun _ => pure new) D.good := by
    intro new goodNew
    refine safe_seq (safe_mk_symbol _) fun sym goodSym => ?_
    exact safe_seq (ctx_set_safe good goodSym goodNew) fun _ _ => safe_pure goodNew
  have filed : ∀ {later : Prog Ptr} {new : Ptr}, D.good new → Safe D later D.good → Safe D
      (mkSymbol (text "*FILENAME*") >>= fun filenameSym => mkStr path >>= fun filename =>
        blCtxSet new filenameSym filename >>= fun _ => later) D.good := by
    intro later new goodNew safe
    refine safe_seq (safe_mk_symbol _) fun filenameSym goodSym => ?_
    refine safe_seq (safe_mk_str _) fun filename goodFile => ?_
    exact safe_seq (ctx_set_safe goodNew goodSym goodFile) fun _ _ => safe
  refine safe_seq (safe_member_any _) fun ext _ => ?_
  split
  · split
    · exact safe_alloc_good (holds_err D.null D.null)
    · refine safe_seq (safe_call (c := .modInit _ ctx) good) fun new goodNew => ?_
      exact filed goodNew (named new goodNew)
  · refine safe_seq (safe_member_any _) fun contents _ => ?_
    refine safe_seq (ctx_new_safe good) fun new goodNew => ?_
    refine filed goodNew ?_
    refine safe_seq (eval_file_safe linking goodNew contents) fun result goodResult => ?_
    refine safe_seq (type_of_safe goodResult) fun t _ => ?_
    split
    · exact safe_pure goodResult
    · exact named new goodNew

theorem import_search_safe (linking : D.links) (W : World) {moduleName : Ptr} (good : D.good ctx)
    (goodName : D.good moduleName) : Safe D (importSearch W ctx moduleName) D.good := by
  refine safe_seq (safe_mk_symbol _) fun pathSym goodPath => ?_
  refine safe_seq (safe_ctx_get good goodPath) fun curPath goodCur => ?_
  refine safe_seq (safe_mk_symbol _) fun filenameSym goodFile => ?_
  refine safe_seq (safe_ctx_get good goodFile) fun modFilename goodMod => ?_
  refine safe_branch (safe_mk_str _) (safe_pure goodCur) fun curPath goodCur => ?_
  refine safe_branch (safe_mk_str _) (safe_pure goodMod) fun modFilename goodMod => ?_
  refine safe_seq (str_of_safe goodMod) fun filename _ => ?_
  refine safe_seq (safe_call (c := .pathLoop curPath _) goodCur) fun dirs _ => ?_
  refine safe_seq (str_of_safe goodName) fun name _ => ?_
  split
  · exact err_modnotfound_safe _
  · exact import_found_safe linking W good _ _

theorem oper_import_safe (linking : D.links) (W : World) (good : D.good ctx) (goodParams : D.good params) :
    Safe D (blOperImport W ctx params) D.good := by
  refine safe_seq (list_first_safe goodParams) fun first goodFirst => ?_
  refine safe_seq (str_of_safe goodFirst) fun name _ => ?_
  split
  · exact import_nested_safe good name
  · refine safe_seq (safe_load goodFirst) fun f _ => ?_
    split
    · refine safe_seq (safe_ctx_get good goodFirst) fun found goodFound => ?_
      have goodName : D.good (if found = .null then first else found) := by
        split
        · exact goodFirst
        · exact goodFound
      refine safe_seq (type_of_safe goodName) fun t _ => ?_
      split
      · exact safe_pure goodName
      · exact import_search_safe linking W good goodName
    · exact import_search_safe linking W good goodFirst

theorem using_loop_safe {other : Ptr} (good : D.good ctx) (goodOther : D.good other) (i : Nat) :
    Safe D (usingLoop ctx other i) D.good := by
  refine safe_seq (load_ctx_safe goodOther) fun o _ => ?_
  split
  · refine safe_seq (safe_ctx_val goodOther i) fun val goodVal => ?_
    split
    · refine safe_seq (safe_ctx_key goodOther i) fun key goodKey => ?_
      refine safe_seq (ctx_set_safe good goodKey goodVal) fun _ _ => ?_
      exact safe_call (c := .usingLoop ctx other _) ⟨good, goodOther⟩
    · exact safe_call (c := .usingLoop ctx other _) ⟨good, goodOther⟩
  · exact safe_pure null_val_good

theorem oper_using_safe (good : D.good ctx) (goodParams : D.good params) :
    Safe D (blOperUsing ctx params) D.good := by
  refine safe_seq (list_first_safe goodParams) fun sym goodSym => ?_
  refine safe_seq (str_of_safe goodSym) fun s _ => ?_
  refine safe_seq (split_str_safe _ _) fun split goodSplit => ?_
  refine safe_seq (list_last_safe goodSplit) fun last goodLast => ?_
  refine safe_seq (str_of_safe goodLast) fun lastName _ => ?_
  refine safe_seq (safe_mk_symbol _) fun lastsym goodLastSym => ?_
  refine safe_seq (list_reverse_safe goodSplit) fun revSplit goodRev => ?_
  refine safe_seq (list_rest_safe goodRev) fun revRest goodRest => ?_
  refine safe_seq (list_reverse_safe goodRest) fun allButLast goodMost => ?_
  refine safe_seq (join_str_safe goodMost _) fun joined _ => ?_
  refine safe_seq (safe_member_any _) fun otherName _ => ?_
  refine safe_seq (safe_mk_symbol _) fun otherSym goodOtherSym => ?_
  refine safe_seq (safe_ctx_get good goodOtherSym) fun other goodOther => ?_
  split
  · exact err_modnotfound_safe _
  · split
    · exact safe_call (c := .usingLoop ctx other 0) ⟨good, goodOther⟩
    · refine safe_seq (safe_ctx_get goodOther goodLastSym) fun symval goodVal => ?_
      split
      · exact err_symnotfound_safe _
      · exact safe_seq (ctx_set_safe good goodLastSym goodVal) fun _ _ => safe_pure goodVal

theorem oper_isset_safe (good : D.good ctx) (goodParams : D.good params) :
    Safe D (blOperIsset ctx params) D.good := by
  refine safe_seq (list_first_safe goodParams) fun sym goodSym => ?_
  exact safe_seq (safe_ctx_get good goodSym) fun symval _ => safe_pure (bool_good _)

theorem oper_serexp_safe (good : D.good ctx) (goodParams : D.good params) :
    Safe D (blOperSerexp ctx params) D.good := by
  have printed : ∀ p, D.good p → Safe D (blSerSexp p >>= fun s => mkStr s) D.good :=
    fun p goodP => safe_seq (safe_ser_sexp goodP) fun s _ => safe_mk_str s
  refine safe_seq (safe_eval good goodParams) fun vals goodVals => ?_
  refine safe_seq (type_of_safe goodVals) fun t _ => ?_
  split
  · refine safe_seq (list_len_safe goodVals) fun n _ => ?_
    split
    · exact safe_seq (list_first_safe goodVals) printed
    · exact printed vals goodVals
  · exact printed vals goodVals

end Modules

section Documentation

variable {ctx params : Ptr}

theorem doc_lines_safe {L : Ptr} (good : D.good L) (retval : CStr) :
    Safe D (docLines L retval) fun _ => True := by
  unfold docLines
  split
  · exact safe_pure trivial
  · refine safe_seq (safe_load good) fun c holds => ?_
    refine safe_seq (str_of_safe holds.car) fun line _ => ?_
    exact safe_call (c := .docLines _ _) holds.cdr

theorem doc_block_safe (title : CStr) {val : Ptr} (good : D.good val) :
    Safe D (docBlock title val) fun _ => True := by
  unfold docBlock
  split
  · exact safe_pure trivial
  · refine safe_seq (str_of_safe good) fun s _ => ?_
    refine safe_seq (split_str_safe _ _) fun split goodSplit => ?_
    exact safe_call (c := .docLines split _) goodSplit

theorem genmod_doc_safe {sym mod : Ptr} (good : D.good sym) (goodMod : D.good mod) :
    Safe D (blGenmodDoc sym mod) D.good := by
  refine safe_seq (safe_mk_symbol _) fun nameSym goodName => ?_
  refine safe_seq (safe_ctx_get goodMod goodName) fun found goodFound => ?_
  have goodNamed : D.good (if found = .null then sym else found) := by
    split
    · exact good
    · exact goodFound
  refine safe_seq (str_of_safe goodNamed) fun name _ => ?_
  refine safe_seq (safe_mk_symbol _) fun summarySym goodSummarySym => ?_
  refine safe_seq (safe_ctx_get goodMod goodSummarySym) fun summary goodSummary => ?_
  have later : ∀ summaryText : CStr, Safe D
      (mkSymbol (text "*DESCRIPTION*") >>= fun descriptionSym =>
        blCtxGet mod descriptionSym >>= fun description =>
        docBlock (text "DESCRIPTION") description >>= fun descriptionText =>
        mkSymbol (text "*EXAMPLE*") >>= fun exampleSym =>
        blCtxGet mod exampleSym >>= fun example_ =>
        docBlock (text "EXAMPLE") example_ >>= fun exampleText =>
        mkStr (text "NAME\n\t" ++ name ++ summaryText ++ text "\n" ++ descriptionText ++
          (if description = .null then [] else text "\n") ++ exampleText)) D.good := by
    intro summaryText
    refine safe_seq (safe_mk_symbol _) fun descriptionSym goodDescriptionSym => ?_
    refine safe_seq (safe_ctx_get goodMod goodDescriptionSym) fun description goodDescr => ?_
    refine safe_seq (doc_block_safe _ goodDescr) fun descriptionText _ => ?_
    refine safe_seq (safe_mk_symbol _) fun exampleSym goodExampleSym => ?_
    refine safe_seq (safe_ctx_get goodMod goodExampleSym) fun example_ goodExample => ?_
    exact safe_seq (doc_block_safe _ goodExample) fun exampleText _ => safe_mk_str _
  split
  · exact later []
  · exact safe_seq (str_of_safe goodSummary) fun s _ => later _

theorem doc_members_safe {mod : Ptr} (good : D.good ctx) (goodMod : D.good mod) (count i : Nat)
    (retval : CStr) : Safe D (docMembers ctx mod count i retval) fun _ => True := by
  induction count generalizing i retval with
  | zero => exact safe_pure trivial
  | succ count ih =>
      refine safe_seq (safe_ctx_val goodMod i) fun val goodVal => ?_
      split
      · exact ih (i + 1) retval
      · refine safe_seq (safe_ctx_key goodMod i) fun key goodKey => ?_
        refine safe_seq (str_of_safe goodKey) fun name _ => ?_
        refine safe_seq (type_of_safe goodVal) fun t _ => ?_
        split
        · refine safe_seq (mk_list_one_safe goodVal) fun args goodArgs => ?_
          refine safe_seq (safe_call (c := .native (.builtin .doc) ctx args) ⟨good, goodArgs⟩)
            fun doc goodDoc => ?_
          exact safe_seq (str_of_safe goodDoc) fun s _ => ih (i + 1) _
        · exact ih (i + 1) retval

theorem generate_doc_safe {first val : Ptr} (good : D.good first) (goodVal : D.good val) :
    Safe D (generateDoc first val) D.good := by
  refine safe_seq (safe_load goodVal) fun v holds => ?_
  split
  · refine safe_seq (safe_load good) fun f _ => ?_
    have headed : ∀ sym, D.good sym → Safe D (blListPrepend v.cdr sym >>= fun header =>
        blSerSexp header >>= fun s => mkStr s) D.good := by
      intro sym goodSym
      refine safe_seq (list_prepend_safe holds.cdr goodSym) fun header goodHeader => ?_
      exact safe_seq (safe_ser_sexp goodHeader) fun s _ => safe_mk_str s
    split
    · exact headed first good
    · exact safe_seq (safe_member (closure_of_holds holds).2.2) headed
  · exact genmod_doc_safe good goodVal
  · exact safe_seq (safe_ser_sexp goodVal) fun s _ => safe_mk_str s

theorem oper_doc_safe (good : D.good ctx) (goodParams : D.good params) :
    Safe D (blOperDoc ctx params) D.good := by
  refine safe_seq (list_first_safe goodParams) fun first goodFirst => ?_
  refine safe_seq (safe_eval good goodFirst) fun evaluated goodEval => ?_
  refine safe_seq (safe_load goodEval) fun e _ => ?_
  refine safe_branch (safe_ctx_get good goodEval) (safe_pure goodEval) fun val goodVal => ?_
  refine safe_ite (safe_seq (str_of_safe goodFirst) fun name _ => err_symnotfound_safe name) ?_
  refine safe_seq (safe_load goodVal) fun v holds => ?_
  refine safe_ite (safe_seq (str_of_safe holds.docstr) fun s _ => safe_mk_str s) ?_
  refine safe_ite (safe_seq (safe_mk_symbol _) fun docSym goodSym =>
    safe_seq (safe_ctx_get goodVal goodSym) ?documented) (safe_seq (safe_pure D.null) ?documented)
  intro found goodFound
  refine safe_branch (generate_doc_safe goodFirst goodVal) (safe_pure goodFound)
    fun docstr goodDoc => ?_
  refine safe_seq (str_of_safe goodDoc) fun s _ => ?_
  refine safe_ite ?_ (safe_mk_str s)
  refine safe_seq (load_ctx_safe goodVal) fun c _ => ?_
  exact safe_seq (doc_members_safe good goodVal _ _ _) fun s _ => safe_mk_str s

theorem dir_from_safe {mod retval : Ptr} (good : D.good mod) (count i : Nat)
    (goodRet : D.good retval) : Safe D (dirFrom mod count i retval) D.good := by
  induction count generalizing i retval with
  | zero => exact safe_pure goodRet
  | succ count ih =>
      refine safe_seq (safe_ctx_val good i) fun val _ => ?_
      split
      · exact ih (i + 1) goodRet
      · refine safe_seq (safe_ctx_key good i) fun key goodKey => ?_
        refine safe_seq (str_of_safe goodKey) fun name _ => ?_
        split
        · exact ih (i + 1) goodRet
        · refine safe_seq (safe_mk_str _) fun s goodStr => ?_
          exact safe_seq (list_prepend_safe goodRet goodStr) fun new goodNew => ih (i + 1) goodNew

theorem eval_variable_safe (good : D.good ctx) (goodParams : D.good params) :
    Safe D (evalVariable ctx params) D.good := by
  refine safe_seq (list_first_safe goodParams) fun symname goodName => ?_
  exact safe_seq (safe_ctx_get good goodName) fun found goodFound => safe_eval good goodFound

theorem oper_dir_safe (good : D.good ctx) (goodParams : D.good params) :
    Safe D (blOperDir ctx params) D.good := by
  refine safe_seq (eval_variable_safe good goodParams) fun symval goodVal => ?_
  refine safe_seq (type_of_safe goodVal) fun t _ => ?_
  split
  · exact safe_pure D.null
  · exact safe_seq (load_ctx_safe goodVal) fun c _ => dir_from_safe goodVal _ _ D.null

theorem oper_mksym_safe (good : D.good ctx) (goodParams : D.good params) :
    Safe D (blOperMksym ctx params) D.good := by
  refine safe_seq (safe_eval good goodParams) fun vals goodVals => ?_
  refine safe_seq (list_first_safe goodVals) fun first goodFirst => ?_
  exact safe_seq (str_of_safe goodFirst) fun s _ => safe_mk_symbol s

theorem oper_ctxget_safe (good : D.good ctx) (goodParams : D.good params) :
    Safe D (blOperCtxget ctx params) D.good := by
  refine safe_seq (eval_variable_safe good goodParams) fun symval goodVal => ?_
  refine safe_seq (type_of_safe goodVal) fun t _ => ?_
  split
  · exact safe_pure D.null
  · refine safe_seq (list_second_safe goodParams) fun second goodSecond => ?_
    refine safe_seq (type_of_safe goodSecond) fun t _ => ?_
    split
    · exact safe_seq (safe_eval good goodSecond) fun key goodKey => safe_ctx_get goodVal goodKey
    · exact safe_ctx_get goodVal goodSecond

theorem oper_type_safe (good : D.good ctx) (goodParams : D.good params) :
    Safe D (blOperType ctx params) D.good := by
  refine safe_seq (safe_eval good goodParams) fun vals goodVals => ?_
  refine safe_seq (type_of_safe goodVals) fun t _ => ?_
  split
  · exact safe_pure goodVals
  · refine safe_seq (list_first_safe goodVals) fun first goodFirst => ?_
    exact safe_seq (type_of_safe goodFirst) fun t _ => safe_alloc_good (holds_type t)

end Documentation

section Compiler

theorem compile_cons_safe {L : Ptr} (good : D.good L) : Safe D (compileCons L) fun _ => True := by
  refine safe_seq (safe_load good) fun c holds => ?_
  refine safe_seq (safe_call (c := .compileAtom _) holds.car) fun car _ => ?_
  refine safe_seq (safe_load good) fun c holds => ?_
  exact safe_seq (safe_call (c := .compileAtom _) holds.cdr) fun cdr _ => safe_pure trivial

theorem compile_atom_safe {E : Ptr} (good : D.good E) :
    Safe D (compileAtomBody E) fun _ => True := by
  unfold compileAtomBody
  split
  · exact safe_pure trivial
  · refine safe_seq (safe_load good) fun c _ => ?_
    split
    · exact compile_cons_safe good
    · exact safe_pure trivial
    · exact safe_seq (safe_ser_sexp good) fun _ _ => safe_pure trivial
    · exact safe_seq (safe_ser_sexp good) fun _ _ => safe_pure trivial
    · exact safe_pure trivial
    · exact safe_pure trivial
    · exact safe_pure trivial
    · exact safe_seq (safe_member_any _) fun _ _ => safe_pure trivial
    · exact safe_seq (safe_member_any _) fun _ _ => safe_pure trivial
    · exact safe_pure trivial

theorem compile_expr_safe {expr : Ptr} (good : D.good expr) (infileName : CStr) :
    Safe D (compileExpr infileName expr) fun _ => True := by
  refine safe_seq (safe_load good) fun e _ => ?_
  exact safe_seq (compile_cons_safe good) fun code _ => safe_pure trivial

theorem compile_body_safe {L : Ptr} (good : D.good L) (infileName : CStr) :
    Safe D (compileBodyLoop infileName L) fun _ => True := by
  unfold compileBodyLoop
  split
  · exact safe_pure trivial
  · refine safe_seq (safe_load good) fun c holds => ?_
    refine safe_seq (compile_expr_safe holds.car infileName) fun expr _ => ?_
    refine safe_seq (safe_load good) fun c holds => ?_
    exact safe_seq (safe_call (c := .compileBody _ _) holds.cdr) fun exprs _ => safe_pure trivial

theorem compile_fun_safe {funExpr : Ptr} (good : D.good funExpr) (infileName : CStr) :
    Safe D (compileFun infileName funExpr) fun _ => True := by
  refine safe_seq (list_rest_safe good) fun params goodParams => ?_
  refine safe_seq (list_first_safe goodParams) fun funName goodName => ?_
  refine safe_seq (list_second_safe goodParams) fun _ _ => ?_
  refine safe_seq (list_rest_safe goodParams) fun rest goodRest => ?_
  refine safe_seq (list_rest_safe goodRest) fun body goodBody => ?_
  refine safe_seq (safe_load goodBody) fun b holds => ?_
  refine safe_seq (type_of_safe holds.car) fun first _ => ?_
  refine safe_seq (safe_load good) fun f holdsHead => ?_
  refine safe_seq (safe_load holdsHead.car) fun car _ => ?_
  refine safe_seq (safe_load goodName) fun n _ => ?_
  refine safe_seq (safe_member_any _) fun name _ => ?_
  have goodExprs : D.good (if first = .docstring then b.cdr else body) := by
    split
    · exact holds.cdr
    · exact goodBody
  exact safe_seq (safe_call (c := .compileBody _ _) goodExprs) fun exprs _ => safe_pure trivial

theorem compile_forms_safe {L : Ptr} (good : D.good L) (infileName : CStr) (setOper funOper : Ptr) :
    Safe D (compileFormsLoop infileName setOper funOper L) fun _ => True := by
  unfold compileFormsLoop
  split
  · exact safe_pure trivial
  · refine safe_seq (safe_load good) fun c holds => ?_
    refine safe_seq (safe_load holds.car) fun expr _ => ?_
    split
    · exact safe_call (c := .compileForms _ _ _ _) holds.cdr
    · split
      · refine safe_seq (compile_fun_safe holds.car infileName) fun code _ => ?_
        refine safe_seq (safe_load good) fun c holds => ?_
        exact safe_seq (safe_call (c := .compileForms _ _ _ _) holds.cdr) fun codes _ =>
          safe_pure trivial
      · exact safe_pure trivial

end Compiler

section Dispatch

variable {ctx params : Ptr}

/-- The operators that read the text of a program. -/
def Builtin.reads : Builtin → Bool
  | .includeFile => true
  | .importModule => true
  | _ => false

/-- The procedures that link a list of their own. -/
def Call.builds : Call → Bool
  | .evalConsLoop .. => true
  | .mapBody .. => true
  | .readForm _ => true
  | .readListLoop .. => true
  | .native (.builtin op) _ _ => op.reads
  | _ => false

theorem builtin_code_safe (W : World) (op : Builtin) (good : D.good ctx)
    (goodParams : D.good params) (may : D.links ∨ op.reads = false) :
    Safe D (builtinCode W op ctx params) D.good := by
  cases op with
  | profile => exact oper_profile_safe W good goodParams
  | listbuiltins => exact oper_listbuiltins_safe goodParams
  | aget => exact oper_aget_safe good goodParams
  | split => exact oper_split_safe good goodParams
  | startswith => exact oper_startswith_safe good goodParams
  | pmatch => exact oper_pmatch_safe good goodParams
  | add => exact oper_add_safe good goodParams
  | sub => exact oper_sub_safe good goodParams
  | mult => exact oper_mult_safe good goodParams
  | div => exact oper_div_safe good goodParams
  | mod => exact oper_mod_safe good goodParams
  | set => exact oper_set_safe good goodParams
  | fn => exact oper_fn_safe good goodParams
  | defun => exact oper_fun_safe good goodParams
  | foreach => exact oper_foreach_safe good goodParams
  | filtered => exact oper_filtered_safe good goodParams
  | throw => exact oper_throw_safe good goodParams
  | oper => exact oper_oper_safe good goodParams
  | map => exact oper_map_safe good goodParams
  | eq => exact oper_eq_safe good goodParams
  | lt => exact compare_safe good goodParams fun a b => decide (a < b)
  | gt => exact compare_safe good goodParams fun a b => decide (b < a)
  | print => exact oper_print_safe good goodParams
  | and => exact oper_and_safe good goodParams
  | not => exact oper_not_safe good goodParams
  | or => exact oper_or_safe good goodParams
  | xor => exact oper_xor_safe good goodParams
  | first => exact oper_first_safe good goodParams
  | second => exact oper_second_safe good goodParams
  | third => exact oper_third_safe good goodParams
  | rest => exact oper_rest_safe good goodParams
  | append => exact oper_append_safe good goodParams
  | prepend => exact oper_prepend_safe good goodParams
  | reverse => exact oper_reverse_safe good goodParams
  | includeFile => exact oper_include_safe (may.resolve_right nofun) W good goodParams
  | importModule => exact oper_import_safe (may.resolve_right nofun) W good goodParams
  | isset => exact oper_isset_safe good goodParams
  | serexp => exact oper_serexp_safe good goodParams
  | inc => exact step_variable_safe good goodParams 1
  | dec => exact step_variable_safe good goodParams (-1)
  | parse => exact oper_parse_safe good goodParams
  | eval => exact oper_eval_safe good goodParams
  | tryCatch => exact oper_try_safe good goodParams
  | quote => exact oper_quote_safe goodParams
  | usingModule => exact oper_using_safe good goodParams
  | doc => exact oper_doc_safe good goodParams
  | dir => exact oper_dir_safe good goodParams
  | mksym => exact oper_mksym_safe good goodParams
  | ctxget => exact oper_ctxget_safe good goodParams
  | type => exact oper_type_safe good goodParams

theorem native_code_safe {W : World} (disciplined : W.Disciplined D) (op : Native)
    (good : D.good ctx) (goodParams : D.good params)
    (may : D.links ∨ (Call.native op ctx params).builds = false) :
    Safe D (nativeCode W op ctx params) D.good := by
  cases op with
  | builtin op => exact builtin_code_safe W op good goodParams may
  | extension number => exact disciplined.oper number ctx params good goodParams

theorem body_safe {W : World} (disciplined : W.Disciplined D) (c : Call) (allowed : D.allowedCall c)
    (may : D.links ∨ c.builds = false) : Safe D (body W c) (D.callAnswer c) := by
  cases c with
  | eval site ctx expr => exact eval_body_safe allowed.1 allowed.2
  | evalLoop ctx expr => exact eval_loop_body_safe allowed.1 allowed.2
  | evalConsLoop ctx i start last =>
      obtain ⟨good, goodI, goodStart, isLast⟩ := allowed
      exact eval_cons_loop_safe (may.resolve_right nofun) good goodI goodStart isLast
  | bodyLoop site ctx i retval => exact body_loop_safe site allowed.1 allowed.2.1 allowed.2.2
  | whileLoop ctx expr cond => exact while_loop_safe allowed.1 allowed.2.1 allowed.2.2
  | funcbody func i => exact funcbody_loop_safe allowed.1 allowed.2
  | setParams ctx names vals => exact set_params_loop_safe allowed.1 allowed.2.1 allowed.2.2
  | native op ctx params => exact native_code_safe disciplined op allowed.1 allowed.2 may
  | ctxGet ctx key => exact ctx_get_body_safe allowed.1 allowed.2
  | customGet number ctx key => exact disciplined.customGet number ctx key allowed.1 allowed.2
  | listLen i count => exact list_len_loop_safe allowed count
  | lastCell L => exact last_cell_safe allowed
  | reverseLoop L retval => exact reverse_loop_safe allowed.1 allowed.2
  | readForm sc => exact read_form_body_safe (may.resolve_right nofun) W.slash sc
  | readListLoop sc L => exact read_list_loop_safe (may.resolve_right nofun) sc allowed
  | serSexp expr => exact ser_sexp_body_safe allowed
  | serLoop L retval => exact ser_loop_safe allowed retval
  | splitLoop buf sep retval => exact split_loop_safe buf sep allowed
  | joinLoop i sep retval => exact join_loop_safe allowed sep retval
  | pmatchLoop S L => exact pmatch_loop_safe allowed.1 allowed.2
  | agetLoop sym L retval => exact aget_loop_safe sym allowed.1 allowed.2
  | foreachLoop ctx sym L expr =>
      obtain ⟨good, goodSym, goodL, goodExpr⟩ := allowed
      exact foreach_loop_safe good goodSym goodL goodExpr
  | filteredLoop ctx L items retval =>
      obtain ⟨good, goodL, goodItems, goodRet⟩ := allowed
      exact filtered_loop_safe good goodL goodItems goodRet
  | filteredInner ctx x I isIn =>
      exact filtered_inner_safe allowed.1 allowed.2.1 allowed.2.2 isIn
  | tryLoop ctx tryResult i catchSym finallySym catchExpr finallyExpr =>
      obtain ⟨good, goodResult, goodI, goodCatch, goodFinally, goodExpr, goodCleanup⟩ := allowed
      exact try_loop_safe good goodResult goodI goodCatch goodFinally goodExpr goodCleanup
  | mapLoop func i last retval =>
      obtain ⟨good, goodI, isLast, goodRet⟩ := allowed
      exact map_loop_safe good goodI isLast goodRet
  | mapBody func i j last retval =>
      obtain ⟨good, goodI, goodJ, isLast, goodRet⟩ := allowed
      exact map_body_safe (may.resolve_right nofun) good goodI goodJ isLast goodRet
  | addLists ctx L retval => exact add_lists_safe allowed.1 allowed.2.1 allowed.2.2
  | addSpread x retval => exact add_spread_safe allowed.1 allowed.2
  | addNumbers ctx L sum => exact add_numbers_safe allowed.1 allowed.2 sum
  | addStrings ctx L s => exact add_strings_safe allowed.1 allowed.2 s
  | printLoop ctx i => exact print_loop_safe allowed.1 allowed.2
  | pathLoop p pattern => exact path_loop_safe allowed pattern
  | usingLoop ctx other i => exact using_loop_safe allowed.1 allowed.2 i
  | docLines L retval => exact doc_lines_safe allowed retval
  | modInit number ctx => exact disciplined.modInit number ctx allowed
  | extensionLoop number vars buf => exact disciplined.loop number vars buf allowed
  | compileAtom E => exact compile_atom_safe allowed
  | compileBody infileName L => exact compile_body_safe allowed infileName
  | compileForms infileName setOper funOper L =>
      exact compile_forms_safe allowed infileName setOper funOper

theorem runtime_honours {W : World} (linking : D.links) (disciplined : W.Disciplined D) :
    (runtime W).Honours D.contract :=
  fun c allowed => body_safe disciplined c allowed (.inl linking)

end Dispatch

end BearLang
