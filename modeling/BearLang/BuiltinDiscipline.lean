import BearLang.CodeDiscipline

/-!
# The reader, the printer and the builtins keep to every discipline

The rest of the functions, again in the order of their modules.
-/

namespace BearLang

open CallPrograms

set_option autoImplicit false

variable {D : Discipline}

section Reader

theorem read_list_loop_safe (linking : D.links) (sc : Scanner) {L : Ptr} (own : D.own L) :
    Safe D (readListLoop sc L) fun _ => True := by
  refine safe_seq (safe_call (c := .readForm sc) trivial) fun answer goodForm => ?_
  obtain ⟨e, sc⟩ := answer
  dsimp only
  split
  · exact safe_pure trivial
  · refine safe_seq (type_of_safe goodForm) fun t _ => ?_
    split
    · exact safe_pure trivial
    · refine safe_seq (safe_alloc linking (holds_cons goodForm D.null)) fun new ownNew => ?_
      refine safe_seq (safe_link own (D.own_good new ownNew)) fun _ _ => ?_
      exact safe_call (c := .readListLoop sc new) ownNew

theorem read_list_safe (linking : D.links) (sc : Scanner) :
    Safe D (readList sc) fun answer => D.good answer.1 := by
  have empty : ∀ sc : Scanner, Safe D (alloc (.mkCons .null .null) >>= fun p => pure (p, sc))
      fun answer => D.good answer.1 := fun sc =>
    safe_seq (safe_alloc_good (holds_cons D.null D.null)) fun p good => safe_pure good
  refine safe_seq (safe_call (c := .readForm sc) trivial) fun answer goodForm => ?_
  obtain ⟨car, sc⟩ := answer
  dsimp only
  split
  · exact empty sc
  · refine safe_seq (type_of_safe goodForm) fun t _ => ?_
    split
    · exact empty sc
    · refine safe_seq (safe_alloc linking (holds_cons goodForm D.null)) fun retval own => ?_
      refine safe_seq (safe_call (c := .readListLoop sc retval) own) fun sc _ => ?_
      exact safe_pure (D.own_good retval own)

theorem read_token_safe (linking : D.links) (slash : Bool) (token : TokenType) (sc : Scanner) :
    Safe D (readToken slash token sc) fun answer => D.good answer.1 := by
  cases token with
  | string => exact safe_seq (safe_mk_str _) fun p good => safe_pure good
  | lparen => exact read_list_safe linking sc
  | rparen => exact safe_pure (D.static 5 (by decide))
  | integer => exact safe_seq (safe_alloc_good (holds_number _)) fun p good => safe_pure good
  | symbol => exact safe_seq (safe_mk_symbol _) fun p good => safe_pure good
  | ifToken => exact safe_pure (D.static 3 (by decide))
  | doToken => exact safe_pure (D.static 4 (by decide))
  | whileToken => exact safe_pure (D.static 6 (by decide))
  | docstring => exact safe_seq (safe_alloc_good (holds_docstr _)) fun p good => safe_pure good

theorem read_form_body_safe (linking : D.links) (slash : Bool) (sc : Scanner) :
    Safe D (readFormBody slash sc) fun answer => D.good answer.1 := by
  unfold readFormBody
  split
  · exact safe_pure D.null
  · refine safe_seq (read_token_safe linking slash _ _) fun answer good => ?_
    exact safe_seq (safe_set_line good _) fun _ _ => safe_pure good

theorem parse_sexp_safe (sexp : CStr) : Safe D (blParseSexp sexp) D.good := by
  refine safe_seq (safe_call (c := .readForm _) trivial) fun answer good => ?_
  exact safe_pure (or_null_good good)

theorem parse_file_safe (linking : D.links) (contents : CStr) : Safe D (blParseFile contents) D.good :=
  safe_seq (read_list_safe linking _) fun _ good => safe_pure good

end Reader

section Printer

theorem errmsg_safe {E : Ptr} (good : D.good E) : Safe D (blErrmsg E) fun _ => True := by
  refine safe_seq (safe_load good) fun c holds => ?_
  refine safe_seq (safe_member_any _) fun code _ => ?_
  have parts := err_of_holds holds
  have custom : Safe D (load c.err.errSym >>= fun sym => member sym.sVal >>= fun name =>
      blSerSexp c.err.errVal >>= fun val => pure (snprintf 1023 (name ++ text ": " ++ val)))
      fun _ => True := by
    refine safe_seq (safe_load parts.1) fun sym _ => ?_
    refine safe_seq (safe_member_any _) fun name _ => ?_
    exact safe_seq (safe_ser_sexp parts.2) fun val _ => safe_pure trivial
  dsimp only
  repeat' apply safe_ite
  all_goals first
    | exact custom
    | exact safe_trap _
    | exact safe_pure trivial

theorem ser_loop_safe {L : Ptr} (good : D.good L) (retval : CStr) :
    Safe D (serLoop L retval) fun _ => True := by
  unfold serLoop
  split
  · exact safe_pure trivial
  · refine safe_seq (safe_load good) fun c holds => ?_
    refine safe_seq (safe_ser_sexp holds.car) fun newval _ => ?_
    exact safe_call (c := .serLoop _ _) holds.cdr

theorem ser_sexp_body_safe {expr : Ptr} (good : D.good expr) :
    Safe D (serSexpBody expr) fun _ => True := by
  unfold serSexpBody
  split
  · exact safe_pure trivial
  · refine safe_seq (safe_load good) fun c holds => ?_
    split
    · exact safe_pure trivial
    · exact safe_pure trivial
    · exact safe_pure trivial
    · exact safe_pure trivial
    · exact safe_pure trivial
    · exact safe_pure trivial
    · exact errmsg_safe good
    · exact safe_member_any _
    · exact safe_seq (safe_member_any _) fun s _ => safe_pure trivial
    · exact safe_seq (safe_member_any _) fun i _ => safe_pure trivial
    · exact safe_seq (safe_member_any _) fun b _ => safe_pure trivial
    · refine safe_seq (safe_ser_sexp holds.cdr) fun args _ => ?_
      exact safe_seq (safe_ser_sexp holds.car) fun body _ => safe_pure trivial
    · exact safe_pure trivial
    · exact safe_seq (safe_ser_sexp holds.car) fun body _ => safe_pure trivial
    · split
      · exact safe_pure trivial
      · exact safe_seq (safe_call (c := .serLoop expr _) good) fun s _ => safe_pure trivial
    · exact safe_pure trivial

theorem ser_naked_sexp_safe {expr : Ptr} (good : D.good expr) :
    Safe D (blSerNakedSexp expr) fun _ => True :=
  safe_seq (safe_ser_sexp good) fun _ _ => safe_seq (type_of_safe good) fun _ _ => safe_pure trivial

theorem join_loop_safe {i : Ptr} (good : D.good i) (sep : CStr) (retval : Option CStr) :
    Safe D (joinLoop i sep retval) fun _ => True := by
  unfold joinLoop
  split
  · exact safe_pure trivial
  · refine safe_seq (safe_load good) fun c holds => ?_
    refine safe_seq (ser_naked_sexp_safe holds.car) fun s _ => ?_
    exact safe_call (c := .joinLoop _ _ _) holds.cdr

theorem join_str_safe {L : Ptr} (good : D.good L) (sep : CStr) :
    Safe D (joinStr L sep) fun _ => True := safe_call (c := .joinLoop L sep none) good

theorem split_loop_safe (buf sep : CStr) {retval : Ptr} (good : D.good retval) :
    Safe D (splitLoop buf sep retval) D.good := by
  unfold splitLoop
  split
  · refine safe_seq (safe_mk_str _) fun s goodStr => ?_
    refine safe_seq (list_prepend_safe good goodStr) fun new goodNew => ?_
    exact safe_call (c := .splitLoop _ sep new) goodNew
  · split
    · refine safe_seq (safe_mk_str _) fun s goodStr => ?_
      refine safe_seq (list_prepend_safe good goodStr) fun new goodNew => ?_
      exact list_reverse_safe goodNew
    · exact list_reverse_safe good

theorem split_str_safe (s sep : CStr) : Safe D (splitStr s sep) D.good := by
  unfold splitStr
  split
  · exact safe_pure null_val_good
  · split
    · exact safe_seq (safe_mk_str _) fun p good => mk_list_one_safe good
    · exact safe_call (c := .splitLoop s sep .null) D.null

end Printer

section Helpers

theorem str_of_safe {p : Ptr} (good : D.good p) : Safe D (strOf p) fun _ => True :=
  safe_seq (safe_load good) fun _ _ => safe_member_any _

theorem int_of_safe {p : Ptr} (good : D.good p) : Safe D (intOf p) fun _ => True :=
  safe_seq (safe_load good) fun _ _ => safe_member_any _

theorem bool_of_safe {p : Ptr} (good : D.good p) : Safe D (boolOf p) fun _ => True :=
  safe_seq (safe_load good) fun _ _ => safe_member_any _

variable {ctx params : Ptr}

theorem eval_first_safe (good : D.good ctx) (goodParams : D.good params) :
    Safe D (evalFirst ctx params) D.good :=
  safe_seq (list_first_safe goodParams) fun _ goodE => safe_eval good goodE

theorem eval_second_safe (good : D.good ctx) (goodParams : D.good params) :
    Safe D (evalSecond ctx params) D.good :=
  safe_seq (list_second_safe goodParams) fun _ goodE => safe_eval good goodE

theorem eval_first_value_safe (good : D.good ctx) (goodParams : D.good params) :
    Safe D (evalFirstValue ctx params) D.good :=
  safe_seq (list_first_safe goodParams) fun _ goodE => safe_eval good goodE

theorem eval_second_value_safe (good : D.good ctx) (goodParams : D.good params) :
    Safe D (evalSecondValue ctx params) D.good :=
  safe_seq (list_second_safe goodParams) fun _ goodE => safe_eval good goodE

theorem param_len_check_safe (goodParams : D.good params) (min max : Nat) {body : Prog Ptr}
    (safe : Safe D body D.good) : Safe D (paramLenCheck params min max body) D.good := by
  refine safe_seq (errif_invalid_len_safe goodParams min max) fun retval goodRet => ?_
  split
  · exact safe_pure goodRet
  · exact safe

theorem eval_file_safe (linking : D.links) (good : D.good ctx) (contents : CStr) :
    Safe D (blEvalFile ctx contents) D.good :=
  safe_seq (parse_file_safe linking contents) fun _ goodSexp => safe_eval good goodSexp

/-- The arguments are evaluated as one expression and checked before anything is
done with them. -/
theorem checked_safe (goodParams : D.good params) (expected : List ValType) {body : Prog Ptr}
    (safe : Safe D body D.good) :
    Safe D (blErrifInvalidFixedArgs params expected >>= fun retval =>
      if retval ≠ .null then pure retval else body) D.good := by
  refine safe_seq (errif_invalid_fixed_args_safe goodParams expected) fun retval goodRet => ?_
  split
  · exact safe_pure goodRet
  · exact safe

end Helpers

section StringOperators

variable {ctx params : Ptr}

theorem oper_profile_safe (W : World) (good : D.good ctx) (goodParams : D.good params) :
    Safe D (blOperProfile W ctx params) D.good :=
  safe_seq (safe_eval good goodParams) fun _ _ => safe_mk_str _

theorem oper_throw_safe (good : D.good ctx) (goodParams : D.good params) :
    Safe D (blOperThrow ctx params) D.good := by
  refine param_len_check_safe goodParams 2 2 ?_
  refine safe_seq (list_first_safe goodParams) fun errtype goodType => ?_
  refine safe_seq (eval_second_safe good goodParams) fun errval goodVal => ?_
  exact safe_alloc_good (holds_err goodType (or_null_good goodVal))

theorem prepend_symbols_safe (names : List CStr) {retval : Ptr} (good : D.good retval) :
    Safe D (prependSymbols names retval) D.good := by
  induction names generalizing retval with
  | nil => exact safe_pure good
  | cons name names ih =>
      refine safe_seq (safe_mk_symbol name) fun sym goodSym => ?_
      exact safe_seq (list_prepend_safe good goodSym) fun new goodNew => ih goodNew

theorem oper_listbuiltins_safe (goodParams : D.good params) :
    Safe D (blOperListbuiltins params) D.good := by
  refine param_len_check_safe goodParams 0 0 ?_
  exact safe_seq (prepend_symbols_safe _ D.null) fun _ goodRet => list_reverse_safe goodRet

theorem pmatch_loop_safe {S L : Ptr} (goodS : D.good S) (good : D.good L) :
    Safe D (pmatchLoop S L) D.good := by
  unfold pmatchLoop
  split
  · exact safe_pure null_val_good
  · refine safe_seq (safe_load good) fun c holds => ?_
    refine safe_seq (safe_load holds.car) fun entry holds' => ?_
    refine safe_seq (str_of_safe holds'.car) fun start _ => ?_
    refine safe_seq (str_of_safe goodS) fun s _ => ?_
    split
    · exact safe_seq (safe_load holds'.cdr) fun rest holdsRest => safe_pure holdsRest.car
    · exact safe_call (c := .pmatchLoop S _) ⟨goodS, holds.cdr⟩

theorem oper_pmatch_safe (good : D.good ctx) (goodParams : D.good params) :
    Safe D (blOperPmatch ctx params) D.good := by
  refine param_len_check_safe goodParams 2 2 ?_
  refine safe_seq (safe_eval good goodParams) fun vals goodVals => ?_
  refine safe_seq (list_first_safe goodVals) fun S goodS => ?_
  refine safe_seq (list_second_safe goodVals) fun L goodL => ?_
  exact safe_call (c := .pmatchLoop S L) ⟨goodS, goodL⟩

theorem oper_startswith_safe (good : D.good ctx) (goodParams : D.good params) :
    Safe D (blOperStartswith ctx params) D.good := by
  refine safe_seq (safe_eval good goodParams) fun vals goodVals => ?_
  refine safe_seq (list_first_safe goodVals) fun first goodFirst => ?_
  refine safe_seq (list_second_safe goodVals) fun second goodSecond => ?_
  refine safe_seq (str_of_safe goodFirst) fun s _ => ?_
  exact safe_seq (str_of_safe goodSecond) fun start _ => safe_pure (bool_good _)

theorem oper_split_safe (good : D.good ctx) (goodParams : D.good params) :
    Safe D (blOperSplit ctx params) D.good := by
  refine safe_seq (safe_eval good goodParams) fun vals goodVals => ?_
  refine safe_seq (list_first_safe goodVals) fun first goodFirst => ?_
  refine safe_seq (list_second_safe goodVals) fun second goodSecond => ?_
  refine safe_seq (str_of_safe goodFirst) fun s _ => ?_
  exact safe_seq (str_of_safe goodSecond) fun sep _ => split_str_safe s sep

end StringOperators

section ListOperators

variable {ctx params : Ptr}

theorem aget_loop_safe (sym : CStr) {L retval : Ptr} (good : D.good L) (goodRet : D.good retval) :
    Safe D (agetLoop sym L retval) D.good := by
  unfold agetLoop
  split
  · exact safe_pure goodRet
  · refine safe_seq (safe_load good) fun c holds => ?_
    refine safe_seq (safe_load holds.car) fun entry holds' => ?_
    split
    · exact mk_err_safe _
    · refine safe_seq (str_of_safe holds'.car) fun key _ => ?_
      split
      · refine safe_seq (list_second_safe holds.car) fun new goodNew => ?_
        exact safe_call (c := .agetLoop sym _ new) ⟨holds.cdr, goodNew⟩
      · exact safe_call (c := .agetLoop sym _ retval) ⟨holds.cdr, goodRet⟩

theorem oper_aget_safe (good : D.good ctx) (goodParams : D.good params) :
    Safe D (blOperAget ctx params) D.good := by
  refine safe_seq (eval_first_safe good goodParams) fun sym goodSym => ?_
  refine safe_seq (eval_second_safe good goodParams) fun L goodL => ?_
  refine safe_seq (str_of_safe goodSym) fun name _ => ?_
  refine safe_seq (err_symnotfound_safe name) fun retval goodRet => ?_
  exact safe_call (c := .agetLoop name L retval) ⟨goodL, goodRet⟩

theorem foreach_loop_safe {sym L expr : Ptr} (good : D.good ctx) (goodSym : D.good sym)
    (goodL : D.good L) (goodExpr : D.good expr) : Safe D (foreachLoop ctx sym L expr) D.good := by
  unfold foreachLoop
  split
  · exact safe_seq (ctx_set_safe good goodSym D.null) fun _ _ => safe_pure null_val_good
  · refine safe_seq (safe_load goodL) fun c holds => ?_
    refine safe_seq (ctx_set_safe good goodSym holds.car) fun _ _ => ?_
    refine safe_seq (safe_eval good goodExpr) fun _ _ => ?_
    refine safe_seq (safe_load goodL) fun c holds => ?_
    exact safe_call (c := .foreachLoop ctx sym _ expr) ⟨good, goodSym, holds.cdr, goodExpr⟩

theorem oper_foreach_safe (good : D.good ctx) (goodParams : D.good params) :
    Safe D (blOperForeach ctx params) D.good := by
  refine safe_seq (list_first_safe goodParams) fun sym goodSym => ?_
  refine safe_seq (eval_second_safe good goodParams) fun L goodL => ?_
  refine safe_seq (list_third_safe goodParams) fun expr goodExpr => ?_
  exact safe_call (c := .foreachLoop ctx sym L expr) ⟨good, goodSym, goodL, goodExpr⟩

theorem oper_eq_safe (good : D.good ctx) (goodParams : D.good params) :
    Safe D (blOperEq ctx params) D.good := by
  refine safe_seq (eval_first_safe good goodParams) fun first goodFirst => ?_
  refine safe_seq (eval_second_safe good goodParams) fun second goodSecond => ?_
  refine safe_seq (safe_load goodFirst) fun a _ => ?_
  refine safe_seq (safe_load goodSecond) fun b _ => ?_
  split
  · exact safe_pure (bool_good _)
  · split
    · exact safe_pure (bool_good _)
    · refine safe_seq (safe_member_any _) fun x _ => ?_
      exact safe_seq (safe_member_any _) fun y _ => safe_pure (bool_good _)

theorem filtered_inner_safe {x I : Ptr} (good : D.good ctx) (goodX : D.good x) (goodI : D.good I)
    (isIn : Bool) : Safe D (filteredInner ctx x I isIn) fun _ => True := by
  unfold filteredInner
  split
  · exact safe_pure trivial
  · refine safe_seq (safe_load goodI) fun c holds => ?_
    have goodPair : ∀ val ∈ [x, c.car], D.good val := by
      intro val mem
      rcases List.mem_pair.1 mem with rfl | rfl
      · exact goodX
      · exact holds.car
    refine safe_seq (mk_list_safe goodPair) fun args goodArgs => ?_
    refine safe_seq (oper_eq_safe good goodArgs) fun eqResult goodEq => ?_
    refine safe_seq (bool_of_safe goodEq) fun b _ => ?_
    refine safe_seq (safe_load goodI) fun c holds => ?_
    exact safe_call (c := .filteredInner ctx x _ _) ⟨good, goodX, holds.cdr⟩

theorem filtered_loop_safe {L items retval : Ptr} (good : D.good ctx) (goodL : D.good L)
    (goodItems : D.good items) (goodRet : D.good retval) :
    Safe D (filteredLoop ctx L items retval) D.good := by
  unfold filteredLoop
  split
  · exact list_reverse_safe goodRet
  · refine safe_seq (safe_load goodL) fun c holds => ?_
    refine safe_seq (safe_call (c := .filteredInner ctx _ items false)
      ⟨good, holds.car, goodItems⟩) fun isIn _ => ?_
    have later : ∀ new, D.good new → Safe D
        (load L >>= fun c => call (.filteredLoop ctx c.cdr items new)) D.good := by
      intro new goodNew
      refine safe_seq (safe_load goodL) fun c holds => ?_
      exact safe_call (c := .filteredLoop ctx _ items new) ⟨good, holds.cdr, goodItems, goodNew⟩
    split
    · exact later retval goodRet
    · exact safe_seq (list_prepend_safe goodRet holds.car) later

theorem oper_filtered_safe (good : D.good ctx) (goodParams : D.good params) :
    Safe D (blOperFiltered ctx params) D.good := by
  refine safe_seq (eval_first_safe good goodParams) fun L goodL => ?_
  refine safe_seq (eval_second_safe good goodParams) fun items goodItems => ?_
  exact safe_call (c := .filteredLoop ctx L items .null) ⟨good, goodL, goodItems, D.null⟩

theorem oper_parse_safe (good : D.good ctx) (goodParams : D.good params) :
    Safe D (blOperParse ctx params) D.good := by
  refine safe_seq (eval_cons_safe good goodParams) fun vals goodVals => ?_
  refine safe_seq (type_of_safe goodVals) fun t _ => ?_
  split
  · exact safe_pure goodVals
  · refine checked_safe goodVals [.string] ?_
    refine safe_seq (safe_load goodVals) fun p holds => ?_
    exact safe_seq (str_of_safe holds.car) fun s _ => parse_sexp_safe s

theorem oper_quote_safe (goodParams : D.good params) : Safe D (blOperQuote params) D.good := by
  refine safe_seq (list_len_safe goodParams) fun n _ => ?_
  split
  · exact list_first_safe goodParams
  · exact safe_pure goodParams

theorem try_loop_safe {tryResult i catchSym finallySym catchExpr finallyExpr : Ptr}
    (good : D.good ctx) (goodResult : D.good tryResult) (goodI : D.good i)
    (goodCatch : D.good catchSym) (goodFinally : D.good finallySym) (goodExpr : D.good catchExpr)
    (goodCleanup : D.good finallyExpr) :
    Safe D (tryLoop ctx tryResult i catchSym finallySym catchExpr finallyExpr) D.good := by
  unfold tryLoop
  split
  · refine safe_seq (safe_eval good goodExpr) fun retval goodRet => ?_
    split
    · exact safe_eval good goodCleanup
    · exact safe_pure goodRet
  · refine safe_seq (safe_load goodI) fun c holds => ?_
    refine safe_seq (safe_load holds.car) fun clause _ => ?_
    have next : ∀ handler cleanup, D.good handler → D.good cleanup → Safe D
        (call (.tryLoop ctx tryResult c.cdr catchSym finallySym handler cleanup)) D.good :=
      fun handler cleanup goodHandler goodCleanup =>
        safe_call (c := .tryLoop ctx tryResult c.cdr catchSym finallySym handler cleanup)
          ⟨good, goodResult, holds.cdr, goodCatch, goodFinally, goodHandler, goodCleanup⟩
    split
    · exact mk_err_safe _
    · refine safe_seq (list_len_safe holds.car) fun n _ => ?_
      split
      · exact mk_err_safe _
      · split
        · refine safe_seq (list_second_safe holds.car) fun errName goodName => ?_
          refine safe_seq (safe_ctx_get good goodName) fun catchErr goodErr => ?_
          refine safe_seq (safe_load goodErr) fun e _ => ?_
          refine safe_seq (safe_member_any _) fun t _ => ?_
          refine safe_seq (safe_load goodResult) fun r _ => ?_
          refine safe_seq (safe_member_any _) fun thrown _ => ?_
          split
          · exact safe_seq (list_third_safe holds.car) fun handler goodHandler =>
              next handler finallyExpr goodHandler goodCleanup
          · exact next catchExpr finallyExpr goodExpr goodCleanup
        · split
          · exact safe_seq (list_second_safe holds.car) fun cleanup goodNew =>
              next catchExpr cleanup goodExpr goodNew
          · exact mk_err_safe _

theorem oper_try_safe (good : D.good ctx) (goodParams : D.good params) :
    Safe D (blOperTry ctx params) D.good := by
  refine safe_seq (list_first_safe goodParams) fun tryExpr goodExpr => ?_
  refine safe_seq (safe_eval good goodExpr) fun tryResult goodResult => ?_
  refine safe_seq (type_of_safe goodResult) fun t _ => ?_
  split
  · exact safe_pure goodResult
  · refine safe_seq (list_rest_safe goodParams) fun others goodOthers => ?_
    refine safe_seq (safe_mk_symbol _) fun catchSym goodCatch => ?_
    refine safe_seq (safe_mk_symbol _) fun finallySym goodFinally => ?_
    refine safe_seq (safe_mk_symbol _) fun errSym goodErr => ?_
    refine safe_seq (ctx_set_safe good goodErr goodResult) fun _ _ => ?_
    exact safe_call (c := .tryLoop ctx tryResult others catchSym finallySym tryResult .null)
      ⟨good, goodResult, goodOthers, goodCatch, goodFinally, goodResult, D.null⟩

end ListOperators

section Application

variable {ctx params : Ptr}

theorem oper_eval_safe (good : D.good ctx) (goodParams : D.good params) :
    Safe D (blOperEval ctx params) D.good := by
  refine safe_seq (safe_eval good goodParams) fun vals goodVals => ?_
  refine safe_seq (type_of_safe goodVals) fun t _ => ?_
  split
  · exact safe_pure goodVals
  · refine safe_seq (list_len_safe goodVals) fun n _ => ?_
    split
    · exact eval_first_safe good goodVals
    · exact safe_eval good goodVals

theorem map_loop_safe {func i last retval : Ptr} (good : D.good func) (goodI : D.good i)
    (isLast : D.Last last) (goodRet : D.good retval) :
    Safe D (mapLoop func i last retval) D.good := by
  unfold mapLoop
  split
  · exact safe_pure goodRet
  · refine safe_seq (safe_load goodI) fun c holds => ?_
    refine safe_seq (safe_load good) fun f holdsFunc => ?_
    refine safe_seq (safe_member (closure_of_holds holdsFunc).2.1) fun inner goodInner => ?_
    refine safe_seq (safe_load holdsFunc.cdr) fun names holdsNames => ?_
    refine safe_seq (safe_enter_func good) fun _ _ => ?_
    refine safe_seq (ctx_set_safe goodInner holdsNames.car holds.car) fun _ _ => ?_
    refine safe_seq (safe_start_body good) fun _ _ => ?_
    exact safe_call (c := .mapBody func i f.car last retval)
      ⟨good, goodI, holdsFunc.car, isLast, goodRet⟩

theorem map_body_safe (linking : D.links) {func i j last retval : Ptr} (good : D.good func)
    (goodI : D.good i)
    (goodJ : D.good j) (isLast : D.Last last) (goodRet : D.good retval) :
    Safe D (mapBody func i j last retval) D.good := by
  unfold mapBody
  split
  · refine safe_seq safe_leave fun _ _ => ?_
    refine safe_seq (safe_load goodI) fun c holds => ?_
    exact safe_call (c := .mapLoop func _ last retval) ⟨good, holds.cdr, isLast, goodRet⟩
  · refine safe_seq (safe_load good) fun f holdsFunc => ?_
    refine safe_seq (safe_member (closure_of_holds holdsFunc).2.1) fun inner goodInner => ?_
    refine safe_seq (safe_load goodJ) fun c holds => ?_
    refine safe_seq (safe_eval goodInner holds.car) fun val goodVal => ?_
    refine safe_seq (type_of_safe goodVal) fun t _ => ?_
    split
    · exact safe_seq safe_leave fun _ _ => safe_pure goodVal
    · refine safe_seq (safe_alloc linking (holds_cons goodVal D.null)) fun new own => ?_
      have goodNew := D.own_good new own
      split
      · refine safe_seq (safe_load goodJ) fun c holds => ?_
        exact safe_call (c := .mapBody func i _ new new) ⟨good, goodI, holds.cdr, .inr own, goodNew⟩
      · rename_i filled
        have ownLast : D.own last := isLast.resolve_left filled
        refine safe_seq (safe_link ownLast goodNew) fun _ _ => ?_
        refine safe_seq (safe_load goodJ) fun c holds => ?_
        exact safe_call (c := .mapBody func i _ new retval)
          ⟨good, goodI, holds.cdr, .inr own, goodRet⟩

theorem oper_map_safe (good : D.good ctx) (goodParams : D.good params) :
    Safe D (blOperMap ctx params) D.good := by
  refine safe_seq (eval_cons_safe good goodParams) fun vals goodVals => ?_
  refine safe_seq (type_of_safe goodVals) fun t _ => ?_
  split
  · exact safe_pure goodVals
  · refine checked_safe goodVals [.funcBl, .cons] ?_
    refine safe_seq (list_first_safe goodVals) fun func goodFunc => ?_
    refine safe_seq (list_second_safe goodVals) fun L goodL => ?_
    exact safe_call (c := .mapLoop func L .null .null) ⟨goodFunc, goodL, .inl rfl, D.null⟩

end Application

section Arithmetic

variable {ctx params : Ptr}

theorem add_spread_safe {x retval : Ptr} (good : D.good x) (goodRet : D.good retval) :
    Safe D (addSpread x retval) D.good := by
  unfold addSpread
  split
  · exact safe_pure goodRet
  · refine safe_seq (safe_load good) fun c holds => ?_
    refine safe_seq (list_prepend_safe goodRet holds.car) fun new goodNew => ?_
    exact safe_call (c := .addSpread _ new) ⟨holds.cdr, goodNew⟩

theorem add_lists_safe {L retval : Ptr} (good : D.good ctx) (goodL : D.good L)
    (goodRet : D.good retval) : Safe D (addLists ctx L retval) D.good := by
  unfold addLists
  split
  · exact list_reverse_safe goodRet
  · refine safe_seq (safe_load goodL) fun c holds => ?_
    refine safe_seq (safe_eval good holds.car) fun x goodX => ?_
    refine safe_seq (type_of_safe goodX) fun t _ => ?_
    have later : ∀ new, D.good new → Safe D
        (load L >>= fun c => call (.addLists ctx c.cdr new)) D.good := by
      intro new goodNew
      refine safe_seq (safe_load goodL) fun c holds => ?_
      exact safe_call (c := .addLists ctx _ new) ⟨good, holds.cdr, goodNew⟩
    split
    · exact safe_seq (safe_call (c := .addSpread x retval) ⟨goodX, goodRet⟩) later
    · exact safe_seq (list_prepend_safe goodRet goodX) later

theorem add_numbers_safe {L : Ptr} (good : D.good ctx) (goodL : D.good L) (sum : Int) :
    Safe D (addNumbers ctx L sum) fun _ => True := by
  unfold addNumbers
  split
  · exact safe_pure trivial
  · refine safe_seq (safe_load goodL) fun c holds => ?_
    refine safe_seq (safe_eval good holds.car) fun x goodX => ?_
    refine safe_seq (int_of_safe goodX) fun i _ => ?_
    refine safe_seq (safe_load goodL) fun c holds => ?_
    exact safe_call (c := .addNumbers ctx _ _) ⟨good, holds.cdr⟩

theorem add_strings_safe {L : Ptr} (good : D.good ctx) (goodL : D.good L) (s : CStr) :
    Safe D (addStrings ctx L s) fun _ => True := by
  unfold addStrings
  split
  · exact safe_pure trivial
  · refine safe_seq (safe_load goodL) fun c holds => ?_
    refine safe_seq (safe_eval good holds.car) fun x goodX => ?_
    refine safe_seq (ser_naked_sexp_safe goodX) fun more _ => ?_
    refine safe_seq (safe_load goodL) fun c holds => ?_
    exact safe_call (c := .addStrings ctx _ _) ⟨good, holds.cdr⟩

theorem add_mode_safe {first : Ptr} (good : D.good ctx) (goodParams : D.good params)
    (goodFirst : D.good first) : Safe D (addMode ctx params first) D.good := by
  refine safe_seq (type_of_safe goodFirst) fun t _ => ?_
  split
  · exact safe_seq (safe_call (c := .addNumbers ctx params 0) ⟨good, goodParams⟩) fun sum _ =>
      safe_alloc_good (holds_number sum)
  · exact safe_call (c := .addLists ctx params .null) ⟨good, goodParams, D.null⟩
  · exact safe_seq (safe_call (c := .addStrings ctx params []) ⟨good, goodParams⟩) fun s _ =>
      safe_mk_str s

theorem oper_add_safe (good : D.good ctx) (goodParams : D.good params) :
    Safe D (blOperAdd ctx params) D.good := by
  refine safe_seq (type_of_safe goodParams) fun t _ => ?_
  split
  · exact errif_invalid_len_safe null_val_good _ _
  · refine safe_seq (eval_cons_safe good goodParams) fun L goodL => ?_
    refine safe_seq (type_of_safe goodL) fun t _ => ?_
    split
    · exact safe_pure goodL
    · refine safe_seq (errif_invalid_len_safe goodL _ _) fun retval goodRet => ?_
      split
      · exact safe_pure goodRet
      · refine safe_seq (eval_first_safe good goodParams) fun first goodFirst => ?_
        refine safe_seq (type_of_safe goodFirst) fun t _ => ?_
        split
        · refine safe_seq (list_len_safe goodParams) fun n _ => ?_
          split
          · exact safe_seq (list_first_safe goodFirst) fun second goodSecond =>
              add_mode_safe good goodFirst goodSecond
          · exact add_mode_safe good goodParams goodFirst
        · exact add_mode_safe good goodParams goodFirst

theorem oper_sub_safe (good : D.good ctx) (goodParams : D.good params) :
    Safe D (blOperSub ctx params) D.good := by
  refine safe_seq (safe_eval good goodParams) fun vals goodVals => ?_
  refine checked_safe goodVals _ ?_
  refine safe_seq (list_first_safe goodVals) fun first goodFirst => ?_
  refine safe_seq (list_second_safe goodVals) fun second goodSecond => ?_
  refine safe_seq (int_of_safe goodFirst) fun a _ => ?_
  exact safe_seq (int_of_safe goodSecond) fun b _ => safe_alloc_good (holds_number _)

theorem oper_mult_safe (good : D.good ctx) (goodParams : D.good params) :
    Safe D (blOperMult ctx params) D.good := by
  refine safe_seq (safe_eval good goodParams) fun vals goodVals => ?_
  refine checked_safe goodVals _ ?_
  refine safe_seq (eval_first_value_safe good goodVals) fun first goodFirst => ?_
  refine safe_seq (eval_second_value_safe good goodVals) fun second goodSecond => ?_
  refine safe_seq (int_of_safe goodFirst) fun a _ => ?_
  exact safe_seq (int_of_safe goodSecond) fun b _ => safe_alloc_good (holds_number _)

theorem oper_div_safe (good : D.good ctx) (goodParams : D.good params) :
    Safe D (blOperDiv ctx params) D.good := by
  refine safe_seq (eval_cons_safe good goodParams) fun vals goodVals => ?_
  refine checked_safe goodVals _ ?_
  refine safe_seq (eval_first_value_safe good goodVals) fun first goodFirst => ?_
  refine safe_seq (eval_second_value_safe good goodVals) fun second goodSecond => ?_
  refine safe_seq (int_of_safe goodSecond) fun b _ => ?_
  split
  · exact mk_err_safe _
  · exact safe_seq (int_of_safe goodFirst) fun a _ => safe_alloc_good (holds_number _)

theorem oper_mod_safe (good : D.good ctx) (goodParams : D.good params) :
    Safe D (blOperMod ctx params) D.good := by
  refine safe_seq (eval_first_safe good goodParams) fun first goodFirst => ?_
  refine safe_seq (eval_second_safe good goodParams) fun second goodSecond => ?_
  refine safe_seq (int_of_safe goodFirst) fun a _ => ?_
  refine safe_seq (int_of_safe goodSecond) fun b _ => ?_
  split
  · exact safe_trap _
  · exact safe_alloc_good (holds_number _)

theorem compare_safe (good : D.good ctx) (goodParams : D.good params) (test : Int → Int → Bool) :
    Safe D (evalFirst ctx params >>= fun first => evalSecond ctx params >>= fun second =>
      intOf first >>= fun a => intOf second >>= fun b => pure (blMkBool (test a b))) D.good := by
  refine safe_seq (eval_first_safe good goodParams) fun first goodFirst => ?_
  refine safe_seq (eval_second_safe good goodParams) fun second goodSecond => ?_
  refine safe_seq (int_of_safe goodFirst) fun a _ => ?_
  exact safe_seq (int_of_safe goodSecond) fun b _ => safe_pure (bool_good _)

theorem step_variable_safe (good : D.good ctx) (goodParams : D.good params) (by_ : Int) :
    Safe D (stepVariable ctx params by_) D.good := by
  refine safe_seq (list_first_safe goodParams) fun symname goodName => ?_
  refine safe_seq (safe_ctx_get good goodName) fun symval goodVal => ?_
  refine safe_seq (int_of_safe goodVal) fun i _ => ?_
  exact safe_seq (safe_set_i_val goodVal _) fun _ _ => safe_pure goodVal

end Arithmetic

section Definitions

variable {ctx params : Ptr}

theorem oper_set_safe (good : D.good ctx) (goodParams : D.good params) :
    Safe D (blOperSet ctx params) D.good := by
  refine safe_seq (eval_second_safe good goodParams) fun retval goodRet => ?_
  refine safe_seq (list_first_safe goodParams) fun name goodName => ?_
  exact safe_seq (ctx_set_safe good goodName goodRet) fun _ _ => safe_pure goodRet

theorem print_loop_safe {i : Ptr} (good : D.good ctx) (goodI : D.good i) :
    Safe D (printLoop ctx i) fun _ => True := by
  unfold printLoop
  split
  · exact safe_pure trivial
  · refine safe_seq (safe_load goodI) fun c holds => ?_
    refine safe_seq (safe_eval good holds.car) fun val goodVal => ?_
    refine safe_seq (ser_naked_sexp_safe goodVal) fun s _ => ?_
    refine safe_seq (safe_write s) fun _ _ => ?_
    refine safe_seq (safe_load goodI) fun c holds => ?_
    exact safe_call (c := .printLoop ctx _) ⟨good, holds.cdr⟩

theorem oper_print_safe (good : D.good ctx) (goodParams : D.good params) :
    Safe D (blOperPrint ctx params) D.good := by
  refine safe_seq (eval_cons_safe good goodParams) fun i goodI => ?_
  refine safe_seq (type_of_safe goodI) fun t _ => ?_
  split
  · exact safe_pure goodI
  · exact safe_seq (safe_call (c := .printLoop ctx params) ⟨good, goodParams⟩) fun _ _ =>
      safe_pure null_val_good

theorem oper_fn_safe (good : D.good ctx) (goodParams : D.good params) :
    Safe D (blOperFn ctx params) D.good := by
  refine safe_seq (list_first_safe goodParams) fun args goodArgs => ?_
  refine safe_seq (list_rest_safe goodParams) fun body goodBody => ?_
  refine safe_seq (ctx_new_safe good) fun inner goodInner => ?_
  refine safe_seq (safe_mk_symbol _) fun sym goodSym => ?_
  exact safe_alloc_good (holds_closure goodBody goodArgs good goodInner goodSym D.null)

theorem strip_docstr_safe {body : Ptr} (good : D.good body) :
    Safe D (stripDocstr body) fun answer => D.good answer.1 ∧ D.good answer.2 := by
  refine safe_seq (safe_load good) fun b holds => ?_
  refine safe_seq (safe_load holds.car) fun first _ => ?_
  split
  · exact safe_pure ⟨holds.cdr, holds.car⟩
  · exact safe_pure ⟨good, D.null⟩

theorem oper_fun_safe (good : D.good ctx) (goodParams : D.good params) :
    Safe D (blOperFun ctx params) D.good := by
  refine safe_seq (list_second_safe goodParams) fun args goodArgs => ?_
  refine safe_seq (list_rest_safe goodParams) fun rest goodRest => ?_
  refine safe_seq (list_rest_safe goodRest) fun body goodBody => ?_
  refine safe_seq (strip_docstr_safe goodBody) fun answer stripped => ?_
  obtain ⟨body, docstr⟩ := answer
  refine safe_seq (ctx_new_safe good) fun inner goodInner => ?_
  refine safe_seq (list_first_safe goodParams) fun sym goodSym => ?_
  refine safe_seq (safe_alloc_good
    (holds_closure stripped.1 goodArgs good goodInner goodSym stripped.2)) fun retval goodRet => ?_
  exact safe_seq (ctx_set_safe good goodSym goodRet) fun _ _ => safe_pure goodRet

theorem oper_oper_safe (good : D.good ctx) (goodParams : D.good params) :
    Safe D (blOperOper ctx params) D.good := by
  refine safe_seq (list_second_safe goodParams) fun args goodArgs => ?_
  refine safe_seq (list_rest_safe goodParams) fun rest goodRest => ?_
  refine safe_seq (list_rest_safe goodRest) fun body goodBody => ?_
  refine safe_seq (strip_docstr_safe goodBody) fun answer stripped => ?_
  obtain ⟨body, docstr⟩ := answer
  refine safe_seq (ctx_new_safe good) fun inner goodInner => ?_
  refine safe_seq (safe_alloc_good
    (holds_closure stripped.1 goodArgs good goodInner D.null stripped.2)) fun retval goodRet => ?_
  refine safe_seq (list_first_safe goodParams) fun name goodName => ?_
  exact safe_seq (ctx_set_safe good goodName goodRet) fun _ _ => safe_pure goodRet

end Definitions

section Booleans

variable {ctx params : Ptr}

theorem oper_and_safe (good : D.good ctx) (goodParams : D.good params) :
    Safe D (blOperAnd ctx params) D.good := by
  refine safe_seq (eval_first_safe good goodParams) fun first goodFirst => ?_
  refine safe_seq (eval_second_safe good goodParams) fun second goodSecond => ?_
  refine safe_seq (bool_of_safe goodFirst) fun a _ => ?_
  split
  · exact safe_seq (bool_of_safe goodSecond) fun b _ => safe_pure (bool_good b)
  · exact safe_pure false_val_good

theorem oper_not_safe (good : D.good ctx) (goodParams : D.good params) :
    Safe D (blOperNot ctx params) D.good := by
  refine safe_seq (eval_first_safe good goodParams) fun first goodFirst => ?_
  exact safe_seq (bool_of_safe goodFirst) fun a _ => safe_pure (bool_good _)

theorem oper_or_safe (good : D.good ctx) (goodParams : D.good params) :
    Safe D (blOperOr ctx params) D.good := by
  refine safe_seq (eval_first_safe good goodParams) fun first goodFirst => ?_
  refine safe_seq (eval_second_safe good goodParams) fun second goodSecond => ?_
  refine safe_seq (bool_of_safe goodFirst) fun a _ => ?_
  split
  · exact safe_pure true_val_good
  · exact safe_seq (bool_of_safe goodSecond) fun b _ => safe_pure (bool_good b)

theorem oper_xor_safe (good : D.good ctx) (goodParams : D.good params) :
    Safe D (blOperXor ctx params) D.good := by
  refine safe_seq (eval_first_safe good goodParams) fun first goodFirst => ?_
  refine safe_seq (eval_second_safe good goodParams) fun second goodSecond => ?_
  refine safe_seq (bool_of_safe goodFirst) fun a _ => ?_
  exact safe_seq (bool_of_safe goodSecond) fun b _ => safe_pure (bool_good _)

end Booleans

section Elements

variable {ctx params : Ptr}

theorem oper_first_safe (good : D.good ctx) (goodParams : D.good params) :
    Safe D (blOperFirst ctx params) D.good := by
  refine safe_seq (safe_eval good goodParams) fun vals goodVals => ?_
  refine safe_seq (list_len_safe goodVals) fun n _ => ?_
  split
  · exact safe_seq (list_first_safe goodVals) fun L goodL => list_first_safe goodL
  · exact list_first_safe goodVals

theorem oper_second_safe (good : D.good ctx) (goodParams : D.good params) :
    Safe D (blOperSecond ctx params) D.good := by
  refine safe_seq (safe_eval good goodParams) fun vals goodVals => ?_
  refine safe_seq (list_len_safe goodVals) fun n _ => ?_
  split
  · exact safe_seq (list_first_safe goodVals) fun L goodL => list_second_safe goodL
  · exact list_second_safe goodVals

theorem oper_third_safe (good : D.good ctx) (goodParams : D.good params) :
    Safe D (blOperThird ctx params) D.good := by
  refine safe_seq (list_len_safe goodParams) fun n _ => ?_
  split
  · exact safe_seq (eval_first_safe good goodParams) fun L goodL => list_third_safe goodL
  · exact list_third_safe goodParams

theorem oper_rest_safe (good : D.good ctx) (goodParams : D.good params) :
    Safe D (blOperRest ctx params) D.good := by
  refine safe_seq (safe_eval good goodParams) fun vals goodVals => ?_
  refine safe_seq (list_len_safe goodVals) fun n _ => ?_
  have later : ∀ L, D.good L →
      Safe D (blListRest L >>= fun retval => pure (orNull retval)) D.good := fun L goodL =>
    safe_seq (list_rest_safe goodL) fun _ goodRet => safe_pure (or_null_good goodRet)
  split
  · exact safe_seq (eval_first_value_safe good goodVals) later
  · exact later vals goodVals

theorem oper_append_safe (good : D.good ctx) (goodParams : D.good params) :
    Safe D (blOperAppend ctx params) D.good := by
  refine safe_seq (eval_first_safe good goodParams) fun L goodL => ?_
  exact safe_seq (eval_second_safe good goodParams) fun val goodVal => list_append_safe goodL goodVal

theorem oper_prepend_safe (good : D.good ctx) (goodParams : D.good params) :
    Safe D (blOperPrepend ctx params) D.good := by
  refine safe_seq (eval_first_safe good goodParams) fun L goodL => ?_
  exact safe_seq (eval_second_safe good goodParams) fun val goodVal =>
    list_prepend_safe goodL goodVal

theorem oper_reverse_safe (good : D.good ctx) (goodParams : D.good params) :
    Safe D (blOperReverse ctx params) D.good := by
  refine safe_seq (safe_eval good goodParams) fun vals goodVals => ?_
  refine safe_seq (list_len_safe goodVals) fun n _ => ?_
  split
  · exact safe_seq (eval_first_value_safe good goodVals) fun L goodL => list_reverse_safe goodL
  · exact list_reverse_safe goodVals

end Elements

end BearLang
