import BearLang.Discipline

/-!
# The code keeps to every discipline

One fact for each function, in the order of the modules: started with good
pointers it stays within the discipline. The lists that are built by linking
are linked at cells just allocated.
-/

namespace BearLang

open CallPrograms

set_option autoImplicit false

variable {D : Discipline}

section ListOps

theorem list_first_safe {L : Ptr} (good : D.good L) : Safe D (blListFirst L) D.good := by
  unfold blListFirst
  split
  · exact safe_pure D.null
  · exact safe_seq (safe_load good) fun c holds => safe_pure holds.car

theorem list_rest_safe {L : Ptr} (good : D.good L) : Safe D (blListRest L) D.good := by
  unfold blListRest
  split
  · exact safe_pure D.null
  · exact safe_seq (safe_load good) fun c holds => safe_pure holds.cdr

theorem list_second_safe {L : Ptr} (good : D.good L) : Safe D (blListSecond L) D.good := by
  unfold blListSecond
  split
  · exact safe_pure D.null
  · exact safe_seq (list_rest_safe good) fun rest goodRest => list_first_safe goodRest

theorem list_third_safe {L : Ptr} (good : D.good L) : Safe D (blListThird L) D.good :=
  safe_seq (list_rest_safe good) fun _ goodRest => list_second_safe goodRest

theorem list_prepend_safe {L val : Ptr} (good : D.good L) (goodVal : D.good val) :
    Safe D (blListPrepend L val) D.good := safe_alloc_good (holds_cons goodVal good)

theorem last_cell_safe {L : Ptr} (good : D.good L) : Safe D (lastCellLoop L) D.good := by
  refine safe_seq (safe_load good) fun c holds => ?_
  split
  · exact safe_pure good
  · exact safe_call (c := .lastCell _) holds.cdr

theorem list_last_safe {L : Ptr} (good : D.good L) : Safe D (blListLast L) D.good := by
  unfold blListLast
  split
  · exact safe_pure D.null
  · refine safe_seq (safe_call (c := .lastCell L) good) fun last goodLast => ?_
    exact safe_seq (safe_load goodLast) fun c holds => safe_pure holds.car

theorem list_append_safe {L val : Ptr} (good : D.good L) (goodVal : D.good val) :
    Safe D (blListAppend L val) D.good := by
  unfold blListAppend
  split
  · exact list_prepend_safe good goodVal
  · refine safe_seq (safe_call (c := .lastCell L) good) fun last goodLast => ?_
    refine safe_seq (safe_alloc_good (holds_cons goodVal D.null)) fun new goodNew => ?_
    exact safe_seq (safe_append_link goodLast goodNew) fun _ _ => safe_pure good

theorem list_len_loop_safe {i : Ptr} (good : D.good i) (count : Nat) :
    Safe D (listLenLoop i count) fun _ => True := by
  unfold listLenLoop
  split
  · exact safe_pure trivial
  · exact safe_seq (safe_load good) fun c holds => safe_call (c := .listLen _ _) holds.cdr

theorem list_len_safe {L : Ptr} (good : D.good L) : Safe D (blListLen L) fun _ => True := by
  unfold blListLen
  split
  · exact safe_pure trivial
  · refine safe_seq (safe_load good) fun c _ => ?_
    split
    · exact safe_pure trivial
    · split
      · exact safe_pure trivial
      · exact safe_call (c := .listLen L 0) good

theorem reverse_loop_safe {L retval : Ptr} (good : D.good L) (goodRet : D.good retval) :
    Safe D (reverseLoop L retval) D.good := by
  unfold reverseLoop
  split
  · exact safe_pure goodRet
  · refine safe_seq (safe_load good) fun c holds => ?_
    refine safe_seq (list_prepend_safe goodRet holds.car) fun new goodNew => ?_
    exact safe_call (c := .reverseLoop _ _) ⟨holds.cdr, goodNew⟩

theorem list_reverse_safe {L : Ptr} (good : D.good L) : Safe D (blListReverse L) D.good :=
  safe_call (c := .reverseLoop L .null) ⟨good, D.null⟩

theorem prepend_all_safe (vals : List Ptr) {retval : Ptr} (good : ∀ val ∈ vals, D.good val)
    (goodRet : D.good retval) : Safe D (prependAll vals retval) D.good := by
  induction vals generalizing retval with
  | nil => exact safe_pure goodRet
  | cons val vals ih =>
      refine safe_seq (list_prepend_safe goodRet (good val List.mem_cons_self)) fun new goodNew => ?_
      exact ih (fun other mem => good other (List.mem_cons_of_mem _ mem)) goodNew

theorem mk_list_safe {vals : List Ptr} (good : ∀ val ∈ vals, D.good val) :
    Safe D (blMkList vals) D.good := by
  unfold blMkList
  split
  · exact safe_alloc_good (holds_cons D.null D.null)
  · refine safe_seq (prepend_all_safe vals good D.null) fun retval goodRet => ?_
    exact list_reverse_safe goodRet

theorem mk_list_one_safe {val : Ptr} (good : D.good val) : Safe D (blMkList [val]) D.good :=
  mk_list_safe fun _ mem => List.mem_singleton.1 mem ▸ good

end ListOps

section ErrorTools

theorem type_of_safe {p : Ptr} (good : D.good p) : Safe D (typeOf p) fun _ => True :=
  safe_seq (safe_load good) fun _ _ => safe_pure trivial

theorem mk_err_safe (t : ErrType) : Safe D (blMkErr t) D.good :=
  safe_alloc_good (holds_err D.null D.null)

theorem err_symnotfound_safe (name : CStr) : Safe D (blErrSymnotfound name) D.good :=
  safe_alloc_good (holds_err D.null D.null)

theorem err_modnotfound_safe (name : CStr) : Safe D (blErrModnotfound name) D.good :=
  safe_alloc_good (holds_err D.null D.null)

theorem errif_invalid_len_safe {L : Ptr} (good : D.good L) (min max : Nat) :
    Safe D (blErrifInvalidLen L min max) D.good := by
  refine safe_seq (type_of_safe good) fun t _ => ?_
  split
  · exact safe_pure good
  · refine safe_seq (list_len_safe good) fun len _ => ?_
    split
    · exact safe_pure D.null
    · dsimp only
      split
      · exact safe_alloc_good (holds_err D.null D.null)
      · exact safe_alloc_good (holds_err D.null D.null)

theorem check_args_safe (expected : List ValType) {i : Ptr} (good : D.good i) (isGood : Bool) :
    Safe D (checkArgs expected i isGood) fun answer => D.good answer.1 := by
  induction expected generalizing i isGood with
  | nil => exact safe_pure D.null
  | cons t expected ih =>
      refine safe_seq (safe_load good) fun c holds => ?_
      refine safe_seq (type_of_safe holds.car) fun _ _ => ?_
      split
      · exact safe_pure holds.car
      · split
        · exact ih holds.cdr false
        · exact ih holds.cdr isGood

theorem arg_types_safe (expected : List ValType) {i : Ptr} (good : D.good i) :
    Safe D (argTypes expected i) fun _ => True := by
  induction expected generalizing i with
  | nil => exact safe_pure trivial
  | cons t expected ih =>
      refine safe_seq (safe_load good) fun c holds => ?_
      refine safe_seq (type_of_safe holds.car) fun _ _ => ?_
      exact safe_seq (ih holds.cdr) fun _ _ => safe_pure trivial

theorem errif_invalid_fixed_args_safe {params : Ptr} (good : D.good params)
    (expected : List ValType) : Safe D (blErrifInvalidFixedArgs params expected) D.good := by
  refine safe_seq (errif_invalid_len_safe good _ _) fun invalid goodInvalid => ?_
  split
  · exact safe_pure goodInvalid
  · refine safe_seq (check_args_safe expected good true) fun answer goodFound => ?_
    obtain ⟨found, isGood⟩ := answer
    dsimp only
    split
    · exact safe_pure goodFound
    · split
      · exact safe_pure D.null
      · refine safe_seq (arg_types_safe expected good) fun provided _ => ?_
        exact safe_alloc_good (holds_err D.null D.null)

end ErrorTools

section Contexts

theorem load_ctx_safe {p : Ptr} (good : D.good p) : Safe D (loadCtx p) D.Slots :=
  safe_seq (safe_load good) fun _ holds => safe_member fun _ found => slots_of_holds holds found

theorem ctx_new_safe {parent : Ptr} (good : D.good parent) : Safe D (blCtxNew parent) D.good := by
  unfold blCtxNew
  split
  · exact safe_alloc_good (holds_ctx_new good)
  · exact safe_seq (load_ctx_safe good) fun c _ => safe_alloc_good (holds_ctx_new good)

theorem ctx_lookup_safe {c : Ctx} {ctx key : Ptr} (slots : D.Slots c) (good : D.good ctx)
    (goodKey : D.good key) (id : Nat) : Safe D (ctxLookup c ctx key id) D.good := by
  have found : Safe D (if id < c.valsCount then ctxVal ctx id else pure .null) D.good := by
    split
    · exact safe_ctx_val good id
    · exact safe_pure D.null
  have later : ∀ retval, D.good retval → Safe D
      (if retval ≠ .null then pure retval
        else if c.parent ≠ .null then blCtxGet c.parent key else pure .null) D.good := by
    intro retval goodRet
    split
    · exact safe_pure goodRet
    · split
      · exact safe_ctx_get slots.parent goodKey
      · exact safe_pure D.null
  unfold ctxLookup
  split at found
  · rename_i inside
    rw [if_pos inside]
    exact safe_seq found later
  · rename_i outside
    rw [if_neg outside]
    exact safe_seq found later

theorem ctx_get_body_safe {ctx key : Ptr} (good : D.good ctx) (goodKey : D.good key) :
    Safe D (ctxGetBody ctx key) D.good := by
  unfold ctxGetBody
  split
  · exact mk_err_safe _
  · refine safe_seq (load_ctx_safe good) fun c slots => ?_
    split
    · exact safe_call (c := .customGet _ ctx key) ⟨good, goodKey⟩
    · refine safe_seq (safe_load goodKey) fun k _ => ?_
      split
      · exact mk_err_safe _
      · refine safe_seq (safe_member_any _) fun name _ => ?_
        split
        · exact safe_mk_symbol _
        · split
          · refine safe_seq (safe_mk_symbol _) fun ctxKey goodCtxKey => ?_
            refine safe_seq (safe_ctx_get good goodCtxKey) fun other goodOther => ?_
            split
            · exact safe_pure D.null
            · refine safe_seq (safe_mk_symbol _) fun symKey goodSymKey => ?_
              exact safe_ctx_get goodOther goodSymKey
          · refine safe_seq (safe_member_any _) fun id _ => ?_
            exact ctx_lookup_safe slots good goodKey id

theorem ctx_set_safe {ctx key val : Ptr} (good : D.good ctx) (goodKey : D.good key)
    (goodVal : D.good val) : Safe D (blCtxSet ctx key val) D.good := by
  refine safe_seq (load_ctx_safe good) fun c slots => ?_
  have goodTarget : D.good (if c.writeToParent then c.parent else ctx) := by
    split
    · exact slots.parent
    · exact good
  refine safe_seq (safe_load goodKey) fun k _ => ?_
  refine safe_seq (safe_member_any _) fun id _ => ?_
  exact safe_seq (safe_ctx_store goodTarget goodKey goodVal id) fun _ _ => safe_pure goodVal

end Contexts

section Evaluator

theorem set_params_loop_safe {ctx names vals : Ptr} (good : D.good ctx) (goodNames : D.good names)
    (goodVals : D.good vals) : Safe D (setParamsLoop ctx names vals) fun _ => True := by
  unfold setParamsLoop
  split
  · exact safe_pure trivial
  · refine safe_seq (safe_load goodNames) fun name holds => ?_
    refine safe_seq (safe_load goodVals) fun val holds' => ?_
    refine safe_seq (ctx_set_safe good holds.car holds'.car) fun _ _ => ?_
    refine safe_seq (safe_load goodVals) fun val holds' => ?_
    split
    · exact safe_pure trivial
    · refine safe_seq (safe_load goodNames) fun name holds => ?_
      exact safe_call (c := .setParams ctx _ _) ⟨good, holds.cdr, holds'.cdr⟩

theorem set_params_safe {ctx names vals : Ptr} (good : D.good ctx) (goodNames : D.good names)
    (goodVals : D.good vals) : Safe D (blSetParams ctx names vals) fun _ => True :=
  safe_call (c := .setParams ctx names vals) ⟨good, goodNames, goodVals⟩

/-- The new cell is linked behind the last one, and is the last one then. -/
theorem eval_cons_loop_safe (linking : D.links) {ctx i start last : Ptr} (good : D.good ctx)
    (goodI : D.good i)
    (goodStart : D.good start) (isLast : D.Last last) :
    Safe D (evalConsLoop ctx i start last) D.good := by
  unfold evalConsLoop
  split
  · split
    · exact safe_pure null_val_good
    · exact safe_pure goodStart
  · refine safe_seq (safe_load goodI) fun c holds => ?_
    refine safe_seq (safe_eval good holds.car) fun retval goodRet => ?_
    refine safe_seq (type_of_safe goodRet) fun t _ => ?_
    split
    · exact safe_pure goodRet
    · refine safe_seq (safe_alloc linking (holds_cons goodRet D.null)) fun new own => ?_
      have goodNew := D.own_good new own
      split
      · refine safe_seq (safe_load goodI) fun c holds => ?_
        exact safe_call (c := .evalConsLoop ctx _ new new) ⟨good, holds.cdr, goodNew, .inr own⟩
      · rename_i filled
        have ownLast : D.own last := isLast.resolve_left filled
        refine safe_seq (safe_link ownLast goodNew) fun _ _ => ?_
        refine safe_seq (safe_load goodI) fun c holds => ?_
        exact safe_call (c := .evalConsLoop ctx _ start new) ⟨good, holds.cdr, goodStart, .inr own⟩

theorem eval_cons_safe {ctx expr : Ptr} (good : D.good ctx) (goodExpr : D.good expr) :
    Safe D (blEvalCons ctx expr) D.good := by
  unfold blEvalCons
  split
  · exact safe_pure null_val_good
  · exact safe_call (c := .evalConsLoop ctx expr .null .null) ⟨good, goodExpr, D.null, .inl rfl⟩

theorem eval_if_safe (probe : Bool) {ctx expr : Ptr} (good : D.good ctx) (goodExpr : D.good expr) :
    Safe D (blEvalIf probe ctx expr) D.good := by
  refine safe_seq (safe_load goodExpr) fun e holds => ?_
  refine safe_seq (list_first_safe holds.cdr) fun condExpr goodCond => ?_
  refine safe_seq (safe_eval good goodCond) fun cond goodVal => ?_
  refine safe_seq (safe_load goodVal) fun c _ => ?_
  split
  · exact safe_pure goodVal
  · split
    · exact mk_err_safe _
    · refine safe_seq (safe_member_any _) fun b _ => ?_
      refine safe_seq (safe_load goodExpr) fun e holds => ?_
      split
      · exact safe_seq (list_second_safe holds.cdr) fun _ goodBranch => safe_eval good goodBranch
      · exact safe_seq (list_third_safe holds.cdr) fun _ goodBranch => safe_eval good goodBranch

theorem body_loop_safe (site : Site) {ctx i retval : Ptr} (good : D.good ctx) (goodI : D.good i)
    (goodRet : D.good retval) : Safe D (bodyLoop site ctx i retval) fun answer => D.good answer.2 := by
  unfold bodyLoop
  split
  · exact safe_pure goodRet
  · refine safe_seq (safe_load goodI) fun c holds => ?_
    refine safe_seq (safe_eval good holds.car) fun retval goodRet => ?_
    have later : ∀ t, Safe D (if t = ValType.error then pure (true, retval)
        else load i >>= fun c => call (.bodyLoop site ctx c.cdr retval))
        fun answer => D.good answer.2 := by
      intro t
      split
      · exact safe_pure goodRet
      · refine safe_seq (safe_load goodI) fun c holds => ?_
        exact safe_call (c := .bodyLoop site ctx _ retval) ⟨good, holds.cdr, goodRet⟩
    split
    · exact safe_seq (type_of_safe goodRet) fun t _ => later t
    · exact later .null

theorem while_loop_safe {ctx expr cond : Ptr} (good : D.good ctx) (goodExpr : D.good expr)
    (goodCond : D.good cond) : Safe D (whileLoop ctx expr cond) D.good := by
  refine safe_seq (safe_eval good goodCond) fun v goodVal => ?_
  refine safe_seq (safe_load goodVal) fun c _ => ?_
  refine safe_seq (safe_member_any _) fun b _ => ?_
  split
  · refine safe_seq (safe_load goodExpr) fun e holds => ?_
    refine safe_seq (list_rest_safe holds.cdr) fun body goodBody => ?_
    refine safe_seq (safe_call (c := .bodyLoop .whileBody ctx body .null)
      ⟨good, goodBody, D.null⟩) fun answer goodRet => ?_
    obtain ⟨stopped, retval⟩ := answer
    dsimp only
    split
    · exact safe_pure goodRet
    · exact safe_call (c := .whileLoop ctx expr cond) ⟨good, goodExpr, goodCond⟩
  · exact safe_pure null_val_good

theorem body_head_safe {inner e : Ptr} (good : D.good inner) (goodE : D.good e) :
    Safe D (bodyHead inner e) D.good := by
  refine safe_seq (safe_load goodE) fun ec holds => ?_
  split
  · exact safe_pure D.null
  · refine safe_seq (safe_load holds.car) fun h _ => ?_
    split
    · exact safe_ctx_get good holds.car
    · split
      · refine safe_seq (eval_if_safe true good goodE) fun ifResult goodIf => ?_
        refine safe_seq (safe_load goodIf) fun r holds' => ?_
        split
        · refine safe_seq (safe_load holds'.car) fun rh _ => ?_
          split
          · exact safe_ctx_get good holds'.car
          · exact safe_pure D.null
        · exact safe_pure D.null
      · exact safe_pure D.null

theorem funcbody_loop_safe {func i : Ptr} (good : D.good func) (goodI : D.good i) :
    Safe D (funcbodyLoop func i) D.good := by
  refine safe_seq (safe_load goodI) fun ic holds => ?_
  refine safe_seq (safe_load good) fun f holdsFunc => ?_
  refine safe_seq (safe_member (closure_of_holds holdsFunc).2.1) fun inner goodInner => ?_
  refine safe_seq (body_head_safe goodInner holds.car) fun symval _ => ?_
  split
  · refine safe_seq (safe_load holds.car) fun e holdsE => ?_
    refine safe_seq (safe_eval goodInner holdsE.cdr) fun args goodArgs => ?_
    refine safe_seq (list_len_safe goodArgs) fun n _ => ?_
    refine safe_seq safe_leave fun _ _ => ?_
    refine safe_seq (safe_enter_func good) fun _ _ => ?_
    refine safe_seq (safe_load good) fun f holdsFunc => ?_
    have restart : Safe D (startBody func >>= fun _ => call (.funcbody func f.car)) D.good :=
      safe_seq (safe_start_body good) fun _ _ =>
        safe_call (c := .funcbody func f.car) ⟨good, holdsFunc.car⟩
    split
    · exact safe_seq (set_params_safe goodInner holdsFunc.cdr goodArgs) fun _ _ => restart
    · exact restart
  · refine safe_seq (safe_eval goodInner holds.car) fun retval goodRet => ?_
    refine safe_seq (safe_load goodI) fun ic holds => ?_
    split
    · exact safe_pure goodRet
    · exact safe_call (c := .funcbody func _) ⟨good, holds.cdr⟩

theorem run_func_body_safe {func : Ptr} (good : D.good func) :
    Safe D (runFuncBody func) D.good := by
  refine safe_seq (safe_start_body good) fun _ _ => ?_
  refine safe_seq (safe_load good) fun f holds => ?_
  refine safe_seq (safe_call (c := .funcbody func f.car) ⟨good, holds.car⟩) fun retval goodRet => ?_
  exact safe_seq safe_leave fun _ _ => safe_pure (or_null_good goodRet)

theorem eval_func_bl_safe {ctx expr car : Ptr} (good : D.good ctx) (goodExpr : D.good expr)
    (goodCar : D.good car) : Safe D (evalFuncBl ctx expr car) D.good := by
  refine safe_seq (safe_load goodExpr) fun e holds => ?_
  refine safe_seq (safe_eval good holds.cdr) fun args goodArgs => ?_
  refine safe_seq (list_len_safe goodExpr) fun n _ => ?_
  refine safe_seq (safe_enter_func goodCar) fun _ _ => ?_
  refine safe_seq (safe_load goodCar) fun f holdsFunc => ?_
  refine safe_seq (safe_member (closure_of_holds holdsFunc).2.1) fun inner goodInner => ?_
  split
  · exact safe_seq (set_params_safe goodInner holdsFunc.cdr goodArgs) fun _ _ =>
      run_func_body_safe goodCar
  · exact run_func_body_safe goodCar

theorem eval_oper_bl_safe {expr car : Ptr} (goodExpr : D.good expr) (goodCar : D.good car) :
    Safe D (evalOperBl expr car) D.good := by
  refine safe_seq (safe_load goodExpr) fun e holds => ?_
  refine safe_seq (safe_load goodCar) fun o holdsOper => ?_
  refine safe_seq (safe_member (closure_of_holds holdsOper).1) fun lexical goodLexical => ?_
  refine safe_seq (ctx_new_safe goodLexical) fun new goodNew => ?_
  refine safe_seq (safe_set_inner goodCar goodNew) fun _ _ => ?_
  refine safe_seq (list_len_safe goodExpr) fun n _ => ?_
  refine safe_seq (safe_enter_oper goodCar) fun _ _ => ?_
  refine safe_seq (safe_load goodCar) fun o holdsOper => ?_
  refine safe_seq (safe_member (closure_of_holds holdsOper).2.1) fun inner goodInner => ?_
  have runBody : Safe D (load car >>= fun o => member o.innerClosure >>= fun inner =>
      setWriteToParent inner >>= fun _ => call (.bodyLoop .operBody inner o.car nullVal) >>=
        fun answer => leave >>= fun _ => pure (orNull answer.2)) D.good := by
    refine safe_seq (safe_load goodCar) fun o holdsOper => ?_
    refine safe_seq (safe_member (closure_of_holds holdsOper).2.1) fun inner goodInner => ?_
    refine safe_seq (safe_set_write_to_parent goodInner) fun _ _ => ?_
    refine safe_seq (safe_call (c := .bodyLoop .operBody inner o.car nullVal)
      ⟨goodInner, holdsOper.car, null_val_good⟩) fun answer goodRet => ?_
    exact safe_seq safe_leave fun _ _ => safe_pure (or_null_good goodRet)
  split
  · exact safe_seq (set_params_safe goodInner holdsOper.cdr holds.cdr) fun _ _ => runBody
  · exact runBody

theorem eval_native_safe {ctx expr car : Ptr} (good : D.good ctx) (goodExpr : D.good expr)
    (goodCar : D.good car) (callable : D.callable expr) : Safe D (evalNative ctx expr car) D.good := by
  refine safe_seq (safe_load goodExpr) fun e _ => ?_
  refine safe_seq (safe_load goodCar) fun op _ => ?_
  refine safe_seq (safe_member_any _) fun codePtr _ => ?_
  have apply : Safe D (load expr >>= fun e => setInvoked e.cdr e.car op.customData >>= fun _ =>
      call (.native codePtr ctx e.cdr) >>= fun retval => pure (orNull retval)) D.good := by
    refine safe_seq (safe_load goodExpr) fun e holds => ?_
    refine safe_seq (safe_set_invoked holds.cdr holds.car _) fun _ _ => ?_
    refine safe_seq (safe_call (c := .native codePtr ctx e.cdr) ⟨good, holds.cdr⟩)
      fun retval goodRet => ?_
    exact safe_pure (or_null_good goodRet)
  split
  · exact safe_seq (safe_no_arguments goodExpr null_val_good callable) fun _ _ => apply
  · exact apply

theorem eval_apply_safe {ctx expr car : Ptr} (good : D.good ctx) (goodExpr : D.good expr)
    (goodCar : D.good car) (callable : D.callable expr) : Safe D (evalApply ctx expr car) D.good := by
  refine safe_seq (safe_load goodCar) fun c _ => ?_
  split
  · exact safe_pure goodCar
  · exact eval_native_safe good goodExpr goodCar callable
  · refine safe_seq (safe_load goodExpr) fun e holds => ?_
    refine safe_seq (safe_call (c := .bodyLoop .doElement ctx e.cdr nullVal)
      ⟨good, holds.cdr, null_val_good⟩) fun answer goodRet => ?_
    exact safe_pure (or_null_good goodRet)
  · refine safe_seq (eval_if_safe false good goodExpr) fun retval goodRet => ?_
    refine safe_seq (type_of_safe goodRet) fun t _ => ?_
    split
    · exact safe_pure goodRet
    · exact safe_call (c := .evalLoop ctx retval) ⟨good, goodRet⟩
  · refine safe_seq (safe_load goodExpr) fun e holds => ?_
    refine safe_seq (list_first_safe holds.cdr) fun cond goodCond => ?_
    exact safe_call (c := .whileLoop ctx expr cond) ⟨good, goodExpr, goodCond⟩
  · exact eval_func_bl_safe good goodExpr goodCar
  · exact eval_oper_bl_safe goodExpr goodCar
  · exact safe_seq (eval_cons_safe good goodExpr) fun retval goodRet =>
      safe_pure (or_null_good goodRet)

theorem eval_loop_body_safe {ctx expr : Ptr} (good : D.good ctx) (goodExpr : D.good expr) :
    Safe D (evalLoopBody ctx expr) D.good := by
  unfold evalLoopBody
  split
  · exact safe_pure null_val_good
  · refine safe_seq (safe_load_list goodExpr) fun e read => ?_
    obtain ⟨holds, list⟩ := read
    split
    · exact safe_pure goodExpr
    · rename_i isList
      split
      · exact safe_pure null_val_good
      · refine safe_seq (safe_load holds.car) fun head _ => ?_
        split
        · refine safe_seq (safe_ctx_get good holds.car) fun car goodCar => ?_
          split
          · exact safe_seq (safe_member_any _) fun name _ => err_symnotfound_safe name
          · exact eval_apply_safe good goodExpr goodCar (list isList)
        · exact eval_apply_safe good goodExpr holds.car (list isList)
    · refine safe_seq (safe_ctx_get good goodExpr) fun symval goodVal => ?_
      split
      · exact safe_seq (safe_member_any _) fun name _ => err_symnotfound_safe name
      · exact safe_pure goodVal
    · exact safe_pure goodExpr

theorem eval_body_safe {ctx expr : Ptr} (good : D.good ctx) (goodExpr : D.good expr) :
    Safe D (evalBody ctx expr) D.good := by
  unfold evalBody
  split
  · exact safe_pure null_val_good
  · exact safe_call (c := .evalLoop ctx expr) ⟨good, goodExpr⟩

end Evaluator

end BearLang
