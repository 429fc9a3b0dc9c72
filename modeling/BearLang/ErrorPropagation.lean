import BearLang.SubExpressions

/-!
# Error propagation

An error is a value like any other, and each place of the evaluator that evaluates a
sub-expression has a check of its own, or none. A place that checks returns the error
at once; one that does not goes on.
-/

namespace BearLang.ErrorPropagation

open CallPrograms SubExpressions ReadingPrograms

set_option autoImplicit false

section Places

/-- The evaluations that a form of `bl_eval` makes are noted, and its loops and
`bl_oper_foreach` are gone into. -/
def within : Call → Mode
  | .eval .. => .note
  | .evalLoop .. => .enter
  | .evalConsLoop .. => .enter
  | .bodyLoop .. => .enter
  | .whileLoop .. => .enter
  | .funcbody .. => .enter
  | .foreachLoop .. => .enter
  | .native (.builtin .foreach) .. => .enter
  | _ => .pass

def siteOf (visit : Evaluation) : Option Site :=
  match visit.call with
  | .eval site .. => some site
  | _ => none

def valueOf : Evaluation → Ptr
  | ⟨.eval .., _, value, _⟩ => value
  | _ => .null

def Fails (visit : Evaluation) : Prop := visit.after.typeOf (valueOf visit) = some .error

/-- The operands of the native operators and the first argument of `try` may be errors. -/
def propagates : Site → Bool
  | .operand => false
  | .value => false
  | .tryExpr => false
  | _ => true

def checked : Site → Bool
  | .listElement => true
  | .doElement => true
  | .operBody => true
  | .whileBody => true
  | .ifCond probe => !probe
  | .ifBranch probe => !probe
  | _ => false

/-- The places of `bl_eval_funcbody`. -/
def inBody : Site → Bool
  | .callArguments => true
  | .funcBody => true
  | .ifCond probe => probe
  | .ifBranch probe => probe
  | _ => false

/-- Every error that a sub-expression gives is the value of the form, and nothing
more is evaluated. -/
def ErrorsEnd (r : Ptr) (visits : List Evaluation) : Prop :=
  ∀ before visit later site, visits = before ++ visit :: later → siteOf visit = some site →
    propagates site = true → Fails visit → later = [] ∧ valueOf visit = r

/-- Errors come up at the places with a check, and from the last expression that is
evaluated of the body of a function. -/
def ErrorsCovered (visits : List Evaluation) : Prop :=
  ∀ before visit later site, visits = before ++ visit :: later → siteOf visit = some site →
    propagates site = true → Fails visit →
      checked site = true ∨ site = .funcBody ∧ ∀ other ∈ later, siteOf other ≠ some .funcBody

end Places

section Sites

def asksAt (sites : Site → Bool) : Contract bearLang where
  op _ := True
  opAnswer _ _ := True
  call
    | .eval site .. => sites site = true
    | .evalLoop .. => False
    | .evalConsLoop .. => sites .listElement = true
    | .bodyLoop site .. => sites site = true
    | .whileLoop .. => sites .whileCond = true ∧ sites .whileBody = true
    | .funcbody .. => ∀ site, inBody site = true → sites site = true
    | .foreachLoop .. => sites .foreachExpr = true
    | .native (.builtin .foreach) .. => sites .operand = true ∧ sites .foreachExpr = true
    | _ => True
  callAnswer _ _ := True

variable {W : World} {α : Type} {sites : Site → Bool}

instance : Reading (asksAt sites) :=
  ⟨fun _ => trivial, fun _ => trivial, trivial, fun _ _ => trivial, fun _ _ => trivial⟩

theorem asks_eval_at {site : Site} (allowed : sites site = true) (ctx expr : Ptr) :
    Allows (asksAt sites) (blEval site ctx expr) := allows_call (c := .eval site ctx expr) allowed

theorem asks_op_at (op : Op) : Allows (asksAt sites) (.perform op .done : Prog op.Answer) :=
  allows_op op trivial

theorem allows_ctx_set {K : Contract bearLang} [Reading K] (stores : ∀ op, K.op op)
    (ctx key val : Ptr) : Allows K (blCtxSet ctx key val) := by
  refine allows_seq (allows_seq (allows_load ctx) fun c => allows_member _) fun c => ?_
  refine allows_seq (allows_load key) fun k => allows_seq (allows_member _) fun id => ?_
  exact allows_seq (allows_op _ (stores _)) fun _ => allows_pure _

theorem eval_cons_loop_asks (allowed : sites .listElement = true) (ctx i start last : Ptr) :
    Allows (asksAt sites) (evalConsLoop ctx i start last) := by
  refine allows_ite (allows_pure _) (allows_seq (allows_load i) fun c => ?_)
  refine allows_seq (asks_eval_at allowed ctx c.car) fun retval => ?_
  refine allows_seq (allows_type_of retval) fun t => allows_ite (allows_pure _) ?_
  refine allows_seq (allows_alloc _) fun new => allows_ite ?_ ?_
  · exact allows_seq (allows_load i) fun c => allows_call (c := .evalConsLoop ctx c.cdr new new) allowed
  · refine allows_seq (asks_op_at _) fun _ => allows_seq (allows_load i) fun c => ?_
    exact allows_call (c := .evalConsLoop ctx c.cdr start new) allowed

theorem body_loop_turn {site : Site} {ctx i retval : Ptr} (filled : i ≠ .null) :
    bodyLoop site ctx i retval = load i >>= fun c => blEval site ctx c.car >>= fun value =>
      (if value ≠ .null then typeOf value else pure .null) >>= fun t =>
        if t = .error then pure (true, value)
        else load i >>= fun c => call (.bodyLoop site ctx c.cdr value) := by
  rw [bodyLoop, if_neg filled]
  refine congrArg _ (funext fun c => congrArg _ (funext fun value => ?_))
  by_cases none_ : value = .null
  · subst none_
    rfl
  · dsimp only
    rw [if_pos none_, if_pos none_]

theorem body_loop_asks {site : Site} (allowed : sites site = true) (ctx i retval : Ptr) :
    Allows (asksAt sites) (bodyLoop site ctx i retval) := by
  by_cases ends : i = .null
  · rw [bodyLoop, if_pos ends]
    exact allows_pure _
  · rw [body_loop_turn ends]
    refine allows_seq (allows_load i) fun c => allows_seq (asks_eval_at allowed ctx c.car) fun v => ?_
    refine allows_seq (allows_ite (allows_type_of v) (allows_pure _)) fun t => ?_
    refine allows_ite (allows_pure _) (allows_seq (allows_load i) fun c => ?_)
    exact allows_call (c := .bodyLoop site ctx c.cdr v) allowed

theorem while_loop_asks (cond_ : sites .whileCond = true) (body_ : sites .whileBody = true)
    (ctx expr cond : Ptr) : Allows (asksAt sites) (whileLoop ctx expr cond) := by
  refine allows_seq (asks_eval_at cond_ ctx cond) fun v => allows_seq (allows_load v) fun c => ?_
  refine allows_seq (allows_member c.bVal) fun b => allows_ite ?_ (allows_pure _)
  refine allows_seq (allows_load expr) fun e => allows_seq (allows_list_rest e.cdr) fun body => ?_
  refine allows_seq (allows_call (c := .bodyLoop .whileBody ctx body .null) body_) fun result => ?_
  exact allows_ite (allows_pure _) (allows_call (c := .whileLoop ctx expr cond) ⟨cond_, body_⟩)

theorem eval_if_asks {probe : Bool} (cond_ : sites (.ifCond probe) = true)
    (branch : sites (.ifBranch probe) = true) (ctx expr : Ptr) :
    Allows (asksAt sites) (blEvalIf probe ctx expr) := by
  refine allows_seq (allows_load expr) fun e => allows_seq (allows_list_first e.cdr) fun first => ?_
  refine allows_seq (asks_eval_at cond_ ctx first) fun cond => allows_seq (allows_load cond) fun c => ?_
  refine allows_ite (allows_pure _) (allows_ite (allows_alloc _) ?_)
  refine allows_seq (allows_member c.bVal) fun b => allows_seq (allows_load expr) fun e => ?_
  exact allows_ite (allows_seq (allows_list_second e.cdr) (asks_eval_at branch ctx))
    (allows_seq (allows_list_third e.cdr) (asks_eval_at branch ctx))

theorem body_head_asks (allowed : ∀ site, inBody site = true → sites site = true) (inner e : Ptr) :
    Allows (asksAt sites) (bodyHead inner e) := by
  have get (key : Ptr) : Allows (asksAt sites) (blCtxGet inner key) :=
    allows_call (c := .ctxGet inner key) trivial
  refine allows_seq (allows_load e) fun ec => allows_ite (allows_pure _) ?_
  refine allows_seq (allows_load ec.car) fun h => allows_ite (get _) (allows_ite ?_ (allows_pure _))
  refine allows_seq (eval_if_asks (allowed _ rfl) (allowed _ rfl) inner e) fun result => ?_
  refine allows_seq (allows_load result) fun r => allows_ite ?_ (allows_pure _)
  exact allows_seq (allows_load r.car) fun rh => allows_ite (get _) (allows_pure _)

theorem funcbody_loop_asks (allowed : ∀ site, inBody site = true → sites site = true)
    (func i : Ptr) : Allows (asksAt sites) (funcbodyLoop func i) := by
  have again (i : Ptr) : Allows (asksAt sites) (call (.funcbody func i)) :=
    allows_call (c := .funcbody func i) allowed
  refine allows_seq (allows_load i) fun ic => allows_seq (allows_load func) fun f => ?_
  refine allows_seq (allows_member f.innerClosure) fun inner => ?_
  refine allows_seq (body_head_asks allowed inner ic.car) fun symval => allows_ite ?_ ?_
  · refine allows_seq (allows_load ic.car) fun e => ?_
    refine allows_seq (asks_eval_at (allowed _ rfl) inner e.cdr) fun args => ?_
    refine allows_seq (allows_list_len args) fun n => allows_seq (asks_op_at _) fun _ => ?_
    refine allows_seq (asks_op_at _) fun _ => allows_seq (allows_load func) fun f => ?_
    have restart : Allows (asksAt sites) (startBody func >>= fun _ => call (.funcbody func f.car)) :=
      allows_seq (asks_op_at _) fun _ => again f.car
    exact allows_ite (allows_seq (allows_call (c := .setParams inner f.cdr args) trivial) fun _ =>
      restart) restart
  · refine allows_seq (asks_eval_at (allowed _ rfl) inner ic.car) fun retval => ?_
    exact allows_seq (allows_load i) fun ic => allows_ite (allows_pure _) (again ic.cdr)

theorem foreach_asks (list : sites .operand = true) (expr_ : sites .foreachExpr = true)
    (ctx params : Ptr) : Allows (asksAt sites) (blOperForeach ctx params) := by
  refine allows_seq (allows_list_first params) fun sym => ?_
  refine allows_seq (allows_seq (allows_list_second params) (asks_eval_at list ctx)) fun L => ?_
  refine allows_seq (allows_list_third params) fun expr => ?_
  exact allows_call (c := .foreachLoop ctx sym L expr) expr_

theorem foreach_loop_asks (allowed : sites .foreachExpr = true) (ctx sym L expr : Ptr) :
    Allows (asksAt sites) (foreachLoop ctx sym L expr) := by
  refine allows_ite
    (allows_seq (allows_ctx_set (fun _ => trivial) ctx sym .null) fun _ => allows_pure _) ?_
  refine allows_seq (allows_load L) fun c => ?_
  refine allows_seq (allows_ctx_set (fun _ => trivial) ctx sym c.car) fun _ => ?_
  refine allows_seq (asks_eval_at allowed ctx expr) fun _ => allows_seq (allows_load L) fun c => ?_
  exact allows_call (c := .foreachLoop ctx sym c.cdr expr) allowed

/-- The loops keep to what is said of them. -/
theorem asks_at_honoured (c : Call) (enters : within c = .enter) (allowed : (asksAt sites).call c) :
    (body W c).Meets (asksAt sites) ((asksAt sites).callAnswer c) := by
  cases c with
  | evalLoop => exact allowed.elim
  | evalConsLoop ctx i start last => exact eval_cons_loop_asks allowed ctx i start last
  | bodyLoop site ctx i retval => exact body_loop_asks allowed ctx i retval
  | whileLoop ctx expr cond => exact while_loop_asks allowed.1 allowed.2 ctx expr cond
  | funcbody func i => exact funcbody_loop_asks allowed func i
  | foreachLoop ctx sym L expr => exact foreach_loop_asks allowed ctx sym L expr
  | native op ctx params =>
      cases op with
      | builtin op =>
          cases op with
          | foreach => exact foreach_asks allowed.1 allowed.2 ctx params
          | _ => exact nomatch enters
      | extension number => exact nomatch enters
  | _ => exact nomatch enters

variable {s : State} {before : List Evaluation} {visit : Evaluation}

theorem site_of_makes {program : Prog α} (asks : Allows (asksAt sites) program)
    (made : (runtime W).Makes within program s before visit) {site : Site}
    (place : siteOf visit = some site) : sites site = true := by
  have allowed := makes_allowed (fun call enters allowed => asks_at_honoured call enters allowed)
    (fun _ _ => trivial) (fun _ _ => trivial) asks made
  obtain ⟨c, _, _, _⟩ := visit
  cases c with
  | eval => cases place; exact allowed
  | _ => exact nomatch place

theorem site_of_visit {program : Prog α} {v : α} {t : State} {visits : List Evaluation}
    (traced : (runtime W).Traced within program s visits v t) (mem : visit ∈ visits) :
    ∃ site, siteOf visit = some site := by
  obtain ⟨before, later, same⟩ := List.append_of_mem mem
  have noted := makes_noted (makes_of_traced traced same)
  obtain ⟨c, _, _, _⟩ := visit
  cases c with
  | eval site => exact ⟨site, rfl⟩
  | native op =>
      cases op with
      | builtin op => cases op <;> cases noted
      | extension => cases noted
  | _ => cases noted

theorem sites_of_trace {program : Prog α} (asks : Allows (asksAt sites) program) {v : α} {t : State}
    {visits : List Evaluation} (traced : (runtime W).Traced within program s visits v t)
    (mem : visit ∈ visits) {site : Site} (place : siteOf visit = some site) : sites site = true := by
  obtain ⟨before, later, same⟩ := List.append_of_mem mem
  exact site_of_makes asks (makes_of_traced traced same) place

end Sites

section Forms

/-- What is left of the call of a function once the parameters are bound. -/
def FunctionBody (program : Prog Ptr) : Prop :=
  ∃ func i, program = call (.funcbody func i) >>= fun retval => leave >>= fun _ =>
    pure (orNull retval)

/-- The forms of `bl_eval`, from their first evaluation on. -/
inductive Form : Prog Ptr → Prop
  | value (v : Ptr) : Form (pure v)
  | list (ctx expr : Ptr) :
      Form (call (.evalConsLoop ctx expr .null .null) >>= fun retval => pure (orNull retval))
  | elements (ctx i : Ptr) :
      Form (call (.bodyLoop .doElement ctx i nullVal) >>= fun result => pure (orNull result.2))
  | oper (ctx i : Ptr) :
      Form (call (.bodyLoop .operBody ctx i nullVal) >>= fun result => leave >>= fun _ =>
        pure (orNull result.2))
  | branch (ctx expr : Ptr) :
      Form (blEvalIf false ctx expr >>= fun retval => typeOf retval >>= fun t =>
        if t = .error then pure retval else call (.evalLoop ctx retval))
  | loop (ctx expr cond : Ptr) : Form (call (.whileLoop ctx expr cond))
  | function (ctx args : Ptr) (rest : Ptr → Prog Ptr)
      (body : ∀ v, (rest v).ComesTo within FunctionBody) :
      Form (blEval .callArguments ctx args >>= rest)
  | foreach (ctx params : Ptr) :
      Form (call (.native (.builtin .foreach) ctx params) >>= fun retval => pure (orNull retval))

variable {α β : Type}

instance : Reading (passing within) :=
  ⟨fun _ => trivial, fun _ => trivial, trivial, fun _ _ => rfl, fun _ _ => rfl⟩

theorem comes_seq {P : Prog β → Prop} {program : Prog α} {f : α → Prog β}
    (silent : Allows (passing within) program) (rest : ∀ v, (f v).ComesTo within P) :
    (program >>= f).ComesTo within P := comes_after (silent_of_allows silent) rest

theorem comes_op {P : Prog β → Prop} (op : Op) {f : op.Answer → Prog β}
    (rest : ∀ v, (f v).ComesTo within P) :
    ((.perform op .done : Prog op.Answer) >>= f).ComesTo within P :=
  comes_seq (allows_op op trivial) rest

theorem comes_pass {P : Prog β → Prop} {c : Call} (passes : within c = .pass)
    {f : c.Answer → Prog β} (rest : ∀ v, (f v).ComesTo within P) :
    (call c >>= f).ComesTo within P := comes_seq (allows_call passes) rest

theorem comes_value (v : Ptr) : (pure v : Prog Ptr).ComesTo within Form := comes_here (.value v)

theorem comes_alloc (c : Cell) : (alloc c).ComesTo within Form := .inr fun v => .value v

theorem run_func_body_comes (func : Ptr) : (runFuncBody func).ComesTo within FunctionBody := by
  refine comes_op (.startBody func) fun _ => comes_seq (allows_load func) fun f => ?_
  exact comes_here ⟨func, f.car, rfl⟩

theorem restart_comes (func inner args : Ptr) : (do
    let n ← blListLen args
    leave
    enterFunc func
    let f ← load func
    if 0 < n then blSetParams inner f.cdr args
    startBody func
    call (.funcbody func f.car) : Prog Ptr).ComesTo within
      fun rest => ∃ i, rest = call (.funcbody func i) := by
  refine comes_seq (allows_list_len args) fun n => comes_op .leave fun _ => ?_
  refine comes_op (.enterFunc func) fun _ => comes_seq (allows_load func) fun f => ?_
  have again : (startBody func >>= fun _ => call (.funcbody func f.car)).ComesTo within
      fun rest => ∃ i, rest = call (.funcbody func i) :=
    comes_op (.startBody func) fun _ => comes_here ⟨f.car, rfl⟩
  dsimp only
  split
  · exact comes_pass (c := .setParams inner f.cdr args) rfl fun _ => again
  · exact again

theorem func_bl_comes (ctx expr car : Ptr) : (evalFuncBl ctx expr car).ComesTo within Form := by
  refine comes_seq (allows_load expr) fun e => comes_here (.function ctx e.cdr _ fun args => ?_)
  refine comes_seq (allows_list_len expr) fun n => comes_op (.enterFunc car) fun _ => ?_
  refine comes_seq (allows_load car) fun f => comes_seq (allows_member f.innerClosure) fun inner => ?_
  dsimp only
  split
  · exact comes_pass (c := .setParams inner f.cdr args) rfl fun _ => run_func_body_comes car
  · exact run_func_body_comes car

theorem ctx_new_passes (parent : Ptr) : Allows (passing within) (blCtxNew parent) := by
  refine allows_ite (allows_alloc _) (allows_seq ?_ fun c => allows_alloc _)
  exact allows_seq (allows_load parent) fun cell => allows_member cell.asCtx

theorem oper_bl_comes (expr car : Ptr) : (evalOperBl expr car).ComesTo within Form := by
  refine comes_seq (allows_load expr) fun e => comes_seq (allows_load car) fun o => ?_
  refine comes_seq (allows_member o.lexicalClosure) fun lexical => ?_
  refine comes_seq (ctx_new_passes lexical) fun new => comes_op (.setInner car new) fun _ => ?_
  refine comes_seq (allows_list_len expr) fun n => comes_op (.enterOper car) fun _ => ?_
  refine comes_seq (allows_load car) fun o => comes_seq (allows_member o.innerClosure) fun inner => ?_
  have rest : (load car >>= fun o => member o.innerClosure >>= fun inner =>
      setWriteToParent inner >>= fun _ => call (.bodyLoop .operBody inner o.car nullVal) >>=
        fun result => leave >>= fun _ => pure (orNull result.2)).ComesTo within Form :=
    comes_seq (allows_load car) fun o => comes_seq (allows_member o.innerClosure) fun inner =>
      comes_op (.setWriteToParent inner) fun _ => comes_here (.oper inner o.car)
  dsimp only
  split
  · exact comes_pass (c := .setParams inner o.cdr e.cdr) rfl fun _ => rest
  · exact rest

theorem native_comes (ctx expr car : Ptr) : (evalNative ctx expr car).ComesTo within Form := by
  have called (op : Native) (params : Ptr) :
      (call (.native op ctx params) >>= fun retval => pure (orNull retval)).ComesTo within Form := by
    by_cases each : op = .builtin .foreach
    · subst each
      exact comes_here (.foreach ctx params)
    · refine comes_pass (c := .native op ctx params) ?_ fun retval => comes_value (orNull retval)
      cases op with
      | builtin op =>
          cases op with
          | foreach => exact absurd rfl each
          | _ => rfl
      | extension number => rfl
  refine comes_seq (allows_load expr) fun e => comes_seq (allows_load car) fun op => ?_
  refine comes_seq (allows_member op.codePtr) fun codePtr => ?_
  have rest : (load expr >>= fun e => setInvoked e.cdr e.car op.customData >>= fun _ =>
      call (.native codePtr ctx e.cdr) >>= fun retval => pure (orNull retval)).ComesTo within Form :=
    comes_seq (allows_load expr) fun e => comes_op (.setInvoked e.cdr e.car op.customData) fun _ =>
      called codePtr e.cdr
  dsimp only
  split
  · exact comes_op (.setCdr .noArguments expr nullVal) fun _ => rest
  · exact rest

theorem apply_comes (ctx expr car : Ptr) : (evalApply ctx expr car).ComesTo within Form := by
  refine comes_seq (allows_load car) fun c => ?_
  split
  · exact comes_value car
  · exact native_comes ctx expr car
  · exact comes_seq (allows_load expr) fun e => comes_here (.elements ctx e.cdr)
  · exact comes_here (.branch ctx expr)
  · refine comes_seq (allows_load expr) fun e => comes_seq (allows_list_first e.cdr) fun cond => ?_
    exact comes_here (.loop ctx expr cond)
  · exact func_bl_comes ctx expr car
  · exact oper_bl_comes expr car
  · rw [blEvalCons]
    split
    · exact comes_value nullVal
    · exact comes_here (.list ctx expr)

theorem eval_comes (ctx expr : Ptr) : (evalLoopBody ctx expr).ComesTo within Form := by
  have missing (name : Option CStr) :
      (member name >>= blErrSymnotfound).ComesTo within Form :=
    comes_seq (allows_member name) fun _ => comes_alloc _
  rw [evalLoopBody]
  split
  · exact comes_value nullVal
  · refine comes_seq (allows_load expr) fun e => ?_
    split
    · exact comes_value expr
    · split
      · exact comes_value nullVal
      · refine comes_seq (allows_load e.car) fun head => ?_
        split
        · refine comes_pass (c := .ctxGet ctx e.car) rfl fun car => ?_
          split
          · exact missing head.sVal
          · exact apply_comes ctx expr car
        · exact apply_comes ctx expr e.car
    · refine comes_pass (c := .ctxGet ctx expr) rfl fun symval => ?_
      split
      · exact missing e.sVal
      · exact comes_value symval
    · exact comes_value expr

end Forms

section Stopping

variable {W : World} {α β : Type} {n : Nat}

/-- An error at a place with a check, among the first `n` evaluations, makes the program
come back with it. -/
def StopsOnError (W : World) (n : Nat) {α : Type} (program : Prog α) (answer : Ptr → α) : Prop :=
  ∀ s before visit site, before.length < n → (runtime W).Makes within program s before visit →
    siteOf visit = some site → checked site = true → Fails visit →
      (runtime W).Traced within program s (before ++ [visit]) (answer (valueOf visit)) visit.after

/-- Given an error, the program returns it. -/
def HandsOn (W : World) {α : Type} (program : Ptr → Prog α) (answer : Ptr → α) : Prop :=
  ∀ v m, m.typeOf v = some .error → (runtime W).Traced within (program v) m [] (answer v) m

theorem error_cell {m : State} {v : Ptr} (error : m.typeOf v = some .error) :
    ∃ c, m.cell v = some c ∧ c.type = .error := Option.map_eq_some_iff.1 error

theorem error_or_null {m : State} {v : Ptr} (error : m.typeOf v = some .error) : orNull v = v := by
  obtain ⟨c, known, _⟩ := error_cell error
  exact if_neg (cell_ne_null known)

theorem hands_on_pure : HandsOn W pure id := fun v m _ => .done v m

theorem hands_on_or_null : HandsOn W (fun v => pure (orNull v)) id := by
  intro v m error
  dsimp only
  rw [error_or_null error]
  exact .done v m

theorem hands_on_check {f : Ptr → Prog α} {answer : Ptr → α} (gives : HandsOn W f answer)
    (others : Ptr → Prog α) :
    HandsOn W (fun v => typeOf v >>= fun t => if t = .error then f v else others v) answer := by
  intro v m error
  obtain ⟨c, known, type⟩ := error_cell error
  have silent : (typeOf v).Silent within := silent_of_allows (allows_type_of v)
  dsimp only
  rw [traced_after silent (runs_type_of known), if_pos type]
  exact gives v m error

theorem stops_silent {program : Prog α} {f : α → Prog β} {answer : Ptr → β}
    (silent : Allows (passing within) program) (rest : ∀ v, StopsOnError W n (f v) answer) :
    StopsOnError W n (program >>= f) answer := by
  intro s before visit site short made place isChecked fails
  obtain ⟨v, m, run, later⟩ := (makes_silent (silent_of_allows silent)).1 made
  rw [traced_after (silent_of_allows silent) run]
  exact rest v m before visit site short later place isChecked fails

theorem stops_pure (v : α) (answer : Ptr → α) : StopsOnError W n (pure v) answer :=
  fun _ _ _ _ _ made => absurd made makes_done

theorem stops_at_zero (program : Prog α) (answer : Ptr → α) : StopsOnError W 0 program answer :=
  fun _ _ _ _ short => absurd short (Nat.not_lt_zero _)

theorem stops_ite {c : Prop} [Decidable c] {yes no : Prog α} {answer : Ptr → α}
    (first : StopsOnError W n yes answer) (second : StopsOnError W n no answer) :
    StopsOnError W n (if c then yes else no) answer := by
  split
  · exact first
  · exact second

theorem stops_enter {c : Call} {answer : Ptr → c.Answer} (enters : within c = .enter)
    (inside : StopsOnError W n (body W c) answer) : StopsOnError W n (call c) answer := by
  intro s before visit site short made place isChecked fails
  rw [records_call enters]
  exact inside s before visit site short ((makes_call enters).1 made) place isChecked fails

theorem stops_bind {program : Prog α} {f : α → Prog β} {answer : Ptr → α} {answer' : Ptr → β}
    (first : StopsOnError W n program answer) (gives : HandsOn W (fun v => f (answer v)) answer')
    (rest : ∀ a, StopsOnError W n (f a) answer') : StopsOnError W n (program >>= f) answer' := by
  intro s before visit site short made place isChecked fails
  rw [traced_bind]
  rcases makes_bind.1 made with made | ⟨a, m, one, two, traced, later, rfl⟩
  · have inside := first s before visit site short made place isChecked fails
    exact ⟨_, _, _, [], inside, gives _ _ fails, (List.append_nil _).symm⟩
  · have shorter : two.length < n := by
      rw [List.length_append] at short
      omega
    have behind := rest a m two visit site shorter later place isChecked fails
    exact ⟨a, m, one, _, traced, behind, List.append_assoc _ _ _⟩

theorem stops_eval {site : Site} {ctx expr : Ptr} {f : Ptr → Prog α} {answer : Ptr → α}
    (gives : checked site = true → HandsOn W f answer)
    (rest : ∀ a, StopsOnError W n (f a) answer) :
    StopsOnError W (n + 1) (blEval site ctx expr >>= f) answer := by
  intro s before visit site' short made place isChecked fails
  rw [records_eval rfl]
  obtain ⟨a, m, run, ⟨rfl, rfl⟩ | ⟨later, after, rfl⟩⟩ := (makes_eval rfl).1 made
  · cases place
    exact ⟨a, m, [], run, gives isChecked a m fails, rfl⟩
  · have behind := rest a m later visit site' (Nat.lt_of_succ_lt_succ short) after place isChecked fails
    exact ⟨a, m, later ++ [visit], run, behind, rfl⟩

theorem stops_last_eval (site : Site) (ctx expr : Ptr) :
    StopsOnError W n (blEval site ctx expr) id := by
  rw [← Program.bind_done (blEval site ctx expr)]
  cases n with
  | zero => exact stops_at_zero _ _
  | succ n => exact stops_eval (fun _ => hands_on_pure) fun a => stops_pure a id

theorem stops_comes {P : Prog α → Prop} {program : Prog α} {answer : Ptr → α}
    (comes : program.ComesTo within P) (each : ∀ rest, P rest → StopsOnError W n rest answer) :
    StopsOnError W n program answer := by
  intro s before visit site short made place isChecked fails
  obtain ⟨rest, m, held, later, whole⟩ := makes_comes comes made
  exact whole _ _ _ (each rest held m before visit site short later place isChecked fails)

theorem stops_unchecked {program : Prog α} (asks : Allows (asksAt fun site => !checked site) program)
    (answer : Ptr → α) : StopsOnError W n program answer := by
  intro s before visit site _ made place isChecked _
  have unchecked := site_of_makes asks made place
  rw [isChecked] at unchecked
  cases unchecked

end Stopping

section Loops

variable {W : World} {n : Nat}

theorem eval_cons_loop_stops (ctx i start last : Ptr) :
    StopsOnError W n (evalConsLoop ctx i start last) id := by
  induction n generalizing i start last with
  | zero => exact stops_at_zero _ _
  | succ n ih =>
      refine stops_ite (stops_pure _ _) (stops_silent (allows_load i) fun c => ?_)
      refine stops_eval (fun _ => hands_on_check hands_on_pure _) fun retval => ?_
      refine stops_silent (allows_type_of retval) fun t => stops_ite (stops_pure _ _) ?_
      refine stops_silent (allows_alloc _) fun new => stops_ite ?_ ?_
      · refine stops_silent (allows_load i) fun c => ?_
        exact stops_enter (c := .evalConsLoop ctx c.cdr new new) rfl (ih c.cdr new new)
      · refine stops_silent (allows_op (.setCdr .build last new) trivial) fun _ => ?_
        refine stops_silent (allows_load i) fun c => ?_
        exact stops_enter (c := .evalConsLoop ctx c.cdr start new) rfl (ih c.cdr start new)

theorem body_loop_stops (site : Site) (ctx i retval : Ptr) :
    StopsOnError W n (bodyLoop site ctx i retval) fun v => (true, v) := by
  induction n generalizing i retval with
  | zero => exact stops_at_zero _ _
  | succ n ih =>
      by_cases ends : i = .null
      · rw [bodyLoop, if_pos ends]
        exact stops_pure _ _
      · rw [body_loop_turn ends]
        refine stops_silent (allows_load i) fun c => stops_eval (fun _ v m error => ?_) fun v => ?_
        · obtain ⟨cell, known, type⟩ := error_cell error
          have silent : (typeOf v).Silent within := silent_of_allows (allows_type_of v)
          rw [if_pos (cell_ne_null known), traced_after silent (runs_type_of known), if_pos type]
          exact .done _ m
        · refine stops_silent (allows_ite (allows_type_of v) (allows_pure _)) fun t => ?_
          refine stops_ite (stops_pure _ _) (stops_silent (allows_load i) fun c => ?_)
          exact stops_enter (c := .bodyLoop site ctx c.cdr v) rfl (ih c.cdr v)

theorem while_loop_stops (ctx expr cond : Ptr) : StopsOnError W n (whileLoop ctx expr cond) id := by
  induction n with
  | zero => exact stops_at_zero _ _
  | succ n ih =>
      refine stops_eval (fun isChecked => nomatch isChecked) fun v => ?_
      refine stops_silent (allows_load v) fun c => stops_silent (allows_member c.bVal) fun b => ?_
      refine stops_ite ?_ (stops_pure _ _)
      refine stops_silent (allows_load expr) fun e => ?_
      refine stops_silent (allows_list_rest e.cdr) fun body => ?_
      refine stops_bind (stops_enter (c := .bodyLoop .whileBody ctx body .null) rfl
        (body_loop_stops .whileBody ctx body .null)) (fun v m _ => .done v m) fun result => ?_
      exact stops_ite (stops_pure _ _) (stops_enter (c := .whileLoop ctx expr cond) rfl ih)

/-- What `bl_eval_if` does with the condition. -/
def ifRest (probe : Bool) (ctx expr cond : Ptr) : Prog Ptr := do
  let c ← load cond
  if c.type = .error then pure cond
  else if c.type ≠ .bool then blMkErr .parse
  else
    let b ← member c.bVal
    let e ← load expr
    if b then
      let branch ← blListSecond e.cdr
      blEval (.ifBranch probe) ctx branch
    else
      let branch ← blListThird e.cdr
      blEval (.ifBranch probe) ctx branch

theorem eval_if_cond {α : Type} (probe : Bool) (ctx expr : Ptr) (f : Ptr → Prog α) :
    blEvalIf probe ctx expr >>= f = load expr >>= fun e => blListFirst e.cdr >>= fun first =>
      blEval (.ifCond probe) ctx first >>= fun cond => ifRest probe ctx expr cond >>= f := by
  rw [blEvalIf]
  simp only [bind_assoc]
  rfl

theorem if_rest_stops (probe : Bool) (ctx expr cond : Ptr) :
    StopsOnError W n (ifRest probe ctx expr cond) id := by
  refine stops_silent (allows_load cond) fun c => stops_ite (stops_pure _ _) (stops_ite ?_ ?_)
  · exact fun _ _ _ _ _ made => absurd made (silent_makes_nothing (silent_op _))
  · refine stops_silent (allows_member c.bVal) fun b => stops_silent (allows_load expr) fun e => ?_
    exact stops_ite (stops_silent (allows_list_second e.cdr) fun p => stops_last_eval _ ctx p)
      (stops_silent (allows_list_third e.cdr) fun p => stops_last_eval _ ctx p)

theorem function_body_stops {program : Prog Ptr} (body : FunctionBody program) :
    StopsOnError W n program id := by
  obtain ⟨func, i, rfl⟩ := body
  refine stops_unchecked (allows_seq (allows_call (c := .funcbody func i) ?_) fun retval => ?_) id
  · intro site body_
    cases site with
    | ifCond probe =>
        cases probe with
        | false => cases body_
        | true => rfl
    | ifBranch probe =>
        cases probe with
        | false => cases body_
        | true => rfl
    | _ => first
      | rfl
      | cases body_
  · exact allows_seq (asks_op_at .leave) fun _ => allows_pure _

/-- An error at a place with a check makes the evaluation of an expression come back
with it. -/
theorem eval_loop_stops (ctx expr : Ptr) : StopsOnError W n (evalLoopBody ctx expr) id := by
  induction n generalizing ctx expr with
  | zero => exact stops_at_zero _ _
  | succ n ih =>
      refine stops_comes (eval_comes ctx expr) fun form isForm => ?_
      cases isForm with
      | value v => exact stops_pure v id
      | list ctx expr =>
          refine stops_bind (stops_enter (c := .evalConsLoop ctx expr .null .null) rfl
            (eval_cons_loop_stops ctx expr .null .null)) hands_on_or_null fun r => stops_pure _ _
      | elements ctx i =>
          exact stops_bind (stops_enter (c := .bodyLoop .doElement ctx i nullVal) rfl
            (body_loop_stops .doElement ctx i nullVal)) hands_on_or_null fun r => stops_pure _ _
      | oper ctx i =>
          refine stops_bind (stops_enter (c := .bodyLoop .operBody ctx i nullVal) rfl
            (body_loop_stops .operBody ctx i nullVal)) (fun v m error => ?_) fun r => ?_
          · have left : (runtime W).Runs leave m () m := runs_step rfl
            refine (traced_after (silent_of_allows (allows_op .leave trivial)) left).2 ?_
            exact hands_on_or_null v m error
          · exact stops_silent (allows_op .leave trivial) fun _ => stops_pure _ _
      | branch ctx expr =>
          rw [eval_if_cond]
          refine stops_silent (allows_load expr) fun e => ?_
          refine stops_silent (allows_list_first e.cdr) fun first => ?_
          have after := hands_on_check (W := W) hands_on_pure fun r => call (.evalLoop ctx r)
          refine stops_eval (fun _ v m error => ?_) fun cond => ?_
          · rw [ifRest, bind_assoc]
            obtain ⟨c, known, type⟩ := error_cell error
            refine records_load.2 ⟨c, known, ?_⟩
            rw [if_pos type]
            exact after v m error
          · refine stops_bind (if_rest_stops false ctx expr cond) after fun r => ?_
            refine stops_silent (allows_type_of r) fun t => stops_ite (stops_pure _ _) ?_
            exact stops_enter (c := .evalLoop ctx r) rfl (ih ctx r)
      | loop ctx expr cond =>
          exact stops_enter (c := .whileLoop ctx expr cond) rfl (while_loop_stops ctx expr cond)
      | function ctx args rest body =>
          refine stops_eval (fun isChecked => nomatch isChecked) fun v => ?_
          exact stops_comes (body v) fun program isBody => function_body_stops isBody
      | foreach ctx params =>
          refine stops_unchecked (allows_seq (allows_call
            (c := .native (.builtin .foreach) ctx params) ⟨rfl, rfl⟩) fun r => allows_pure _) id

end Loops

section Endings

variable {W : World} {s t : State} {visits : List Evaluation} {r : Ptr}

def EndsAt (site : Site) (visits : List Evaluation) : Prop :=
  ∃ before last, visits = before ++ [last] ∧ siteOf last = some site

theorem ends_at_append {site : Site} (first : List Evaluation) (ends : EndsAt site visits) :
    EndsAt site (first ++ visits) := by
  obtain ⟨before, last, rfl, place⟩ := ends
  exact ⟨first ++ before, last, (List.append_assoc _ _ _).symm, place⟩

theorem body_loop_stopped {site : Site} {ctx i retval v : Ptr}
    (traced : (runtime W).Traced within (bodyLoop site ctx i retval) s visits (true, v) t) :
    EndsAt site visits := by
  rcases List.eq_nil_or_concat visits with rfl | ⟨before, last, rfl⟩
  · by_cases ends : i = .null
    · rw [bodyLoop, if_pos ends] at traced
      cases (traced_done.1 traced).2.1
    · rw [body_loop_turn ends] at traced
      obtain ⟨c, _, traced⟩ := records_load.1 traced
      obtain ⟨_, _, _, _, _, same⟩ := (records_eval rfl).1 traced
      cases same
  · rw [List.concat_eq_append] at traced ⊢
    obtain ⟨place, found⟩ := site_of_visit traced (List.mem_append_right _ List.mem_cons_self)
    have asks : Allows (asksAt (site == ·)) (bodyLoop site ctx i retval) :=
      body_loop_asks (beq_self_eq_true site) ctx i retval
    have same := sites_of_trace asks traced (List.mem_append_right _ List.mem_cons_self) found
    exact ⟨before, last, rfl, found.trans (congrArg some (eq_of_beq same).symm)⟩

/-- The loop is left from its body, or with a condition that is not true. -/
theorem while_loop_ends {ctx expr cond : Ptr}
    (traced : (runtime W).Traced within (whileLoop ctx expr cond) s visits r t) :
    r = nullVal ∨ EndsAt .whileBody visits := by
  obtain ⟨n, short⟩ : ∃ n, visits.length < n := ⟨_, Nat.lt_succ_self _⟩
  induction n generalizing s visits with
  | zero => exact absurd short (Nat.not_lt_zero _)
  | succ n ih =>
      obtain ⟨v, m, rest, _, turn, rfl⟩ := (records_eval rfl).1 traced
      obtain ⟨c, _, turn⟩ := records_load.1 turn
      obtain ⟨b, m, _, turn⟩ := (traced_silent (silent_of_allows (allows_member _))).1 turn
      dsimp only at turn
      split at turn
      · obtain ⟨e, _, turn⟩ := records_load.1 turn
        obtain ⟨body, m, _, turn⟩ := (traced_silent (silent_of_allows (allows_list_rest _))).1 turn
        obtain ⟨⟨stopped, value⟩, m', inner, outer, loop, turn, rfl⟩ := traced_bind.1 turn
        have loop := (records_call (c := .bodyLoop .whileBody ctx body .null) rfl).1 loop
        cases stopped with
        | true =>
            obtain ⟨rfl, _, _⟩ := traced_done.1 turn
            rw [List.append_nil]
            exact .inr (ends_at_append [_] (body_loop_stopped loop))
        | false =>
            have again := (records_call (c := .whileLoop ctx expr cond) rfl).1 turn
            refine (ih again ?_).imp id fun ends => ends_at_append (_ :: inner) ends
            simp only [List.length_cons, List.length_append] at short
            omega
      · exact .inl (traced_done.1 turn).2.1.symm

theorem foreach_loop_ends {ctx sym L expr : Ptr}
    (traced : (runtime W).Traced within (foreachLoop ctx sym L expr) s visits r t) : r = nullVal := by
  have set (val : Ptr) : (blCtxSet ctx sym val).Silent within :=
    silent_of_allows (allows_ctx_set (fun _ => trivial) ctx sym val)
  induction visits generalizing s L with
  | nil =>
      by_cases ends : L = .null
      · rw [foreachLoop, if_pos ends] at traced
        obtain ⟨_, _, _, rest⟩ := (traced_silent (set _)).1 traced
        exact (traced_done.1 rest).2.1.symm
      · rw [foreachLoop, if_neg ends] at traced
        obtain ⟨c, _, traced⟩ := records_load.1 traced
        obtain ⟨_, _, _, rest⟩ := (traced_silent (set _)).1 traced
        obtain ⟨_, _, _, _, _, same⟩ := (records_eval rfl).1 rest
        cases same
  | cons first visits ih =>
      by_cases ends : L = .null
      · rw [foreachLoop, if_pos ends] at traced
        obtain ⟨_, _, _, rest⟩ := (traced_silent (set _)).1 traced
        exact (traced_done.1 rest).2.1.symm
      · rw [foreachLoop, if_neg ends] at traced
        obtain ⟨c, _, traced⟩ := records_load.1 traced
        obtain ⟨_, _, _, rest⟩ := (traced_silent (set _)).1 traced
        obtain ⟨_, _, _, _, later, same⟩ := (records_eval rfl).1 rest
        obtain ⟨rfl, rfl⟩ := List.cons.inj same
        obtain ⟨c, _, later⟩ := records_load.1 later
        exact ih ((records_call (c := .foreachLoop ctx sym c.cdr expr) rfl).1 later)

theorem foreach_ends {ctx params : Ptr}
    (traced : (runtime W).Traced within (blOperForeach ctx params) s visits r t) : r = nullVal := by
  obtain ⟨sym, _, _, traced⟩ := (traced_silent (silent_of_allows (allows_list_first _))).1 traced
  obtain ⟨L, _, first, second, _, traced, _⟩ := traced_bind.1 traced
  obtain ⟨expr, _, _, traced⟩ := (traced_silent (silent_of_allows (allows_list_third _))).1 traced
  exact foreach_loop_ends ((records_call (c := .foreachLoop ctx sym L expr) rfl).1 traced)

/-- The loop is left with the value of the body expression evaluated last. -/
theorem funcbody_loop_ends {func i : Ptr}
    (traced : (runtime W).Traced within (funcbodyLoop func i) s visits r t) :
    ∃ before last, visits = before ++ [last] ∧ siteOf last = some .funcBody ∧ valueOf last = r := by
  obtain ⟨n, short⟩ : ∃ n, visits.length < n := ⟨_, Nat.lt_succ_self _⟩
  induction n generalizing s visits i with
  | zero => exact absurd short (Nat.not_lt_zero _)
  | succ n ih =>
      obtain ⟨ic, _, turn⟩ := records_load.1 traced
      obtain ⟨f, _, turn⟩ := records_load.1 turn
      obtain ⟨inner, _, _, turn⟩ := (traced_silent (silent_of_allows (allows_member _))).1 turn
      obtain ⟨symval, _, first, second, _, choice, rfl⟩ := traced_bind.1 turn
      rw [List.length_append] at short
      split at choice
      · obtain ⟨e, _, choice⟩ := records_load.1 choice
        obtain ⟨args, _, rest, _, bound, rfl⟩ := (records_eval rfl).1 choice
        obtain ⟨_, _, ⟨i, rfl⟩, restart⟩ := traced_comes (restart_comes func inner args) bound
        have again := (records_call (c := .funcbody func i) rfl).1 restart
        rw [List.length_cons] at short
        obtain ⟨before, last, rfl, place, value⟩ := ih again (by omega)
        exact ⟨first ++ _ :: before, last, (List.append_assoc first (_ :: before) [last]).symm, place,
          value⟩
      · obtain ⟨retval, _, rest, _, next, rfl⟩ := (records_eval rfl).1 choice
        obtain ⟨ic, _, next⟩ := records_load.1 next
        split at next
        · obtain ⟨rfl, rfl, _⟩ := traced_done.1 next
          exact ⟨first, _, rfl, rfl, rfl⟩
        · have again := (records_call (c := .funcbody func ic.cdr) rfl).1 next
          rw [List.length_cons] at short
          obtain ⟨before, last, rfl, place, value⟩ := ih again (by omega)
          exact ⟨first ++ _ :: before, last, (List.append_assoc first (_ :: before) [last]).symm,
            place, value⟩

/-- How the evaluations of a form end: with the value of a body expression of a function,
at a place with a check or where errors may be, or with `None`. -/
inductive Ending (r : Ptr) (visits : List Evaluation) : Prop
  | body (before : List Evaluation) (last : Evaluation) (same : visits = before ++ [last])
      (place : siteOf last = some .funcBody) (value : orNull (valueOf last) = r)
  | checked (outside : ∀ visit ∈ visits, siteOf visit ≠ some .funcBody)
      (ends : ∀ before last site, visits = before ++ [last] → siteOf last = some site →
        checked site = true)
  | none_ (outside : ∀ visit ∈ visits, siteOf visit ≠ some .funcBody) (value : r = nullVal)

theorem outside_of_asks {sites : Site → Bool} {α : Type} {program : Prog α} {v : α}
    (asks : Allows (asksAt sites) program) (outside : sites .funcBody = false)
    (traced : (runtime W).Traced within program s visits v t) :
    ∀ visit ∈ visits, siteOf visit ≠ some .funcBody := by
  intro visit mem place
  have allowed := sites_of_trace asks traced mem place
  rw [outside] at allowed
  cases allowed

theorem ending_checked {α : Type} {program : Prog α} {v : α} (asks : Allows (asksAt checked) program)
    (traced : (runtime W).Traced within program s visits v t) (r : Ptr) : Ending r visits := by
  refine .checked (outside_of_asks asks rfl traced) fun before last site same place => ?_
  refine sites_of_trace asks traced ?_ place
  rw [same]
  exact List.mem_append_right _ List.mem_cons_self

theorem ending_append {first second : List Evaluation}
    (outside : ∀ visit ∈ first, siteOf visit ≠ some .funcBody) (some_ : second ≠ [])
    (ending : Ending r second) : Ending r (first ++ second) := by
  have whole (inner : ∀ visit ∈ second, siteOf visit ≠ some .funcBody) :
      ∀ visit ∈ first ++ second, siteOf visit ≠ some .funcBody := by
    intro visit mem
    rcases List.mem_append.1 mem with left | right
    · exact outside visit left
    · exact inner visit right
  cases ending with
  | body before last same place value =>
      subst same
      exact .body (first ++ before) last (List.append_assoc _ _ _).symm place value
  | checked inner ends =>
      refine .checked (whole inner) fun before last site same place => ?_
      rcases List.eq_nil_or_concat second with rfl | ⟨front, final, rfl⟩
      · exact absurd rfl some_
      · rw [List.concat_eq_append] at ends
        rw [List.concat_eq_append, ← List.append_assoc] at same
        obtain ⟨_, here⟩ := List.append_inj' same rfl
        cases here
        exact ends front _ site rfl place
  | none_ inner value => exact .none_ (whole inner) value

theorem eval_loop_ends {ctx expr : Ptr}
    (traced : (runtime W).Traced within (evalLoopBody ctx expr) s visits r t) : Ending r visits := by
  obtain ⟨n, short⟩ : ∃ n, visits.length < n := ⟨_, Nat.lt_succ_self _⟩
  induction n generalizing s visits ctx expr with
  | zero => exact absurd short (Nat.not_lt_zero _)
  | succ n ih =>
      obtain ⟨form, m, isForm, traced⟩ := traced_comes (eval_comes ctx expr) traced
      cases isForm with
      | value v => exact ending_checked (allows_pure v) traced r
      | list ctx expr =>
          exact ending_checked (allows_seq (allows_call (c := .evalConsLoop ctx expr .null .null) rfl)
            fun _ => allows_pure _) traced r
      | elements ctx i =>
          exact ending_checked (allows_seq (allows_call (c := .bodyLoop .doElement ctx i nullVal) rfl)
            fun _ => allows_pure _) traced r
      | oper ctx i =>
          refine ending_checked (allows_seq (allows_call (c := .bodyLoop .operBody ctx i nullVal) rfl)
            fun _ => ?_) traced r
          exact allows_seq (asks_op_at .leave) fun _ => allows_pure _
      | branch ctx expr =>
          obtain ⟨v, _, first, second, cond, rest, rfl⟩ := traced_bind.1 traced
          have asks : Allows (asksAt checked) (blEvalIf false ctx expr) :=
            eval_if_asks rfl rfl ctx expr
          obtain ⟨kind, _, _, rest⟩ := (traced_silent (silent_of_allows (allows_type_of v))).1 rest
          split at rest
          · obtain ⟨rfl, _, _⟩ := traced_done.1 rest
            rw [List.append_nil]
            exact ending_checked asks cond r
          · have again := (records_call (c := .evalLoop ctx v) rfl).1 rest
            rcases eq_or_ne second [] with rfl | some_
            · rw [List.append_nil]
              exact ending_checked asks cond r
            · refine ending_append (outside_of_asks asks rfl cond) some_ (ih again ?_)
              have begins : first ≠ [] := by
                rintro rfl
                rw [← Program.bind_done (blEvalIf false ctx expr), eval_if_cond] at cond
                obtain ⟨e, _, cond⟩ := records_load.1 cond
                obtain ⟨_, _, _, cond⟩ :=
                  (traced_silent (silent_of_allows (allows_list_first e.cdr))).1 cond
                obtain ⟨_, _, _, _, _, same⟩ := (records_eval rfl).1 cond
                cases same
              have longer := List.length_pos_iff.2 begins
              rw [List.length_append] at short
              omega
      | loop ctx expr cond =>
          have loop := (records_call (c := .whileLoop ctx expr cond) rfl).1 traced
          have asks : Allows (asksAt fun site => !inBody site) (whileLoop ctx expr cond) :=
            while_loop_asks rfl rfl ctx expr cond
          have outside := outside_of_asks asks rfl loop
          rcases while_loop_ends loop with value | ⟨before, last, rfl, place⟩
          · exact .none_ outside value
          · refine .checked outside fun before' last' site same place' => ?_
            obtain ⟨_, here⟩ := List.append_inj' same rfl
            cases here
            rw [place] at place'
            cases place'
            rfl
      | function ctx args rest body =>
          obtain ⟨v, m', after, _, rest, rfl⟩ := (records_eval rfl).1 traced
          obtain ⟨_, _, ⟨func, i, rfl⟩, run⟩ := traced_comes (body v) rest
          obtain ⟨retval, _, first, second, loop, last, rfl⟩ := traced_bind.1 run
          obtain ⟨_, _, _, last⟩ :=
            (traced_silent (silent_of_allows (allows_op .leave trivial))).1 last
          obtain ⟨rfl, value, _⟩ := traced_done.1 last
          obtain ⟨before, final, rfl, place, same⟩ :=
            funcbody_loop_ends ((records_call (c := .funcbody func i) rfl).1 loop)
          rw [List.append_nil]
          exact .body (evaluation .callArguments ctx args m v m' :: before) final rfl place
            (by rw [same, value])
      | foreach ctx params =>
          obtain ⟨retval, _, first, second, loop, last, rfl⟩ := traced_bind.1 traced
          obtain ⟨rfl, value, _⟩ := traced_done.1 last
          have loop := (records_call (c := .native (.builtin .foreach) ctx params) rfl).1 loop
          have asks : Allows (asksAt fun site => !inBody site) (blOperForeach ctx params) :=
            foreach_asks rfl rfl ctx params
          rw [List.append_nil]
          refine .none_ (outside_of_asks asks rfl loop) ?_
          rw [← value, foreach_ends loop]
          rfl

end Endings

section Propagation

variable {W : World} {s t : State} {ctx expr r : Ptr} {before visits later : List Evaluation}
  {visit : Evaluation}

theorem makes_grows {α : Type} {program : Prog α} {mode : Call → Mode}
    (made : (runtime W).Makes mode program s before visit) : Grows s visit.after := by
  induction made with
  | perform stepped _ ih => exact grows_trans (step_grows stepped) ih
  | inside _ _ ih => exact ih
  | enter _ called _ ih => exact grows_trans (runs_grows (runs_of_traced called)) ih
  | here _ called => exact runs_grows called
  | note _ called _ ih => exact grows_trans (runs_grows called) ih
  | pass _ called _ ih => exact grows_trans (runs_grows called) ih

/-- An error at a place with a check is the value of the form, which comes back at once. -/
theorem errors_stop (made : (runtime W).Makes within (evalBody ctx expr) s before visit) {site : Site}
    (place : siteOf visit = some site) (isChecked : checked site = true) (fails : Fails visit) :
    (runtime W).Traced within (evalBody ctx expr) s (before ++ [visit]) (valueOf visit)
      visit.after := by
  have stops : StopsOnError W (before.length + 1) (evalBody ctx expr) id :=
    stops_ite (stops_pure _ _) (stops_enter (c := .evalLoop ctx expr) rfl (eval_loop_stops ctx expr))
  exact stops s before visit site (Nat.lt_succ_self _) made place isChecked fails

theorem eval_ends (traced : (runtime W).Traced within (evalBody ctx expr) s visits r t) :
    Ending r visits := by
  rw [evalBody] at traced
  split at traced
  · exact ending_checked (allows_pure nullVal) traced r
  · exact eval_loop_ends ((records_call (c := .evalLoop ctx expr) rfl).1 traced)

/-- The value `None` is there in every state the runtime gets to. -/
theorem null_there (reachable : Reachable W s) : s.typeOf nullVal = some .null :=
  type_of_grows (sound_of_reachable reachable).statics rfl

theorem error_ends_iff (there : s.typeOf nullVal = some .null)
    (traced : (runtime W).Traced within (evalBody ctx expr) s (before ++ visit :: later) r t)
    {site : Site} (place : siteOf visit = some site) (fails : Fails visit) :
    later = [] ∧ valueOf visit = r ↔
      checked site = true ∨ site = .funcBody ∧ ∀ other ∈ later, siteOf other ≠ some .funcBody := by
  have made := makes_of_traced traced rfl
  constructor
  · rintro ⟨rfl, rfl⟩
    cases eval_ends traced with
    | body front last same final value =>
        obtain ⟨_, here⟩ := List.append_inj' same rfl
        cases here
        rw [place] at final
        cases final
        exact .inr ⟨rfl, fun _ mem => nomatch mem⟩
    | checked outside ends => exact .inl (ends before visit site rfl place)
    | none_ outside value =>
        have none_ := type_of_grows (makes_grows made) there
        rw [Fails, value, none_] at fails
        cases fails
  · rintro (isChecked | ⟨rfl, last_⟩)
    · obtain ⟨same, value, _⟩ := traced_functional traced (errors_stop made place isChecked fails)
      obtain ⟨_, rest⟩ := List.append_inj same rfl
      exact ⟨(List.cons.inj rest).2, value.symm⟩
    · cases eval_ends traced with
      | body front final same last value =>
          rcases List.eq_nil_or_concat later with rfl | ⟨others, other, rfl⟩
          · obtain ⟨_, here⟩ := List.append_inj' same rfl
            cases here
            rw [error_or_null fails] at value
            exact ⟨rfl, value⟩
          · rw [List.concat_eq_append, ← List.cons_append, ← List.append_assoc] at same
            obtain ⟨_, here⟩ := List.append_inj' same rfl
            cases here
            rw [List.concat_eq_append] at last_
            exact absurd last (last_ _ (List.mem_append_right _ List.mem_cons_self))
      | checked outside _ =>
          exact absurd place (outside visit (List.mem_append_right _ List.mem_cons_self))
      | none_ outside _ =>
          exact absurd place (outside visit (List.mem_append_right _ List.mem_cons_self))

/-- Errors are lost in the argument lists of functions, the conditions of `while`, the
expressions of `foreach`, the `if` that `bl_eval_funcbody` evaluates ahead and the body
expressions that another one follows; and nowhere else. -/
theorem errors_end_iff (there : s.typeOf nullVal = some .null) :
    (∀ visits r t, (runtime W).Traced within (evalBody ctx expr) s visits r t →
      (ErrorsEnd r visits ↔ ErrorsCovered visits)) ∧
    ∀ before visit site, (runtime W).Makes within (evalBody ctx expr) s before visit →
      siteOf visit = some site → checked site = true → Fails visit →
        (runtime W).Traced within (evalBody ctx expr) s (before ++ [visit]) (valueOf visit)
          visit.after := by
  refine ⟨fun visits r t traced => ⟨fun ends => ?_, fun covered => ?_⟩,
    fun before visit site made => errors_stop made⟩
  · intro before visit later site same place listed fails
    subst same
    exact (error_ends_iff there traced place fails).1 (ends before visit later site rfl place listed
      fails)
  · intro before visit later site same place listed fails
    subst same
    exact (error_ends_iff there traced place fails).2 (covered before visit later site rfl place
      listed fails)

/-- Builtin contexts, `f` a function of `x` with the body `5`, and the calls `(f y)` and
`(do y 5)`. -/
def errorForms : State where
  cells := State.initial.cells ++
    [{ type := .symbol, w0 := .str (text "f"), w1 := .ofNat 0 },
     { type := .symbol, w0 := .str (text "x"), w1 := .ofNat 1 },
     { type := .symbol, w0 := .str (text "y"), w1 := .ofNat 2 },
     .mkNumber 5, .mkCons (.ref 8) .null, .mkCons (.ref 10) .null,
     .mkCtx { Ctx.new 8 .null with
       keys := [.ref 7, .null, .null, .null, .null, .null, .null, .null]
       vals := [.ref 15, .null, .null, .null, .null, .null, .null, .null] },
     .mkCtx (.new 8 (.ref 13)),
     .mkClosure .funcBl (.ref 12) (.ref 11) (.ref 13) (.ref 14) (.ref 7) .null,
     .mkCons (.ref 9) .null, .mkCons (.ref 7) (.ref 16), { type := .operDo },
     .mkCons (.ref 9) (.ref 12), .mkCons (.ref 18) (.ref 19)]
  symbolTable := [⟨text "y", 9⟩, ⟨text "x", 8⟩, ⟨text "f", 7⟩]
  lastSymId := 3

/-- `(do y 5)` -/
theorem errors_end_iff_do : ∃ visit t,
    (runtime World.bare).Traced within (evalBody (.ref 13) (.ref 20)) errorForms [visit]
      (valueOf visit) t ∧ Fails visit ∧
    (ErrorsEnd (valueOf visit) [visit] ↔ ErrorsCovered [visit]) := by
  have there : errorForms.typeOf nullVal = some .null := rfl
  have made : ∃ m, (runtime World.bare).Makes within (evalBody (.ref 13) (.ref 20)) errorForms []
      (evaluation .doElement (.ref 13) (.ref 9) errorForms (.ref 21) m) ∧
      m.typeOf (.ref 21) = some .error :=
    ⟨_, .inside rfl (.perform rfl (.perform rfl (.perform rfl (.perform rfl (.inside rfl
      (.perform rfl (.here rfl ⟨9, rfl⟩))))))), rfl⟩
  obtain ⟨m, made, fails⟩ := made
  obtain ⟨ends, stops⟩ := @errors_end_iff World.bare errorForms (.ref 13) (.ref 20) there
  have traced := stops [] _ .doElement made rfl rfl fails
  exact ⟨_, _, traced, fails, ends _ _ _ traced⟩

/-- `(f y)`: the body runs although the argument is an error. -/
theorem argument_error_lost : ¬ ∀ (W : World) (ctx expr : Ptr) (s : State) (visits : List Evaluation)
    (r : Ptr) (t : State), s.typeOf nullVal = some .null →
      (runtime W).Traced within (evalBody ctx expr) s visits r t → ErrorsEnd r visits := by
  intro ends
  have call_ : ∃ m t, (runtime World.bare).Makes within (evalBody (.ref 13) (.ref 17)) errorForms []
        (evaluation .callArguments (.ref 13) (.ref 16) errorForms (.ref 21) m) ∧
      m.typeOf (.ref 21) = some .error ∧
      (runtime World.bare).Runs (evalBody (.ref 13) (.ref 17)) errorForms (.ref 10) t :=
    ⟨_, _, .inside rfl (.perform rfl (.perform rfl (.pass rfl ⟨9, rfl⟩ (.perform rfl (.perform rfl
      (.here rfl ⟨9, rfl⟩)))))), rfl, ⟨20, rfl⟩⟩
  obtain ⟨m, t, made, fails, run⟩ := call_
  obtain ⟨visits, traced⟩ := traced_of_runs within run
  obtain ⟨later, rfl⟩ := trace_of_makes made traced
  have lost := ends World.bare _ _ errorForms _ _ _ rfl traced [] _ later .callArguments rfl rfl rfl
    fails
  cases lost.2

end Propagation

end BearLang.ErrorPropagation
