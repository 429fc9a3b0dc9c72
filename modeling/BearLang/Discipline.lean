import BearLang.Runtime

/-!
# What code may hold

A discipline says which pointers a piece of code may hold and at which cells it
may link the list it is building. Code that keeps to it starts with good
pointers, and finds only good ones in good cells. So a set of cells that no good
cell points to stays out of reach, and no operation changes it.
-/

namespace BearLang

open CallPrograms Program

set_option autoImplicit false

structure Discipline where
  good : Ptr → Prop
  own : Ptr → Prop
  /-- the values that are known to be lists once they are read -/
  callable : Ptr → Prop := fun _ => True
  /-- whether lists may be linked at all -/
  links : Prop := True
  null : good .null
  wild : good .wild
  static : ∀ a, a < staticCells.length → good (.ref a)
  own_good : ∀ p, own p → good p

namespace Discipline

variable (D : Discipline)

structure Slots (c : Ctx) : Prop where
  keys : ∀ p ∈ c.keys, D.good p
  vals : ∀ p ∈ c.vals, D.good p
  parent : D.good c.parent

def Behind : Tail → Prop
  | .zeros => True
  | .closure lexical inner sym => D.good lexical ∧ D.good inner ∧ D.good sym
  | .ctx c => D.Slots c
  | .err e => D.good e.errSym ∧ D.good e.errVal

/-- All pointers in the cell are good. -/
structure Holds (c : Cell) : Prop where
  car : D.good c.car
  cdr : D.good c.cdr
  tail : D.Behind c.tail
  docstr : D.good c.docstr
  invokedSym : D.good c.invokedSym

/-- The last cell of the list under construction, if there is one yet. -/
def Last (p : Ptr) : Prop := p = .null ∨ D.own p

def allowedOp : Op → Prop
  | .load p => D.good p
  | .alloc c => D.Holds c
  | .setCdr site p q => D.good p ∧ D.good q ∧ (site = .build → D.own p) ∧
      (site = .noArguments → D.callable p)
  | .setIVal p _ => D.good p
  | .setInvoked p sym _ => D.good p ∧ D.good sym
  | .setInner p q => D.good p ∧ D.good q
  | .setWriteToParent p => D.good p
  | .setLine p _ => D.good p
  | .ctxVal ctx _ => D.good ctx
  | .ctxKey ctx _ => D.good ctx
  | .ctxStore ctx _ key val => D.good ctx ∧ D.good key ∧ D.good val
  | .mkSymbol _ => True
  | .write _ => True
  | .enterFunc func => D.good func
  | .enterOper oper => D.good oper
  | .startBody func => D.good func
  | .leave => True
  | .trap => True

def opAnswer : (op : Op) → op.Answer → Prop
  | .load p, c => D.Holds c ∧ (c.type = .cons → D.callable p)
  | .alloc _, p => D.good p ∧ (D.links → D.own p)
  | .ctxVal .., p => D.good p
  | .ctxKey .., p => D.good p
  | .mkSymbol _, p => D.good p
  | .setCdr .., _ => True
  | .setIVal .., _ => True
  | .setInvoked .., _ => True
  | .setInner .., _ => True
  | .setWriteToParent _, _ => True
  | .setLine .., _ => True
  | .ctxStore .., _ => True
  | .write _, _ => True
  | .enterFunc _, _ => True
  | .enterOper _, _ => True
  | .startBody _, _ => True
  | .leave, _ => True
  | .trap, _ => True

def allowedCall : Call → Prop
  | .eval _ ctx expr => D.good ctx ∧ D.good expr
  | .evalLoop ctx expr => D.good ctx ∧ D.good expr
  | .evalConsLoop ctx i start last => D.good ctx ∧ D.good i ∧ D.good start ∧ D.Last last
  | .bodyLoop _ ctx i retval => D.good ctx ∧ D.good i ∧ D.good retval
  | .whileLoop ctx expr cond => D.good ctx ∧ D.good expr ∧ D.good cond
  | .funcbody func i => D.good func ∧ D.good i
  | .setParams ctx names vals => D.good ctx ∧ D.good names ∧ D.good vals
  | .native _ ctx params => D.good ctx ∧ D.good params
  | .ctxGet ctx key => D.good ctx ∧ D.good key
  | .customGet _ ctx key => D.good ctx ∧ D.good key
  | .listLen i _ => D.good i
  | .lastCell L => D.good L
  | .reverseLoop L retval => D.good L ∧ D.good retval
  | .readForm _ => True
  | .readListLoop _ L => D.own L
  | .serSexp expr => D.good expr
  | .serLoop L _ => D.good L
  | .splitLoop _ _ retval => D.good retval
  | .joinLoop i _ _ => D.good i
  | .pmatchLoop S L => D.good S ∧ D.good L
  | .agetLoop _ L retval => D.good L ∧ D.good retval
  | .foreachLoop ctx sym L expr => D.good ctx ∧ D.good sym ∧ D.good L ∧ D.good expr
  | .filteredLoop ctx L items retval => D.good ctx ∧ D.good L ∧ D.good items ∧ D.good retval
  | .filteredInner ctx x I _ => D.good ctx ∧ D.good x ∧ D.good I
  | .tryLoop ctx tryResult i catchSym finallySym catchExpr finallyExpr =>
      D.good ctx ∧ D.good tryResult ∧ D.good i ∧ D.good catchSym ∧ D.good finallySym ∧
        D.good catchExpr ∧ D.good finallyExpr
  | .mapLoop func i last retval => D.good func ∧ D.good i ∧ D.Last last ∧ D.good retval
  | .mapBody func i j last retval =>
      D.good func ∧ D.good i ∧ D.good j ∧ D.Last last ∧ D.good retval
  | .addLists ctx L retval => D.good ctx ∧ D.good L ∧ D.good retval
  | .addSpread x retval => D.good x ∧ D.good retval
  | .addNumbers ctx L _ => D.good ctx ∧ D.good L
  | .addStrings ctx L _ => D.good ctx ∧ D.good L
  | .printLoop ctx i => D.good ctx ∧ D.good i
  | .pathLoop p _ => D.good p
  | .usingLoop ctx other _ => D.good ctx ∧ D.good other
  | .docLines L _ => D.good L
  | .modInit _ ctx => D.good ctx
  | .extensionLoop _ vars _ => ∀ p ∈ vars, D.good p
  | .compileAtom E => D.good E
  | .compileBody _ L => D.good L
  | .compileForms _ _ _ L => D.good L

def callAnswer : (c : Call) → c.Answer → Prop
  | .bodyLoop .., answer => D.good answer.2
  | .readForm _, answer => D.good answer.1
  | .setParams .., _ => True
  | .listLen .., _ => True
  | .readListLoop .., _ => True
  | .serSexp _, _ => True
  | .serLoop .., _ => True
  | .joinLoop .., _ => True
  | .filteredInner .., _ => True
  | .addNumbers .., _ => True
  | .addStrings .., _ => True
  | .printLoop .., _ => True
  | .pathLoop .., _ => True
  | .docLines .., _ => True
  | .compileAtom _, _ => True
  | .compileBody .., _ => True
  | .compileForms .., _ => True
  | .eval .., p => D.good p
  | .evalLoop .., p => D.good p
  | .evalConsLoop .., p => D.good p
  | .whileLoop .., p => D.good p
  | .funcbody .., p => D.good p
  | .native .., p => D.good p
  | .ctxGet .., p => D.good p
  | .customGet .., p => D.good p
  | .lastCell _, p => D.good p
  | .reverseLoop .., p => D.good p
  | .splitLoop .., p => D.good p
  | .pmatchLoop .., p => D.good p
  | .agetLoop .., p => D.good p
  | .foreachLoop .., p => D.good p
  | .filteredLoop .., p => D.good p
  | .tryLoop .., p => D.good p
  | .mapLoop .., p => D.good p
  | .mapBody .., p => D.good p
  | .addLists .., p => D.good p
  | .addSpread .., p => D.good p
  | .usingLoop .., p => D.good p
  | .modInit .., p => D.good p
  | .extensionLoop .., answer => ∀ p ∈ answer.1, D.good p

def contract : Contract bearLang := ⟨D.allowedOp, D.opAnswer, D.allowedCall, D.callAnswer⟩

end Discipline

/-- The program keeps to the discipline, and its result has the property. -/
def Safe (D : Discipline) {α : Type} (program : Prog α) (post : α → Prop) : Prop :=
  program.Meets D.contract post

/-- The code of extensions keeps to the discipline. -/
structure World.Disciplined (W : World) (D : Discipline) : Prop where
  oper : ∀ number ctx params, D.good ctx → D.good params → Safe D (W.oper number ctx params) D.good
  customGet : ∀ number ctx key, D.good ctx → D.good key → Safe D (W.customGet number ctx key) D.good
  modInit : ∀ number ctx, D.good ctx → Safe D (W.modInit number ctx) D.good
  loop : ∀ number vars buf, (∀ p ∈ vars, D.good p) →
    Safe D (W.loop number vars buf) fun answer => ∀ p ∈ answer.1, D.good p

variable {D : Discipline} {α β : Type}

section Cells

theorem holds_cons {car cdr : Ptr} (first : D.good car) (rest : D.good cdr) :
    D.Holds (.mkCons car cdr) where
  car := by rwa [Cell.mk_cons_car]
  cdr := by rwa [Cell.mk_cons_cdr]
  tail := trivial
  docstr := D.null
  invokedSym := D.null

/-- A cell whose words are no addresses and that has no further members. -/
theorem holds_plain {t : ValType} {w0 w1 : Word} (first : ∀ a, w0 ≠ .addr a)
    (second : ∀ a, w1 ≠ .addr a) : D.Holds { type := t, w0 := w0, w1 := w1 } := by
  have word : ∀ w : Word, (∀ a, w ≠ .addr a) → D.good w.ptr := by
    intro w plain
    cases w with
    | addr a => exact absurd rfl (plain a)
    | zero => exact D.null
    | _ => exact D.wild
  exact ⟨word w0 first, word w1 second, trivial, D.null, D.null⟩

theorem of_nat_no_addr (n : Nat) : ∀ a, Word.ofNat n ≠ .addr a := by
  intro a same
  unfold Word.ofNat at same
  split at same <;> cases same

theorem holds_number (i : Int) : D.Holds (.mkNumber i) :=
  holds_plain (by simp) (by simp)

theorem holds_str (s : CStr) : D.Holds (.mkStr s) := holds_plain (by simp) (by simp)

theorem holds_docstr (s : CStr) : D.Holds (.mkDocstr s) := holds_plain (by simp) (by simp)

theorem holds_type (t : ValType) : D.Holds (.mkType t) := holds_plain (of_nat_no_addr _) (by simp)

theorem of_nat_good (n : Nat) : D.good (Word.ofNat n).ptr := by
  unfold Word.ofNat
  split
  · exact D.null
  · exact D.wild

theorem holds_err {t : ErrType} {minArgs : Nat} {e : ErrInfo} (errSym : D.good e.errSym)
    (errVal : D.good e.errVal) : D.Holds (.mkErr t minArgs e) :=
  ⟨of_nat_good _, of_nat_good _, ⟨errSym, errVal⟩, D.null, D.null⟩

theorem holds_closure {t : ValType} {body params lexical inner sym docstr : Ptr}
    (goodBody : D.good body) (goodParams : D.good params) (goodLexical : D.good lexical)
    (goodInner : D.good inner) (goodSym : D.good sym) (goodDocstr : D.good docstr) :
    D.Holds (.mkClosure t body params lexical inner sym docstr) where
  car := by simpa [Cell.mkClosure, Cell.car] using goodBody
  cdr := by simpa [Cell.mkClosure, Cell.cdr] using goodParams
  tail := ⟨goodLexical, goodInner, goodSym⟩
  docstr := goodDocstr
  invokedSym := D.null

theorem holds_ctx_new {n : Nat} {parent : Ptr} (goodParent : D.good parent) :
    D.Holds (.mkCtx (.new n parent)) where
  car := D.null
  cdr := D.wild
  tail := by
    refine ⟨fun p mem => ?_, fun p mem => ?_, goodParent⟩
    · rw [(List.mem_replicate.1 mem).2]
      exact D.null
    · rw [(List.mem_replicate.1 mem).2]
      exact D.null
  docstr := D.null
  invokedSym := D.null

theorem slots_of_holds {c : Cell} {ctx : Ctx} (holds : D.Holds c) (member : c.asCtx = some ctx) :
    D.Slots ctx := by
  have tail := holds.tail
  unfold Cell.asCtx at member
  split at member
  · rename_i same
    cases member
    rw [same] at tail
    exact tail
  · cases member
    exact ⟨by simp, by simp, D.null⟩
  · split at member <;> cases member
    exact ⟨by simp, by simp, D.null⟩
  · cases member

theorem closure_of_holds {c : Cell} (holds : D.Holds c) :
    (∀ p, c.lexicalClosure = some p → D.good p) ∧ (∀ p, c.innerClosure = some p → D.good p) ∧
      ∀ p, c.sym = some p → D.good p := by
  have tail := holds.tail
  unfold Cell.lexicalClosure Cell.innerClosure Cell.sym
  cases same : c.tail with
  | closure lexical inner sym =>
      rw [same] at tail
      refine ⟨fun p found => ?_, fun p found => ?_, fun p found => ?_⟩
      · cases found
        exact tail.1
      · cases found
        exact tail.2.1
      · cases found
        exact tail.2.2
  | zeros => simp
  | ctx c => simp
  | err e => simp

theorem err_of_holds {c : Cell} (holds : D.Holds c) : D.good c.err.errSym ∧ D.good c.err.errVal := by
  have tail := holds.tail
  unfold Cell.err
  cases same : c.tail with
  | err e =>
      rw [same] at tail
      exact tail
  | zeros => exact ⟨D.null, D.null⟩
  | ctx c => exact ⟨D.null, D.null⟩
  | closure lexical inner sym => exact ⟨D.null, D.null⟩

theorem null_val_good : D.good nullVal := D.static 0 (by decide)
theorem true_val_good : D.good trueVal := D.static 1 (by decide)
theorem false_val_good : D.good falseVal := D.static 2 (by decide)

theorem bool_good (b : Bool) : D.good (blMkBool b) := by
  cases b
  · exact false_val_good
  · exact true_val_good

theorem or_null_good {p : Ptr} (good : D.good p) : D.good (orNull p) := by
  unfold orNull
  split
  · exact null_val_good
  · exact good

end Cells

section Rules

theorem safe_pure {value : α} {post : α → Prop} (holds : post value) :
    Safe D (pure value) post := holds

theorem safe_seq {program : Prog α} {f : α → Prog β} {middle : α → Prop} {post : β → Prop}
    (first : Safe D program middle) (rest : ∀ value, middle value → Safe D (f value) post) :
    Safe D (program >>= f) post := by
  rw [Safe, meets_bind]
  exact meets_mono first rest

theorem safe_weaken {program : Prog α} {strong weak : α → Prop} (safe : Safe D program strong)
    (implies : ∀ value, strong value → weak value) : Safe D program weak :=
  meets_mono safe implies

theorem safe_ite {c : Prop} [Decidable c] {yes no : Prog α} {post : α → Prop}
    (first : Safe D yes post) (second : Safe D no post) : Safe D (if c then yes else no) post := by
  split
  · exact first
  · exact second

theorem safe_branch {c : Prop} [Decidable c] {yes no : Prog α} {f : α → Prog β}
    {middle : α → Prop} {post : β → Prop} (first : Safe D yes middle) (second : Safe D no middle)
    (rest : ∀ value, middle value → Safe D (f value) post) :
    Safe D (if c then yes >>= f else no >>= f) post :=
  safe_ite (safe_seq first rest) (safe_seq second rest)

theorem safe_call {c : Call} (allowed : D.allowedCall c) : Safe D (call c) (D.callAnswer c) :=
  ⟨allowed, fun _ promised => promised⟩

theorem safe_load_list {p : Ptr} (good : D.good p) :
    Safe D (load p) fun c => D.Holds c ∧ (c.type = .cons → D.callable p) :=
  ⟨good, fun _ read => read⟩

theorem safe_load {p : Ptr} (good : D.good p) : Safe D (load p) D.Holds :=
  ⟨good, fun _ read => read.1⟩

theorem safe_alloc {c : Cell} (linking : D.links) (holds : D.Holds c) : Safe D (alloc c) D.own :=
  ⟨holds, fun _ made => made.2 linking⟩

theorem safe_alloc_good {c : Cell} (holds : D.Holds c) : Safe D (alloc c) D.good :=
  ⟨holds, fun _ made => made.1⟩

theorem safe_link {p q : Ptr} (own : D.own p) (good : D.good q) :
    Safe D (setCdr .build p q) fun _ => True :=
  ⟨⟨D.own_good p own, good, fun _ => own, nofun⟩, fun _ _ => trivial⟩

theorem safe_append_link {p q : Ptr} (goodCell : D.good p) (good : D.good q) :
    Safe D (setCdr .append p q) fun _ => True :=
  ⟨⟨goodCell, good, nofun, nofun⟩, fun _ _ => trivial⟩

theorem safe_no_arguments {p q : Ptr} (goodCell : D.good p) (good : D.good q)
    (callable : D.callable p) : Safe D (setCdr .noArguments p q) fun _ => True :=
  ⟨⟨goodCell, good, nofun, fun _ => callable⟩, fun _ _ => trivial⟩

theorem safe_set_i_val {p : Ptr} (good : D.good p) (i : Int) :
    Safe D (setIVal p i) fun _ => True := ⟨good, fun _ _ => trivial⟩

theorem safe_set_invoked {p sym : Ptr} (good : D.good p) (goodSym : D.good sym) (data : Nat) :
    Safe D (setInvoked p sym data) fun _ => True := ⟨⟨good, goodSym⟩, fun _ _ => trivial⟩

theorem safe_set_inner {p q : Ptr} (good : D.good p) (goodInner : D.good q) :
    Safe D (setInner p q) fun _ => True := ⟨⟨good, goodInner⟩, fun _ _ => trivial⟩

theorem safe_set_write_to_parent {p : Ptr} (good : D.good p) :
    Safe D (setWriteToParent p) fun _ => True := ⟨good, fun _ _ => trivial⟩

theorem safe_set_line {p : Ptr} (good : D.good p) (line : Nat) :
    Safe D (setLine p line) fun _ => True := ⟨good, fun _ _ => trivial⟩

theorem safe_ctx_val {ctx : Ptr} (good : D.good ctx) (id : Nat) : Safe D (ctxVal ctx id) D.good :=
  ⟨good, fun _ promised => promised⟩

theorem safe_ctx_key {ctx : Ptr} (good : D.good ctx) (id : Nat) : Safe D (ctxKey ctx id) D.good :=
  ⟨good, fun _ promised => promised⟩

theorem safe_ctx_store {ctx key val : Ptr} (good : D.good ctx) (goodKey : D.good key)
    (goodVal : D.good val) (id : Nat) : Safe D (ctxStore ctx id key val) fun _ => True :=
  ⟨⟨good, goodKey, goodVal⟩, fun _ _ => trivial⟩

theorem safe_mk_symbol (name : CStr) : Safe D (mkSymbol name) D.good :=
  ⟨trivial, fun _ promised => promised⟩

theorem safe_write (s : CStr) : Safe D (write s) fun _ => True := ⟨trivial, fun _ _ => trivial⟩

theorem safe_enter_func {func : Ptr} (good : D.good func) : Safe D (enterFunc func) fun _ => True :=
  ⟨good, fun _ _ => trivial⟩

theorem safe_enter_oper {oper : Ptr} (good : D.good oper) : Safe D (enterOper oper) fun _ => True :=
  ⟨good, fun _ _ => trivial⟩

theorem safe_start_body {func : Ptr} (good : D.good func) : Safe D (startBody func) fun _ => True :=
  ⟨good, fun _ _ => trivial⟩

theorem safe_leave : Safe D leave fun _ => True := ⟨trivial, fun _ _ => trivial⟩

theorem safe_trap (post : α → Prop) : Safe D trap post := ⟨trivial, fun none => nomatch none⟩

theorem safe_member {value : Option α} {post : α → Prop}
    (each : ∀ v, value = some v → post v) : Safe D (member value) post := by
  cases value with
  | none => exact safe_trap post
  | some v => exact each v rfl

theorem safe_member_any (value : Option α) : Safe D (member value) fun _ => True :=
  safe_member fun _ _ => trivial

theorem safe_eval {site : Site} {ctx expr : Ptr} (good : D.good ctx) (goodExpr : D.good expr) :
    Safe D (blEval site ctx expr) D.good :=
  ⟨⟨good, goodExpr⟩, fun _ promised => promised⟩

theorem safe_ctx_get {ctx key : Ptr} (good : D.good ctx) (goodKey : D.good key) :
    Safe D (blCtxGet ctx key) D.good :=
  ⟨⟨good, goodKey⟩, fun _ promised => promised⟩

theorem safe_ser_sexp {expr : Ptr} (good : D.good expr) :
    Safe D (blSerSexp expr) fun _ => True :=
  ⟨good, fun _ _ => trivial⟩

theorem safe_mk_str (s : CStr) : Safe D (mkStr s) D.good := safe_alloc_good (holds_str s)

theorem bare_disciplined (D : Discipline) : World.bare.Disciplined D where
  oper := fun _ _ _ _ _ => safe_trap _
  customGet := fun _ _ _ _ _ => safe_trap _
  modInit := fun _ _ _ => safe_trap _
  loop := fun _ _ _ _ => safe_trap _

end Rules

end BearLang
