import BearLang.EvaluatedValues
import BearLang.OperatorCalls
import BearLang.VariableLookup
import Mathlib.Data.List.Forall2

/-!
# The contents of a list, before and after its evaluation

Two values have the same contents when they are the same tree of atoms, wherever their
cells lie. A list that is evaluated gives a list of the values of its elements: the same
contents, exactly if every element of it has itself for its value.
-/

namespace BearLang.ListContents

open CallPrograms OperatorCalls EvaluatedValues

set_option autoImplicit false

section Contents

/-- The cells differ at most in what calls note in them. -/
structure SameMembers (c d : Cell) : Prop where
  type : d.type = c.type
  w0 : d.w0 = c.w0
  w1 : d.w1 = c.w1
  tail : d.tail = c.tail

/-- Everything that was there has its members. -/
structure Retains (s t : State) : Prop where
  cells : ∀ p c, s.cell p = some c → ∃ d, t.cell p = some d ∧ SameMembers c d
  table : t.symbolTable = s.symbolTable

/-- There are more cells, and nothing else has changed that a look-up reads. -/
structure Grown (s t : State) : Prop where
  cells : Extends s t
  table : t.symbolTable = s.symbolTable

/-- The cells below `k` and those from `n` on have their members. -/
def LaterCells (k n : Nat) (s t : State) : Prop :=
  ∀ a c, a < k ∨ n ≤ a → s.cell (.ref a) = some c → ∃ d, t.cell (.ref a) = some d ∧ SameMembers c d

/-- The value at `p` in `s` and the value at `q` in `t` have the same contents: atoms with
the same members, two empty lists, or lists whose elements do. -/
inductive SameValue (s t : State) : Ptr → Ptr → Prop
  | nothing : SameValue s t .null .null
  | atom {p q : Ptr} {c d : Cell} (known : s.cell p = some c) (held : t.cell q = some d)
      (plain : c.type ≠ .cons) (same : SameMembers c d) : SameValue s t p q
  | empty {p q : Ptr} (first : EmptyList s p) (second : EmptyList t q) : SameValue s t p q
  | link {p q : Ptr} {c d : Cell} (known : s.cell p = some c) (held : t.cell q = some d)
      (type : c.type = .cons) (type' : d.type = .cons) (filled : c.car ≠ .null)
      (car : SameValue s t c.car d.car) (cdr : SameValue s t c.cdr d.cdr) : SameValue s t p q

/-- The same value, or one with the same contents. -/
def Like (s t : State) (p q : Ptr) : Prop := p = q ∨ SameValue s t p q

variable {s t u : State} {c d e : Cell} {p q : Ptr}

theorem same_members_refl (c : Cell) : SameMembers c c := ⟨rfl, rfl, rfl, rfl⟩

theorem same_members_trans (first : SameMembers c d) (second : SameMembers d e) :
    SameMembers c e where
  type := second.type.trans first.type
  w0 := second.w0.trans first.w0
  w1 := second.w1.trans first.w1
  tail := second.tail.trans first.tail

theorem same_members_symm (same : SameMembers c d) : SameMembers d c where
  type := same.type.symm
  w0 := same.w0.symm
  w1 := same.w1.symm
  tail := same.tail.symm

theorem SameMembers.car (same : SameMembers c d) : d.car = c.car :=
  congrArg Word.ptr same.w0

theorem SameMembers.cdr (same : SameMembers c d) : d.cdr = c.cdr :=
  congrArg Word.ptr same.w1

theorem retains_refl (s : State) : Retains s s :=
  ⟨fun _ c known => ⟨c, known, same_members_refl c⟩, rfl⟩

theorem retains_trans (first : Retains s t) (second : Retains t u) : Retains s u := by
  refine ⟨fun p c known => ?_, second.table.trans first.table⟩
  rcases first.cells p c known with ⟨d, held, same⟩
  rcases second.cells p d held with ⟨e, found, same'⟩
  exact ⟨e, found, same_members_trans same same'⟩

theorem grown_refl (s : State) : Grown s s := ⟨extends_refl s, rfl⟩

theorem grown_trans (first : Grown s t) (second : Grown t u) : Grown s u :=
  ⟨extends_trans first.cells second.cells, second.table.trans first.table⟩

theorem grown_allocated (s : State) (c : Cell) : Grown s (s.allocated c) :=
  ⟨extends_allocated s c, rfl⟩

theorem retains_grown (grown : Grown s t) : Retains s t :=
  ⟨fun p c known => ⟨c, grown.cells p c known, same_members_refl c⟩, grown.table⟩

theorem fresh_le_of_retains (retained : Retains s t) : s.fresh ≤ t.fresh := by
  rcases Nat.lt_or_ge t.fresh s.fresh with less | more
  · have held : s.cell (.ref t.fresh) = some (s.cells.get ⟨t.fresh, less⟩) :=
      List.getElem?_eq_getElem less
    rcases retained.cells _ _ held with ⟨d, found, _⟩
    exact absurd (State.ref_lt_fresh found) (Nat.lt_irrefl _)
  · exact more

theorem later_of_retains (retained : Retains s t) (k n : Nat) : LaterCells k n s t :=
  fun a c _ known => retained.cells (.ref a) c known

theorem later_trans {k n : Nat} (first : LaterCells k n s t) (second : LaterCells k n t u) :
    LaterCells k n s u := by
  intro a c inside known
  rcases first a c inside known with ⟨d, held, same⟩
  rcases second a d inside held with ⟨e, found, same'⟩
  exact ⟨e, found, same_members_trans same same'⟩

theorem later_from {k n n' : Nat} (le : n ≤ n') (later : LaterCells k n s t) :
    LaterCells k n' s t := by
  intro a c inside known
  rcases inside with below | above
  · exact later a c (.inl below) known
  · exact later a c (.inr (Nat.le_trans le above)) known

theorem empty_same_members (same : SameMembers c d)
    (empty : (c.type = .null ∨ c.type = .cons) ∧ c.car = .null ∧ c.cdr = .null) :
    (d.type = .null ∨ d.type = .cons) ∧ d.car = .null ∧ d.cdr = .null := by
  rw [same.type, same.car, same.cdr]
  exact empty

theorem empty_retained (retained : Retains s t) (empty : EmptyList s p) : EmptyList t p := by
  rcases empty with ⟨c, known, facts⟩
  rcases retained.cells p c known with ⟨d, held, same⟩
  exact ⟨d, held, empty_same_members same facts⟩

theorem list_at_retained (retained : Retains s t) {xs : List Ptr} (list : ListAt s xs p) :
    ListAt t xs p := by
  refine list_at_kept (fun q c known => ?_) list
  rcases retained.cells q c known with ⟨d, held, same⟩
  exact ⟨d, held, same.type, same.w0, same.w1⟩

theorem same_value_symbol (known : s.cell p = some c) (type : c.type = .symbol)
    (same : SameValue s t p q) : ∃ d, t.cell q = some d ∧ SameMembers c d := by
  cases same with
  | nothing => cases known
  | atom known' held _ members =>
      rw [known] at known'
      cases known'
      exact ⟨_, held, members⟩
  | empty first =>
      rcases first with ⟨c', known', empty, _⟩
      rw [known] at known'
      cases known'
      rw [type] at empty
      rcases empty with none_ | isCons
      · cases none_
      · cases isCons
  | link known' _ isCons =>
      rw [known] at known'
      cases known'
      rw [type] at isCons
      cases isCons

theorem symbol_same_value (known : s.cell p = some c) (type : c.type = .symbol)
    (held : t.cell q = some d) (same : SameMembers c d) : SameValue s t p q := by
  refine .atom known held ?_ same
  rw [type]
  decide

theorem same_names_of_retains (retained : Retains s t) : SameNames s t where
  contexts := by
    intro p x known
    rcases Option.bind_eq_some_iff.1 known with ⟨c, held, member⟩
    rcases retained.cells p c held with ⟨d, found, same⟩
    rw [ctxAt, found, Option.bind_some, Cell.asCtx, same.tail]
    exact member
  symbols := by
    intro p c known _
    rcases retained.cells p c known with ⟨d, held, same⟩
    exact ⟨d, held, same.type, same.w0, same.w1⟩
  table := retained.table

/-- Lists with the same contents have as many elements, with the same contents. -/
theorem same_value_elements {xs ys : List Ptr} (same : SameValue s t p q) (list : ListAt s xs p)
    (filled : ∀ x ∈ xs, x ≠ .null) (list' : ListAt t ys q) :
    List.Forall₂ (SameValue s t) xs ys := by
  induction xs generalizing p q ys with
  | nil =>
      have none_ : p = .null := list
      subst none_
      have none' : q = .null := by
        cases same with
        | nothing => rfl
        | atom known => cases known
        | empty first =>
            rcases first with ⟨_, known, _⟩
            cases known
        | link known => cases known
      cases ys with
      | nil => exact .nil
      | cons y ys =>
          rcases list' with ⟨a, _, isRef, _⟩
          rw [none'] at isRef
          cases isRef
  | cons x xs ih =>
      rcases list with ⟨a, c, rfl, known, type, rfl, rest⟩
      have some_ := filled c.car List.mem_cons_self
      cases same with
      | atom found held plain =>
          rw [known] at found
          cases found
          exact absurd type plain
      | empty first =>
          rcases first with ⟨c', found, _, none_, _⟩
          rw [known] at found
          cases found
          exact absurd none_ some_
      | @link _ _ c' d found held _ _ _ car cdr =>
          rw [known] at found
          cases found
          cases ys with
          | nil =>
              have none_ : q = .null := list'
              rw [none_] at held
              cases held
          | cons y ys =>
              rcases list' with ⟨b, d', rfl, held', _, rfl, rest'⟩
              rw [held] at held'
              cases held'
              exact .cons car (ih cdr rest (fun x mem => filled x (List.mem_cons_of_mem _ mem)) rest')

theorem same_value_of_elements {xs ys : List Ptr} (list : ListAt s xs p) (list' : ListAt t ys q)
    (filled : ∀ x ∈ xs, x ≠ .null) (same : List.Forall₂ (SameValue s t) xs ys) :
    SameValue s t p q := by
  induction same generalizing p q with
  | nil =>
      have none_ : p = .null := list
      have none' : q = .null := list'
      rw [none_, none']
      exact .nothing
  | @cons x y xs ys first _ ih =>
      rcases list with ⟨a, c, rfl, known, type, rfl, rest⟩
      rcases list' with ⟨b, d, rfl, held, type', rfl, rest'⟩
      have later := ih rest rest' fun x mem => filled x (List.mem_cons_of_mem _ mem)
      exact .link known held type type' (filled _ List.mem_cons_self) first later

end Contents

section Elements

variable (W : World) (s : State) (ctx : Ptr)

/-- The types of the values that a list is a call of, when they stand at its head, and
the errors, which it is then. -/
def applied : List ValType :=
  [.error, .operNative, .operDo, .operIf, .operWhile, .funcBl, .operBl]

/-- Looking the symbol up gives `v`, now and as long as everything has its members. -/
def LooksUp (x v : Ptr) : Prop :=
  ∀ t, Retains s t → (runtime W).Runs (blCtxGet ctx x) t v t

/-- What the first element of a list is taken to be. -/
def HeadOf (h f : Ptr) : Prop :=
  ∃ c, s.cell h = some c ∧ ((c.type = .symbol ∧ LooksUp W s ctx h f) ∨ (c.type ≠ .symbol ∧ f = h))

/-- The expression calls nothing, and no value in it is an error: it is an atom, a symbol
with a value, or a list of such expressions that is no call. -/
inductive Settles : Ptr → Prop
  | atom {x : Ptr} {c : Cell} (known : s.cell x = some c)
      (type : c.type ∉ [ValType.cons, .symbol, .error]) : Settles x
  | symbol {x v : Ptr} {c d : Cell} (known : s.cell x = some c) (type : c.type = .symbol)
      (bound : LooksUp W s ctx x v) (value : s.cell v = some d) (noError : d.type ≠ .error) :
      Settles x
  | empty {x : Ptr} {c : Cell} (known : s.cell x = some c) (type : c.type = .cons)
      (none_ : c.car = .null) : Settles x
  | list {x h f : Ptr} {d : Cell} {xs : List Ptr} (elements : ListAt s (h :: xs) x)
      (head : HeadOf W s ctx h f) (value : s.cell f = some d) (noCall : d.type ∉ applied)
      (each : ∀ y ∈ h :: xs, Settles y) : Settles x

/-- The expression calls nothing, and every symbol in it has itself for its value. -/
inductive Inert : Ptr → Prop
  | atom {x : Ptr} {c : Cell} (known : s.cell x = some c)
      (type : c.type ∉ [ValType.cons, .symbol, .error]) : Inert x
  | symbol {x v : Ptr} {c : Cell} (known : s.cell x = some c) (type : c.type = .symbol)
      (bound : LooksUp W s ctx x v) (same : SameValue s s x v) : Inert x
  | empty {x : Ptr} {c : Cell} (known : s.cell x = some c) (type : c.type = .cons)
      (none_ : c.car = .null) (ended : c.cdr = .null) : Inert x
  | list {x h f : Ptr} {d : Cell} {xs : List Ptr} (elements : ListAt s (h :: xs) x)
      (head : HeadOf W s ctx h f) (value : s.cell f = some d) (noCall : d.type ∉ applied)
      (each : ∀ y ∈ h :: xs, Inert y) : Inert x

/-- An error whose first two words are numbers, as those of every error that is made. -/
def NumberedError (c : Cell) : Prop :=
  c.type = .error ∧ (∀ a, c.w0 ≠ .addr a) ∧ ∀ a, c.w1 ≠ .addr a

/-- The expression calls nothing before it comes to an error: an error value, or a symbol
without a value. The word is the one behind the kind of the error. -/
inductive Fails : Ptr → Word → Prop
  | atom {x : Ptr} {c : Cell} (known : s.cell x = some c) (isError : NumberedError c) :
      Fails x c.w1
  | unbound {x : Ptr} {c : Cell} {name : CStr} (known : s.cell x = some c)
      (type : c.type = .symbol) (named : c.sVal = some name) (nothing : LooksUp W s ctx x .null) :
      Fails x .zero
  | bound {x v : Ptr} {c d : Cell} (known : s.cell x = some c) (type : c.type = .symbol)
      (bound : LooksUp W s ctx x v) (value : s.cell v = some d) (isError : NumberedError d) :
      Fails x d.w1
  | first {x y : Ptr} {ys : List Ptr} {w : Word} (elements : ListAt s (y :: ys) x)
      (fails : Fails y w) : Fails x w
  | later {x h f y : Ptr} {d : Cell} {xs ys : List Ptr} {w : Word}
      (elements : ListAt s (h :: xs ++ y :: ys) x) (head : HeadOf W s ctx h f)
      (value : s.cell f = some d) (noCall : d.type ∉ applied)
      (settled : ∀ z ∈ h :: xs, Settles W s ctx z) (fails : Fails y w) : Fails x w

variable {W s ctx}

/-- A variable is looked up to the value it is bound to, and stays so. -/
theorem looks_up_named {x v : Ptr} {n id : Nat} (named : Names s ctx x n id v) :
    LooksUp W s ctx x v :=
  fun _ retained => ctx_get_named (names_kept (same_names_of_retains retained) named)

theorem looks_up_unique {x v w : Ptr} (first : LooksUp W s ctx x v) (second : LooksUp W s ctx x w) :
    v = w :=
  (runs_functional (first s (retains_refl s)) (second s (retains_refl s))).1

theorem settled_of_inert {x : Ptr} (inert : Inert W s ctx x) : Settles W s ctx x := by
  induction inert with
  | atom known type => exact .atom known type
  | @symbol x v c known type bound same =>
      rcases same_value_symbol known type same with ⟨d, held, members⟩
      refine .symbol known type bound held ?_
      rw [members.type, type]
      decide
  | empty known type none_ => exact .empty known type none_
  | list elements head value noCall _ ih => exact .list elements head value noCall ih

theorem settled_filled {x : Ptr} (settles : Settles W s ctx x) : x ≠ .null := by
  cases settles with
  | atom known => exact cell_ne_null known
  | symbol known => exact cell_ne_null known
  | empty known => exact cell_ne_null known
  | list elements =>
      rcases elements with ⟨_, _, _, known, _⟩
      exact cell_ne_null known

end Elements

section Evaluation

variable {W : World} {s base t u : State} {ctx x : Ptr} {site : Site}

/-- `v` is a value of the element `y`: it has the contents of `y` exactly if `y` is inert,
and what becomes of the cells between `s` and `n` does not matter to it. -/
structure Mirrors (W : World) (s : State) (ctx : Ptr) (n : Nat) (u : State) (y v : Ptr) : Prop where
  filled : v ≠ .null
  inert : ∀ u', LaterCells s.fresh n u u' → Like s u' y v → Inert W s ctx y
  same : ∀ u', LaterCells s.fresh n u u' → Inert W s ctx y → SameValue s u' y v

/-- The element is evaluated to a value of it that is no error, and nothing changes. -/
def Evaluated (W : World) (s : State) (ctx y : Ptr) : Prop :=
  ∀ t, Retains s t → ∃ v u d, (∀ site, (runtime W).Runs (blEval site ctx y) t v u) ∧ Grown t u ∧
    u.cell v = some d ∧ d.type ≠ .error ∧ Mirrors W s ctx t.fresh u y v

theorem mirrors_later {n n' : Nat} {y v : Ptr} (mirrors : Mirrors W s ctx n t y v)
    (le : n' ≤ n) (later : LaterCells s.fresh n t u) : Mirrors W s ctx n' u y v where
  filled := mirrors.filled
  inert := by
    intro u' further
    exact mirrors.inert u' (later_trans later (later_from le further))
  same := by
    intro u' further
    exact mirrors.same u' (later_trans later (later_from le further))

theorem elements_inert {n : Nat} {ys vs : List Ptr}
    (mirrors : List.Forall₂ (Mirrors W s ctx n t) ys vs) (later : LaterCells s.fresh n t u)
    (alike : List.Forall₂ (Like s u) ys vs) : ∀ y ∈ ys, Inert W s ctx y := by
  induction alike with
  | nil => simp
  | cons first _ ih =>
      cases mirrors with
      | cons here behind => exact List.forall_mem_cons.2 ⟨here.inert u later first, ih behind⟩

theorem elements_same {n : Nat} {ys vs : List Ptr}
    (mirrors : List.Forall₂ (Mirrors W s ctx n t) ys vs) (later : LaterCells s.fresh n t u)
    (each : ∀ y ∈ ys, Inert W s ctx y) : List.Forall₂ (SameValue s u) ys vs := by
  induction mirrors with
  | nil => exact .nil
  | cons here _ ih =>
      exact .cons (here.same u later (each _ List.mem_cons_self))
        (ih fun y mem => each y (List.mem_cons_of_mem _ mem))

theorem empty_evaluates {c : Cell} (known : t.cell x = some c) (type : c.type = .cons)
    (none_ : c.car = .null) (site : Site) : (runtime W).Runs (blEval site ctx x) t nullVal t := by
  refine runs_eval.2 ?_
  rw [evalBody, if_neg (cell_ne_null known)]
  refine runs_call (c := .evalLoop ctx x) ?_
  change (runtime W).Runs (evalLoopBody ctx x) t nullVal t
  rw [evalLoopBody, if_neg (cell_ne_null known), runs_after (runs_load known)]
  simp only [type]
  rw [if_pos none_]
  exact runs_pure_self _ _

theorem head_retained {h f : Ptr} (head : HeadOf W s ctx h f) (retained : Retains s t)
    (filled : f ≠ .null) : HeadValue W ctx h t f t := by
  rcases head with ⟨c, known, ⟨type, bound⟩ | ⟨type, rfl⟩⟩
  · rcases retained.cells h c known with ⟨d, held, same⟩
    exact .symbol held (same.type.trans type) (bound t retained) filled
  · rcases retained.cells f c known with ⟨d, held, same⟩
    refine .other held ?_
    rw [same.type]
    exact type

theorem list_evaluates {h f v : Ptr} {d : Cell} {xs : List Ptr} (list : ListAt s (h :: xs) x)
    (head : HeadOf W s ctx h f) (value : s.cell f = some d) (noCall : d.type ∉ applied)
    (retained : Retains s t) (run : (runtime W).Runs (blEvalCons ctx x) t v u) (filled : v ≠ .null)
    (site : Site) : (runtime W).Runs (blEval site ctx x) t v u := by
  rcases list_at_retained retained list with ⟨a, c, rfl, known, type, rfl, _⟩
  have isHead := head_retained head retained (cell_ne_null value)
  rcases retained.cells f d value with ⟨e, held, same⟩
  have given : (runtime W).Runs (do let retval ← blEvalCons ctx (.ref a); pure (orNull retval)) t v
      u := by
    rw [runs_after run, orNull, if_neg filled]
    exact runs_pure_self _ _
  rw [eval_runs_apply site known type isHead, evalApply, runs_after (runs_load held)]
  have other : e.type ∉ applied := by
    rw [same.type]
    exact noCall
  revert other
  cases e.type <;> intro other <;> first
    | exact given
    | exact absurd other (by decide)

/-- The loop of `bl_eval_cons` ends with the first error. -/
theorem eval_cons_error {i start last v : Ptr} {c d : Cell} (known : t.cell i = some c)
    (run : (runtime W).Runs (blEval .listElement ctx c.car) t v u) (value : u.cell v = some d)
    (isError : d.type = .error) : (runtime W).Runs (evalConsLoop ctx i start last) t v u := by
  rw [evalConsLoop, if_neg (cell_ne_null known), runs_after (runs_load known), runs_after run,
    runs_after (runs_type_of value), if_pos isError]
  exact runs_pure_self _ _

theorem collected_turn {i y v : Ptr} {a : Nat} {w : Ptr} {m : State} {ys : List Ptr}
    (list : ListAt s (y :: ys) i) (retained : Retains s base) (grown : Grown base m)
    (last : m.cell (.ref a) = some (.mkCons w .null)) (new : base.fresh ≤ a) :
    ∃ c, (m.collected (.ref a) v).cell i = some c ∧ ListAt s ys c.cdr ∧
      Grown base (m.collected (.ref a) v) ∧
      (m.collected (.ref a) v).cell (.ref a) = some (.mkCons w (.ref m.fresh)) ∧
      (m.collected (.ref a) v).cell (.ref m.fresh) = some (.mkCons v .null) ∧
      ∀ p e, p ≠ .ref a → m.cell p = some e → (m.collected (.ref a) v).cell p = some e := by
  have old : a < m.fresh := State.ref_lt_fresh last
  have collected := collected_behind last v
  have others : ∀ p e, p ≠ .ref a → m.cell p = some e →
      (m.collected (.ref a) v).cell p = some e := by
    intro p e other known
    rw [collected, State.cell_put_other other]
    exact State.cell_allocated_old known _
  have below : ∀ p e, base.cell p = some e → p ≠ .ref a := by
    intro p e known same
    rw [same] at known
    exact absurd (State.ref_lt_fresh known) (Nat.not_lt.2 new)
  rcases list with ⟨b, c, rfl, known, type, rfl, rest⟩
  rcases retained.cells _ c known with ⟨c', held, same⟩
  refine ⟨c', others _ _ (below _ _ held) (grown.cells _ _ held), ?_, ⟨?_, ?_⟩, ?_, ?_, others⟩
  · rw [same.cdr]
    exact rest
  · intro p e found
    exact others p e (below p e found) (grown.cells p e found)
  · rw [collected]
    exact grown.table
  · rw [collected]
    apply State.cell_put_same
    rw [State.fresh_allocated]
    exact Nat.lt_succ_of_lt old
  · rw [collected, State.cell_put_other fun same => Nat.ne_of_gt old (Ptr.ref.inj same)]
    exact State.cell_allocated_new m _

theorem loop_start {i y : Ptr} {ys : List Ptr} (list : ListAt s (y :: ys) i)
    (retained : Retains s t) : ∃ c, t.cell i = some c ∧ c.car = y := by
  rcases list with ⟨_, c, _, known, _, rfl, _⟩
  rcases retained.cells _ c known with ⟨d, held, same⟩
  exact ⟨d, held, same.car⟩

/-- The loop of `bl_eval_cons` behind its first element, as long as no element is an error. -/
theorem loop_mirrors {i start : Ptr} {a : Nat} {w : Ptr} {ys : List Ptr} (list : ListAt s ys i)
    (each : ∀ y ∈ ys, Evaluated W s ctx y) (retained : Retains s base) (grown : Grown base t)
    (last : t.cell (.ref a) = some (.mkCons w .null)) (new : base.fresh ≤ a)
    (started : start ≠ .null) :
    ∃ vs u, (runtime W).Runs (evalConsLoop ctx i start (.ref a)) t start u ∧ Grown base u ∧
      (∀ p e, p ≠ .ref a → t.cell p = some e → u.cell p = some e) ∧
      (∀ u', LaterCells s.fresh base.fresh u u' → ListAt u' (w :: vs) (.ref a)) ∧
      List.Forall₂ (Mirrors W s ctx base.fresh u) ys vs := by
  induction ys generalizing i t a w with
  | nil =>
      have none_ : i = .null := list
      refine ⟨[], t, ?_, grown, fun _ _ _ known => known, ?_, .nil⟩
      · rw [evalConsLoop, if_pos none_, if_neg started]
        exact runs_pure_self _ _
      · intro u' later
        rcases later a _ (.inr new) last with ⟨d, held, same⟩
        exact ⟨a, d, rfl, held, same.type, same.car.trans (Cell.mk_cons_car w .null),
          same.cdr.trans (Cell.mk_cons_cdr w .null)⟩
  | cons y ys ih =>
      have retained' : Retains s t := retains_trans retained (retains_grown grown)
      rcases loop_start list retained' with ⟨c, known, rfl⟩
      rcases each c.car List.mem_cons_self t retained' with ⟨v, m, d, run, grown', value, noError, mirrors⟩
      have last' : m.cell (.ref a) = some (.mkCons w .null) := grown'.cells _ _ last
      have old : a < t.fresh := State.ref_lt_fresh last
      have more : t.fresh ≤ m.fresh := fresh_le_of_retains (retains_grown grown')
      rcases collected_turn (v := v) list retained (grown_trans grown grown') last' new with
        ⟨c', known', rest, grown'', linked, made, others⟩
      have each' : ∀ z ∈ ys, Evaluated W s ctx z := fun z mem => each z (List.mem_cons_of_mem _ mem)
      have new' : base.fresh ≤ m.fresh := by omega
      rcases ih rest each' grown'' made new' with ⟨vs, u, run', grownAll, kept, cells, mirrored⟩
      have turn := eval_cons_turn start known (run .listElement) value noError
        (.inr ⟨a, w, rfl, last'⟩) known' (by rw [if_neg (by simp)]; exact run')
      have linked' : u.cell (.ref a) = some (.mkCons w (.ref m.fresh)) := by
        apply kept _ _ _ linked
        intro same
        exact absurd (Ptr.ref.inj same) (by omega)
      refine ⟨v :: vs, u, turn, grownAll, ?_, ?_, .cons ?_ mirrored⟩
      · intro p e other held
        have held' := grown'.cells p e held
        apply kept p e _ (others p e other held')
        intro same
        rw [same] at held
        exact absurd (State.ref_lt_fresh held) (by omega)
      · intro u' later
        rcases later a _ (.inr new) linked' with ⟨e, held, same⟩
        refine ⟨a, e, rfl, held, same.type, same.car.trans (Cell.mk_cons_car w _), ?_⟩
        rw [same.cdr, Cell.mk_cons_cdr]
        exact cells u' later
      · apply mirrors_later mirrors
        · exact fresh_le_of_retains (retains_grown grown)
        · -- the cells of the value are no cells of the list that is made
          intro b e inside held
          have bound := State.ref_lt_fresh held
          have before := fresh_le_of_retains retained
          have apart : b ≠ a := by omega
          have kept' := others _ _ (fun same => apart (Ptr.ref.inj same)) held
          refine ⟨e, kept _ _ (fun same => ?_) kept', same_members_refl e⟩
          exact absurd (Ptr.ref.inj same) (Nat.ne_of_lt bound)

/-- The value of a list that is no call and has no error in it: a new list of the values. -/
theorem list_mirrored {h f : Ptr} {d : Cell} {xs : List Ptr} (list : ListAt s (h :: xs) x)
    (head : HeadOf W s ctx h f) (value : s.cell f = some d) (noCall : d.type ∉ applied)
    (each : ∀ y ∈ h :: xs, Evaluated W s ctx y) (retained : Retains s t) :
    ∃ a v vs u, (∀ site, (runtime W).Runs (blEval site ctx x) t (.ref a) u) ∧ Grown t u ∧
      t.fresh ≤ a ∧ (∀ u', LaterCells s.fresh t.fresh u u' → ListAt u' (v :: vs) (.ref a)) ∧
      List.Forall₂ (Mirrors W s ctx t.fresh u) (h :: xs) (v :: vs) := by
  rcases loop_start list retained with ⟨c, known, rfl⟩
  rcases each c.car List.mem_cons_self t retained with ⟨v, m, e, run, grown, held, noError, mirrors⟩
  have more : t.fresh ≤ m.fresh := fresh_le_of_retains (retains_grown grown)
  have known' : (m.collected .null v).cell x = some c := by
    rw [collected_first]
    exact State.cell_allocated_old (grown.cells _ _ known) _
  have made : (m.collected .null v).cell (.ref m.fresh) = some (.mkCons v .null) :=
    State.cell_allocated_new m _
  have rest : ListAt s xs c.cdr := by
    rcases list with ⟨_, c', _, found, _, _, rest⟩
    rcases retained.cells _ c' found with ⟨d', held', same⟩
    rw [known] at held'
    cases held'
    rw [same.cdr]
    exact rest
  have grown' : Grown t (m.collected .null v) := grown_trans grown (grown_allocated m _)
  have each' : ∀ y ∈ xs, Evaluated W s ctx y := fun y mem => each y (List.mem_cons_of_mem _ mem)
  have started : Ptr.ref m.fresh ≠ .null := by simp
  rcases loop_mirrors rest each' retained grown' made more started with
    ⟨vs, u, run', grownAll, kept, cells, mirrored⟩
  have turn := eval_cons_turn .null known (run .listElement) held noError (.inl rfl) known'
    (by rw [if_pos rfl]; exact run')
  have given : (runtime W).Runs (blEvalCons ctx x) t (.ref m.fresh) u := by
    rw [blEvalCons, if_neg (cell_ne_null known)]
    exact runs_call (c := .evalConsLoop ctx x .null .null) turn
  refine ⟨m.fresh, v, vs, u, list_evaluates list head value noCall retained given started, grownAll,
    more, cells, .cons ?_ mirrored⟩
  apply mirrors_later mirrors (Nat.le_refl _)
  intro b e inside held
  have kept' : (m.collected .null v).cell (.ref b) = some e := by
    rw [collected_first]
    exact State.cell_allocated_old held _
  refine ⟨e, kept _ _ (fun same => ?_) kept', same_members_refl e⟩
  exact absurd (Ptr.ref.inj same) (Nat.ne_of_lt (State.ref_lt_fresh held))

theorem mirrors_here {c : Cell} (retained : Retains s t) (known : s.cell x = some c)
    (type : c.type ∉ [ValType.cons, .symbol, .error]) : Mirrors W s ctx t.fresh t x x where
  filled := cell_ne_null known
  inert _ _ _ := .atom known type
  same := by
    intro u' later _
    rcases retained.cells x c known with ⟨d, held, same⟩
    obtain ⟨a, rfl⟩ := State.ref_of_cell known
    rcases later a d (.inl (State.ref_lt_fresh known)) held with ⟨e, found, same'⟩
    refine .atom known found ?_ (same_members_trans same same')
    intro isCons
    rw [isCons] at type
    exact type (by decide)

theorem inert_symbol {c : Cell} (known : s.cell x = some c) (type : c.type = .symbol)
    (inert : Inert W s ctx x) : ∃ v, LooksUp W s ctx x v ∧ SameValue s s x v := by
  cases inert with
  | atom known' type' =>
      rw [known] at known'
      cases known'
      rw [type] at type'
      exact absurd type' (by decide)
  | symbol _ _ bound same => exact ⟨_, bound, same⟩
  | empty known' type' =>
      rw [known] at known'
      cases known'
      rw [type] at type'
      cases type'
  | list elements =>
      rcases elements with ⟨_, c', _, known', type', _⟩
      rw [known] at known'
      cases known'
      rw [type] at type'
      cases type'

/-- The value of a symbol has its contents exactly if it is that symbol. -/
theorem mirrors_symbol {v : Ptr} {c d : Cell} (retained : Retains s t) (known : s.cell x = some c)
    (type : c.type = .symbol) (bound : LooksUp W s ctx x v) (value : s.cell v = some d) :
    Mirrors W s ctx t.fresh t x v := by
  have later (u' : State) (later : LaterCells s.fresh t.fresh t u') :
      ∃ e, u'.cell v = some e ∧ SameMembers d e := by
    rcases retained.cells v d value with ⟨d', held, same⟩
    obtain ⟨a, rfl⟩ := State.ref_of_cell value
    rcases later a d' (.inl (State.ref_lt_fresh value)) held with ⟨e, found, same'⟩
    exact ⟨e, found, same_members_trans same same'⟩
  refine ⟨cell_ne_null value, fun u' further alike => .symbol known type bound ?_,
    fun u' further inert => ?_⟩
  · rcases alike with rfl | alike
    · exact symbol_same_value known type known (same_members_refl c)
    · rcases later u' further with ⟨e, found, members⟩
      rcases same_value_symbol known type alike with ⟨e', found', members'⟩
      rw [found] at found'
      cases found'
      exact symbol_same_value known type value
        (same_members_trans members' (same_members_symm members))
  · rcases inert_symbol known type inert with ⟨v', bound', same⟩
    rw [← looks_up_unique bound bound'] at same
    rcases same_value_symbol known type same with ⟨d', value', members⟩
    rw [value] at value'
    cases value'
    rcases later u' further with ⟨e, found, members'⟩
    exact symbol_same_value known type found (same_members_trans members members')

theorem mirrors_empty {c : Cell} (none_ : EmptyList s nullVal) (retained : Retains s t)
    (known : s.cell x = some c) (type : c.type = .cons) (noElement : c.car = .null) :
    Mirrors W s ctx t.fresh t x nullVal := by
  have empty (u' : State) (later : LaterCells s.fresh t.fresh t u') : EmptyList u' nullVal := by
    rcases empty_retained retained none_ with ⟨d, held, facts⟩
    rcases none_ with ⟨_, here, _⟩
    rcases later 0 d (.inl (State.ref_lt_fresh here)) held with ⟨e, found, same⟩
    exact ⟨e, found, empty_same_members same facts⟩
  refine ⟨null_val_ne_null, fun u' later alike => ?_, fun u' later inert => ?_⟩
  · have first : EmptyList s x := by
      rcases alike with rfl | alike
      · exact none_
      · cases alike with
        | atom known' _ plain =>
            rw [known] at known'
            cases known'
            exact absurd type plain
        | empty first => exact first
        | link known' _ _ _ filled =>
            rw [known] at known'
            cases known'
            exact absurd noElement filled
    rcases first with ⟨c', known', _, _, ended⟩
    rw [known] at known'
    cases known'
    exact .empty known type noElement ended
  · cases inert with
    | atom known' type' =>
        rw [known] at known'
        cases known'
        rw [type] at type'
        exact absurd type' (by decide)
    | symbol known' type' =>
        rw [known] at known'
        cases known'
        rw [type] at type'
        cases type'
    | empty known' _ _ ended =>
        rw [known] at known'
        cases known'
        exact .empty ⟨c, known, .inr type, noElement, ended⟩ (empty u' later)
    | list elements _ _ _ each =>
        rcases elements with ⟨_, c', _, known', _, isHead, _⟩
        rw [known] at known'
        cases known'
        have filled := settled_filled (settled_of_inert (each _ List.mem_cons_self))
        exact absurd (isHead.symm.trans noElement) filled

theorem mirrors_list {h f v : Ptr} {d : Cell} {xs vs : List Ptr} {a : Nat}
    (list : ListAt s (h :: xs) x) (head : HeadOf W s ctx h f) (value : s.cell f = some d)
    (noCall : d.type ∉ applied) (each : ∀ y ∈ h :: xs, Settles W s ctx y)
    (retained : Retains s t) (new : t.fresh ≤ a)
    (cells : ∀ u', LaterCells s.fresh t.fresh u u' → ListAt u' (v :: vs) (.ref a))
    (mirrors : List.Forall₂ (Mirrors W s ctx t.fresh u) (h :: xs) (v :: vs)) :
    Mirrors W s ctx t.fresh u x (.ref a) := by
  have filled : ∀ y ∈ h :: xs, y ≠ .null := fun y mem => settled_filled (each y mem)
  refine ⟨by simp, fun u' later alike => ?_, fun u' later inert => ?_⟩
  · refine .list list head value noCall ?_
    apply elements_inert mirrors later
    rcases alike with rfl | alike
    · -- the new list is none of the old cells
      rcases list with ⟨b, _, same, known, _⟩
      have bound := State.ref_lt_fresh known
      exact absurd (fresh_le_of_retains retained) (by omega)
    · exact (same_value_elements alike list filled (cells u' later)).imp fun _ _ same => .inr same
  · have inside : ∀ y ∈ h :: xs, Inert W s ctx y := by
      cases inert with
      | atom known' type' =>
          rcases list with ⟨_, c, _, known, type, _⟩
          rw [known] at known'
          cases known'
          rw [type] at type'
          exact absurd type' (by decide)
      | symbol known' type' =>
          rcases list with ⟨_, c, _, known, type, _⟩
          rw [known] at known'
          cases known'
          rw [type] at type'
          cases type'
      | empty known' _ noElement =>
          rcases list with ⟨_, c, _, known, _, isHead, _⟩
          rw [known] at known'
          cases known'
          exact absurd (isHead.symm.trans noElement) (filled h List.mem_cons_self)
      | list elements _ _ _ each' =>
          have same := list_at_unique list elements
          rw [same]
          exact each'
    exact same_value_of_elements list (cells u' later) filled (elements_same mirrors later inside)

theorem settled_evaluated (none_ : EmptyList s nullVal) (settles : Settles W s ctx x) :
    Evaluated W s ctx x := by
  induction settles with
  | @atom x c known type =>
      intro t retained
      rcases retained.cells x c known with ⟨d, held, same⟩
      have noCode : d.type ∉ [ValType.cons, .symbol] := by
        rw [same.type]
        exact fun mem => type (List.mem_append_left [ValType.error] mem)
      have noError : d.type ≠ .error := by
        rw [same.type]
        rintro isError
        rw [isError] at type
        exact type (by decide)
      exact ⟨x, t, d, atom_evaluates held noCode, grown_refl t, held, noError,
        mirrors_here retained known type⟩
  | @symbol x v c d known type bound value noError =>
      intro t retained
      rcases retained.cells x c known with ⟨c', held, same⟩
      rcases retained.cells v d value with ⟨d', held', same'⟩
      refine ⟨v, t, d', fun site => ?_, grown_refl t, held', ?_,
        mirrors_symbol retained known type bound value⟩
      · exact eval_symbol_runs held (same.type.trans type) (bound t retained) (cell_ne_null value)
      · rw [same'.type]
        exact noError
  | @empty x c known type noElement =>
      intro t retained
      rcases retained.cells x c known with ⟨c', held, same⟩
      rcases empty_retained retained none_ with ⟨d, found, isNull, _⟩
      refine ⟨nullVal, t, d, empty_evaluates held (same.type.trans type) (same.car.trans noElement),
        grown_refl t, found, ?_, mirrors_empty none_ retained known type noElement⟩
      rcases isNull with isNull | isNull <;> rw [isNull] <;> decide
  | @list x h f d xs elements head value noCall each ih =>
      intro t retained
      rcases list_mirrored elements head value noCall ih retained with
        ⟨a, v, vs, u, run, grown, new, cells, mirrors⟩
      rcases cells u (later_of_retains (retains_refl u) _ _) with ⟨b, c, same, held, type, _⟩
      refine ⟨.ref a, u, c, run, grown, held, ?_,
        mirrors_list elements head value noCall each retained new cells mirrors⟩
      rw [type]
      decide

end Evaluation

section Errors

variable {W : World} {s base t u : State} {ctx x : Ptr} {w : Word}

/-- The evaluation comes to an error with this word behind its kind, and nothing changes. -/
def ComesToError (W : World) (s : State) (ctx x : Ptr) (w : Word) : Prop :=
  ∀ t, Retains s t → ∃ v u d, (∀ site, (runtime W).Runs (blEval site ctx x) t v u) ∧ Grown t u ∧
    u.cell v = some d ∧ NumberedError d ∧ d.w1 = w

theorem numbered_same {c d : Cell} (same : SameMembers c d) (isError : NumberedError c) :
    NumberedError d := by
  rw [NumberedError, same.type, same.w0, same.w1]
  exact isError

theorem numbered_made (kind : ErrType) (n : Nat) (info : ErrInfo) :
    NumberedError (.mkErr kind n info) := by
  have number (k a : Nat) : Word.ofNat k ≠ .addr a := by
    rw [Word.ofNat]
    split <;> simp
  exact ⟨rfl, number kind.code, number n⟩

theorem loop_fails (start : Ptr) {i y z : Ptr} {a : Nat} {xs ys : List Ptr}
    (list : ListAt s (xs ++ y :: ys) i) (each : ∀ x ∈ xs, Evaluated W s ctx x)
    (fails : ComesToError W s ctx y w) (retained : Retains s base) (grown : Grown base t)
    (last : t.cell (.ref a) = some (.mkCons z .null)) (new : base.fresh ≤ a) :
    ∃ v u d, (runtime W).Runs (evalConsLoop ctx i start (.ref a)) t v u ∧ Grown base u ∧
      u.cell v = some d ∧ NumberedError d ∧ d.w1 = w := by
  induction xs generalizing i t a z with
  | nil =>
      have retained' : Retains s t := retains_trans retained (retains_grown grown)
      rcases loop_start list retained' with ⟨c, known, rfl⟩
      rcases fails t retained' with ⟨v, u, d, run, grown', value, isError, word⟩
      exact ⟨v, u, d, eval_cons_error known (run _) value isError.1, grown_trans grown grown', value,
        isError, word⟩
  | cons x xs ih =>
      have retained' : Retains s t := retains_trans retained (retains_grown grown)
      rcases loop_start list retained' with ⟨c, known, rfl⟩
      rcases each c.car List.mem_cons_self t retained' with ⟨v, m, d, run, grown', value, noError, _⟩
      have last' : m.cell (.ref a) = some (.mkCons z .null) := grown'.cells _ _ last
      have more : t.fresh ≤ m.fresh := fresh_le_of_retains (retains_grown grown')
      have old : a < t.fresh := State.ref_lt_fresh last
      rcases collected_turn (v := v) list retained (grown_trans grown grown') last' new with
        ⟨c', known', rest, grown'', _, made, _⟩
      have each' : ∀ x ∈ xs, Evaluated W s ctx x := fun x mem => each x (List.mem_cons_of_mem _ mem)
      rcases ih rest each' grown'' made (by omega) with ⟨r, u, e, run', grownAll, held, facts⟩
      refine ⟨r, u, e, eval_cons_turn start known (run _) value noError (.inr ⟨a, z, rfl, last'⟩)
        known' ?_, grownAll, held, facts⟩
      rw [if_neg (by simp)]
      exact run'

/-- A list that is no call comes to the error that its first failing element comes to. -/
theorem list_fails {h f y : Ptr} {d : Cell} (xs : List Ptr) {ys zs : List Ptr}
    (split : h :: zs = xs ++ y :: ys) (list : ListAt s (h :: zs) x)
    (head : HeadOf W s ctx h f) (value : s.cell f = some d)
    (noCall : d.type ∉ applied) (each : ∀ z ∈ xs, Evaluated W s ctx z)
    (fails : ComesToError W s ctx y w) : ComesToError W s ctx x w := by
  intro t retained
  have given : ∃ v u e, (runtime W).Runs (blEvalCons ctx x) t v u ∧ Grown t u ∧ u.cell v = some e ∧
      NumberedError e ∧ e.w1 = w := by
    rcases loop_start list retained with ⟨c, known, rfl⟩
    cases xs with
    | nil =>
        cases split
        rcases fails t retained with ⟨v, u, e, run, grown, held, isError, word⟩
        refine ⟨v, u, e, ?_, grown, held, isError, word⟩
        rw [blEvalCons, if_neg (cell_ne_null known)]
        exact runs_call (c := .evalConsLoop ctx x .null .null)
          (eval_cons_error known (run _) held isError.1)
    | cons x' xs =>
        cases split
        rcases each c.car List.mem_cons_self t retained with ⟨v, m, e, run, grown, held, noError, _⟩
        have known' : (m.collected .null v).cell x = some c := by
          rw [collected_first]
          exact State.cell_allocated_old (grown.cells _ _ known) _
        have rest : ListAt s (xs ++ y :: ys) c.cdr := by
          rcases list with ⟨_, c', _, found, _, _, rest⟩
          rcases retained.cells _ c' found with ⟨d', held', same⟩
          rw [known] at held'
          cases held'
          rw [same.cdr]
          exact rest
        have each' : ∀ z ∈ xs, Evaluated W s ctx z :=
          fun z mem => each z (List.mem_cons_of_mem _ mem)
        rcases loop_fails (.ref m.fresh) rest each' fails retained
            (grown_trans grown (grown_allocated m _)) (State.cell_allocated_new m (.mkCons v .null))
            (fresh_le_of_retains (retains_grown grown)) with ⟨r, u, e', run', grown', held', facts⟩
        refine ⟨r, u, e', ?_, grown', held', facts⟩
        rw [blEvalCons, if_neg (cell_ne_null known)]
        refine runs_call (c := .evalConsLoop ctx x .null .null) ?_
        refine eval_cons_turn .null known (run _) held noError (.inl rfl) known' ?_
        rw [if_pos rfl]
        exact run'
  rcases given with ⟨v, u, e, run, grown, held, facts⟩
  exact ⟨v, u, e, list_evaluates list head value noCall retained run (cell_ne_null held), grown, held,
    facts⟩

theorem error_head {h f : Ptr} {d : Cell} {xs : List Ptr} (list : ListAt s (h :: xs) x)
    (head : HeadOf W s ctx h f) (value : s.cell f = some d) (isError : NumberedError d) :
    ComesToError W s ctx x d.w1 := by
  intro t retained
  rcases list_at_retained retained list with ⟨a, c, rfl, known, type, rfl, _⟩
  rcases retained.cells f d value with ⟨e, held, same⟩
  have isError' : NumberedError e := numbered_same same isError
  refine ⟨f, t, e, fun site => ?_, grown_refl t, held, isError', same.w1⟩
  rw [eval_runs_apply site known type (head_retained head retained (cell_ne_null value)), evalApply,
    runs_after (runs_load held)]
  simp only [isError'.1]
  exact runs_pure_self _ _

theorem unbound_head {h : Ptr} {c : Cell} {name : CStr} {xs : List Ptr}
    (list : ListAt s (h :: xs) x) (known : s.cell h = some c) (type : c.type = .symbol)
    (named : c.sVal = some name) (nothing : LooksUp W s ctx h .null) :
    ComesToError W s ctx x .zero := by
  intro t retained
  rcases list_at_retained retained list with ⟨a, e, rfl, held, isCons, rfl, _⟩
  rcases retained.cells _ c known with ⟨d, found, same⟩
  have named' : d.sVal = some name := by
    rw [Cell.sVal, same.w0]
    exact named
  refine ⟨.ref t.fresh, _, _, fun site => ?_, grown_allocated t _, State.cell_allocated_new t
    (.mkErr .symbolNotFound 0 { symbolName := some name }), numbered_made _ _ _, rfl⟩
  refine runs_eval.2 ?_
  rw [evalBody, if_neg (by simp)]
  refine runs_call (c := .evalLoop ctx (.ref a)) ?_
  change (runtime W).Runs (evalLoopBody ctx (.ref a)) t _ _
  rw [evalLoopBody, if_neg (by simp), runs_after (runs_load held)]
  simp only [isCons]
  rw [if_neg (cell_ne_null known), runs_after (runs_load found),
    if_pos (same.type.trans type), runs_after (nothing t retained), if_pos rfl,
    runs_after (runs_member named' t), blErrSymnotfound]
  exact runs_alloc _ t

theorem atom_fails {c : Cell} (known : s.cell x = some c) (isError : NumberedError c) :
    ComesToError W s ctx x c.w1 := by
  intro t retained
  rcases retained.cells x c known with ⟨d, held, same⟩
  have noCode : d.type ∉ [ValType.cons, .symbol] := by
    rw [same.type, isError.1]
    decide
  exact ⟨x, t, d, atom_evaluates held noCode, grown_refl t, held, numbered_same same isError, same.w1⟩

theorem fails_evaluated (none_ : EmptyList s nullVal) (fails : Fails W s ctx x w) :
    ComesToError W s ctx x w := by
  induction fails with
  | atom known type => exact atom_fails known type
  | @unbound x c name known type named nothing =>
      intro t retained
      rcases retained.cells x c known with ⟨d, held, same⟩
      have named' : d.sVal = some name := by
        rw [Cell.sVal, same.w0]
        exact named
      exact ⟨_, _, _, unbound_evaluates held (same.type.trans type) named' (nothing t retained),
        grown_allocated t _, State.cell_allocated_new t _, numbered_made _ _ _, rfl⟩
  | @bound x v c d known type bound value isError =>
      intro t retained
      rcases retained.cells x c known with ⟨c', held, same⟩
      rcases retained.cells v d value with ⟨d', held', same'⟩
      exact ⟨v, t, d', fun site => eval_symbol_runs held (same.type.trans type) (bound t retained)
        (cell_ne_null value), grown_refl t, held', numbered_same same' isError, same'.w1⟩
  | @first x y ys w elements fails ih =>
      have inner {zs : List Ptr} (list : ListAt s zs y) (some_ : zs ≠ []) :
          ComesToError W s ctx x w := by
        rcases List.exists_cons_of_ne_nil some_ with ⟨z, zs, rfl⟩
        rcases list with ⟨_, c, _, known, type, _⟩
        have noSymbol : c.type ≠ .symbol := by
          rw [type]
          decide
        have noCall : c.type ∉ applied := by
          rw [type]
          decide
        exact list_fails [] rfl elements ⟨c, known, .inr ⟨noSymbol, rfl⟩⟩ known noCall
          (by simp) ih
      cases fails with
      | @atom _ c known isError =>
          have noSymbol : c.type ≠ .symbol := by
            rw [isError.1]
            decide
          exact error_head elements ⟨c, known, .inr ⟨noSymbol, rfl⟩⟩ known isError
      | unbound known type named nothing => exact unbound_head elements known type named nothing
      | bound known type bound value isError =>
          exact error_head elements ⟨_, known, .inl ⟨type, bound⟩⟩ value isError
      | first elements' => exact inner elements' (by simp)
      | later elements' => exact inner elements' (by simp)
  | @later x h f y d xs ys w elements head value noCall settled _ ih =>
      exact list_fails (h :: xs) rfl elements head value noCall
        (fun z mem => settled_evaluated none_ (settled z mem)) ih

end Errors

end BearLang.ListContents
