import BearLang.ListFunctions
import BearLang.Mapping
import BearLang.ProgramText
import BearLang.ReadingPrograms

/-!
# What the list operators leave as it is

All list operators but `append` link cells of their own only. `bl_list_append` stores
into the last cell of the list that it is given, and every list that ends in that cell
gets longer. `rest`, `reverse`, `filtered` and `+` evaluate values as expressions, and
what that does is up to the values.
-/

namespace BearLang.ListFrames

open CallPrograms OperatorCalls SubExpressions OperandEvaluation EvaluatedValues Iteration
  ListGraphs ListContents ListFunctions ProgramText ReadingPrograms

set_option autoImplicit false

section Cells

variable {s t u : State} {items : List (Nat × Ptr)} {xs : List Ptr} {p : Ptr} {n : Nat}

def ListCells (s : State) (items : List (Nat × Ptr)) (p : Ptr) : Prop :=
  (items = [] ∧ EmptyList s p) ∨
    (items ≠ [] ∧ (∀ item ∈ items, item.2 ≠ .null) ∧ CellsAt s items p)

theorem value_of_cells (cells : ListCells s items p) : ListValue s (items.map Prod.snd) p := by
  rcases cells with ⟨rfl, empty⟩ | ⟨some_, filled, cells⟩
  · exact .inl ⟨rfl, empty⟩
  · refine .inr ⟨by simpa using some_, fun x mem => ?_, list_at_cells cells⟩
    obtain ⟨item, inside, rfl⟩ := List.mem_map.1 mem
    exact filled item inside

theorem cells_of_value (list : ListValue s xs p) :
    ∃ items, items.map Prod.snd = xs ∧ ListCells s items p := by
  rcases list with ⟨rfl, empty⟩ | ⟨some_, filled, list⟩
  · exact ⟨[], rfl, .inl ⟨rfl, empty⟩⟩
  · obtain ⟨items, rfl, cells⟩ := cells_of_list_at list
    refine ⟨items, rfl, .inr ⟨by simpa using some_, fun item mem => ?_, cells⟩⟩
    exact filled _ (List.mem_map_of_mem mem)

theorem cells_of_spine_list (spine : Spine s items p) (list : ListAt s (items.map Prod.snd) p) :
    CellsAt s items p := by
  induction items generalizing p with
  | nil => exact list
  | cons item rest ih =>
      obtain ⟨isRef, c, known, type, car, further⟩ := spine
      obtain ⟨_, d, _, found, _, _, later⟩ := list
      rw [known] at found
      cases found
      exact ⟨isRef, c, known, type, car, ih further later⟩

theorem ends_of_cells (cells : CellsAt s items p) : EndsAt s items := by
  induction items generalizing p with
  | nil => exact fun item last => nomatch last
  | cons item rest ih =>
      obtain ⟨rfl, c, known, _, _, later⟩ := cells
      cases rest with
      | nil =>
          intro item' last d found
          obtain rfl : item = item' := Option.some.inj last
          rw [known] at found
          cases found
          exact later
      | cons item' rest => exact ih later

/-- Cells below the address keep their contents. -/
def OldCells (n : Nat) (s t : State) : Prop :=
  ∀ a c, a < n → s.cell (.ref a) = some c → ∃ d, t.cell (.ref a) = some d ∧ SameContents c d

theorem old_cells_refl (n : Nat) (s : State) : OldCells n s s :=
  fun _ c _ known => ⟨c, known, same_contents_refl c⟩

theorem old_cells_trans (first : OldCells n s t) (second : OldCells n t u) : OldCells n s u := by
  intro a c old known
  obtain ⟨d, found, same⟩ := first a c old known
  obtain ⟨e, found', same'⟩ := second a d old found
  exact ⟨e, found', same_contents_trans same same'⟩

theorem empty_bound (empty : EmptyList s p) : ∃ a, p = .ref a ∧ a < s.fresh := by
  obtain ⟨c, known, _⟩ := empty
  obtain ⟨a, rfl⟩ := State.ref_of_cell known
  exact ⟨a, rfl, State.ref_lt_fresh known⟩

theorem cells_at_old (old : OldCells n s t) (inside : ∀ item ∈ items, item.1 < n)
    (cells : CellsAt s items p) : CellsAt t items p := by
  induction items generalizing p with
  | nil => exact cells
  | cons item rest ih =>
      obtain ⟨rfl, c, known, type, car, later⟩ := cells
      obtain ⟨d, found, type', word, word'⟩ := old _ c (inside item List.mem_cons_self) known
      refine ⟨rfl, d, found, type'.trans type, by rw [Cell.car, word]; exact car, ?_⟩
      rw [Cell.cdr, word']
      exact ih (fun item mem => inside item (List.mem_cons_of_mem _ mem)) later

theorem list_cells_old (old : OldCells n t u) (whole : ListCells s items p) (bound : s.fresh ≤ n)
    (cells : ListCells t items p) : ListCells u items p := by
  rcases cells with ⟨rfl, c, known, type, car, cdr⟩ | ⟨some_, filled, cells⟩
  · rcases whole with ⟨_, empty⟩ | ⟨some_, _⟩
    · obtain ⟨a, rfl, inside⟩ := empty_bound empty
      obtain ⟨d, found, type', word, word'⟩ := old a c (Nat.lt_of_lt_of_le inside bound) known
      refine .inl ⟨rfl, d, found, by rw [type']; exact type, ?_, ?_⟩
      · rw [Cell.car, word]
        exact car
      · rw [Cell.cdr, word']
        exact cdr
    · exact absurd rfl some_
  · rcases whole with ⟨rfl, _⟩ | ⟨_, _, before⟩
    · exact absurd rfl some_
    · refine .inr ⟨some_, filled, cells_at_old old (fun item mem => ?_) cells⟩
      exact Nat.lt_of_lt_of_le (cells_at_bound before item mem) bound

/-- Links of old cells that lead somewhere are kept. -/
def OldLinks (n : Nat) (s t : State) : Prop := ∀ a, a < n → LaterAt s t a

theorem old_links_trans (first : OldLinks n s t) (second : OldLinks n t u) : OldLinks n s u := by
  intro a old c known
  obtain ⟨d, found, type, word, link⟩ := first a old c known
  obtain ⟨e, found', type', word', link'⟩ := second a old d found
  refine ⟨e, found', type'.trans type, word'.trans word, fun filled => ?_⟩
  have same := link filled
  exact (link' (same ▸ filled)).trans same

theorem old_links_of_cells (old : OldCells n s t) : OldLinks n s t := by
  intro a inside c known
  obtain ⟨d, found, type, word, word'⟩ := old a c inside known
  exact ⟨d, found, type, word, fun _ => by rw [Cell.cdr, word', Cell.cdr]⟩

theorem cells_between (cells : ListCells s items p) (before : OldLinks s.fresh s t)
    (after : OldLinks s.fresh t u) (list : ListValue u (items.map Prod.snd) p) :
    ListCells t items p := by
  rcases cells with ⟨rfl, c, known, type, car, cdr⟩ | ⟨some_, filled, cells⟩
  · obtain ⟨a, rfl, inside⟩ := empty_bound ⟨c, known, type, car, cdr⟩
    obtain ⟨d, found, type', word, _⟩ := before a inside c known
    refine .inl ⟨rfl, d, found, by rw [type']; exact type, by rw [Cell.car, word]; exact car, ?_⟩
    by_contra linked
    obtain ⟨e, found', _, _, link⟩ := after a inside d found
    rcases list with ⟨_, e', found'', _, _, none_⟩ | ⟨some_, _⟩
    · rw [found'] at found''
      cases found''
      exact linked ((link linked).symm.trans none_)
    · exact some_ rfl
  · have inside := cells_at_bound cells
    have first : ∀ item ∈ items, LaterAt s t item.1 := fun item mem => before _ (inside item mem)
    have second : ∀ item ∈ items, LaterAt t u item.1 := fun item mem => after _ (inside item mem)
    have spine := spine_at first (spine_of_cells cells)
    refine .inr ⟨some_, filled, cells_of_spine some_ spine (ends_at second ?_)⟩
    rcases list with ⟨nothing, _⟩ | ⟨_, _, listed⟩
    · exact absurd (List.map_eq_nil_iff.1 nothing) some_
    · exact ends_of_cells (cells_of_spine_list (spine_at second spine) listed)

end Cells

section Linking

variable {W : World} {n : Nat} {s t : State}

/-- A cell that was made later than the address. -/
def OwnFrom (n : Nat) (p : Ptr) : Prop := ∃ a, p = .ref a ∧ n ≤ a

/-- The calls that read, allocate and walk along lists, and evaluate nothing. -/
def walks : Call → Prop
  | .listLen .. => True
  | .reverseLoop .. => True
  | .addSpread .. => True
  | .serSexp _ => True
  | .serLoop .. => True
  | _ => False

/-- Code that links cells of its own, and changes the contents of no other cell. -/
def linking (n : Nat) : Contract bearLang where
  op
    | .setCdr site p _ => site = .build ∧ OwnFrom n p
    | .setIVal .. => False
    | _ => True
  opAnswer
    | .alloc _, p => OwnFrom n p
    | _, _ => True
  call
    | .eval .. => True
    | .evalConsLoop _ _ _ last => last ≠ .null → OwnFrom n last
    | .mapLoop _ _ last _ => last ≠ .null → OwnFrom n last
    | .mapBody _ _ _ last _ => last ≠ .null → OwnFrom n last
    | .filteredLoop .. => True
    | .filteredInner .. => True
    | .addLists .. => True
    | .addNumbers .. => True
    | .addStrings .. => True
    | c => walks c
  callAnswer _ _ := True

/-- The same without evaluations. -/
def walking (n : Nat) : Contract bearLang := { linking n with call := walks }

theorem linking_step {op : Op} {answer : op.Answer} (stepped : step op s = some (answer, t))
    (allowed : (linking n).op op) (later : n ≤ s.fresh) :
    (linking n).opAnswer op answer ∧ n ≤ t.fresh ∧ OldCells n s t := by
  refine ⟨?_, Nat.le_trans later (fresh_le_of_grows (step_grows stepped)), fun a c old known => ?_⟩
  · cases op with
    | alloc c =>
        cases stepped
        exact ⟨s.fresh, rfl, later⟩
    | _ => trivial
  · obtain ⟨d, found, cell⟩ := step_cell stepped known
    refine ⟨d, found, ?_⟩
    cases cell with
    | cdr site q =>
        obtain ⟨_, b, same, new⟩ := allowed
        cases same
        exact absurd old (Nat.not_lt.2 new)
    | number i => exact allowed.elim
    | _ => exact ⟨rfl, rfl, rfl⟩

instance (n : Nat) : Reading (linking n) :=
  ⟨fun _ => trivial, fun _ => trivial, trivial, fun _ _ => trivial, fun _ _ => trivial⟩

instance (n : Nat) : Printing (walking n) where
  load _ := trivial
  alloc _ := trivial
  trap := trivial
  listLen _ _ := trivial
  reverseLoop _ _ := trivial
  serSexp _ := trivial
  serLoop _ _ := trivial

theorem walking_honours (n : Nat) : (runtime W).Honours (walking n) := by
  intro c allowed
  cases c with
  | listLen i count =>
      refine allows_ite (allows_pure _) (allows_seq (allows_load i) fun c => ?_)
      exact allows_call (c := .listLen c.cdr (count + 1)) trivial
  | reverseLoop L retval =>
      refine allows_ite (allows_pure _) (allows_seq (allows_load L) fun c => ?_)
      exact allows_seq (allows_alloc _) fun retval =>
        allows_call (c := .reverseLoop c.cdr retval) trivial
  | addSpread x retval =>
      refine allows_ite (allows_pure _) (allows_seq (allows_load x) fun c => ?_)
      exact allows_seq (allows_alloc _) fun retval =>
        allows_call (c := .addSpread c.cdr retval) trivial
  | serSexp expr => exact allows_ser_sexp expr
  | serLoop L retval => exact allows_ser_loop L retval
  | _ => exact allowed.elim

theorem walk_keeps {c : Call} {answer : c.Answer} (allowed : walks c) (later : n ≤ s.fresh)
    (run : (runtime W).Runs (body W c) s answer t) : n ≤ t.fresh ∧ OldCells n s t := by
  have keeps : ∀ op u answer after, n ≤ u.fresh ∧ OldCells n s u → (walking n).op op → True →
      (runtime W).step op u = some (answer, after) →
      (walking n).opAnswer op answer ∧ n ≤ after.fresh ∧ OldCells n s after := by
    intro op u answer after held allowed _ stepped
    obtain ⟨answered, later', old⟩ := linking_step stepped allowed held.1
    exact ⟨answered, later', old_cells_trans held.2 old⟩
  exact (contract_invariant (walking_honours n) keeps (reaches_done_of_runs run)
    (fun _ _ _ => trivial) ⟨later, old_cells_refl n s⟩ (walking_honours n c allowed)).1

end Linking

section Operators

variable {W : World} {n : Nat} {ctx params : Ptr} {α : Type}

theorem eval_links (site : Site) (ctx expr : Ptr) : Allows (linking n) (blEval site ctx expr) :=
  allows_call (c := .eval site ctx expr) trivial

theorem alloc_links {c : Cell} {f : Ptr → Prog α}
    (rest : ∀ p, OwnFrom n p → Allows (linking n) (f p)) : Allows (linking n) (alloc c >>= f) :=
  ⟨trivial, fun p own => rest p own⟩

theorem own_filled {p : Ptr} (own : OwnFrom n p) : p ≠ .null → OwnFrom n p := fun _ => own

theorem eval_cons_loop_links (i start last : Ptr) (own : last ≠ .null → OwnFrom n last) :
    Allows (linking n) (evalConsLoop ctx i start last) := by
  refine allows_ite (allows_pure _) (allows_seq (allows_load i) fun c => ?_)
  refine allows_seq (eval_links _ ctx c.car) fun retval => ?_
  refine allows_seq (allows_type_of retval) fun kind => allows_ite (allows_pure _) ?_
  refine alloc_links fun new made => ?_
  split
  · exact allows_seq (allows_load i) fun c =>
      allows_call (c := .evalConsLoop ctx c.cdr new new) (own_filled made)
  · rename_i filled
    refine allows_seq (allows_op (.setCdr .build last new) ⟨rfl, own filled⟩) fun _ => ?_
    exact allows_seq (allows_load i) fun c =>
      allows_call (c := .evalConsLoop ctx c.cdr start new) (own_filled made)

theorem eval_cons_links (ctx expr : Ptr) : Allows (linking n) (blEvalCons ctx expr) :=
  allows_ite (allows_pure _)
    (allows_call (c := .evalConsLoop ctx expr .null .null) fun filled => absurd rfl filled)

theorem ctx_set_links (ctx key val : Ptr) : Allows (linking n) (blCtxSet ctx key val) := by
  refine allows_seq (allows_seq (allows_load ctx) fun cell => ?_) fun c => ?_
  · exact allows_member cell.asCtx
  · refine allows_seq (allows_load key) fun k => ?_
    refine allows_seq (allows_member k.symId) fun id => ?_
    exact allows_seq (allows_op (.ctxStore _ id key val) trivial) fun _ => allows_pure _

theorem map_loop_links (func i last retval : Ptr) (own : last ≠ .null → OwnFrom n last) :
    Allows (linking n) (mapLoop func i last retval) := by
  refine allows_ite (allows_pure _) (allows_seq (allows_load i) fun c => ?_)
  refine allows_seq (allows_load func) fun f => ?_
  refine allows_seq (allows_member f.innerClosure) fun inner => ?_
  refine allows_seq (allows_load f.cdr) fun names => ?_
  refine allows_seq (allows_op (.enterFunc func) trivial) fun _ => ?_
  refine allows_seq (ctx_set_links inner names.car c.car) fun _ => ?_
  refine allows_seq (allows_op (.startBody func) trivial) fun _ => ?_
  exact allows_call (c := .mapBody func i f.car last retval) own

theorem map_body_links (func i j last retval : Ptr) (own : last ≠ .null → OwnFrom n last) :
    Allows (linking n) (mapBody func i j last retval) := by
  have left : Allows (linking n) leave := allows_op .leave trivial
  refine allows_ite (allows_seq left fun _ => allows_seq (allows_load i) fun c => ?_) ?_
  · exact allows_call (c := .mapLoop func c.cdr last retval) own
  · refine allows_seq (allows_load func) fun f => ?_
    refine allows_seq (allows_member f.innerClosure) fun inner => ?_
    refine allows_seq (allows_load j) fun c => ?_
    refine allows_seq (eval_links _ inner c.car) fun val => ?_
    refine allows_seq (allows_type_of val) fun kind => ?_
    refine allows_ite (allows_seq left fun _ => allows_pure _) (alloc_links fun new made => ?_)
    split
    · exact allows_seq (allows_load j) fun c =>
        allows_call (c := .mapBody func i c.cdr new new) (own_filled made)
    · rename_i filled
      refine allows_seq (allows_op (.setCdr .build last new) ⟨rfl, own filled⟩) fun _ => ?_
      exact allows_seq (allows_load j) fun c =>
        allows_call (c := .mapBody func i c.cdr new retval) (own_filled made)

theorem eval_first_links (ctx params : Ptr) : Allows (linking n) (evalFirst ctx params) :=
  allows_seq (allows_list_first params) (eval_links _ ctx)

theorem eval_second_links (ctx params : Ptr) : Allows (linking n) (evalSecond ctx params) :=
  allows_seq (allows_list_second params) (eval_links _ ctx)

theorem eval_first_value_links (ctx params : Ptr) :
    Allows (linking n) (evalFirstValue ctx params) :=
  allows_seq (allows_list_first params) (eval_links _ ctx)

theorem eq_links (ctx params : Ptr) : Allows (linking n) (blOperEq ctx params) := by
  refine allows_seq (eval_first_links ctx params) fun first => ?_
  refine allows_seq (eval_second_links ctx params) fun second => ?_
  refine allows_seq (allows_load first) fun a => ?_
  refine allows_seq (allows_load second) fun b => ?_
  refine allows_ite (allows_pure _) (allows_ite (allows_pure _) ?_)
  refine allows_seq (allows_member a.iVal) fun x => ?_
  exact allows_seq (allows_member b.iVal) fun y => allows_pure _

theorem filtered_inner_links (x I : Ptr) (isIn : Bool) :
    Allows (linking n) (filteredInner ctx x I isIn) := by
  refine allows_ite (allows_pure _) (allows_seq (allows_load I) fun c => ?_)
  refine allows_seq (allows_mk_list [x, c.car]) fun args => ?_
  refine allows_seq (eq_links ctx args) fun same => allows_seq (allows_bool_of same) fun b => ?_
  refine allows_seq (allows_load I) fun c => ?_
  exact allows_call (c := .filteredInner ctx x c.cdr (isIn || b)) trivial

theorem filtered_loop_links (L items retval : Ptr) :
    Allows (linking n) (filteredLoop ctx L items retval) := by
  refine allows_ite (allows_reverse retval) (allows_seq (allows_load L) fun c => ?_)
  refine allows_seq (allows_call (c := .filteredInner ctx c.car items false) trivial) fun isIn => ?_
  refine allows_branch (allows_pure _) (allows_alloc _) fun retval => ?_
  refine allows_seq (allows_load L) fun c => ?_
  exact allows_call (c := .filteredLoop ctx c.cdr items retval) trivial

theorem add_lists_links (L retval : Ptr) : Allows (linking n) (addLists ctx L retval) := by
  refine allows_ite (allows_reverse retval) (allows_seq (allows_load L) fun c => ?_)
  refine allows_seq (eval_links _ ctx c.car) fun x => ?_
  refine allows_seq (allows_type_of x) fun kind => ?_
  refine allows_branch (allows_call (c := .addSpread x retval) trivial) (allows_alloc _)
    fun retval => allows_seq (allows_load L) fun c => ?_
  exact allows_call (c := .addLists ctx c.cdr retval) trivial

theorem add_numbers_links (L : Ptr) (sum : Int) : Allows (linking n) (addNumbers ctx L sum) := by
  refine allows_ite (allows_pure _) (allows_seq (allows_load L) fun c => ?_)
  refine allows_seq (eval_links _ ctx c.car) fun x => allows_seq (allows_int_of x) fun i => ?_
  exact allows_seq (allows_load L) fun c =>
    allows_call (c := .addNumbers ctx c.cdr (sum + i)) trivial

theorem add_strings_links (L : Ptr) (s : CStr) : Allows (linking n) (addStrings ctx L s) := by
  refine allows_ite (allows_pure _) (allows_seq (allows_load L) fun c => ?_)
  refine allows_seq (eval_links _ ctx c.car) fun x => ?_
  have naked : Allows (linking n) (blSerNakedSexp x) :=
    allows_seq (allows_call (c := .serSexp x) trivial) fun s =>
      allows_seq (allows_type_of x) fun kind => allows_pure _
  refine allows_seq naked fun more => allows_seq (allows_load L) fun c => ?_
  exact allows_call (c := .addStrings ctx c.cdr (s ++ more)) trivial

/-- The loops that belong to an activation keep to the contract. -/
theorem linking_honours {c : Call} (enters : directly c = .enter) (allowed : (linking n).call c) :
    (body W c).Meets (linking n) ((linking n).callAnswer c) := by
  cases c with
  | evalConsLoop ctx i start last => exact eval_cons_loop_links i start last allowed
  | mapLoop func i last retval => exact map_loop_links func i last retval allowed
  | mapBody func i j last retval => exact map_body_links func i j last retval allowed
  | filteredLoop ctx L items retval => exact filtered_loop_links L items retval
  | filteredInner ctx x I isIn => exact filtered_inner_links x I isIn
  | addLists ctx L retval => exact add_lists_links L retval
  | addNumbers ctx L sum => exact add_numbers_links L sum
  | addStrings ctx L s => exact add_strings_links L s
  | eval => cases enters
  | listLen => cases enters
  | reverseLoop => cases enters
  | addSpread => cases enters
  | serSexp => cases enters
  | serLoop => cases enters
  | _ => exact False.elim allowed

theorem walks_of_passed {c : Call} (passes : directly c = .pass) (allowed : (linking n).call c) :
    walks c := by
  cases c with
  | evalConsLoop => cases passes
  | mapLoop => cases passes
  | mapBody => cases passes
  | filteredLoop => cases passes
  | filteredInner => cases passes
  | addLists => cases passes
  | addNumbers => cases passes
  | addStrings => cases passes
  | eval => cases passes
  | _ => exact allowed

/-- Invariants about old cells are kept along a trace. -/
theorem linking_keeps {invariant : State → Prop} {rel : State → State → Prop}
    (refl : ∀ s, rel s s) (trans : ∀ {s t u}, rel s t → rel t u → rel s u)
    (later : ∀ s, invariant s → n ≤ s.fresh)
    (old : ∀ s t, invariant s → n ≤ t.fresh → OldCells n s t → invariant t ∧ rel s t) :
    (runtime W).Keeps directly (linking n) invariant rel where
  refl := refl
  trans := trans
  honours := fun _ enters allowed => linking_honours enters allowed
  steps op state answer final held allowed stepped := by
    obtain ⟨answered, bound, kept⟩ := linking_step stepped allowed (later _ held)
    exact ⟨answered, old _ _ held bound kept⟩
  passed call state answer final passes allowed held run := by
    obtain ⟨bound, kept⟩ := walk_keeps (walks_of_passed passes allowed) (later _ held) run
    exact ⟨trivial, old _ _ held bound kept⟩

/-- The operators on lists that do not store into their argument. -/
theorem operator_links {op : Builtin}
    (takes : op ∈ [Builtin.prepend, .rest, .reverse, .map, .filtered, .add]) :
    Allows (linking n) (builtinCode W op ctx params) := by
  simp only [List.mem_cons, List.not_mem_nil, or_false] at takes
  rcases takes with rfl | rfl | rfl | rfl | rfl | rfl
  · refine allows_seq (eval_first_links ctx params) fun L => ?_
    exact allows_seq (eval_second_links ctx params) fun val => allows_alloc _
  · refine allows_seq (eval_links _ ctx params) fun params => ?_
    refine allows_seq (allows_list_len params) fun len => ?_
    refine allows_branch (eval_first_value_links ctx params) (allows_pure _) fun params => ?_
    exact allows_seq (allows_list_rest params) fun retval => allows_pure _
  · refine allows_seq (eval_links _ ctx params) fun params => ?_
    refine allows_seq (allows_list_len params) fun len => ?_
    exact allows_branch (eval_first_value_links ctx params) (allows_pure _) fun params =>
      allows_reverse params
  · refine allows_seq (eval_cons_links ctx params) fun params => ?_
    refine allows_seq (allows_type_of params) fun kind => allows_ite (allows_pure _) ?_
    refine allows_seq (allows_fixed_args params _) fun invalid => ?_
    refine allows_ite (allows_pure _) ?_
    refine allows_seq (allows_list_first params) fun func => ?_
    refine allows_seq (allows_list_second params) fun L => ?_
    exact allows_call (c := .mapLoop func L .null .null) fun filled => absurd rfl filled
  · refine allows_seq (eval_first_links ctx params) fun L => ?_
    refine allows_seq (eval_second_links ctx params) fun items => ?_
    exact allows_call (c := .filteredLoop ctx L items .null) trivial
  · have mode (params first : Ptr) : Allows (linking n) (addMode ctx params first) := by
      refine allows_seq (allows_type_of first) fun kind => ?_
      have strings : Allows (linking n) (call (.addStrings ctx params []) >>= mkStr) :=
        allows_seq (allows_call (c := .addStrings ctx params []) trivial) fun s =>
          allows_alloc _
      cases kind with
      | number =>
          exact allows_seq (allows_call (c := .addNumbers ctx params 0) trivial) fun sum =>
            allows_alloc _
      | cons => exact allows_call (c := .addLists ctx params .null) trivial
      | _ => exact strings
    refine allows_seq (allows_type_of params) fun kind => ?_
    refine allows_ite (allows_errif_invalid_len _ _ _) ?_
    refine allows_seq (eval_cons_links ctx params) fun L => ?_
    refine allows_seq (allows_type_of L) fun kind => allows_ite (allows_pure _) ?_
    refine allows_seq (allows_errif_invalid_len L _ _) fun invalid => ?_
    refine allows_ite (allows_pure _) ?_
    refine allows_seq (eval_first_links ctx params) fun first => ?_
    refine allows_seq (allows_type_of first) fun kind => allows_ite ?_ (mode params first)
    refine allows_seq (allows_list_len params) fun len => allows_ite ?_ (mode params first)
    exact allows_seq (allows_list_first first) fun second => mode first second

end Operators

section Append

variable {W : World} {s t u m : State} {ctx params L p r w : Ptr} {items : List (Nat × Ptr)}
  {visits : List Evaluation}

/-- Code that walks to the last cell, in this state. -/
def walkingIn (m : State) : Contract bearLang where
  op
    | .load _ => True
    | _ => False
  opAnswer
    | .load p, c => m.cell p = some c
    | _, _ => True
  call
    | .lastCell _ => True
    | _ => False
  callAnswer
    | .lastCell _, p => ∃ c, m.cell p = some c ∧ c.cdr = .null
    | _, _ => True

/-- The walk to the last cell changes nothing, and the last cell is linked to nothing. -/
theorem last_cell_spec {last : Ptr} (run : (runtime W).Runs (call (.lastCell L)) m last u) :
    u = m ∧ ∃ c, m.cell last = some c ∧ c.cdr = .null := by
  have loop (L : Ptr) : (lastCellLoop L).Meets (walkingIn m) fun p =>
      ∃ c, m.cell p = some c ∧ c.cdr = .null := by
    refine ⟨trivial, fun c known => ?_⟩
    change (if c.cdr = .null then pure L else call (.lastCell c.cdr) : Prog Ptr).Meets _ _
    split
    · exact ⟨c, known, by assumption⟩
    · exact ⟨trivial, fun p ends => ends⟩
  have honours : (runtime W).Honours (walkingIn m) := by
    intro c allowed
    cases c with
    | lastCell L => exact loop L
    | _ => exact allowed.elim
  have keeps : ∀ op v answer after, v = m → (walkingIn m).op op → True →
      (runtime W).step op v = some (answer, after) →
        (walkingIn m).opAnswer op answer ∧ after = m := by
    rintro op v answer after rfl allowed _ stepped
    cases op with
    | load q =>
        obtain ⟨c, known, same, unchanged⟩ := mapped_spec stepped
        subst same
        exact ⟨known, unchanged⟩
    | _ => exact allowed.elim
  exact contract_invariant honours keeps (reaches_done_of_runs run) (fun _ _ _ => trivial) rfl
    (show (call (.lastCell L)).Meets (walkingIn m) _ from ⟨trivial, fun p ends => ends⟩)

/-- What `bl_list_append` makes of memory, with the last cell `c` at `a`. -/
def appended (m : State) (a : Nat) (c : Cell) (w : Ptr) : State :=
  (m.allocated (.mkCons w .null)).put a { c with w1 := .ofPtr (.ref m.fresh) }

theorem list_append_iff (filled : L ≠ .null) :
    (runtime W).Runs (blListAppend L w) m r t ↔ ∃ a c,
      (runtime W).Runs (call (.lastCell L)) m (.ref a) m ∧ m.cell (.ref a) = some c ∧
        c.cdr = .null ∧ r = L ∧ t = appended m a c w := by
  rw [blListAppend, if_neg filled]
  constructor
  · intro run
    obtain ⟨last, v, walked, run⟩ := runs_bind.1 run
    obtain ⟨rfl, c, known, none_⟩ := last_cell_spec walked
    obtain ⟨a, rfl⟩ := State.ref_of_cell known
    have known' : (v.allocated (.mkCons w .null)).cell (.ref a) = some c :=
      State.cell_allocated_old known _
    rw [runs_after (runs_alloc _ v), runs_after (runs_set_cdr known' .append (.ref v.fresh))] at run
    obtain ⟨rfl, rfl⟩ := runs_pure.1 run
    exact ⟨a, c, walked, known, none_, rfl, rfl⟩
  · rintro ⟨a, c, walked, known, none_, rfl, rfl⟩
    have known' : (m.allocated (.mkCons w .null)).cell (.ref a) = some c :=
      State.cell_allocated_old known _
    rw [runs_after walked, runs_after (runs_alloc _ m),
      runs_after (runs_set_cdr known' .append (.ref m.fresh))]
    exact runs_pure_self _ _

theorem last_cell_here {c : Cell} (known : m.cell p = some c) (none_ : c.cdr = .null) :
    (runtime W).Runs (call (.lastCell p)) m p m := by
  refine runs_call (c := .lastCell p) ?_
  change (runtime W).Runs (lastCellLoop p) m p m
  rw [lastCellLoop, runs_after (runs_load known), if_pos none_]
  exact runs_pure_self _ _

theorem last_cell_further {c : Cell} {last : Ptr} (known : m.cell p = some c)
    (walked : (runtime W).Runs (call (.lastCell c.cdr)) m last m) :
    (runtime W).Runs (call (.lastCell p)) m last m := by
  have further : c.cdr ≠ .null := by
    intro ended
    rw [ended] at walked
    obtain ⟨_, none_, _⟩ := runs_load_iff.1 ((runs_call_iff (c := .lastCell .null)).1 walked)
    cases none_
  refine runs_call (c := .lastCell p) ?_
  change (runtime W).Runs (lastCellLoop p) m last m
  rw [lastCellLoop, runs_after (runs_load known), if_neg further]
  exact walked

/-- A cell that is linked to nothing is the last one of a list, or none of its cells. -/
theorem cells_end_or_apart {a : Nat} {c : Cell} (known : m.cell (.ref a) = some c)
    (none_ : c.cdr = .null) (cells : CellsAt m items p) :
    (runtime W).Runs (call (.lastCell p)) m (.ref a) m ∨
      ((∀ item ∈ items, item.1 ≠ a) ∧ p ≠ .ref a) := by
  induction items generalizing p with
  | nil =>
      have ended : p = .null := cells
      refine .inr ⟨fun item mem => absurd mem List.not_mem_nil, ?_⟩
      rw [ended]
      rintro ⟨⟩
  | cons item rest ih =>
      obtain ⟨rfl, d, found, _, _, later⟩ := cells
      by_cases same : item.1 = a
      · rw [same]
        exact .inl (last_cell_here known none_)
      · rcases ih later with walked | ⟨others, _⟩
        · exact .inl (last_cell_further found walked)
        · refine .inr ⟨fun other mem => ?_, fun isRef => same (Ptr.ref.inj isRef)⟩
          rcases List.mem_cons.1 mem with rfl | mem
          · exact same
          · exact others other mem

theorem end_or_apart {a : Nat} {c : Cell} (known : m.cell (.ref a) = some c) (none_ : c.cdr = .null)
    (list : ListCells m items p) : (runtime W).Runs (call (.lastCell p)) m (.ref a) m ∨
      ((∀ item ∈ items, item.1 ≠ a) ∧ p ≠ .ref a) := by
  rcases list with ⟨rfl, empty⟩ | ⟨_, _, cells⟩
  · by_cases same : p = .ref a
    · rw [same]
      exact .inl (last_cell_here known none_)
    · exact .inr ⟨(fun item mem => nomatch mem), same⟩
  · exact cells_end_or_apart known none_ cells

/-- Lists that do not end in the cell are left as they are. -/
theorem list_appended {a : Nat} {c : Cell} (list : ListCells m items p)
    (apart : (∀ item ∈ items, item.1 ≠ a) ∧ p ≠ .ref a) (w : Ptr) :
    ListCells (appended m a c w) items p := by
  rcases list with ⟨rfl, d, found, shape⟩ | ⟨some_, filled, cells⟩
  · refine .inl ⟨rfl, d, ?_, shape⟩
    rw [appended, State.cell_put_other apart.2]
    exact State.cell_allocated_old found _
  · exact .inr ⟨some_, filled, cells_at_put (cells_at_allocated cells _) apart.1 _⟩

theorem list_lengthened {a : Nat} {c : Cell} (list : ListCells m items p)
    (last : (runtime W).Runs (call (.lastCell p)) m (.ref a) m) (known : m.cell (.ref a) = some c)
    (w : Ptr) : ¬ ListValue (appended m a c w) (items.map Prod.snd) p := by
  intro still
  have extended := extends_allocated m (.mkCons w .null)
  have old := extended _ c known
  rcases list with ⟨rfl, d, found, _, _, none_⟩ | ⟨some_, filled, cells⟩
  · obtain ⟨rfl, _⟩ := runs_functional (last_cell_here (W := W) found none_) last
    rcases still with ⟨_, e, held, _, _, ended⟩ | ⟨some_, _⟩
    · rw [appended, State.cell_put_same (State.ref_lt_fresh old)] at held
      cases held
      simp [Cell.cdr] at ended
    · exact some_ rfl
  · obtain ⟨item, rest, rfl⟩ := List.exists_cons_of_ne_nil some_
    have listed := list_at_cells cells
    obtain ⟨b, d, walked, found, _, linked⟩ := list_at_last (W := W) listed
    obtain ⟨same, _⟩ := runs_functional walked last
    cases same
    rw [known] at found
    cases found
    have other : Ptr.ref m.fresh ≠ .ref a :=
      fun same => Nat.ne_of_gt (State.ref_lt_fresh known) (Ptr.ref.inj same)
    have longer := linked (m.allocated (.mkCons w .null)) (.ref m.fresh) [w] extended
      ⟨m.fresh, _, rfl, (State.cell_put_other other _).trans (State.cell_allocated_new m _), rfl,
        Cell.mk_cons_car w .null, Cell.mk_cons_cdr w .null⟩
    rcases still with ⟨nothing, _⟩ | ⟨_, _, short⟩
    · exact absurd nothing (List.cons_ne_nil _ _)
    · have lengths := congrArg List.length (list_at_unique longer short)
      simp at lengths

theorem silent_list_append (L val : Ptr) : Silent (blListAppend L val) := by
  unfold blListAppend
  split
  · exact silent_op _
  · refine silent_seq (silent_call rfl) fun last => silent_seq (silent_op _) fun new => ?_
    exact silent_seq (silent_op _) fun _ => silent_pure _

theorem asks_two_operands {next : Ptr → Ptr → Prog Ptr} (silent : ∀ v w, Silent (next v w)) :
    Asks W (do let v ← evalFirst ctx params; let w ← evalSecond ctx params; next v w) s visits r t ↔
      ∃ e₁ e₂ L a w m, (runtime W).Runs (blListFirst params) s e₁ s ∧
        (runtime W).Runs (blEval .operand ctx e₁) s L a ∧
        (runtime W).Runs (blListSecond params) a e₂ a ∧
        (runtime W).Runs (blEval .operand ctx e₂) a w m ∧ (runtime W).Runs (next L w) m r t ∧
        visits = [evaluation .operand ctx e₁ s L a, evaluation .operand ctx e₂ a w m] := by
  constructor
  · intro asks
    rw [evalFirst, evalSecond, bind_assoc] at asks
    obtain ⟨e₁, b, first, evaluates⟩ := (traced_silent (silent_list_first params)).1 asks
    obtain rfl := list_first_same first
    obtain ⟨L, a, rest, run, others, rfl⟩ := asks_eval.1 evaluates
    rw [bind_assoc] at others
    obtain ⟨e₂, b, second, evaluates'⟩ := (traced_silent (silent_list_second params)).1 others
    obtain rfl := list_second_same second
    obtain ⟨w, m, last, run', appends, rfl⟩ := asks_eval.1 evaluates'
    have nothing := silent_trace (silent L w) appends
    subst nothing
    exact ⟨e₁, e₂, L, _, w, m, first, run, second, run', runs_of_traced appends, rfl⟩
  · rintro ⟨e₁, e₂, L, a, w, m, first, run, second, run', append, rfl⟩
    rw [evalFirst, evalSecond, bind_assoc]
    refine (asks_after (silent_list_first params) first).2 ((asks_evaluated run).2 ⟨_, ?_, rfl⟩)
    rw [bind_assoc]
    refine (asks_after (silent_list_second params) second).2 ((asks_evaluated run').2 ⟨_, ?_, rfl⟩)
    exact asks_silent (silent L w) append

end Append

section Frames

variable {W : World} {s s' t : State} {ctx expr r : Ptr} {visits : List Evaluation} {α : Type}

/-- A value that a variable holds, or that such a value leads to. -/
def FromVariable (s : State) (p : Ptr) : Prop :=
  ∃ ctx c a b, ctxAt s ctx = some c ∧ Ptr.ref a ∈ c.vals ∧ Leads s a b ∧ p = .ref b

/-- The lists that variables lead to in `s` have the same elements in `t`. -/
def SameLists (s t : State) : Prop :=
  ∀ p xs, FromVariable s p → ListValue s xs p → ListValue t xs p

/-- Of the lists that variables lead to in `s`, those that are there in `u` are there
in `v`. -/
def KeepsLists (s u v : State) : Prop :=
  ∀ p items, FromVariable s p → ListCells s items p → ListCells u items p → ListCells v items p

theorem same_of_keeps (keeps : KeepsLists s s t) : SameLists s t := by
  intro p xs from_ list
  obtain ⟨items, rfl, cells⟩ := cells_of_value list
  exact value_of_cells (keeps p items from_ cells cells)

/-- If all evaluations keep the lists, code that links cells of its own does. -/
theorem program_keeps_lists {program : Prog α} {v : α} (links : Allows (linking s.fresh) program)
    (asks : Asks W program s visits v t)
    (kept : ∀ visit ∈ visits, KeepsLists s visit.before visit.after) : KeepsLists s s t := by
  have keeps : (runtime W).Keeps directly (linking s.fresh)
      (fun u => s.fresh ≤ u.fresh ∧ KeepsLists s s u) fun _ _ => True := by
    refine linking_keeps (fun _ => trivial) (fun _ _ => trivial) (fun u held => held.1) ?_
    intro u v held later old
    refine ⟨⟨later, fun p items from_ whole _ => ?_⟩, trivial⟩
    exact list_cells_old old whole (Nat.le_refl _) (held.2 p items from_ whole whole)
  have start : s.fresh ≤ s.fresh ∧ KeepsLists s s s :=
    ⟨Nat.le_refl _, fun _ _ _ _ cells => cells⟩
  refine (traced_path keeps asks (fun visit mem _ held run => ?_) start links).2.1.2
  have later := fresh_le_of_grows (runs_grows run)
  refine ⟨trivial, ⟨Nat.le_trans held.1 later, fun p items from_ whole _ => ?_⟩, trivial⟩
  exact kept visit mem p items from_ whole (held.2 p items from_ whole whole)

theorem program_keeps_links {program : Prog α} {v : α} (links : Allows (linking s.fresh) program)
    (asks : Asks W program s visits v t)
    (kept : ∀ visit ∈ visits, KeepsLinks visit.before visit.after) :
    ∀ visit ∈ visits, OldLinks s.fresh s visit.after ∧ OldLinks s.fresh visit.after t := by
  have keeps : (runtime W).Keeps directly (linking s.fresh) (fun u => s.fresh ≤ u.fresh)
      (OldLinks s.fresh) := by
    refine linking_keeps (fun u => old_links_of_cells (old_cells_refl _ u)) old_links_trans
      (fun u held => held) fun u v _ later old => ⟨later, old_links_of_cells old⟩
  have start : s.fresh ≤ s.fresh := Nat.le_refl _
  refine (traced_path keeps asks (fun visit mem _ held run => ?_) start links).2.2.2
  refine ⟨trivial, Nat.le_trans held (fresh_le_of_grows (runs_grows run)), fun a _ => ?_⟩
  exact later_at ⟨runs_grows run, kept visit mem⟩ a

def listOperators : List Builtin := [.append, .prepend, .rest, .reverse, .map, .filtered, .add]

def IsOperand (s : State) (params e : Ptr) : Prop := ∃ es, ListAt s es params ∧ e ∈ es

/-- The operator evaluates a value that it was given, or an element of one, and not an
operand. -/
def EvaluatesValue (op : Builtin) (s : State) (params : Ptr) : Call → Prop
  | .eval site _ e =>
      match op with
      | .rest => site = .value
      | .reverse => site = .value
      | .filtered => ¬ IsOperand s params e
      | .add => ¬ IsOperand s params e
      | _ => False
  | _ => False

/-- The walks to the ends of the two lists come to the same cell. -/
def SharesEnd (W : World) (m : State) (p L : Ptr) : Prop :=
  ∃ last, (runtime W).Runs (call (.lastCell p)) m last m ∧
    (runtime W).Runs (call (.lastCell L)) m last m

/-- The values that are evaluated leave the lists as they are, and no list ends where
`append` stores. -/
structure Spares (W : World) (op : Builtin) (ctx params : Ptr) (s : State)
    (visits : List Evaluation) : Prop where
  values : ∀ visit ∈ visits, EvaluatesValue op s params visit.call →
    KeepsLists s visit.before visit.after
  ends : op = .append → ∀ e₁ e₂ b₁ b₂ L a w m,
    visits = [evaluation .operand ctx e₁ b₁ L a, evaluation .operand ctx e₂ b₂ w m] →
      ∀ p items, FromVariable s p → ListCells s items p → ¬ SharesEnd W m p L

theorem spares_always {op : Builtin} {params : Ptr} (takes : op = .prepend ∨ op = .map) :
    Spares W op ctx params s visits := by
  have nothing : ∀ c, ¬ EvaluatesValue op s params c := by
    intro c evaluates
    cases c with
    | eval => rcases takes with rfl | rfl <;> exact evaluates
    | _ => exact evaluates
  refine ⟨fun visit _ evaluates => absurd evaluates (nothing _), fun isAppend => ?_⟩
  rcases takes with rfl | rfl <;> cases isAppend

theorem list_cells_extended {u v : State} (extended : Extends u v) {items : List (Nat × Ptr)} {p : Ptr}
    (cells : ListCells u items p) : ListCells v items p := by
  rcases cells with ⟨none_, c, known, facts⟩ | ⟨some_, filled, cells⟩
  · exact .inl ⟨none_, c, extended p c known, facts⟩
  · refine .inr ⟨some_, filled, ?_⟩
    clear some_ filled
    induction items generalizing p with
    | nil => exact cells
    | cons item rest ih =>
        obtain ⟨here, c, known, type, car, later⟩ := cells
        exact ⟨here, c, extended p c known, type, car, ih later⟩

/-- A value that settles, or comes to an error before it calls anything, leaves the lists as
they are. -/
theorem settled_keeps_lists {u v : State} {r e : Ptr} {site : Site} (none_ : EmptyList u nullVal)
    (settles : Settles W u ctx e ∨ ∃ w, Fails W u ctx e w)
    (run : (runtime W).Runs (blEval site ctx e) u r v) : KeepsLists s u v := by
  have grown : Grown u v := by
    rcases settles with settles | ⟨w, fails⟩
    · obtain ⟨_, _, _, evaluated, grown, _⟩ := settled_evaluated none_ settles u (retains_refl u)
      obtain ⟨_, rfl⟩ := runs_functional run (evaluated site)
      exact grown
    · obtain ⟨_, _, _, evaluated, grown, _⟩ := fails_evaluated none_ fails u (retains_refl u)
      obtain ⟨_, rfl⟩ := runs_functional run (evaluated site)
      exact grown
  exact fun _ _ _ _ cells => list_cells_extended grown.cells cells

/-- The lists are spared by values without calls: atoms, symbols, and lists of these that are
no call. -/
theorem spares_of_settled {op : Builtin} {params : Ptr} {program : Prog α} {v : α}
    (belongs : op ≠ .append) (asks : Asks W program s visits v t)
    (none_ : ∀ visit ∈ visits, EmptyList visit.before nullVal)
    (settled : ∀ visit ∈ visits, ∀ site c e, visit.call = .eval site c e →
      EvaluatesValue op s' params visit.call →
      Settles W visit.before c e ∨ ∃ w, Fails W visit.before c e w) :
    Spares W op ctx params s' visits := by
  refine ⟨fun visit mem evaluates => ?_, fun isAppend => absurd isAppend belongs⟩
  have ran := traced_visit_runs asks visit mem
  rcases visit with ⟨called, before, answer, after⟩
  cases called with
  | eval site c e =>
      have run : (runtime W).Runs (blEval site c e) before answer after := runs_eval.2 ran
      exact settled_keeps_lists (none_ _ mem) (settled _ mem site c e rfl evaluates) run
  | _ => exact evaluates.elim

variable {op : Builtin} {n : Nat}

/-- The call of a list operator leaves the lists that variables lead to as they are
exactly if the values that the operator evaluates leave them so, and `append` is not
given a list that ends where one of them does. -/
theorem lists_kept_iff (takes : op ∈ listOperators) (called : OperatorCall W op ctx expr s n s')
    (asks : Asks W (evalBody ctx expr) s visits r t)
    (harmless : ∀ visit ∈ visits, ¬ EvaluatesValue op s' (.ref n) visit.call →
      KeepsLists s' visit.before visit.after) :
    (Spares W op ctx (.ref n) s' visits → SameLists s' t) ∧
      ((op ∈ [Builtin.rest, .reverse, .filtered, .add] →
          ∀ visit ∈ visits, KeepsLinks visit.before visit.after) →
        SameLists s' t → Spares W op ctx (.ref n) s' visits) := by
  obtain ⟨q, code, rfl⟩ := (asks_operator called).1 asks
  constructor
  · intro spares
    have kept : ∀ visit ∈ visits, KeepsLists s' visit.before visit.after := by
      intro visit mem
      by_cases value : EvaluatesValue op s' (.ref n) visit.call
      · exact spares.values visit mem value
      · exact harmless visit mem value
    by_cases isAppend : op = .append
    · subst isAppend
      obtain ⟨e₁, e₂, L, a, w, m, _, first, _, _, run, rfl⟩ :=
        (asks_two_operands silent_list_append).1 code
      have keptFirst := kept _ List.mem_cons_self
      have keptSecond := kept _ (List.mem_cons_of_mem _ List.mem_cons_self)
      obtain ⟨b, c, walked, known, none_, _, rfl⟩ := (list_append_iff (eval_ne_null first)).1 run
      refine same_of_keeps fun p items from_ whole _ => ?_
      have there := keptSecond p items from_ whole (keptFirst p items from_ whole whole)
      rcases end_or_apart (W := W) known none_ there with shared | apart
      · exact absurd ⟨_, shared, walked⟩ (spares.ends rfl _ _ _ _ _ _ _ _ rfl p items from_ whole)
      · exact list_appended there apart w
    · refine same_of_keeps (program_keeps_lists (operator_links ?_) code kept)
      simpa [listOperators, isAppend] using takes
  · intro links same
    refine ⟨fun visit mem value => ?_, fun isAppend => ?_⟩
    · have evaluates : op ∈ [Builtin.rest, .reverse, .filtered, .add] := by
        cases isCall : visit.call with
        | eval site c e =>
            rw [isCall] at value
            cases op <;> first | exact value.elim | simp
        | _ => exact (isCall ▸ value).elim
      have belongs : op ∈ [Builtin.prepend, .rest, .reverse, .map, .filtered, .add] := by
        simp only [List.mem_cons, List.not_mem_nil, or_false] at evaluates ⊢
        rcases evaluates with rfl | rfl | rfl | rfl <;> simp
      obtain ⟨before, after⟩ :=
        program_keeps_links (operator_links belongs) code (links evaluates) visit mem
      intro p items from_ whole _
      exact cells_between whole before after (same p _ from_ (value_of_cells whole))
    · subst isAppend
      intro e₁ e₂ b₁ b₂ L a w m isVisits p items from_ whole shared
      obtain ⟨e₁', e₂', L', a', w', m', _, first, _, _, run, rfl⟩ :=
        (asks_two_operands silent_list_append).1 code
      cases isVisits
      have keptFirst := harmless _ List.mem_cons_self id
      have keptSecond := harmless _ (List.mem_cons_of_mem _ List.mem_cons_self) id
      obtain ⟨b, c, walked, known, none_, _, rfl⟩ := (list_append_iff (eval_ne_null first)).1 run
      have there := keptSecond p items from_ whole (keptFirst p items from_ whole whole)
      obtain ⟨last, ofList, ofOperand⟩ := shared
      obtain ⟨rfl, _⟩ := runs_functional ofOperand walked
      exact list_lengthened there ofList known w (same p _ from_ (value_of_cells whole))

/-- `l` is the list of 4; the expressions are `(append l 5)` and `(prepend l 5)`. -/
def frameForms : State where
  cells := staticCells ++
    [{ type := .symbol, w0 := .str (text "append"), w1 := .ofNat 0 },
     { type := .symbol, w0 := .str (text "l"), w1 := .ofNat 1 },
     { type := .symbol, w0 := .str (text "prepend"), w1 := .ofNat 2 },
     { type := .operNative, w0 := .code (.builtin .append) },
     { type := .operNative, w0 := .code (.builtin .prepend) },
     .mkNumber 4, .mkCons (.ref 12) .null, .mkNumber 5,
     .mkCtx { Ctx.new 8 .null with
       keys := [.ref 7, .ref 8, .ref 9, .null, .null, .null, .null, .null]
       vals := [.ref 10, .ref 13, .ref 11, .null, .null, .null, .null, .null] },
     .mkCons (.ref 14) .null, .mkCons (.ref 8) (.ref 16), .mkCons (.ref 7) (.ref 17),
     .mkCons (.ref 9) (.ref 17)]
  symbolTable := [⟨text "prepend", 9⟩, ⟨text "l", 8⟩, ⟨text "append", 7⟩]
  lastSymId := 3

/-- `(prepend l 5)` -/
theorem lists_kept_iff_prepend : ∃ s' visits r t,
    Asks World.bare (evalBody (.ref 15) (.ref 19)) frameForms visits r t ∧ SameLists s' t ∧
      FromVariable s' (.ref 13) ∧ ListValue s' [.ref 12] (.ref 13) := by
  have facts : ∃ s' t, OperatorCall World.bare .prepend (.ref 15) (.ref 19) frameForms 17 s' ∧
      (runtime World.bare).Runs (blListFirst (.ref 17)) s' (.ref 8) s' ∧
      (runtime World.bare).Runs (blEval .operand (.ref 15) (.ref 8)) s' (.ref 13) s' ∧
      (runtime World.bare).Runs (blListSecond (.ref 17)) s' (.ref 14) s' ∧
      (runtime World.bare).Runs (blEval .operand (.ref 15) (.ref 14)) s' (.ref 14) s' ∧
      (runtime World.bare).Runs (blListPrepend (.ref 13) (.ref 14)) s' (.ref 20) t ∧
      FromVariable s' (.ref 13) ∧ ListValue s' [.ref 12] (.ref 13) :=
    ⟨_, _, ⟨_, _, _, _, _, _, rfl, rfl, .symbol rfl rfl ⟨9, rfl⟩ (by decide), rfl, rfl, rfl, rfl,
      rfl, rfl, rfl⟩, ⟨9, rfl⟩, ⟨9, rfl⟩, ⟨9, rfl⟩, ⟨9, rfl⟩, ⟨9, rfl⟩,
      ⟨.ref 15, _, 13, 13, rfl, by decide, .refl, rfl⟩,
      .inr ⟨by simp, by simp, 13, _, rfl, rfl, rfl, rfl, rfl⟩⟩
  obtain ⟨s', t, called, first, value, second, value', made, from_, list⟩ := facts
  have asks := (asks_operator called).2 ⟨.ref 20, (asks_two_operands fun _ _ => silent_op _).2
    ⟨_, _, _, _, _, _, first, value, second, value', made, rfl⟩, rfl⟩
  refine ⟨s', _, _, t, asks, ?_, from_, list⟩
  refine (lists_kept_iff (by decide) called asks fun visit mem _ => ?_).1 (spares_always (.inl rfl))
  simp only [List.mem_cons, List.not_mem_nil, or_false] at mem
  rcases mem with rfl | rfl <;> exact fun _ _ _ _ cells => cells

/-- `(append l 5)` makes the list `l` longer. -/
theorem append_changes_list : ∃ s' visits r t,
    OperatorCall World.bare .append (.ref 15) (.ref 18) frameForms 17 s' ∧
      Asks World.bare (evalBody (.ref 15) (.ref 18)) frameForms visits r t ∧
      (∀ visit ∈ visits, KeepsLists s' visit.before visit.after) ∧
      FromVariable s' (.ref 13) ∧ ListValue s' [.ref 12] (.ref 13) ∧
      ListValue t [.ref 12, .ref 14] (.ref 13) ∧ ¬ SameLists s' t := by
  have facts : ∃ s' t, OperatorCall World.bare .append (.ref 15) (.ref 18) frameForms 17 s' ∧
      (runtime World.bare).Runs (blListFirst (.ref 17)) s' (.ref 8) s' ∧
      (runtime World.bare).Runs (blEval .operand (.ref 15) (.ref 8)) s' (.ref 13) s' ∧
      (runtime World.bare).Runs (blListSecond (.ref 17)) s' (.ref 14) s' ∧
      (runtime World.bare).Runs (blEval .operand (.ref 15) (.ref 14)) s' (.ref 14) s' ∧
      (runtime World.bare).Runs (blListAppend (.ref 13) (.ref 14)) s' (.ref 13) t ∧
      FromVariable s' (.ref 13) ∧ ListValue s' [.ref 12] (.ref 13) ∧
      ListValue t [.ref 12, .ref 14] (.ref 13) :=
    ⟨_, _, ⟨_, _, _, _, _, _, rfl, rfl, .symbol rfl rfl ⟨9, rfl⟩ (by decide), rfl, rfl, rfl, rfl,
      rfl, rfl, rfl⟩, ⟨9, rfl⟩, ⟨9, rfl⟩, ⟨9, rfl⟩, ⟨9, rfl⟩, ⟨9, rfl⟩,
      ⟨.ref 15, _, 13, 13, rfl, by decide, .refl, rfl⟩,
      .inr ⟨by simp, by simp, 13, _, rfl, rfl, rfl, rfl, rfl⟩,
      .inr ⟨by simp, by simp, 13, _, rfl, rfl, rfl, rfl, 20, _, rfl, rfl, rfl, rfl, rfl⟩⟩
  obtain ⟨s', t, called, first, value, second, value', appends, from_, list, longer⟩ := facts
  have asks := (asks_operator called).2 ⟨.ref 13, (asks_two_operands silent_list_append).2
    ⟨_, _, _, _, _, _, first, value, second, value', appends, rfl⟩, rfl⟩
  refine ⟨s', _, _, t, called, asks, fun visit mem => ?_, from_, list, longer, fun same => ?_⟩
  · simp only [List.mem_cons, List.not_mem_nil, or_false] at mem
    rcases mem with rfl | rfl <;> exact fun _ _ _ _ cells => cells
  · have two := list_value_unique longer (same _ _ from_ list)
    cases two

end Frames

end BearLang.ListFrames
