import BearLang.NestedImports

/-!
# The bindings of a module

`(using m::*)` binds in the context what the module binds in its own table. The name of the
module is what is left of the path without its last piece. The path is cut from the left, so
the last piece is no star where the name of the module ends in an odd number of colons.
-/

namespace BearLang.ModuleBindings

open CallPrograms ContextRefinement ContextStores OperatorCalls EqualValues Assignments Handlers
  Occurrences SplitStrings QualifiedNames NestedImports

set_option autoImplicit false

section Pieces

variable {name last rest : CStr} {i : Nat}

/-- How many colons the name ends in. -/
def trailingColons (name : CStr) : Nat := (name.reverse.takeWhile (· == chr ':')).length

theorem trailing_append (a b : CStr) :
    trailingColons (a ++ b) =
      if trailingColons b = b.length then b.length + trailingColons a else trailingColons b := by
  rw [trailingColons, List.reverse_append, List.takeWhile_append, List.length_reverse]
  change (if trailingColons b = b.length then _ else _ : CStr).length = _
  split
  · rw [List.length_append, List.length_reverse, trailingColons]
  · rfl

theorem trailing_colon (name : CStr) :
    trailingColons (name ++ text ":") = 1 + trailingColons name := by
  rw [trailing_append, if_pos (by decide)]
  rfl

theorem trailing_other {c : UInt8} (other : c ≠ chr ':') (name : CStr) :
    trailingColons (name ++ [c]) = 0 := by
  have none_ : trailingColons [c] = 0 := by simp [trailingColons, other]
  rw [trailing_append, none_, if_neg (by simp)]

/-- A name that has no separator ends in one colon at most. -/
theorem trailing_of_free (free : ¬ text "::" <:+: name) :
    trailingColons name = 0 ∨ ∃ before, name = before ++ text ":" ∧ trailingColons before = 0 := by
  rcases List.eq_nil_or_concat name with rfl | ⟨before, c, rfl⟩
  · exact .inl rfl
  · rw [List.concat_eq_append] at free ⊢
    by_cases colon : c = chr ':'
    · subst colon
      refine .inr ⟨before, rfl, ?_⟩
      rcases List.eq_nil_or_concat before with rfl | ⟨front, d, rfl⟩
      · rfl
      · rw [List.concat_eq_append] at free ⊢
        refine trailing_other (fun same => free ?_) front
        subst same
        exact ⟨front, [], by simp [text]⟩
    · exact .inl (trailing_other colon before)

/-- A separator that is put behind a name without one is found where it was put. -/
theorem separator_behind (missed : firstAt (text "::") name = none)
    (even : trailingColons name % 2 = 0) (rest : CStr) :
    firstAt (text "::") (name ++ (text "::" ++ rest)) = some name.length := by
  have free := first_at_none.1 missed
  have none_ : trailingColons name = 0 := by
    rcases trailing_of_free free with none_ | ⟨before, rfl, none_⟩
    · exact none_
    · rw [trailing_colon, none_] at even
      exact absurd even (by decide)
  refine first_at_append fun j below begins => ?_
  rw [List.drop_append_of_le_length (Nat.le_of_lt below)] at begins
  have whole := List.take_append_drop j name
  cases left : name.drop j with
  | nil => exact absurd (List.drop_eq_nil_iff.1 left) (Nat.not_le.2 below)
  | cons c more =>
      rw [left] at begins whole
      obtain ⟨tail, same⟩ := begins
      obtain ⟨rfl, later⟩ := List.cons.inj same
      cases more with
      | nil =>
          rw [← whole] at none_
          exact absurd ((trailing_colon _).symm.trans none_) (by omega)
      | cons d more =>
          obtain ⟨rfl, _⟩ := List.cons.inj later
          exact free ⟨name.take j, more, by rw [List.append_assoc]; exact whole⟩

theorem no_colon_before (found : firstAt (text "::") name = some i) :
    trailingColons (name.take i) = 0 := by
  have inside := first_at_inside found
  have width : (text "::").length = 2 := rfl
  rcases trailing_of_free (free_before found (by decide)) with none_ | ⟨before, same, _⟩
  · exact none_
  · -- the separator would be found one colon further left
    have whole := first_at_some found
    have sooner : name =
        before ++ text "::" ++ (text ":" ++ name.drop (i + (text "::").length)) := by
      rw [same] at whole
      simpa [text] using whole
    cases earlier : firstAt (text "::") (before ++ text "::") with
    | none => exact absurd (List.suffix_append before (text "::")).isInfix (first_at_none.1 earlier)
    | some j =>
        have again := first_at_more earlier (text ":" ++ name.drop (i + (text "::").length))
        rw [← sooner, found] at again
        obtain rfl := Option.some.inj again
        have early := first_at_inside earlier
        have length := congrArg List.length same
        rw [List.length_take, Nat.min_eq_left (by omega), List.length_append] at length
        rw [List.length_append] at early
        have one : (text ":").length = 1 := rfl
        omega

/-- The last piece ends in as many colons as the name, but for pairs. -/
theorem trailing_last_piece (name : CStr)
    (isLast : (cutAll (text "::") name).getLast? = some last) :
    trailingColons last % 2 = trailingColons name % 2 := by
  have some_ : text "::" ≠ [] := by decide
  have width : (text "::").length = 2 := rfl
  induction name using cut_induction some_ with
  | last name missed =>
      rw [cut_all_none missed] at isLast
      obtain rfl := Option.some.inj isLast
      rfl
  | cut name i found ih =>
      have more := cut_all_ne_nil some_ (name.drop (i + (text "::").length))
      rw [cut_all_found some_ found, List.getLast?_cons_of_ne_nil more] at isLast
      rw [ih isLast]
      have none_ := no_colon_before found
      have colons : trailingColons (text "::") = 2 := by decide
      conv_rhs =>
        rw [first_at_some found, trailing_append, trailing_append, List.length_append, none_]
      split
      · split
        · omega
        · omega
      · split
        · omega
        · omega

/-- A separator behind an even number of colons is cut at. -/
theorem cut_behind (even : trailingColons name % 2 = 0) (missed : firstAt (text "::") rest = none) :
    cutAll (text "::") (name ++ (text "::" ++ rest)) = cutAll (text "::") name ++ [rest] := by
  have some_ : text "::" ≠ [] := by decide
  rw [cut_all_append some_ name fun piece isLast => ?_, cut_all_none missed]
  refine separator_behind ?_ ((trailing_last_piece name isLast).trans even) rest
  exact first_at_none.2 (cut_all_free some_ name piece (List.mem_of_getLast? isLast))

theorem split_starred (name : CStr) :
    splitPieces (text "::") (name ++ text "::*") =
      trimmed (cutAll (text "::") (name ++ text "::*")) := by
  rw [splitPieces, if_neg]
  rw [List.length_append]
  have width : (text "::*").length = 3 := rfl
  have width' : (text "::").length = 2 := rfl
  omega

/-- The pieces of `m::*` are those of `m` and the star. -/
theorem module_pieces (even : trailingColons name % 2 = 0) :
    splitPieces (text "::") (name ++ text "::*") = cutAll (text "::") name ++ [text "*"] := by
  have pieces : cutAll (text "::") (name ++ text "::*") = cutAll (text "::") name ++ [text "*"] :=
    cut_behind even (by decide)
  rw [split_starred, pieces, trimmed, List.getLast?_concat, if_neg (by decide)]

/-- Behind an odd number of colons the separator is cut at one colon too early. -/
theorem module_pieces_odd (odd : trailingColons name % 2 = 1) :
    ∃ before, name = before ++ text ":" ∧
      splitPieces (text "::") (name ++ text "::*") = cutAll (text "::") before ++ [text ":*"] := by
  rcases List.eq_nil_or_concat name with rfl | ⟨before, c, rfl⟩
  · exact absurd odd (by decide)
  · rw [List.concat_eq_append] at odd ⊢
    by_cases colon : c = chr ':'
    · subst colon
      have one : trailingColons (before ++ [chr ':']) = 1 + trailingColons before :=
        trailing_colon before
      have shape : before ++ [chr ':'] ++ text "::*" = before ++ (text "::" ++ text ":*") :=
        List.append_assoc before _ _
      have pieces : cutAll (text "::") (before ++ [chr ':'] ++ text "::*") =
          cutAll (text "::") before ++ [text ":*"] := by
        rw [shape]
        exact cut_behind (by omega) (by decide)
      refine ⟨before, rfl, ?_⟩
      rw [split_starred, pieces, trimmed, List.getLast?_concat, if_neg (by decide)]
    · rw [trailing_other colon before] at odd
      exact absurd odd (by decide)

/-- The last piece of `m::*` is the star exactly if `m` ends in an even number of colons. -/
theorem star_last_iff : (splitPieces (text "::") (name ++ text "::*")).getLast? = some (text "*") ↔
    trailingColons name % 2 = 0 := by
  constructor
  · intro star
    by_contra odd
    obtain ⟨before, _, pieces⟩ := module_pieces_odd (show trailingColons name % 2 = 1 by omega)
    rw [pieces, List.getLast?_concat] at star
    exact absurd star (by decide)
  · intro even
    rw [module_pieces even, List.getLast?_concat]

end Pieces

section Keys

variable {W : World} {s t : State} {key : Ptr} {id : Nat} {op : Op}

/-- The key is a symbol with this id. -/
def KeyOf (s : State) (key : Ptr) (id : Nat) : Prop :=
  ∃ cell, s.cell key = some cell ∧ cell.type = .symbol ∧ cell.symId = some id

/-- Where a context has a value, it has the symbol with the id of the slot as its key. -/
def Keyed (s : State) : Prop :=
  ∀ p c, ctxAt s p = some c →
    Sized c ∧ ∀ i, c.vals.getD i .null ≠ .null → KeyOf s (c.keys.getD i .null) i

def isKeyOf (s : State) (key : Ptr) (id : Nat) : Bool :=
  match s.cell key with
  | some cell => cell.type == .symbol && cell.symId == some id
  | none => false

/-- Whether the keys of a cell are in order can be computed. -/
def hasKeys (s : State) (cell : Cell) : Bool :=
  match cell.asCtx with
  | some c => decide (Sized c) &&
      (List.range c.vals.length).all fun i =>
        c.vals.getD i .null == .null || isKeyOf s (c.keys.getD i .null) i
  | none => true

theorem key_of_check (checked : isKeyOf s key id = true) : KeyOf s key id := by
  rw [isKeyOf] at checked
  split at checked
  · rename_i cell known
    obtain ⟨type, symId⟩ := Bool.and_eq_true_iff.1 checked
    exact ⟨cell, known, eq_of_beq type, eq_of_beq symId⟩
  · cases checked

theorem keyed_of_check (checked : s.cells.all (hasKeys s) = true) : Keyed s := by
  intro p c known
  obtain ⟨cell, found, member⟩ := Option.bind_eq_some_iff.1 known
  obtain ⟨a, rfl⟩ := State.ref_of_cell found
  have inOrder := List.all_eq_true.1 checked cell (List.mem_of_getElem? found)
  simp only [hasKeys, member, Bool.and_eq_true, decide_eq_true_eq] at inOrder
  refine ⟨inOrder.1, fun i filled => ?_⟩
  have inside : i < c.vals.length := by
    by_contra outside
    exact filled (get_past_end (Nat.not_lt.1 outside))
  have slot := List.all_eq_true.1 inOrder.2 i (List.mem_range.2 inside)
  rcases Bool.or_eq_true_iff.1 slot with empty | isKey
  · exact absurd (eq_of_beq empty) filled
  · exact key_of_check isKey

theorem keyed_initial : Keyed State.initial := keyed_of_check (by decide)

/-- A context is made empty, a value is stored under the id of its key, and no symbol gets
another id. -/
def StoresKeyed (op : Op) (s : State) : Prop :=
  (∀ cell c, op = .alloc cell → cell.asCtx = some c → Sized c ∧ ∀ i, c.vals.getD i .null = .null) ∧
  (∀ ctx i k val, op = .ctxStore ctx i k val → KeyOf s k i) ∧
  (∀ site p q, op = .setCdr site p q → s.typeOf p ≠ some .symbol) ∧
  ∀ p i, op = .setIVal p i → s.typeOf p ≠ some .symbol

theorem key_of_step {answer : op.Answer} (stores : StoresKeyed op s)
    (stepped : step op s = some (answer, t)) (isKey : KeyOf s key id) : KeyOf t key id := by
  obtain ⟨cell, known, type, symId⟩ := isKey
  have symbol : s.typeOf key = some .symbol := by rw [State.typeOf, known, Option.map_some, type]
  obtain ⟨new, found, change⟩ := step_cell stepped known
  cases change with
  | cdr site q => exact absurd symbol (stores.2.2.1 site key q rfl)
  | number i => exact absurd symbol (stores.2.2.2 key i rfl)
  | same => exact ⟨_, found, type, symId⟩
  | invoked => exact ⟨_, found, type, symId⟩
  | inner => exact ⟨_, found, type, symId⟩
  | mark => exact ⟨_, found, type, symId⟩
  | line => exact ⟨_, found, type, symId⟩
  | store => exact ⟨_, found, type, symId⟩

theorem keyed_step {answer : op.Answer} (keyed : Keyed s) (stores : StoresKeyed op s)
    (stepped : step op s = some (answer, t)) : Keyed t := by
  intro p c known
  obtain ⟨cell, found, member⟩ := Option.bind_eq_some_iff.1 known
  cases before : s.cell p with
  | none =>
      obtain ⟨a, rfl⟩ := State.ref_of_cell found
      obtain ⟨_, rfl | ⟨name, rfl⟩⟩ := step_made stepped before found
      · obtain ⟨sized, empty⟩ := stores.1 cell c rfl member
        exact ⟨sized, fun i filled => absurd (empty i) filled⟩
      · cases member
        exact ⟨⟨rfl, rfl⟩, fun i filled => absurd rfl filled⟩
  | some old =>
      obtain ⟨new, found', change⟩ := step_cell stepped before
      obtain rfl := Option.some.inj (found.symm.trans found')
      have kept (x : Ctx) (member : old.asCtx = some x) : Sized x ∧
          ∀ i, x.vals.getD i .null ≠ .null → KeyOf t (x.keys.getD i .null) i := by
        obtain ⟨sized, keys⟩ := keyed p x (Option.bind_eq_some_iff.2 ⟨old, before, member⟩)
        exact ⟨sized, fun i filled => key_of_step stores stepped (keys i filled)⟩
      cases change with
      | same => exact kept c member
      | cdr => exact kept c member
      | number => exact kept c member
      | invoked => exact kept c member
      | line => exact kept c member
      | inner => cases member
      | mark ctx _ tail =>
          cases member
          exact kept ctx (by rw [Cell.asCtx, tail])
      | store i k val ctx stored _ tail set =>
          cases member
          obtain ⟨sized, keys⟩ := kept ctx (by rw [Cell.asCtx, tail])
          obtain ⟨other, set', spec⟩ := store_spec sized i k val
          obtain rfl := Option.some.inj (set.symm.trans set')
          refine ⟨spec.sized, fun j filled => ?_⟩
          rw [spec.vals] at filled
          rw [spec.keys]
          by_cases same : j = i
          · subst same
            rw [if_pos rfl]
            exact key_of_step stores stepped (stores.2.1 p j k val rfl)
          · rw [if_neg same] at filled ⊢
            exact keys j filled

/-- What the code stores goes under the id of its key. -/
theorem stores_keyed_of_storing (conduct : storing.op op s) (spared : SparesSymbols op s) :
    StoresKeyed op s := by
  refine ⟨?_, ?_, ?_, ?_⟩
  · rintro cell c rfl member
    exact conduct.2 c member
  · rintro ctx i k val rfl
    obtain ⟨cell, known, symId⟩ := conduct
    have symbol : s.typeOf k = some .symbol := spared
    rw [State.typeOf, known] at symbol
    exact ⟨cell, known, Option.some.inj symbol, symId⟩
  · rintro site p q rfl
    exact spared
  · rintro p i rfl
    exact spared

/-- In a run that spares the symbols the keys stay in order. -/
theorem keyed_reached (extensions : Storing W) {α : Type} {program rest : Prog α}
    (keeps : Stores W program) (keyed : Keyed s) (reached : (runtime W).Reaches program s rest t)
    (spared : ∀ op before, (runtime W).Performs program s op before → SparesSymbols op before) :
    Keyed t := by
  have steps : ∀ op before answer after, Keyed before → StoresKeyed op before →
      (runtime W).step op before = some (answer, after) → Keyed after :=
    fun _ _ _ _ keyed stores stepped => keyed_step keyed stores stepped
  refine guarded_invariant StoresKeyed steps reached (fun op before performed => ?_) keyed
  exact stores_keyed_of_storing (storing_performed extensions keeps performed)
    (spared op before performed)

/-- From the start on every context is in order, as long as the symbols are spared. -/
theorem slots_in_order (extensions : Storing W) {α : Type} {program rest : Prog α}
    (keeps : Stores W program) (reached : (runtime W).Reaches program State.initial rest t)
    (spared : ∀ op before, (runtime W).Performs program State.initial op before →
      SparesSymbols op before) : SlotsMade t ∧ IdsBelow t ∧ Keyed t := by
  obtain ⟨slots, below⟩ := slots_made_reached extensions keeps slots_made_initial ids_below_initial
    reached spared
  exact ⟨slots, below, keyed_reached extensions keeps keyed_initial reached spared⟩

end Keys

section Loop

variable {W : World} {s t u : State} {ctx other key v r : Ptr} {b i id : Nat} {cell : Cell}
  {c own : Ctx}

/-- The slots of the context from the `i`-th on have the values that `other` has there, unless
it has none. Nothing else is different. -/
structure Copied (ctx other : Ptr) (i : Nat) (s t : State) : Prop where
  fronts : SameFronts s t
  others : ∀ p, p ≠ ctx → t.cell p = s.cell p
  bound : ∀ j, boundTo t ctx j =
    if i ≤ j ∧ boundTo s other j ≠ .null then boundTo s other j else boundTo s ctx j
  own : ∀ c, ctxAt s ctx = some c →
    ∃ d, ctxAt t ctx = some d ∧ Sized d ∧ d.parent = c.parent ∧ d.ctxGet = c.ctxGet

theorem runs_ctx_key (known : ctxAt s other = some c) (slot : c.keys[i]? = some key) :
    (runtime W).Runs (ctxKey other i) s key s := by
  refine runs_step ?_
  have read : (((s.cell other).bind Cell.asCtx).bind fun c => c.keys[i]?) = some key := by
    rw [show (s.cell other).bind Cell.asCtx = some c from known]
    exact slot
  simp only [step, read, Option.map_some]

theorem runs_using_loop :
    (runtime W).Runs (call (.usingLoop ctx other i)) s r t ↔
      (runtime W).Runs (usingLoop ctx other i) s r t :=
  runs_call_iff (c := .usingLoop ctx other i)

theorem loop_ends (known : ctxAt s other = some c) (outside : c.valsCount ≤ i) :
    (runtime W).Runs (call (.usingLoop ctx other i)) s nullVal s := by
  rw [runs_using_loop, usingLoop, runs_after (runs_load_at known), if_neg (by omega)]
  exact runs_pure_self _ _

theorem loop_skips (known : ctxAt s other = some c) (sized : Sized c) (inside : i < c.valsCount)
    (empty : c.vals.getD i .null = .null) :
    (runtime W).Runs (call (.usingLoop ctx other i)) s r t ↔
      (runtime W).Runs (call (.usingLoop ctx other (i + 1))) s r t := by
  have slot := sized_slot sized inside
  rw [runs_using_loop, usingLoop, runs_after (runs_load_at known), if_pos inside,
    runs_after (runs_ctx_val known slot), if_neg fun filled => filled empty]

theorem loop_copies (known : ctxAt s other = some c) (sized : Sized c) (inside : i < c.valsCount)
    (filled : c.vals.getD i .null ≠ .null)
    (set : (runtime W).Runs (blCtxSet ctx (c.keys.getD i .null) (c.vals.getD i .null)) s v u) :
    (runtime W).Runs (call (.usingLoop ctx other i)) s r t ↔
      (runtime W).Runs (call (.usingLoop ctx other (i + 1))) u r t := by
  have slot := sized_slot sized inside
  have keySlot : c.keys[i]? = some (c.keys.getD i .null) := by
    have bound : i < c.keys.length := by
      rw [sized.1]
      exact inside
    rw [List.getD_eq_getElem?_getD, List.getElem?_eq_getElem bound, Option.getD_some]
  rw [runs_using_loop, usingLoop, runs_after (runs_load_at known), if_pos inside,
    runs_after (runs_ctx_val known slot), if_pos filled, runs_after (runs_ctx_key known keySlot),
    runs_after set]

theorem get_set_same {slots : List Ptr} (below : i < slots.length) :
    slots.set i (slots.getD i .null) = slots := by
  rw [List.getD_eq_getElem?_getD, List.getElem?_eq_getElem below, Option.getD_some,
    List.set_getElem_self]

/-- Storing what is in the slot already changes nothing. -/
theorem store_again (sized : Sized c) (inside : i < c.valsCount) :
    c.store i (c.keys.getD i .null) (c.vals.getD i .null) = some c := by
  have room : i < c.keys.length ∧ i < c.vals.length := by
    rw [sized.1, sized.2]
    exact ⟨inside, inside⟩
  simp only [Ctx.store, if_pos inside, if_pos room, get_set_same room.1, get_set_same room.2]

theorem set_again (found : s.cell (.ref b) = some cell) (tail : cell.tail = .ctx c)
    (sized : Sized c) (unredirected : c.writeToParent = false) (inside : i < c.valsCount)
    (isKey : KeyOf s (c.keys.getD i .null) i) :
    (runtime W).Runs (blCtxSet (.ref b) (c.keys.getD i .null) (c.vals.getD i .null)) s
      (c.vals.getD i .null) s := by
  obtain ⟨keyCell, keyFound, _, symId⟩ := isKey
  have written := ctx_store_runs (W := W) found tail (store_again sized inside)
  have same : s.put b { cell with tail := .ctx c } = s := by
    obtain ⟨below, rfl⟩ := List.getElem?_eq_some_iff.1 (show s.cells[b]? = some cell from found)
    rw [← tail, State.put, List.set_getElem_self]
  rw [same] at written
  rw [blCtxSet, runs_after (runs_load_ctx found tail), unredirected, if_neg Bool.false_ne_true,
    runs_after (runs_load keyFound), runs_after (runs_member symId s), runs_after written]
  exact runs_pure_self _ _

theorem copied_refl (sized : ∀ x, ctxAt s ctx = some x → Sized x)
    (nothing : ∀ j, i ≤ j → boundTo s other j = .null) : Copied ctx other i s s where
  fronts _ c known := ⟨c.tail, known⟩
  others _ _ := rfl
  bound j := by
    rw [if_neg]
    exact fun both => both.2 (nothing j both.1)
  own x known := ⟨x, known, sized x known, rfl, rfl⟩

/-- A slot that is the same already can be left out. -/
theorem copied_before (same : boundTo s other i = .null ∨ other = ctx)
    (copied : Copied ctx other (i + 1) s t) : Copied ctx other i s t := by
  refine ⟨copied.fronts, copied.others, fun j => ?_, copied.own⟩
  rw [copied.bound]
  by_cases here : j = i
  · subst here
    rw [if_neg fun both => Nat.not_succ_le_self j both.1]
    rcases same with empty | rfl
    · rw [if_neg fun both => both.2 empty]
    · split
      · rfl
      · rfl
  · have shift : i + 1 ≤ j ↔ i ≤ j := by omega
    simp only [shift]

/-- The value of a slot is stored, and then those of the slots behind it. -/
theorem copied_stored (stored : StoredIn ctx i (boundTo s other i) s u) (apart : other ≠ ctx)
    (filled : boundTo s other i ≠ .null) (copied : Copied ctx other (i + 1) u t) :
    Copied ctx other i s t := by
  have elsewhere (j : Nat) : boundTo u other j = boundTo s other j := by
    rw [stored_bound stored, if_neg fun both => apart both.1]
  have here (j : Nat) : boundTo u ctx j = if j = i then boundTo s other i else boundTo s ctx j := by
    rw [stored_bound stored]
    simp only [true_and]
  have fronts := stored_fronts stored
  obtain ⟨b, cell, old, new, key, rfl, found, tail, spec, rfl⟩ := stored
  refine ⟨fun p c known => ?_, fun p away => ?_, fun j => ?_, fun x known => ?_⟩
  · obtain ⟨tail', known'⟩ := fronts p c known
    obtain ⟨tail'', found'⟩ := copied.fronts p _ known'
    exact ⟨tail'', found'⟩
  · rw [copied.others p away, State.cell_put_other away]
  · rw [copied.bound, elsewhere, here]
    by_cases same : j = i
    · subst same
      rw [if_neg fun both => Nat.not_succ_le_self j both.1, if_pos rfl,
        if_pos ⟨Nat.le_refl j, filled⟩]
    · have shift : i + 1 ≤ j ↔ i ≤ j := by omega
      simp only [shift, if_neg same]
  · have isOld : x = old := by
      rw [ctxAt, found, Option.bind_some, Cell.asCtx, tail] at known
      exact (Option.some.inj known).symm
    subst isOld
    have after : ctxAt (s.put b { cell with tail := .ctx new }) (.ref b) = some new := by
      rw [ctxAt, State.cell_put_same (State.ref_lt_fresh found)]
      rfl
    obtain ⟨d, known', sized, parent, getter⟩ := copied.own new after
    exact ⟨d, known', sized, parent.trans spec.parent, getter.trans spec.ctxGet⟩

theorem key_of_fronts (fronts : SameFronts s t) (isKey : KeyOf s key id) : KeyOf t key id := by
  obtain ⟨keyCell, known, type, symId⟩ := isKey
  obtain ⟨tail, known'⟩ := fronts key keyCell known
  exact ⟨_, known', type, symId⟩

theorem past_end_unbound (known : ctxAt s other = some c) (sized : Sized c)
    (outside : c.valsCount ≤ i) : boundTo s other i = .null := by
  rw [bound_to_context known]
  exact get_past_end (by rw [sized.2]; exact outside)

/-- The loop copies what it has not come to yet, whether its table is another one or the one
that it writes. -/
theorem using_loop_runs (i : Nat) (found : s.cell (.ref b) = some cell)
    (tail : cell.tail = .ctx own) (sizedOwn : Sized own) (unredirected : own.writeToParent = false)
    (known : ctxAt s other = some c) (sized : Sized c)
    (keys : ∀ j, c.vals.getD j .null ≠ .null → KeyOf s (c.keys.getD j .null) j) :
    ∃ t, (runtime W).Runs (call (.usingLoop (.ref b) other i)) s nullVal t ∧
      Copied (.ref b) other i s t := by
  generalize left : c.valsCount - i = n
  induction n generalizing s i cell own with
  | zero =>
      have outside : c.valsCount ≤ i := by omega
      have isOwn : ctxAt s (.ref b) = some own := by
        rw [ctxAt, found, Option.bind_some, Cell.asCtx, tail]
      refine ⟨s, loop_ends known outside, copied_refl (fun x here => ?_) fun j more => ?_⟩
      · obtain rfl := Option.some.inj (isOwn.symm.trans here)
        exact sizedOwn
      · exact past_end_unbound known sized (Nat.le_trans outside more)
  | succ n ih =>
      have inside : i < c.valsCount := by omega
      have left' : c.valsCount - (i + 1) = n := by omega
      have slot := bound_to_context known i
      by_cases empty : c.vals.getD i .null = .null
      · obtain ⟨t, run, copied⟩ := ih (i + 1) found tail sizedOwn unredirected known keys left'
        exact ⟨t, (loop_skips known sized inside empty).2 run,
          copied_before (.inl (slot.trans empty)) copied⟩
      · by_cases self : other = .ref b
        · -- what is read is what is written
          subst self
          have isOwn : c = own := by
            rw [ctxAt, found, Option.bind_some, Cell.asCtx, tail] at known
            exact (Option.some.inj known).symm
          subst isOwn
          obtain ⟨t, run, copied⟩ := ih (i + 1) found tail sizedOwn unredirected known keys left'
          have set := set_again (W := W) found tail sized unredirected inside (keys i empty)
          exact ⟨t, (loop_copies known sized inside empty set).2 run,
            copied_before (.inr rfl) copied⟩
        · obtain ⟨keyCell, isKey, _, symId⟩ := keys i empty
          obtain ⟨new, spec, set⟩ := ctx_set_stores (W := W) (c.vals.getD i .null) found tail
            sizedOwn unredirected isKey symId
          have stored : StoredIn (.ref b) i (boundTo s other i) s
              (s.put b { cell with tail := .ctx new }) :=
            ⟨b, cell, own, new, _, rfl, found, tail, slot ▸ spec, rfl⟩
          have known' : ctxAt (s.put b { cell with tail := .ctx new }) other = some c := by
            rw [ctxAt, State.cell_put_other self]
            exact known
          obtain ⟨t, run, copied⟩ := ih (i + 1)
            (State.cell_put_same (State.ref_lt_fresh found) _) rfl spec.sized
            (spec.writeToParent.trans unredirected) known'
            (fun j filled => key_of_fronts (stored_fronts stored) (keys j filled)) left'
          exact ⟨t, (loop_copies known sized inside empty set).2 run,
            copied_stored stored self (slot ▸ empty) copied⟩

end Loop

section Using

variable {W : World} {s s' t : State} {ctx module expr sym p key : Ptr} {more : List Ptr}
  {n id : Nat} {symCell ctxCell : Cell} {own x : Ctx} {m : CStr}

/-- There may be more cells, but nothing is bound that was not bound before. -/
structure BindsNothing (s t : State) : Prop where
  extended : Extends s t
  bound : ∀ p i, boundTo t p i = boundTo s p i

/-- Whenever the name is looked up from the context, it leads to this pointer. -/
def Resolves (W : World) (s : State) (ctx : Ptr) (name : CStr) (module : Ptr) : Prop :=
  ∀ t, Later s t → ∃ u, (runtime W).Runs (nameLookup ctx name) t module u ∧ BindsNothing t u

theorem resolves_of_answers (answers : Answers W s ctx m module) : Resolves W s ctx m module := by
  intro t later
  obtain ⟨u, run, after⟩ := answers t later
  exact ⟨u, run, after.extended, after.bound⟩

/-- The first steps of `bl_oper_using`: the path is split and the module looked up. -/
theorem using_enters (formed : Formed s) (operands : ListAt s (sym :: more) p)
    (isSym : s.cell sym = some symCell) (isPath : symCell.sVal = some (m ++ text "::*"))
    (even : trailingColons m % 2 = 0) (resolves : Resolves W s ctx m module)
    (filled : module ≠ .null) :
    ∃ u, BindsNothing s u ∧ ∀ r t, (runtime W).Runs (blOperUsing ctx p) s r t ↔
      (runtime W).Runs (call (.usingLoop ctx module 0)) u r t := by
  have some_ : m ++ text "::*" ≠ [] := List.append_ne_nil_of_right_ne_nil m (by decide)
  have pieces : cutAll (text "::") m ≠ [] := cut_all_ne_nil (by decide) m
  obtain ⟨L, u₁, split, added₁, strings⟩ := split_runs (W := W) s some_
    (show text "::" ≠ [] by decide)
  rw [module_pieces even] at strings
  have later₁ := later_of_run (later_refl formed.sound formed.ids) split added₁
  obtain ⟨q, lastCell, lastRun, lastKnown, lastVal⟩ := strings_last_runs (W := W) strings
  have star : Exact s (text "*") := exact_of_short formed.sound (by decide)
  have later₂ := later_trans later₁ (later_interned star later₁)
  obtain ⟨R, u₃, reversed, added₃, turned⟩ := reverse_strings_runs (W := W)
    (strings_extends (mk_symbol_extends (text "*") u₁) strings)
  have later₃ := later_trans later₂ (later_of_run later₂ reversed added₃)
  rw [List.reverse_append] at turned
  obtain ⟨rest, restRun, rest_⟩ : ∃ rest, (runtime W).Runs (blListRest R) u₃ rest u₃ ∧
      StringsAt u₃ (cutAll (text "::") m).reverse rest := by
    obtain ⟨ps, list, held⟩ := turned
    cases held with
    | cons first others =>
        obtain ⟨rest, run, list'⟩ := list_rest_runs (W := W) list
        exact ⟨rest, run, _, list', others⟩
  obtain ⟨A, u₄, back, added₄, names⟩ := reverse_strings_runs (W := W) rest_
  have later₄ := later_trans later₃ (later_of_run later₃ back added₄)
  rw [List.reverse_reverse] at names
  have joined := join_runs (W := W) names (text "::")
  rw [if_neg pieces, join_cut_all (by decide) m] at joined
  obtain ⟨u₅, looked, after⟩ := resolves u₄ later₄
  rw [nameLookup, runs_bind] at looked
  obtain ⟨key, w, made, found⟩ := looked
  refine ⟨u₅, ⟨extends_trans later₄.extended after.extended, fun p i =>
    (after.bound p i).trans (later₄.bound p i)⟩, fun r t => ?_⟩
  rw [blOperUsing, runs_after (list_first_runs operands), runs_after (runs_str_of isSym isPath),
    runs_after split, runs_after lastRun, runs_after (runs_str_of lastKnown lastVal),
    runs_after (runs_mk_symbol (text "*") u₁), runs_after reversed, runs_after restRun,
    runs_after back, runs_after joined, runs_after (runs_member rfl u₄), runs_after made,
    runs_after found, if_neg filled, if_pos rfl]

/-- The symbol is looked up from the context with the same result in both states, or the same
custom getter of the same context is asked for it. -/
def ResolvesAlike (W : World) (ctx key : Ptr) (s t : State) : Prop :=
  (∀ v, (∃ u, (runtime W).Runs (blCtxGet ctx key) s v u) ↔
    ∃ u, (runtime W).Runs (blCtxGet ctx key) t v u) ∨
  ∃ number q, (runtime W).Reaches (blCtxGet ctx key) s (call (.customGet number q key)) s ∧
    (runtime W).Reaches (blCtxGet ctx key) t (call (.customGet number q key)) t

theorem resolves_alike (formed : Formed s) (kept : SlotsKept s t id) (named : PlainSymbol s key id)
    (named' : PlainSymbol t key id) (away : Away [] s ctx) : ResolvesAlike W ctx key s t := by
  have same := later_refl formed.sound formed.ids
  by_cases ends : ∃ o, Looks s id ctx o
  · obtain ⟨o, looks⟩ := ends
    have before := get_ends_as (W := W) formed same named away looks
    have after := get_ends_kept (W := W) formed.closed kept named' away looks
    cases o with
    | gives v =>
        refine .inl fun w => ⟨?_, ?_⟩
        · rintro ⟨u, run⟩
          obtain ⟨rfl, rfl⟩ := runs_functional run before
          exact ⟨_, after⟩
        · rintro ⟨u, run⟩
          obtain ⟨rfl, rfl⟩ := runs_functional run after
          exact ⟨_, before⟩
    | asks number q => exact .inr ⟨number, q, before, after⟩
    | breaks =>
        refine .inl fun w => ⟨?_, ?_⟩
        · rintro ⟨u, run⟩
          exact absurd run (before w u)
        · rintro ⟨u, run⟩
          exact absurd run (after w u)
  · have endless : ∀ o, ¬ Looks s id ctx o := fun o looks => ends ⟨o, looks⟩
    refine .inl fun w => ⟨?_, ?_⟩
    · rintro ⟨u, run⟩
      exact absurd run (endless_look_up formed same named away endless)
    · rintro ⟨u, run⟩
      exact absurd run (endless_kept formed.closed kept named' away endless)

/-- The context has the bindings of the module besides its own, and nothing else is different. -/
structure Imports (W : World) (ctx module : Ptr) (s t : State) : Prop where
  bound : ∀ i, boundTo s module i ≠ .null → boundTo t ctx i = boundTo s module i
  found : ∀ key i, PlainSymbol s key i → PlainContext s ctx → boundTo s module i ≠ .null →
    (runtime W).Runs (blCtxGet ctx key) t (boundTo s module i) t
  others : ∀ key i, PlainSymbol s key i → boundTo s module i = .null → ResolvesAlike W ctx key s t
  unchanged : ∀ p c, p ≠ ctx → s.cell p = some c → t.cell p = some c

theorem plain_symbol_copied (quiet : BindsNothing s s') (copied : Copied ctx module 0 s' t)
    (named : PlainSymbol s key id) : PlainSymbol t key id := by
  obtain ⟨cell, name, known, type, sVal, symId, shape⟩ := named
  obtain ⟨tail, found⟩ := copied.fronts key cell (quiet.extended key cell known)
  exact ⟨_, name, found, type, sVal, symId, shape⟩

theorem bound_copied (quiet : BindsNothing s s') (copied : Copied ctx module 0 s' t) (i : Nat) :
    boundTo t ctx i =
      if boundTo s module i ≠ .null then boundTo s module i else boundTo s ctx i := by
  rw [copied.bound, quiet.bound, quiet.bound]
  simp only [Nat.zero_le, true_and]

theorem context_copied (formed : Formed s) (quiet : BindsNothing s s')
    (copied : Copied ctx module 0 s' t) {c : Ctx} (known : ctxAt s p = some c) :
    ∃ d, ctxAt t p = some d ∧ Sized d ∧ d.parent = c.parent ∧ d.ctxGet = c.ctxGet ∧
      (p ≠ ctx → ∀ i, boundTo t p i = boundTo s p i) := by
  obtain ⟨cell, found, member⟩ := Option.bind_eq_some_iff.1 known
  have old := quiet.extended p cell found
  by_cases here : p = ctx
  · subst here
    obtain ⟨d, known', sized, parent, getter⟩ :=
      copied.own c (Option.bind_eq_some_iff.2 ⟨cell, old, member⟩)
    exact ⟨d, known', sized, parent, getter, fun away => absurd rfl away⟩
  · have known' : ctxAt t p = some c :=
      Option.bind_eq_some_iff.2 ⟨cell, (copied.others p here).trans old, member⟩
    refine ⟨c, known', (formed.slots p c known).1, rfl, rfl, fun _ i => ?_⟩
    rw [bound_to_context known, bound_to_context known']

/-- For a symbol that the module does not bind the contexts are the same. -/
theorem slots_kept_copied (formed : Formed s) (quiet : BindsNothing s s')
    (copied : Copied ctx module 0 s' t) (here : ctxAt s ctx = some own)
    (unbound : boundTo s module id = .null) : SlotsKept s t id where
  missing p away missing := by
    have other : p ≠ ctx := by
      rintro rfl
      rw [here] at missing
      cases missing
    rw [ctxAt, copied.others p other, ← ctxAt, ctx_at_later quiet.extended away, missing]
  context p c known := by
    obtain ⟨d, known', sized, parent, getter, same⟩ := context_copied formed quiet copied known
    refine ⟨d, known', sized, parent, getter, ?_⟩
    by_cases own_ : p = ctx
    · subst own_
      rw [bound_copied quiet copied, if_neg fun filled => filled unbound]
    · exact same own_ id

theorem imports_of_copied (W : World) (formed : Formed s) (quiet : BindsNothing s s')
    (copied : Copied ctx module 0 s' t) (here : ctxAt s ctx = some own) (away : Away [] s ctx) :
    Imports W ctx module s t where
  bound i filled := by rw [bound_copied quiet copied, if_pos filled]
  found key i named plain filled := by
    obtain ⟨c, known, custom⟩ := plain_context_at plain
    obtain ⟨d, known', sized, _, getter, _⟩ := context_copied formed quiet copied known
    have value : d.vals.getD i .null = boundTo s module i := by
      rw [← bound_to_context known', bound_copied quiet copied, if_pos filled]
    obtain ⟨inside, slot⟩ := slot_filled sized value filled
    rw [ctx_get_by_id (plain_symbol_copied quiet copied named) known' (getter.trans custom),
      lookup_filled known' inside slot filled]
    exact ⟨rfl, rfl⟩
  others key i named unbound :=
    resolves_alike formed (slots_kept_copied formed quiet copied here unbound) named
      (plain_symbol_copied quiet copied named) away
  unchanged p c other known := (copied.others p other).trans (quiet.extended p c known)

/-- Using all of a module binds what the module itself binds, with the same values, however large
the two tables are, and also where the module is an outer context or the context itself. -/
theorem module_bindings_imported (site : Site)
    (called : OperatorCall W .usingModule ctx expr s n s')
    (operands : ListAt s' (sym :: more) (.ref n)) (isSym : s'.cell sym = some symCell)
    (isPath : symCell.sVal = some (m ++ text "::*")) (even : trailingColons m % 2 = 0)
    (formed : Formed s') (keyed : Keyed s') (here : s'.cell ctx = some ctxCell)
    (table : ctxCell.tail = .ctx own) (unredirected : own.writeToParent = false)
    (resolves : Resolves W s' ctx m module) (isContext : ctxAt s' module = some x) :
    ∃ t, (runtime W).Runs (blEval site ctx expr) s nullVal t ∧ Imports W ctx module s' t := by
  obtain ⟨b, rfl⟩ := State.ref_of_cell here
  have filled : module ≠ .null := by
    rintro rfl
    cases isContext
  have known : ctxAt s' (.ref b) = some own := by
    rw [ctxAt, here, Option.bind_some, Cell.asCtx, table]
  have away : Away [] s' (.ref b) := by
    rintro a ⟨⟩
    exact ⟨State.ref_lt_fresh here, List.not_mem_nil⟩
  obtain ⟨u, quiet, enters⟩ := using_enters formed operands isSym isPath even resolves filled
  obtain ⟨sized, keys⟩ := keyed module x isContext
  have isContext' : ctxAt u module = some x := by
    obtain ⟨cell, found, member⟩ := Option.bind_eq_some_iff.1 isContext
    exact Option.bind_eq_some_iff.2 ⟨cell, quiet.extended module cell found, member⟩
  obtain ⟨t, run, copied⟩ := using_loop_runs (W := W) 0 (quiet.extended _ _ here) table
    (keyed _ _ known).1 unredirected isContext' sized fun j bound => by
      obtain ⟨keyCell, isKey, type, symId⟩ := keys j bound
      exact ⟨keyCell, quiet.extended _ _ isKey, type, symId⟩
  refine ⟨t, (operator_call_runs called site).2 ⟨nullVal, ?_, ?_⟩,
    imports_of_copied W formed quiet copied known away⟩
  · change (runtime W).Runs (blOperUsing (.ref b) (.ref n)) s' nullVal t
    exact (enters nullVal t).2 run
  · rfl

/-- The module that is bound to the first name has a module `b`, and this has a variable `x`. The
expression uses the wanted path in a context that has only two slots. -/
def starred (module wanted : CStr) (mark : Ptr) : State where
  cells := staticCells ++
    [{ type := .symbol, w0 := .str module, w1 := .ofNat 0 },
     { type := .symbol, w0 := .str (text "b"), w1 := .ofNat 1 },
     { type := .symbol, w0 := .str (text "x"), w1 := .ofNat 2 },
     { type := .symbol, w0 := .str (text "using"), w1 := .ofNat 3 },
     { type := .symbol, w0 := .str wanted, w1 := .ofNat 4 },
     { type := .operNative, w0 := .code (.builtin .usingModule) },
     .mkCtx { Ctx.new 5 (.ref 15) with
       keys := [.null, .ref 8, .null, .null, .null]
       vals := [.null, .ref 14, .null, .null, .null] },
     .mkCtx { Ctx.new 5 (.ref 13) with
       keys := [.null, .null, .ref 9, .null, .null]
       vals := [.null, .null, .ref 17, .null, .null] },
     .mkCtx { Ctx.new 5 .null with
       keys := [.ref 7, .null, .null, .ref 10, .null]
       vals := [.ref 13, .null, .null, .ref 12, .null] },
     .mkCtx (.new 2 (.ref 15)),
     .mkStr (text "value"),
     { Cell.mkCons (.ref 11) .null with invokedSym := mark },
     .mkCons (.ref 10) (.ref 18)]
  symbolTable := [⟨wanted, 11⟩, ⟨text "using", 10⟩, ⟨text "x", 9⟩, ⟨text "b", 8⟩, ⟨module, 7⟩]
  lastSymId := 5

theorem starred_formed : Formed (starred (text "a") (text "a::b::*") (.ref 10)) where
  sound := sound_of_names (statics_of_append _ _ _ _) (by decide) (by decide)
  closed := closed_of_check (by decide) (by decide) (by decide)
  ids := List.forall_mem_cons.2 ⟨⟨4, rfl⟩, List.forall_mem_cons.2 ⟨⟨3, rfl⟩,
    List.forall_mem_cons.2 ⟨⟨2, rfl⟩, List.forall_mem_cons.2 ⟨⟨1, rfl⟩,
    List.forall_mem_cons.2 ⟨⟨0, rfl⟩, fun _ mem => absurd mem List.not_mem_nil⟩⟩⟩⟩⟩
  slots := slots_made_of_check (by decide)

/-- `(using a::b::*)` in a context that has no room for `x` yet. -/
theorem module_bindings_imported_nested : ∃ t,
    (runtime World.bare).Runs (blEval .operand (.ref 16) (.ref 19))
        (starred (text "a") (text "a::b::*") .null) nullVal t ∧
      Imports World.bare (.ref 16) (.ref 14) (starred (text "a") (text "a::b::*") (.ref 10)) t := by
  have formed := starred_formed
  have a : Component (text "a") := ⟨by decide, by decide, by decide⟩
  have b : Component (text "b") := ⟨by decide, by decide, by decide⟩
  have called : OperatorCall World.bare .usingModule (.ref 16) (.ref 19)
      (starred (text "a") (text "a::b::*") .null) 18
      (starred (text "a") (text "a::b::*") (.ref 10)) :=
    ⟨_, _, _, _, _, _, rfl, rfl, .symbol rfl rfl ⟨9, rfl⟩ (by decide), rfl, rfl, rfl, rfl, rfl, rfl,
      rfl⟩
  have operands : ListAt (starred (text "a") (text "a::b::*") (.ref 10)) [.ref 11] (.ref 18) :=
    ⟨18, _, rfl, rfl, rfl, rfl, rfl⟩
  have cellAway {p : Nat} (inside : p < 20) :
      Away [] (starred (text "a") (text "a::b::*") (.ref 10)) (.ref p) := by
    rintro a ⟨⟩
    exact ⟨inside, List.not_mem_nil⟩
  have first : Answers World.bare (starred (text "a") (text "a::b::*") (.ref 10)) (.ref 16)
      (text "a") (.ref 13) :=
    answers_of_looks formed a (exact_of_short formed.sound (by decide)) (cellAway (by decide))
      (.inl ⟨⟨text "a", 7⟩, rfl, rfl⟩)
      (.above rfl rfl rfl (by decide) (.found rfl rfl (by decide)))
  have second : Answers World.bare (starred (text "a") (text "a::b::*") (.ref 10)) (.ref 13)
      (text "b") (.ref 14) :=
    answers_of_looks formed b (exact_of_short formed.sound (by decide)) (cellAway (by decide))
      (.inl ⟨⟨text "b", 8⟩, rfl, rfl⟩) (.found rfl rfl (by decide))
  have resolves : Answers World.bare (starred (text "a") (text "a::b::*") (.ref 10)) (.ref 16)
      (path ([text "a"] ++ [text "b"])) (.ref 14) := by
    refine answers_of_path formed (.on first ⟨_, _, rfl, rfl, rfl, rfl⟩ (.here _))
      ⟨_, _, rfl, rfl, rfl, rfl⟩ (by simpa using a) (fun part some_ suffix => ?_) second
    exact exact_of_short_path formed.sound (by decide) part some_ suffix.isInfix
  exact module_bindings_imported .operand called operands rfl (m := text "a::b") rfl (by decide)
    formed (keyed_of_check (by decide)) rfl rfl rfl (resolves_of_answers resolves) rfl

/-- The symbol `a:` leads to a module that binds `b`, but `(using a:::*)` binds nothing. -/
theorem odd_colons_not_used : ∃ t u e,
    (runtime World.bare).Runs (nameLookup (.ref 16) (text "a:"))
        (starred (text "a:") (text "a:::*") .null) (.ref 13) u ∧
      (runtime World.bare).Runs (blEval .operand (.ref 16) (.ref 19))
        (starred (text "a:") (text "a:::*") .null) e t ∧ NotFound t e ∧
      boundTo (starred (text "a:") (text "a:::*") .null) (.ref 13) 1 = .ref 14 ∧
      boundTo t (.ref 16) 1 = .null :=
  ⟨_, _, _, ⟨9, rfl⟩, ⟨20, rfl⟩, ⟨_, rfl⟩, rfl, rfl⟩

end Using

end BearLang.ModuleBindings
