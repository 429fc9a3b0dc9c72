import BearLang.Execution
import BearLang.LexicalScopes

/-!
# Contexts are lexically scoped maps

Runs of `bl_ctx_new` and `bl_ctx_set`, with the history of what they did as a
lexically scoped map beside them. The slots of a context are indexed by symbol
ids; they start with the size of the parent and are copied into larger arrays
when a later symbol is set.
-/

namespace BearLang.ContextRefinement

open CallPrograms LexicalScopes

set_option autoImplicit false

abbrev History := List (Event Ptr Ptr Ptr)

def present (p : Ptr) : Option Ptr := if p = .null then none else some p

def orNullPtr (found : Option Ptr) : Ptr := found.getD .null

section Slots

theorem length_copy_slots (n : Nat) (old slots : List Ptr) :
    (copySlots n old slots).length = slots.length := by
  induction n with
  | zero => rfl
  | succ n ih => rw [copySlots, List.length_set, ih]

theorem get_copy_slots {n : Nat} {old slots : List Ptr} (room : n ≤ slots.length) (i : Nat) :
    (copySlots n old slots).getD i .null =
      if i < n then old.getD i .null else slots.getD i .null := by
  induction n with
  | zero => simp [copySlots]
  | succ n ih =>
      have before := ih (Nat.le_of_succ_le room)
      have size := length_copy_slots n old slots
      simp only [List.getD_eq_getElem?_getD] at before ⊢
      rw [copySlots, List.getElem?_set]
      by_cases last : n = i
      · subst last
        have inside : n < (copySlots n old slots).length := by omega
        simp [inside]
      · rw [if_neg last, before]
        have shift : i < n + 1 ↔ i < n := by omega
        simp only [shift]

theorem get_replicate_null (n i : Nat) : (List.replicate n Ptr.null).getD i .null = .null := by
  simp [List.getD_eq_getElem?_getD, List.getElem?_replicate]
  split <;> rfl

theorem get_set {slots : List Ptr} {id : Nat} (room : id < slots.length) (p : Ptr) (i : Nat) :
    (slots.set id p).getD i .null = if i = id then p else slots.getD i .null := by
  simp only [List.getD_eq_getElem?_getD]
  by_cases same : i = id
  · subst same
    simp [room]
  · rw [List.getElem?_set_ne (fun h => same h.symm), if_neg same]

theorem get_past_end {slots : List Ptr} {i : Nat} (past : slots.length ≤ i) :
    slots.getD i .null = .null := by
  simp [List.getD_eq_getElem?_getD, List.getElem?_eq_none past]

def Sized (c : Ctx) : Prop := c.keys.length = c.valsCount ∧ c.vals.length = c.valsCount

instance (c : Ctx) : Decidable (Sized c) := inferInstanceAs (Decidable (_ ∧ _))

/-- What a store leaves in the arrays of a context, and what it leaves alone. -/
structure Stored (old new : Ctx) (id : Nat) (key val : Ptr) : Prop where
  sized : Sized new
  parent : new.parent = old.parent
  ctxGet : new.ctxGet = old.ctxGet
  writeToParent : new.writeToParent = old.writeToParent
  inside : id < new.valsCount
  keys : ∀ i, new.keys.getD i .null = if i = id then key else old.keys.getD i .null
  vals : ∀ i, new.vals.getD i .null = if i = id then val else old.vals.getD i .null

theorem grow_sized (c : Ctx) (count : Nat) : Sized (c.grow count) := by
  constructor <;> simp [Ctx.grow, length_copy_slots]

theorem grow_get {c : Ctx} (sized : Sized c) {count : Nat} (larger : c.valsCount ≤ count) (i : Nat) :
    (c.grow count).keys.getD i .null = c.keys.getD i .null ∧
      (c.grow count).vals.getD i .null = c.vals.getD i .null := by
  have copied : ∀ old : List Ptr, old.length = c.valsCount →
      (copySlots c.valsCount old (List.replicate count .null)).getD i .null =
        old.getD i .null := by
    intro old size
    rw [get_copy_slots (by simpa using larger)]
    by_cases inside : i < c.valsCount
    · rw [if_pos inside]
    · rw [if_neg inside, get_replicate_null, get_past_end (by omega)]
  exact ⟨copied c.keys sized.1, copied c.vals sized.2⟩

theorem store_in_place {c : Ctx} (sized : Sized c) {id : Nat} (inside : id < c.valsCount)
    (key val : Ptr) :
    Stored c { c with keys := c.keys.set id key, vals := c.vals.set id val } id key val where
  sized := by simpa [Sized] using sized
  parent := rfl
  ctxGet := rfl
  writeToParent := rfl
  inside := inside
  keys := get_set (by rw [sized.1]; exact inside) key
  vals := get_set (by rw [sized.2]; exact inside) val

/-- A store never falls outside the arrays, and moves no other binding. -/
theorem store_spec {c : Ctx} (sized : Sized c) (id : Nat) (key val : Ptr) :
    ∃ new, c.store id key val = some new ∧ Stored c new id key val := by
  by_cases inside : id < c.valsCount
  · have room : id < c.keys.length ∧ id < c.vals.length := by
      rw [sized.1, sized.2]
      exact ⟨inside, inside⟩
    refine ⟨_, ?_, store_in_place sized inside key val⟩
    simp only [Ctx.store, if_pos inside, if_pos room]
  · have grown := grow_sized c (id + 8)
    have fits : id < (c.grow (id + 8)).valsCount := by
      simp only [Ctx.grow]
      omega
    have room : id < (c.grow (id + 8)).keys.length ∧ id < (c.grow (id + 8)).vals.length := by
      rw [grown.1, grown.2]
      exact ⟨fits, fits⟩
    have stored := store_in_place grown fits key val
    refine ⟨{ c.grow (id + 8) with
      keys := (c.grow (id + 8)).keys.set id key
      vals := (c.grow (id + 8)).vals.set id val }, ?_, ?_⟩
    · simp only [Ctx.store, if_neg inside, if_pos room]
    · have larger : c.valsCount ≤ id + 8 := by omega
      have same := grow_get sized larger
      exact
        { sized := stored.sized
          parent := rfl
          ctxGet := rfl
          writeToParent := rfl
          inside := stored.inside
          keys := fun i => by rw [stored.keys, (same i).1]
          vals := fun i => by rw [stored.vals, (same i).2] }

end Slots

section Relation

def symIdOf (s : State) (key : Ptr) : Option Nat := (s.cell key).bind Cell.symId

/-- Symbols with pairwise distinct ids, whose names are neither quoted nor paths. -/
structure PlainKeys (keys : Ptr → Prop) (s : State) : Prop where
  symbol : ∀ key, keys key → ∃ cell name id, s.cell key = some cell ∧ cell.type = .symbol ∧
    cell.sVal = some name ∧ cell.symId = some id ∧ name.head? ≠ some (chr '\'') ∧
    strstr (text "::") name = none
  distinct : ∀ key other, keys key → keys other → symIdOf s key = symIdOf s other → key = other

/-- Slot `i` is empty or holds the key with that id, in arrays of the size the
context says. -/
structure SlotsFit (keys : Ptr → Prop) (s : State) (c : Ctx) : Prop where
  sized : Sized c
  slot : ∀ i, (c.keys.getD i .null = .null ∧ c.vals.getD i .null = .null) ∨
    (keys (c.keys.getD i .null) ∧ symIdOf s (c.keys.getD i .null) = some i)

/-- A context cell that stands for a scope of the history. -/
structure Stands (keys : Ptr → Prop) (past : History) (s : State) (p : Ptr) (outer : Option Ptr)
    (c : Ctx) : Prop where
  cell : ∃ cell, s.cell p = some cell ∧ cell.tail = .ctx c
  parent : c.parent = orNullPtr outer
  ctxGet : c.ctxGet = none
  writeToParent : c.writeToParent = false
  slots : SlotsFit keys s c
  bindings : ∀ key id, keys key → symIdOf s key = some id →
    present (c.vals.getD id .null) = latest past p key

structure Represents (keys : Ptr → Prop) (past : History) (s : State) : Prop where
  nested : Nested past
  named : PlainKeys keys s
  unopened : ∀ p key, ¬ Opened past p → latest past p key = none
  scopes : ∀ p outer, parent past p = some outer → ∃ c, Stands keys past s p outer c

end Relation

section Frames

variable {keys : Ptr → Prop} {past : History} {s t : State}

/-- The cells of `s` are still there, with the words a symbol keeps its name
and id in. -/
def KeepsWords (s t : State) : Prop :=
  ∀ p cell, s.cell p = some cell → ∃ new, t.cell p = some new ∧ new.type = cell.type ∧
    new.w0 = cell.w0 ∧ new.w1 = cell.w1

theorem keeps_words_allocated (s : State) (c : Cell) : KeepsWords s (s.allocated c) :=
  fun _ cell known => ⟨cell, State.cell_allocated_old known c, rfl, rfl, rfl⟩

theorem keeps_words_put {a : Nat} {cell : Cell} (known : s.cell (.ref a) = some cell) (c : Ctx) :
    KeepsWords s (s.put a { cell with tail := .ctx c }) := by
  intro p old found
  by_cases same : p = .ref a
  · subst same
    rw [known] at found
    cases found
    exact ⟨_, State.cell_put_same (State.ref_lt_fresh known) _, rfl, rfl, rfl⟩
  · exact ⟨old, by rw [State.cell_put_other same, found], rfl, rfl, rfl⟩

theorem sym_id_kept (kept : KeepsWords s t) {key : Ptr} {cell : Cell}
    (known : s.cell key = some cell) : symIdOf t key = symIdOf s key := by
  obtain ⟨new, found, _, _, word⟩ := kept key cell known
  simp only [symIdOf, known, found, Option.bind_some, Cell.symId, word]

theorem plain_keys_kept (kept : KeepsWords s t) (named : PlainKeys keys s) : PlainKeys keys t := by
  constructor
  · intro key member
    obtain ⟨cell, name, id, known, type, sVal, symId, rest⟩ := named.symbol key member
    obtain ⟨new, found, type', word, word'⟩ := kept key cell known
    refine ⟨new, name, id, found, type'.trans type, ?_, ?_, rest⟩
    · simpa only [Cell.sVal, word] using sVal
    · simpa only [Cell.symId, word'] using symId
  · intro key other first second same
    obtain ⟨cell, _, _, known, _⟩ := named.symbol key first
    obtain ⟨cell', _, _, known', _⟩ := named.symbol other second
    rw [sym_id_kept kept known, sym_id_kept kept known'] at same
    exact named.distinct key other first second same

theorem key_sym_id (named : PlainKeys keys s) (kept : KeepsWords s t) {key : Ptr}
    (member : keys key) : symIdOf t key = symIdOf s key := by
  obtain ⟨cell, _, _, known, _⟩ := named.symbol key member
  exact sym_id_kept kept known

theorem slots_fit_kept (named : PlainKeys keys s) (kept : KeepsWords s t) {c : Ctx}
    (fits : SlotsFit keys s c) : SlotsFit keys t c := by
  refine ⟨fits.sized, fun i => ?_⟩
  rcases fits.slot i with empty | ⟨member, id⟩
  · exact .inl empty
  · exact .inr ⟨member, by rw [key_sym_id named kept member, id]⟩

theorem stands_kept (named : PlainKeys keys s) (kept : KeepsWords s t) {p : Ptr}
    {outer : Option Ptr} {c : Ctx} {event : Event Ptr Ptr Ptr}
    (stands : Stands keys past s p outer c) (same : ∀ cell, s.cell p = some cell →
      t.cell p = some cell)
    (meaning : ∀ key, latest (event :: past) p key = latest past p key) :
    Stands keys (event :: past) t p outer c := by
  obtain ⟨cell, known, tail⟩ := stands.cell
  exact
    { cell := ⟨cell, same cell known, tail⟩
      parent := stands.parent
      ctxGet := stands.ctxGet
      writeToParent := stands.writeToParent
      slots := slots_fit_kept named kept stands.slots
      bindings := fun key id member named' => by
        rw [meaning]
        rw [key_sym_id named kept member] at named'
        exact stands.bindings key id member named' }

theorem opened_ne_null (represents : Represents keys past s) {p : Ptr} (opened : Opened past p) :
    p ≠ .null := by
  rintro rfl
  obtain ⟨outer, known⟩ := opened
  obtain ⟨c, stands⟩ := represents.scopes .null outer known
  obtain ⟨cell, found, _⟩ := stands.cell
  simp [State.cell] at found

theorem opened_old (represents : Represents keys past s) : ¬ Opened past (.ref s.fresh) := by
  rintro ⟨outer, known⟩
  obtain ⟨c, stands⟩ := represents.scopes _ outer known
  obtain ⟨cell, found, _⟩ := stands.cell
  exact Nat.lt_irrefl _ (State.ref_lt_fresh found)

end Frames

section Commands

inductive Command where
  | new (parent : Ptr)
  | set (ctx key val : Ptr)

def Command.program : Command → Prog Ptr
  | .new parent => blCtxNew parent
  | .set ctx key val => blCtxSet ctx key val

/-- Contexts are opened in contexts of the tree, and keys bound in them. -/
def Command.Allowed (keys : Ptr → Prop) (past : History) : Command → Prop
  | .new parent => parent = .null ∨ Opened past parent
  | .set ctx key _ => Opened past ctx ∧ keys key

def Command.event (answer : Ptr) : Command → Event Ptr Ptr Ptr
  | .new parent => .opened answer (present parent)
  | .set ctx key val => .bound ctx key (present val)

/-- The commands run one after the other, with the history of what they did. -/
inductive Executes (W : World) (keys : Ptr → Prop) (start : State) : History → State → Prop where
  | nothing : Executes W keys start [] start
  | next {past : History} {s s' : State} {answer : Ptr} (command : Command)
      (before : Executes W keys start past s) (allowed : command.Allowed keys past)
      (run : (runtime W).Runs command.program s answer s') :
      Executes W keys start (command.event answer :: past) s'

variable {W : World} {keys : Ptr → Prop} {past : History} {s : State}

theorem runs_load_ctx {p : Ptr} {cell : Cell} {c : Ctx} (known : s.cell p = some cell)
    (tail : cell.tail = .ctx c) : (runtime W).Runs (loadCtx p) s c s := by
  rw [loadCtx, runs_after (runs_load known)]
  exact runs_member (by simp only [Cell.asCtx, tail]) s

theorem ctx_new_runs (represents : Represents keys past s) {outer : Ptr}
    (allowed : (Command.new outer).Allowed keys past) :
    ∃ n, (runtime W).Runs (blCtxNew outer) s (.ref s.fresh)
      (s.allocated (.mkCtx (.new n outer))) := by
  rcases allowed with rfl | opened
  · refine ⟨8, ?_⟩
    rw [blCtxNew, if_pos rfl]
    exact runs_alloc _ s
  · obtain ⟨p, known⟩ := opened
    obtain ⟨c, stands⟩ := represents.scopes outer p known
    obtain ⟨cell, found, tail⟩ := stands.cell
    refine ⟨c.valsCount, ?_⟩
    rw [blCtxNew, if_neg (opened_ne_null represents ⟨p, known⟩),
      runs_after (runs_load_ctx found tail)]
    exact runs_alloc _ s

theorem represents_new (represents : Represents keys past s) {outer : Ptr}
    (allowed : (Command.new outer).Allowed keys past) (n : Nat) :
    Represents keys (.opened (.ref s.fresh) (present outer) :: past)
      (s.allocated (.mkCtx (.new n outer))) := by
  have unheard := opened_old represents
  have kept := keeps_words_allocated s (.mkCtx (.new n outer))
  refine
    { nested := ⟨represents.nested, unheard, ?within⟩
      named := plain_keys_kept kept represents.named
      unopened := ?unopened
      scopes := ?scopes }
  case within =>
    intro p inside
    unfold present at inside
    split at inside
    · cases inside
    · cases inside
      rcases allowed with null | opened
      · contradiction
      · exact opened
  case unopened =>
    intro p key closed
    refine represents.unopened p key fun opened => closed ?_
    obtain ⟨found, known⟩ := opened
    exact ⟨found, keeps_opened _ unheard p found known⟩
  case scopes =>
    intro p found known
    by_cases same : p = .ref s.fresh
    · subst same
      simp only [parent, if_true, Option.some.injEq] at known
      refine ⟨.new n outer, ?_⟩
      exact
        { cell := ⟨_, State.cell_allocated_new s _, rfl⟩
          parent := by
            rw [← known]
            unfold present orNullPtr
            split <;> simp_all [Ctx.new]
          ctxGet := rfl
          writeToParent := rfl
          slots := ⟨by simp [Sized, Ctx.new], fun i => .inl ⟨get_replicate_null n i,
            get_replicate_null n i⟩⟩
          bindings := fun key id _ _ => by
            simp only [latest, represents.unopened _ key unheard, Ctx.new, get_replicate_null]
            rfl }
    · have other : Ptr.ref s.fresh ≠ p := fun h => same h.symm
      simp only [parent, if_neg other] at known
      obtain ⟨c, stands⟩ := represents.scopes p found known
      exact ⟨c, stands_kept represents.named kept stands
        (fun cell held => State.cell_allocated_old held _) fun _ => rfl⟩

theorem ctx_store_runs {a id : Nat} {cell : Cell} {old new : Ctx} {key val : Ptr}
    (found : s.cell (.ref a) = some cell) (tail : cell.tail = .ctx old)
    (stores : old.store id key val = some new) :
    (runtime W).Runs (ctxStore (.ref a) id key val) s ()
      (s.put a { cell with tail := .ctx new }) := by
  have held : s.cells[a]? = some cell := found
  refine runs_step ?_
  simp only [step, State.modify, held, Cell.setCtx, tail, stores, Option.map_some]

/-- `bl_ctx_set` in a context that takes its own bindings changes the tail of
its cell only. -/
theorem ctx_set_stores {a id : Nat} {cell keyCell : Cell} {old : Ctx} {key : Ptr} (val : Ptr)
    (found : s.cell (.ref a) = some cell) (tail : cell.tail = .ctx old) (sized : Sized old)
    (own : old.writeToParent = false) (keyFound : s.cell key = some keyCell)
    (symId : keyCell.symId = some id) :
    ∃ new, Stored old new id key val ∧ (runtime W).Runs (blCtxSet (.ref a) key val) s val
      (s.put a { cell with tail := .ctx new }) := by
  obtain ⟨new, stores, stored⟩ := store_spec sized id key val
  refine ⟨new, stored, ?_⟩
  rw [blCtxSet, runs_after (runs_load_ctx found tail), own, if_neg Bool.false_ne_true,
    runs_after (runs_load keyFound), runs_after (runs_member symId s),
    runs_after (ctx_store_runs found tail stores)]
  exact runs_pure_self _ _

theorem ctx_set_runs (represents : Represents keys past s) {p key : Ptr} (val : Ptr)
    (allowed : (Command.set p key val).Allowed keys past) :
    ∃ a cell outer old new id, p = .ref a ∧ s.cell p = some cell ∧
      parent past p = some outer ∧ Stands keys past s p outer old ∧
      symIdOf s key = some id ∧ Stored old new id key val ∧
      (runtime W).Runs (blCtxSet p key val) s val (s.put a { cell with tail := .ctx new }) := by
  obtain ⟨⟨outer, known⟩, member'⟩ := allowed
  obtain ⟨old, stands⟩ := represents.scopes p outer known
  obtain ⟨cell, found, tail⟩ := stands.cell
  obtain ⟨keyCell, name, id, keyFound, _, _, symId, _⟩ := represents.named.symbol key member'
  obtain ⟨a, rfl⟩ := State.ref_of_cell found
  obtain ⟨new, stored, run⟩ := ctx_set_stores (W := W) val found tail stands.slots.sized
    stands.writeToParent keyFound symId
  refine ⟨a, cell, outer, old, new, id, rfl, found, known, stands, ?_, stored, run⟩
  simp only [symIdOf, keyFound, Option.bind_some, symId]

theorem represents_set (represents : Represents keys past s) {a id : Nat} {cell : Cell}
    {outer : Option Ptr} {key val : Ptr} {old new : Ctx}
    (found : s.cell (.ref a) = some cell) (inside : parent past (.ref a) = some outer)
    (stands : Stands keys past s (.ref a) outer old) (isKey : keys key)
    (named : symIdOf s key = some id) (stored : Stored old new id key val) :
    Represents keys (.bound (.ref a) key (present val) :: past)
      (s.put a { cell with tail := .ctx new }) := by
  have kept := keeps_words_put found new
  refine
    { nested := represents.nested
      named := plain_keys_kept kept represents.named
      unopened := ?unopened
      scopes := ?scopes }
  case unopened =>
    intro p other closed
    have away : ¬ (Ptr.ref a = p ∧ key = other) := by
      rintro ⟨rfl, _⟩
      exact closed ⟨outer, inside⟩
    simp only [latest, if_neg away]
    exact represents.unopened p other closed
  case scopes =>
    intro p around known
    by_cases same : p = .ref a
    · subst same
      change parent past (.ref a) = some around at known
      rw [inside] at known
      cases known
      refine ⟨new, ?_⟩
      refine
        { cell := ⟨_, State.cell_put_same (State.ref_lt_fresh found) _, rfl⟩
          parent := stored.parent.trans stands.parent
          ctxGet := stored.ctxGet.trans stands.ctxGet
          writeToParent := stored.writeToParent.trans stands.writeToParent
          slots := ⟨stored.sized, fun i => ?_⟩
          bindings := fun other number member' id' => ?_ }
      · rw [stored.keys, stored.vals]
        by_cases here : i = id
        · subst here
          simp only [if_true]
          exact .inr ⟨isKey, by rw [key_sym_id represents.named kept isKey, named]⟩
        · simp only [if_neg here]
          exact (slots_fit_kept represents.named kept stands.slots).slot i
      · rw [key_sym_id represents.named kept member'] at id'
        rw [stored.vals]
        by_cases here : number = id
        · have equal := represents.named.distinct key other isKey member'
            (by rw [named, id', here])
          simp only [latest, true_and, if_pos here, if_pos equal]
        · have apart : key ≠ other := by
            rintro rfl
            rw [named] at id'
            exact here (Option.some.inj id').symm
          simp only [latest, true_and, if_neg here, if_neg apart]
          exact stands.bindings other number member' id'
    · have away : ∀ other, ¬ (Ptr.ref a = p ∧ key = other) := fun _ h => same h.1.symm
      obtain ⟨c, other⟩ := represents.scopes p around known
      refine ⟨c, stands_kept represents.named kept other (fun cell held => ?_) fun name => ?_⟩
      · rw [State.cell_put_other same, held]
      · simp only [latest, if_neg (away name)]

theorem command_runs (represents : Represents keys past s) {command : Command}
    (allowed : command.Allowed keys past) :
    ∃ answer s', (runtime W).Runs command.program s answer s' ∧
      Represents keys (command.event answer :: past) s' := by
  cases command with
  | new outer =>
      obtain ⟨n, run⟩ := ctx_new_runs (W := W) represents allowed
      exact ⟨_, _, run, represents_new represents allowed n⟩
  | set p key val =>
      obtain ⟨a, cell, outer, old, new, id, rfl, found, inside, stands, named, stored, run⟩ :=
        ctx_set_runs (W := W) represents val allowed
      exact ⟨_, _, run, represents_set represents found inside stands allowed.2 named stored⟩

theorem represents_of_executes {start : State} (plain : PlainKeys keys start)
    (run : Executes W keys start past s) : Represents keys past s := by
  induction run with
  | nothing =>
      exact
        { nested := trivial
          named := plain
          unopened := fun _ _ _ => rfl
          scopes := fun _ _ known => by simp [parent] at known }
  | next command before allowed run ih =>
      obtain ⟨answer, s', found, represents⟩ := command_runs (W := W) ih allowed
      obtain ⟨rfl, rfl⟩ := runs_functional run found
      exact represents

end Commands

section Lookup

variable {W : World} {keys : Ptr → Prop} {past : History} {s : State}

theorem ctx_val_runs {p : Ptr} {cell : Cell} {c : Ctx} (known : s.cell p = some cell)
    (tail : cell.tail = .ctx c) (sized : Sized c) {id : Nat} (inside : id < c.valsCount) :
    (runtime W).Runs (ctxVal p id) s (c.vals.getD id .null) s := by
  have room : id < c.vals.length := by
    rw [sized.2]
    exact inside
  refine runs_step ?_
  simp [step, known, Cell.asCtx, tail, room, List.getD_eq_getElem?_getD]

/-- `bl_ctx_get` for a plain key comes down to the slot and the parent. -/
theorem ctx_get_runs_iff {p key : Ptr} {outer : Option Ptr} {c : Ctx} {id : Nat}
    (named : PlainKeys keys s) (isKey : keys key) (stands : Stands keys past s p outer c)
    (symId : symIdOf s key = some id) {v : Ptr} {s' : State} :
    (runtime W).Runs (blCtxGet p key) s v s' ↔
      (runtime W).Runs
        (if c.vals.getD id .null ≠ .null then pure (c.vals.getD id .null)
          else if c.parent ≠ .null then blCtxGet c.parent key else pure .null) s v s' := by
  obtain ⟨keyCell, name, number, keyFound, type, sVal, symId', unquoted, noPath⟩ :=
    named.symbol key isKey
  obtain ⟨cell, found, tail⟩ := stands.cell
  have same : number = id := by
    simp only [symIdOf, keyFound, Option.bind_some, symId', Option.some.injEq] at symId
    exact symId
  subst same
  have notNull : key ≠ .null := by
    rintro rfl
    simp [State.cell] at keyFound
  rw [runs_ctx_get, ctxGetBody, if_neg notNull,
    runs_after (runs_load_ctx found tail), stands.ctxGet]
  simp only
  rw [runs_after (runs_load keyFound), if_neg (not_not.2 type),
    runs_after (runs_member sVal s), if_neg unquoted, noPath]
  simp only
  have sized := stands.slots.sized
  rw [runs_after (runs_member symId' s), ctxLookup]
  by_cases inside : number < c.valsCount
  · rw [if_pos inside, runs_after (ctx_val_runs found tail sized inside)]
  · have beyond : c.vals.length ≤ number := by
      rw [sized.2]
      omega
    rw [if_neg inside, pure_bind, get_past_end beyond]

/-- The code follows the chain of parents as the meaning of the name does. -/
theorem ctx_get_runs (represents : Represents keys past s) {p key : Ptr} {found : Option Ptr}
    (resolves : Resolves past p key found) (opened : Opened past p) (isKey : keys key) :
    (runtime W).Runs (blCtxGet p key) s (orNullPtr found) s := by
  obtain ⟨keyCell, name, id, keyFound, _, _, symId', _⟩ := represents.named.symbol key isKey
  have symId : symIdOf s key = some id := by
    simp only [symIdOf, keyFound, Option.bind_some, symId']
  induction resolves with
  | here hit =>
      obtain ⟨outer, known⟩ := opened
      obtain ⟨c, stands⟩ := represents.scopes _ outer known
      have slot := stands.bindings _ id isKey symId
      rw [hit] at slot
      unfold present at slot
      split at slot
      · cases slot
      · rename_i filled
        rw [ctx_get_runs_iff represents.named isKey stands symId, if_pos filled,
          Option.some.inj slot]
        exact runs_pure_self _ s
  | outer missed inside later ih =>
      obtain ⟨c, stands⟩ := represents.scopes _ _ inside
      have slot := stands.bindings _ id isKey symId
      have openedParent := opened_of_parent represents.nested inside
      have parentNotNull := opened_ne_null represents openedParent
      rw [missed] at slot
      unfold present at slot
      split at slot
      · rename_i empty
        rw [ctx_get_runs_iff represents.named isKey stands symId, if_neg (not_not.2 empty),
          stands.parent]
        rw [if_pos (by simpa only [orNullPtr, Option.getD_some] using parentNotNull)]
        exact ih openedParent isKey keyFound symId
      · cases slot
  | nowhere missed outermost =>
      obtain ⟨c, stands⟩ := represents.scopes _ _ outermost
      have slot := stands.bindings _ id isKey symId
      rw [missed] at slot
      unfold present at slot
      split at slot
      · rename_i empty
        rw [ctx_get_runs_iff represents.named isKey stands symId, if_neg (not_not.2 empty),
          stands.parent]
        exact runs_pure_self _ s
      · cases slot

end Lookup

/-- In every state that the commands lead to, a lookup gives what the name
means, every context has its slots in order, and every further command runs. -/
theorem contexts_refine_scopes (W : World) (keys : Ptr → Prop) (start : State)
    (plain : PlainKeys keys start) {past : History} {s : State}
    (run : Executes W keys start past s) :
    (∀ p key, Opened past p → keys key → ∃ found, Resolves past p key found ∧
      ∀ v s', (runtime W).Runs (blCtxGet p key) s v s' ↔ v = orNullPtr found ∧ s' = s) ∧
    (∀ p, Opened past p → ∃ cell c, s.cell p = some cell ∧ cell.tail = .ctx c ∧
      SlotsFit keys s c) ∧
    ∀ command : Command, command.Allowed keys past →
      ∃ answer s', (runtime W).Runs command.program s answer s' := by
  have represents := represents_of_executes plain run
  refine ⟨fun p key opened isKey => ?_, fun p opened => ?_, fun command allowed => ?_⟩
  · obtain ⟨found, resolves⟩ := resolves_exists represents.nested opened key
    have looked := ctx_get_runs (W := W) represents resolves opened isKey
    refine ⟨found, resolves, fun v s' => ⟨fun other => runs_functional other looked, ?_⟩⟩
    rintro ⟨rfl, rfl⟩
    exact looked
  · obtain ⟨outer, known⟩ := opened
    obtain ⟨c, stands⟩ := represents.scopes p outer known
    obtain ⟨cell, found, tail⟩ := stands.cell
    exact ⟨cell, c, found, tail, stands.slots⟩
  · obtain ⟨answer, s', found, _⟩ := command_runs (W := W) represents allowed
    exact ⟨answer, s', found⟩

section Example

/-- The first symbol that is made, in the state it was made in. -/
def onlyKey : Ptr := .ref 7

def oneSymbol : State := (blMkSymbol (text "x") State.initial).2

theorem plain_keys_one_symbol : PlainKeys (· = onlyKey) oneSymbol := by
  constructor
  · rintro key rfl
    exact ⟨_, text "x", 0, rfl, rfl, rfl, rfl, by decide, by decide⟩
  · rintro key other rfl rfl _
    rfl

theorem contexts_refine_scopes_child :
    ∃ (past : History) (s : State), Opened past (.ref 9) ∧ ∃ found, Resolves past (.ref 9) onlyKey found ∧
      ∀ v s', (runtime World.bare).Runs (blCtxGet (.ref 9) onlyKey) s v s' ↔
        v = orNullPtr found ∧ s' = s := by
  have opened : Executes World.bare (· = onlyKey) oneSymbol [.opened (.ref 8) none]
      (oneSymbol.allocated (.mkCtx (.new 8 .null))) :=
    .next (.new .null) .nothing (.inl rfl) ⟨0, rfl⟩
  have bound := Executes.next (.set (.ref 8) onlyKey trueVal) opened ⟨⟨none, rfl⟩, rfl⟩
    (show (runtime World.bare).Runs (blCtxSet (.ref 8) onlyKey trueVal) _ _ _ from ⟨0, rfl⟩)
  have child := Executes.next (.new (.ref 8)) bound (.inr ⟨none, rfl⟩)
    (show (runtime World.bare).Runs (blCtxNew (.ref 8)) _ _ _ from ⟨0, rfl⟩)
  exact ⟨_, _, ⟨some (.ref 8), rfl⟩,
    (contexts_refine_scopes World.bare (· = onlyKey) oneSymbol plain_keys_one_symbol child).1
      (.ref 9) onlyKey ⟨some (.ref 8), rfl⟩ rfl⟩

end Example

end BearLang.ContextRefinement
