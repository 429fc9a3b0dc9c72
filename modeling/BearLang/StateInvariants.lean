import BearLang.Execution
import BearLang.SymbolInterning

/-!
# What every run keeps

A cell keeps its type and its first word for ever: the operations store into
the other parts only. So the values with a static address stay what they are,
and an entry of the symbol table keeps the symbol it was made for.
-/

namespace BearLang

open CallPrograms SymbolInterning

set_option autoImplicit false

section Stores

/-- What an operation makes of the cell at `p`. -/
inductive CellStep (p : Ptr) : Op → Cell → Cell → Prop
  | same (op : Op) (c : Cell) : CellStep p op c c
  | cdr (site : StoreSite) (q : Ptr) (c : Cell) :
      CellStep p (.setCdr site p q) c { c with w1 := .ofPtr q }
  | number (i : Int) (c : Cell) (writable : c.iValWritable = true) :
      CellStep p (.setIVal p i) c { c with w1 := .mpz i }
  | invoked (sym : Ptr) (customData : Nat) (c : Cell) :
      CellStep p (.setInvoked p sym customData) c
        { c with invokedSym := sym, customData := customData }
  | inner (q lexical old sym : Ptr) (c : Cell) (tail : c.tail = .closure lexical old sym) :
      CellStep p (.setInner p q) c { c with tail := .closure lexical q sym }
  | mark (old : Ctx) (c : Cell) (tail : c.tail = .ctx old) :
      CellStep p (.setWriteToParent p) c { c with tail := .ctx { old with writeToParent := true } }
  | line (line : Nat) (c : Cell) : CellStep p (.setLine p line) c { c with lineNum := line }
  | store (id : Nat) (key val : Ptr) (old new : Ctx) (c : Cell) (tail : c.tail = .ctx old)
      (stores : old.store id key val = some new) :
      CellStep p (.ctxStore p id key val) c { c with tail := .ctx new }

theorem set_ctx_spec {c new : Cell} {f : Ctx → Option Ctx} (set : c.setCtx f = some new) :
    ∃ old made, c.tail = .ctx old ∧ f old = some made ∧ new = { c with tail := .ctx made } := by
  unfold Cell.setCtx at set
  split at set
  · rename_i old same
    obtain ⟨made, stored, rfl⟩ := Option.map_eq_some_iff.1 set
    exact ⟨old, made, same, stored, rfl⟩
  · cases set

theorem set_inner_spec {c new : Cell} {q : Ptr} (set : c.setInner q = some new) :
    ∃ lexical old sym, c.tail = .closure lexical old sym ∧
      new = { c with tail := .closure lexical q sym } := by
  unfold Cell.setInner at set
  split at set
  · rename_i lexical old sym same
    cases set
    exact ⟨lexical, old, sym, same, rfl⟩
  · cases set

theorem modify_spec {s t : State} {p : Ptr} {f : Cell → Option Cell} {u : Unit}
    (modified : s.modify p f = some (u, t)) :
    ∃ a c new, p = .ref a ∧ s.cell p = some c ∧ f c = some new ∧ t = s.put a new := by
  cases p with
  | null => simp [State.modify] at modified
  | wild => simp [State.modify] at modified
  | ref a =>
      simp only [State.modify] at modified
      cases found : s.cells[a]? with
      | none => simp [found] at modified
      | some c =>
          simp only [found, Option.map_eq_some_iff] at modified
          obtain ⟨new, made, pair⟩ := modified
          cases pair
          exact ⟨a, c, new, rfl, found, made, rfl⟩

theorem mapped_spec {α β : Type} {held : Option α} {f : α → β} {answer : β} {s t : State}
    (mapped : held.map (fun value => (f value, s)) = some (answer, t)) :
    ∃ value, held = some value ∧ f value = answer ∧ t = s := by
  obtain ⟨value, found, pair⟩ := Option.map_eq_some_iff.1 mapped
  cases pair
  exact ⟨value, found, rfl, rfl⟩

inductive Effect (op : Op) (s : State) : State → Prop
  | same : Effect op s s
  | stored {a : Nat} {c new : Cell} (known : s.cell (.ref a) = some c)
      (cell : CellStep (.ref a) op c new) : Effect op s (s.put a new)
  | made (c : Cell) (is : op = .alloc c) : Effect op s (s.allocated c)
  | symbol (name : CStr) (is : op = .mkSymbol name)
      (missed : s.symbolTable.find? (·.key == name) = none) : Effect op s (entered name s)
  | written (out : CStr) (is : op = .write out) : Effect op s { s with out := s.out ++ out }

theorem modify_effect {s t : State} {p : Ptr} {f : Cell → Option Cell} {u : Unit} {op : Op}
    (stores : ∀ c new, f c = some new → CellStep p op c new)
    (modified : s.modify p f = some (u, t)) : Effect op s t := by
  obtain ⟨a, c, new, rfl, known, made, rfl⟩ := modify_spec modified
  exact .stored known (stores c new made)

theorem step_effect {op : Op} {s t : State} {answer : op.Answer}
    (stepped : step op s = some (answer, t)) : Effect op s t := by
  have mapped {α β : Type} {held : Option α} {f : α → β} {b : β}
      (mapped : held.map (fun a => (f a, s)) = some (b, t)) : Effect op s t := by
    obtain ⟨_, _, _, rfl⟩ := mapped_spec mapped
    exact .same
  cases op with
  | load q => exact mapped stepped
  | ctxVal ctx id => exact mapped stepped
  | ctxKey ctx id => exact mapped stepped
  | setCdr site q r =>
      refine modify_effect (fun c new set => ?_) stepped
      cases set
      exact .cdr site r c
  | setIVal q i =>
      refine modify_effect (fun c new set => ?_) stepped
      split at set
      · rename_i writable
        cases set
        exact .number i c writable
      · cases set
  | setInvoked q sym customData =>
      refine modify_effect (fun c new set => ?_) stepped
      cases set
      exact .invoked sym customData c
  | setInner q r =>
      refine modify_effect (fun c new set => ?_) stepped
      obtain ⟨lexical, old, sym, tail, rfl⟩ := set_inner_spec set
      exact .inner r lexical old sym c tail
  | setWriteToParent q =>
      refine modify_effect (fun c new set => ?_) stepped
      obtain ⟨old, marked, tail, mark, rfl⟩ := set_ctx_spec set
      cases mark
      exact .mark old c tail
  | setLine q line =>
      refine modify_effect (fun c new set => ?_) stepped
      cases set
      exact .line line c
  | ctxStore ctx id key val =>
      refine modify_effect (fun c new set => ?_) stepped
      obtain ⟨old, stored, tail, stores, rfl⟩ := set_ctx_spec set
      exact .store id key val old stored c tail stores
  | alloc c =>
      cases stepped
      exact .made c rfl
  | mkSymbol name =>
      have after : (blMkSymbol name s).2 = t := congrArg Prod.snd (Option.some.inj stepped)
      subst after
      cases found : s.symbolTable.find? (·.key == name) with
      | some entry =>
          rw [mk_symbol_found found]
          exact .same
      | none =>
          rw [mk_symbol_entered found]
          exact .symbol name rfl found
  | write out =>
      cases stepped
      exact .written out rfl
  | enterFunc func =>
      cases stepped
      exact .same
  | enterOper oper =>
      cases stepped
      exact .same
  | startBody func =>
      cases stepped
      exact .same
  | leave =>
      cases stepped
      exact .same
  | trap => cases stepped

/-- Everything an operation can do to a cell that exists. -/
theorem step_cell {op : Op} {s t : State} {answer : op.Answer}
    (stepped : step op s = some (answer, t)) {p : Ptr} {c : Cell} (known : s.cell p = some c) :
    ∃ d, t.cell p = some d ∧ CellStep p op c d := by
  cases step_effect stepped with
  | same => exact ⟨c, known, .same op c⟩
  | @stored a old new found cell =>
      by_cases same : p = .ref a
      · subst same
        rw [known] at found
        cases found
        exact ⟨new, State.cell_put_same (State.ref_lt_fresh known) new, cell⟩
      · exact ⟨c, by rw [State.cell_put_other same, known], .same op c⟩
  | made new _ => exact ⟨c, State.cell_allocated_old known new, .same op c⟩
  | symbol name _ _ => exact ⟨c, State.cell_allocated_old known _, .same op c⟩
  | written out _ => exact ⟨c, known, .same op c⟩

/-- A cell that was not there before is the one allocated, or a new symbol. -/
theorem step_made {op : Op} {s t : State} {answer : op.Answer}
    (stepped : step op s = some (answer, t)) {a : Nat} {d : Cell} (new : s.cell (.ref a) = none)
    (found : t.cell (.ref a) = some d) :
    a = s.fresh ∧ (op = .alloc d ∨
      ∃ name, d = { type := .symbol, w0 := .str name, w1 := .ofNat s.lastSymId }) := by
  have allocated {c : Cell} (found : (s.allocated c).cell (.ref a) = some d) :
      a = s.fresh ∧ c = d := by
    have outside : s.fresh ≤ a := List.getElem?_eq_none_iff.1 new
    have bound := State.ref_lt_fresh found
    rw [State.fresh_allocated] at bound
    have here : a = s.fresh := by omega
    subst here
    rw [State.cell_allocated_new] at found
    exact ⟨rfl, Option.some.inj found⟩
  cases step_effect stepped with
  | same =>
      rw [new] at found
      cases found
  | @stored b _ made known _ =>
      have other : Ptr.ref a ≠ .ref b := by
        intro same
        rw [← same, new] at known
        cases known
      rw [State.cell_put_other other, new] at found
      cases found
  | made c is =>
      obtain ⟨here, rfl⟩ := allocated found
      exact ⟨here, .inl is⟩
  | symbol name _ _ =>
      obtain ⟨here, rfl⟩ := allocated found
      exact ⟨here, .inr ⟨name, rfl⟩⟩
  | written out _ =>
      have same : s.cell (.ref a) = some d := found
      rw [new] at same
      cases same

/-- Only interning touches the symbol table. -/
theorem step_table {op : Op} {s t : State} {answer : op.Answer}
    (stepped : step op s = some (answer, t)) :
    t.symbolTable = s.symbolTable ∨
      ∃ name, s.symbolTable.find? (·.key == name) = none ∧ t = entered name s := by
  cases step_effect stepped with
  | symbol name _ missed => exact .inr ⟨name, missed, rfl⟩
  | _ => exact .inl rfl

end Stores

section Growth

/-- Every cell is still there, with its type and its first word. -/
def Grows (s t : State) : Prop :=
  ∀ p c, s.cell p = some c → ∃ new, t.cell p = some new ∧ new.type = c.type ∧ new.w0 = c.w0

theorem grows_refl (s : State) : Grows s s := fun _ c known => ⟨c, known, rfl, rfl⟩

theorem grows_trans {s t u : State} (first : Grows s t) (second : Grows t u) : Grows s u := by
  intro p c known
  obtain ⟨middle, found, same, word⟩ := first p c known
  obtain ⟨last, found', same', word'⟩ := second p middle found
  exact ⟨last, found', same'.trans same, word'.trans word⟩

theorem fresh_le_of_grows {s t : State} (grown : Grows s t) : s.fresh ≤ t.fresh := by
  by_contra less
  have below : t.fresh < s.fresh := Nat.not_le.1 less
  have known : s.cell (.ref t.fresh) = some s.cells[t.fresh] := List.getElem?_eq_getElem below
  obtain ⟨c, found, _⟩ := grown _ _ known
  exact Nat.lt_irrefl _ (State.ref_lt_fresh found)

theorem grows_allocated (s : State) (c : Cell) : Grows s (s.allocated c) :=
  fun _ old known => ⟨old, State.cell_allocated_old known c, rfl, rfl⟩

theorem grows_put {s : State} {a : Nat} {c new : Cell} (known : s.cell (.ref a) = some c)
    (kind : new.type = c.type) (word : new.w0 = c.w0) : Grows s (s.put a new) := by
  intro p old found
  by_cases same : p = .ref a
  · subst same
    rw [known] at found
    cases found
    exact ⟨new, State.cell_put_same (State.ref_lt_fresh known) new, kind, word⟩
  · exact ⟨old, by rw [State.cell_put_other same, found], rfl, rfl⟩

/-- No operation changes the type or the first word of a cell. -/
theorem step_grows {op : Op} {s t : State} {answer : op.Answer}
    (stepped : step op s = some (answer, t)) : Grows s t := by
  intro p c known
  obtain ⟨d, found, cell⟩ := step_cell stepped known
  refine ⟨d, found, ?_⟩
  cases cell <;> exact ⟨rfl, rfl⟩

variable {W : World} {α : Type}

theorem reaches_grows {p q : Prog α} {s t : State} (reached : (runtime W).Reaches p s q t) :
    Grows s t := by
  have keeps : ∀ op before answer after, Grows s before → True →
      (runtime W).step op before = some (answer, after) → Grows s after :=
    fun _ _ _ _ grown _ stepped => grows_trans grown (step_grows stepped)
  exact guarded_invariant (fun _ _ => True) keeps reached (fun _ _ _ => trivial) (grows_refl s)

theorem runs_grows {p : Prog α} {s t : State} {v : α} (run : (runtime W).Runs p s v t) :
    Grows s t := reaches_grows (reaches_done_of_runs run)

end Growth

section Additions

variable {s t u : State}

/-- The second state has the cells of the first, the output and the symbols, but for what
calls note and for new cells. -/
structure OnlyAdds (s t : State) : Prop where
  cells : ∀ p c, s.cell p = some c →
    ∃ sym data, t.cell p = some { c with invokedSym := sym, customData := data }
  table : t.symbolTable = s.symbolTable
  ids : t.lastSymId = s.lastSymId
  out : t.out = s.out

theorem only_adds_refl (s : State) : OnlyAdds s s :=
  ⟨fun _ c known => ⟨c.invokedSym, c.customData, known⟩, rfl, rfl, rfl⟩

theorem only_adds_trans (first : OnlyAdds s t) (second : OnlyAdds t u) : OnlyAdds s u := by
  refine ⟨fun p c known => ?_, second.table.trans first.table, second.ids.trans first.ids,
    second.out.trans first.out⟩
  rcases first.cells p c known with ⟨sym, data, found⟩
  rcases second.cells p _ found with ⟨sym', data', found'⟩
  exact ⟨sym', data', found'⟩

theorem only_adds_grows (adds : OnlyAdds s t) : Grows s t := by
  intro p c known
  rcases adds.cells p c known with ⟨_, _, found⟩
  exact ⟨_, found, rfl, rfl⟩

theorem only_adds_fresh (adds : OnlyAdds s t) : s.fresh ≤ t.fresh :=
  fresh_le_of_grows (only_adds_grows adds)

end Additions

section Soundness

/-- The static values are in their places, and every entry of the symbol table
holds the key of its symbol. -/
structure Sound (s : State) : Prop where
  statics : Grows State.initial s
  keys : KeysCut s
  symbols : ∀ entry ∈ s.symbolTable, s.typeOf (.ref entry.sym) = some .symbol

theorem name_of_grows {s t : State} (grown : Grows s t) {p : Ptr} {name : CStr}
    (known : nameOf s p = some name) : nameOf t p = some name := by
  simp only [nameOf, Option.bind_eq_some_iff] at known ⊢
  obtain ⟨c, found, held⟩ := known
  obtain ⟨new, found', _, word⟩ := grown p c found
  exact ⟨new, found', by simpa only [Cell.sVal, word] using held⟩

theorem type_of_grows {s t : State} (grown : Grows s t) {p : Ptr} {kind : ValType}
    (known : s.typeOf p = some kind) : t.typeOf p = some kind := by
  simp only [State.typeOf, Option.map_eq_some_iff] at known ⊢
  obtain ⟨c, found, held⟩ := known
  obtain ⟨new, found', same, _⟩ := grown p c found
  exact ⟨new, found', same.trans held⟩

theorem keys_cut_grows {s t : State} (grown : Grows s t) (table : t.symbolTable = s.symbolTable)
    (held : KeysCut s) : KeysCut t := by
  have named : ∀ entry ∈ s.symbolTable, nameOf t (.ref entry.sym) = nameOf s (.ref entry.sym) := by
    intro entry mem
    obtain ⟨name, known, _⟩ := held.cut entry mem
    rw [known, name_of_grows grown known]
  constructor
  · intro entry mem
    rw [table] at mem
    rw [named entry mem]
    exact held.cut entry mem
  · intro entry mem name known long
    rw [table] at mem ⊢
    rw [named entry mem] at known
    obtain ⟨found, other, search, value, isLong⟩ := held.longFound entry mem name known long
    exact ⟨found, other, search, by rw [named found (find_key search).1, value], isLong⟩

theorem step_sound {op : Op} {s t : State} {answer : op.Answer} (sound : Sound s)
    (stepped : step op s = some (answer, t)) : Sound t := by
  have grown := step_grows stepped
  rcases step_table stepped with same | ⟨name, missed, rfl⟩
  · exact
      { statics := grows_trans sound.statics grown
        keys := keys_cut_grows grown same sound.keys
        symbols := fun entry mem => type_of_grows grown (sound.symbols entry (same ▸ mem)) }
  · have keys := keys_cut_mk_symbol sound.keys name
    rw [mk_symbol_entered missed] at keys
    refine
      { statics := grows_trans sound.statics grown
        keys := keys
        symbols := fun entry mem => ?_ }
    rcases List.mem_cons.1 mem with rfl | old
    · have new := State.cell_allocated_new s
        { type := .symbol, w0 := .str name, w1 := .ofNat s.lastSymId }
      exact congrArg (Option.map Cell.type) new
    · exact type_of_grows grown (sound.symbols entry old)

theorem sound_initial : Sound State.initial where
  statics := grows_refl _
  keys := ⟨fun _ mem => absurd mem List.not_mem_nil, fun _ mem => absurd mem List.not_mem_nil⟩
  symbols := fun _ mem => absurd mem List.not_mem_nil

theorem statics_of_append (extra : List Cell) (table : List SymHash) (ids : Nat) (out : CStr) :
    Grows State.initial ⟨staticCells ++ extra, table, ids, out⟩ := by
  intro p c known
  refine ⟨c, ?_, rfl, rfl⟩
  obtain ⟨a, rfl⟩ := State.ref_of_cell known
  have bound : a < staticCells.length := State.ref_lt_fresh known
  exact (List.getElem?_append_left bound).trans known

/-- Where no name is longer than a key every entry holds the name of its symbol. -/
theorem sound_of_names {s : State} (statics : Grows State.initial s)
    (named : ∀ entry ∈ s.symbolTable,
      nameOf s (.ref entry.sym) = some entry.key ∧ entry.key.length ≤ symKeySize)
    (symbols : ∀ entry ∈ s.symbolTable, s.typeOf (.ref entry.sym) = some .symbol) : Sound s := by
  refine ⟨statics, ⟨fun entry mem => ?_, fun entry mem name known long => ?_⟩, symbols⟩
  · obtain ⟨known, short⟩ := named entry mem
    exact ⟨entry.key, known, (List.take_of_length_le short).symm⟩
  · obtain ⟨known', short⟩ := named entry mem
    rw [known'] at known
    cases known
    exact absurd long (Nat.not_lt.2 short)

variable {W : World} {α : Type}

theorem reaches_sound {p q : Prog α} {s t : State} (sound : Sound s)
    (reached : (runtime W).Reaches p s q t) : Sound t := by
  have keeps : ∀ op before answer after, Sound before → True →
      (runtime W).step op before = some (answer, after) → Sound after :=
    fun _ _ _ _ held _ stepped => step_sound held stepped
  exact guarded_invariant (fun _ _ => True) keeps reached (fun _ _ _ => trivial) sound

theorem runs_sound {p : Prog α} {s t : State} {v : α} (sound : Sound s)
    (run : (runtime W).Runs p s v t) : Sound t :=
  reaches_sound sound (reaches_done_of_runs run)

/-- Some run of the runtime from its start gets to the state. -/
def Reachable (W : World) (s : State) : Prop :=
  ∃ (α : Type) (p q : Prog α), (runtime W).Reaches p State.initial q s

theorem sound_of_reachable {s : State} (reachable : Reachable W s) : Sound s := by
  obtain ⟨α, p, q, reached⟩ := reachable
  exact reaches_sound sound_initial reached

end Soundness

end BearLang
