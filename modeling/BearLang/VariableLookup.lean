import BearLang.ContextRefinement
import BearLang.ListEvaluation

/-!
# Where a variable is found

A variable is a slot of a context. A plain name leads to the innermost filled
slot for its symbol; a path leads to a slot of the module that its first part
names.
-/

namespace BearLang

open CallPrograms ContextRefinement

set_option autoImplicit false

section Names

def ctxAt (s : State) (p : Ptr) : Option Ctx := (s.cell p).bind Cell.asCtx

/-- A symbol whose name is neither quoted nor a path. -/
def PlainSymbol (s : State) (key : Ptr) (id : Nat) : Prop :=
  ∃ cell name, s.cell key = some cell ∧ cell.type = .symbol ∧ cell.sVal = some name ∧
    cell.symId = some id ∧ name.head? ≠ some (chr '\'') ∧ strstr (text "::") name = none

/-- A symbol whose name is a path: the part before the first `::` and the rest. -/
def PathSymbol (s : State) (key : Ptr) (first rest : CStr) : Prop :=
  ∃ cell name i, s.cell key = some cell ∧ cell.type = .symbol ∧ cell.sVal = some name ∧
    name.head? ≠ some (chr '\'') ∧ strstr (text "::") name = some i ∧ first = name.take i ∧
    rest = name.drop (i + 2)

def Interned (s : State) (name : CStr) (key : Ptr) : Prop :=
  ∃ entry, s.symbolTable.find? (·.key == name) = some entry ∧ key = .ref entry.sym

def Ctx.Empty (c : Ctx) (id : Nat) : Prop := id < c.valsCount → c.vals[id]? = some .null

/-- `Finds s id p n v`: looked up from `p`, the value is `v`, in the slot of the
context at the address `n`. -/
inductive Finds (s : State) (id : Nat) : Ptr → Nat → Ptr → Prop
  | here {n : Nat} {c : Ctx} {v : Ptr} (known : ctxAt s (.ref n) = some c)
      (plain : c.ctxGet = none) (inside : id < c.valsCount) (slot : c.vals[id]? = some v)
      (filled : v ≠ .null) : Finds s id (.ref n) n v
  | above {n m : Nat} {c : Ctx} {v : Ptr} (known : ctxAt s (.ref n) = some c)
      (plain : c.ctxGet = none) (empty : c.Empty id) (later : Finds s id c.parent m v) :
      Finds s id (.ref n) m v

/-- `Names s ctx key n id v`: looked up from `ctx`, the symbol `key` is the variable
in the slot `id` of the context at the address `n`, and its value is `v`. -/
inductive Names (s : State) : Ptr → Ptr → Nat → Nat → Ptr → Prop
  | plain {ctx key v : Ptr} {n id : Nat} (named : PlainSymbol s key id)
      (found : Finds s id ctx n v) : Names s ctx key n id v
  | path {ctx key first_ rest_ other v : Ptr} {c : Ctx} {first rest : CStr} {m n id id' : Nat}
      (named : PathSymbol s key first rest) (known : ctxAt s ctx = some c)
      (plainCtx : c.ctxGet = none) (interned : Interned s first first_)
      (module : Names s ctx first_ m id' other) (interned' : Interned s rest rest_)
      (member : Names s other rest_ n id v) : Names s ctx key n id v

end Names

section Lookup

variable {W : World} {s t : State} {key : Ptr} {id : Nat}

theorem found_ne_null {p v : Ptr} {n : Nat} (found : Finds s id p n v) : v ≠ .null := by
  induction found with
  | here known plain inside slot filled => exact filled
  | above known plain empty later ih => exact ih

theorem found_in_context {p v : Ptr} {n : Nat} (found : Finds s id p n v) :
    ∃ a, p = .ref a := by
  cases found with
  | here => exact ⟨_, rfl⟩
  | above => exact ⟨_, rfl⟩

theorem named_ne_null {p v : Ptr} {n : Nat} (named : Names s p key n id v) : v ≠ .null := by
  induction named with
  | plain named found => exact found_ne_null found
  | path named known plainCtx interned module interned' member ih ih' => exact ih'

theorem runs_load_at {p : Ptr} {c : Ctx} (known : ctxAt s p = some c) :
    (runtime W).Runs (loadCtx p) s c s := by
  obtain ⟨cell, found, member⟩ := Option.bind_eq_some_iff.1 known
  rw [loadCtx, runs_after (runs_load found)]
  exact runs_member member s

theorem runs_ctx_val {p v : Ptr} {c : Ctx} (known : ctxAt s p = some c)
    (slot : c.vals[id]? = some v) : (runtime W).Runs (ctxVal p id) s v s := by
  refine runs_step ?_
  have read : (((s.cell p).bind Cell.asCtx).bind fun c => c.vals[id]?) = some v := by
    rw [show (s.cell p).bind Cell.asCtx = some c from known]
    exact slot
  simp only [step, read, Option.map_some]

/-- A plain name in a plain context is looked up by its id. -/
theorem ctx_get_by_id {p r : Ptr} {c : Ctx} (named : PlainSymbol s key id)
    (known : ctxAt s p = some c) (plain : c.ctxGet = none) :
    (runtime W).Runs (blCtxGet p key) s r t ↔
      (runtime W).Runs (ctxLookup c p key id) s r t := by
  obtain ⟨cell, name, found, type, sVal, symId, unquoted, noPath⟩ := named
  have isSymbol : ¬ cell.type ≠ .symbol := fun other => other type
  rw [runs_ctx_get, ctxGetBody, if_neg (cell_ne_null found), runs_after (runs_load_at known)]
  simp only [plain]
  rw [runs_after (runs_load found), if_neg isSymbol, runs_after (runs_member sVal s),
    if_neg unquoted]
  simp only [noPath]
  rw [runs_after (runs_member symId s)]

theorem lookup_filled {p v r : Ptr} {c : Ctx} (known : ctxAt s p = some c)
    (inside : id < c.valsCount) (slot : c.vals[id]? = some v) (filled : v ≠ .null) :
    (runtime W).Runs (ctxLookup c p key id) s r t ↔ v = r ∧ s = t := by
  rw [ctxLookup, if_pos inside, runs_after (runs_ctx_val known slot), ← runs_pure]
  dsimp only
  rw [if_pos filled]

theorem lookup_empty {p r : Ptr} {c : Ctx} (known : ctxAt s p = some c) (empty : c.Empty id) :
    (runtime W).Runs (ctxLookup c p key id) s r t ↔
      (runtime W).Runs (if c.parent ≠ .null then blCtxGet c.parent key else pure .null) s r t := by
  have nothing : ¬ Ptr.null ≠ .null := fun h => h rfl
  rw [ctxLookup]
  by_cases inside : id < c.valsCount
  · rw [if_pos inside, runs_after (runs_ctx_val known (empty inside))]
    dsimp only
    rw [if_neg nothing]
  · have outside := runs_pure_self (W := W) Ptr.null s
    rw [if_neg inside, runs_after outside]
    dsimp only
    rw [if_neg nothing]

theorem ctx_get_found {p v : Ptr} {n : Nat} (named : PlainSymbol s key id)
    (found : Finds s id p n v) : (runtime W).Runs (blCtxGet p key) s v s := by
  induction found with
  | here known plain inside slot filled =>
      rw [ctx_get_by_id named known plain, lookup_filled known inside slot filled]
      exact ⟨rfl, rfl⟩
  | @above n m c v known plain empty later ih =>
      have parent : c.parent ≠ .null := by
        obtain ⟨a, same⟩ := found_in_context later
        rw [same]
        simp
      rw [ctx_get_by_id named known plain, lookup_empty known empty, if_pos parent]
      exact ih

theorem mk_symbol_interned {name : CStr} (interned : Interned s name key) :
    (runtime W).Runs (mkSymbol name) s key s := by
  obtain ⟨entry, found, rfl⟩ := interned
  have run := runs_mk_symbol (W := W) name s
  rwa [SymbolInterning.mk_symbol_found found] at run

theorem ctx_get_named {p v : Ptr} {n : Nat} (named : Names s p key n id v) :
    (runtime W).Runs (blCtxGet p key) s v s := by
  induction named with
  | plain named found => exact ctx_get_found named found
  | path named known plainCtx interned module interned' member ih ih' =>
      obtain ⟨cell, name, i, found, type, sVal, unquoted, isPath, rfl, rfl⟩ := named
      have isSymbol : ¬ cell.type ≠ .symbol := fun other => other type
      rw [runs_ctx_get, ctxGetBody, if_neg (cell_ne_null found), runs_after (runs_load_at known)]
      simp only [plainCtx]
      rw [runs_after (runs_load found), if_neg isSymbol, runs_after (runs_member sVal s),
        if_neg unquoted]
      simp only [isPath]
      rw [runs_after (mk_symbol_interned interned), runs_after ih,
        if_neg (named_ne_null module), runs_after (mk_symbol_interned interned')]
      exact ih'

theorem eval_symbol_runs {site : Site} {ctx v : Ptr} {cell : Cell} (known : s.cell key = some cell)
    (type : cell.type = .symbol) (found : (runtime W).Runs (blCtxGet ctx key) s v t)
    (filled : v ≠ .null) : (runtime W).Runs (blEval site ctx key) s v t := by
  rw [runs_eval, evalBody, if_neg (cell_ne_null known)]
  refine runs_call (c := .evalLoop ctx key) ?_
  change (runtime W).Runs (evalLoopBody ctx key) s v t
  rw [evalLoopBody, if_neg (cell_ne_null known), runs_after (runs_load known)]
  simp only [type]
  rw [runs_after found, if_neg filled]
  exact runs_pure_self _ _

theorem atom_evaluates {ctx x : Ptr} {c : Cell} (known : t.cell x = some c)
    (type : c.type ∉ [ValType.cons, .symbol]) (site : Site) :
    (runtime W).Runs (blEval site ctx x) t x t := by
  refine runs_eval.2 ?_
  rw [evalBody, if_neg (cell_ne_null known)]
  refine runs_call (c := .evalLoop ctx x) ?_
  change (runtime W).Runs (evalLoopBody ctx x) t x t
  rw [evalLoopBody, if_neg (cell_ne_null known), runs_after (runs_load known)]
  split
  · exact runs_pure_self _ _
  · rename_i isCons
    rw [isCons] at type
    exact absurd type (by decide)
  · rename_i isSymbol
    rw [isSymbol] at type
    exact absurd type (by decide)
  · exact runs_pure_self _ _

/-- A symbol without a value is an error of its own. -/
theorem unbound_evaluates {ctx : Ptr} {cell : Cell} {name : CStr} (known : s.cell key = some cell)
    (type : cell.type = .symbol) (named : cell.sVal = some name)
    (nothing : (runtime W).Runs (blCtxGet ctx key) s .null t) (site : Site) :
    (runtime W).Runs (blEval site ctx key) s (.ref t.fresh)
      (t.allocated (.mkErr .symbolNotFound 0 { symbolName := some name })) := by
  refine runs_eval.2 ?_
  rw [evalBody, if_neg (cell_ne_null known)]
  refine runs_call (c := .evalLoop ctx key) ?_
  change (runtime W).Runs (evalLoopBody ctx key) s _ _
  rw [evalLoopBody, if_neg (cell_ne_null known), runs_after (runs_load known)]
  simp only [type]
  rw [runs_after nothing, if_pos rfl, runs_after (runs_member named t), blErrSymnotfound]
  exact runs_alloc _ t

theorem named_symbol {p v : Ptr} {n : Nat} (named : Names s p key n id v) :
    ∃ cell, s.cell key = some cell ∧ cell.type = .symbol := by
  cases named with
  | plain named =>
      obtain ⟨cell, _, known, type, _⟩ := named
      exact ⟨cell, known, type⟩
  | path named =>
      obtain ⟨cell, _, _, known, type, _⟩ := named
      exact ⟨cell, known, type⟩

theorem eval_named (site : Site) {ctx v : Ptr} {n : Nat} (named : Names s ctx key n id v) :
    (runtime W).Runs (blEval site ctx key) s v s := by
  obtain ⟨cell, known, type⟩ := named_symbol named
  exact eval_symbol_runs known type (ctx_get_named named) (named_ne_null named)

theorem head_named {ctx v : Ptr} {n : Nat} (named : Names s ctx key n id v) :
    HeadValue W ctx key s v s := by
  obtain ⟨cell, known, type⟩ := named_symbol named
  exact .symbol known type (ctx_get_named named) (named_ne_null named)

end Lookup

section Preservation

variable {s t : State} {key : Ptr} {id : Nat}

/-- Contexts, symbols and the symbol table are the same. -/
structure SameNames (s t : State) : Prop where
  contexts : ∀ p c, ctxAt s p = some c → ctxAt t p = some c
  symbols : ∀ p c, s.cell p = some c → c.type = .symbol →
    ∃ d, t.cell p = some d ∧ d.type = c.type ∧ d.w0 = c.w0 ∧ d.w1 = c.w1
  table : t.symbolTable = s.symbolTable

theorem finds_kept (contexts : ∀ p c, ctxAt s p = some c → ctxAt t p = some c) {p v : Ptr}
    {n : Nat} (found : Finds s id p n v) : Finds t id p n v := by
  induction found with
  | here known plain inside slot filled =>
      exact .here (contexts _ _ known) plain inside slot filled
  | above known plain empty later ih => exact .above (contexts _ _ known) plain empty ih

theorem plain_symbol_kept (symbols : ∀ p c, s.cell p = some c → c.type = .symbol →
    ∃ d, t.cell p = some d ∧ d.type = c.type ∧ d.w0 = c.w0 ∧ d.w1 = c.w1)
    (named : PlainSymbol s key id) : PlainSymbol t key id := by
  obtain ⟨cell, name, known, type, sVal, symId, shape⟩ := named
  obtain ⟨d, found, type', word, word'⟩ := symbols key cell known type
  refine ⟨d, name, found, type'.trans type, ?_, ?_, shape⟩
  · rw [Cell.sVal, word]
    exact sVal
  · rw [Cell.symId, word']
    exact symId

theorem path_symbol_kept (same : SameNames s t) {first rest : CStr}
    (named : PathSymbol s key first rest) : PathSymbol t key first rest := by
  obtain ⟨cell, name, i, known, type, sVal, shape⟩ := named
  obtain ⟨d, found, type', word, _⟩ := same.symbols key cell known type
  refine ⟨d, name, i, found, type'.trans type, ?_, shape⟩
  rw [Cell.sVal, word]
  exact sVal

theorem interned_kept (same : SameNames s t) {name : CStr} (interned : Interned s name key) :
    Interned t name key := by
  obtain ⟨entry, found, isRef⟩ := interned
  refine ⟨entry, ?_, isRef⟩
  rw [same.table]
  exact found

theorem names_kept (same : SameNames s t) {ctx v : Ptr} {n : Nat}
    (named : Names s ctx key n id v) : Names t ctx key n id v := by
  induction named with
  | plain named found =>
      exact .plain (plain_symbol_kept same.symbols named) (finds_kept same.contexts found)
  | path named known plainCtx interned module interned' member ih ih' =>
      exact .path (path_symbol_kept same named) (same.contexts _ _ known) plainCtx
        (interned_kept same interned) ih (interned_kept same interned') ih'

end Preservation

end BearLang
