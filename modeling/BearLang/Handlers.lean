import BearLang.ArgumentBinding
import BearLang.Assignments
import BearLang.EvaluatedValues
import BearLang.SubExpressions

/-!
# Clauses of `try`

The clauses are gone through in order, and a clause that catches the error takes the
place of the one before it. What is evaluated in the end is the handler of the last.
-/

namespace BearLang.Handlers

open CallPrograms OperatorCalls SubExpressions EvaluatedValues ContextRefinement Assignments
  ArgumentBinding

set_option autoImplicit false

section Clauses

/-- `(catch name handler)`, where the name is bound to an error of the type. -/
structure Clause where
  name : Ptr
  type : Nat
  handler : Ptr

def Clause.catches (T : Nat) (clause : Clause) : Bool :=
  clause.type == T || clause.type == ErrType.any.code

/-- The handler of the last clause that catches an error of type `T`. -/
def handlerOf (T : Nat) (clauses : List Clause) : Option Ptr :=
  ((clauses.filter (Clause.catches T)).getLast?).map Clause.handler

theorem handler_of_cons (T : Nat) (clause : Clause) (clauses : List Clause) (candidate : Ptr) :
    (handlerOf T (clause :: clauses)).getD candidate =
      (handlerOf T clauses).getD (if clause.catches T then clause.handler else candidate) := by
  rw [handlerOf, handlerOf, List.filter_cons]
  split
  · rw [List.getLast?_cons]
    cases last : (clauses.filter (Clause.catches T)).getLast? with
    | none => rfl
    | some c => rfl
  · rfl

variable {W : World}

structure ClauseAt (W : World) (s : State) (ctx catchSym : Ptr) (clause : Clause) (p : Ptr) :
    Prop where
  form : ListAt s [catchSym, clause.name, clause.handler] p
  bound : ∃ v c, (runtime W).Runs (blCtxGet ctx clause.name) s v s ∧ s.cell v = some c ∧
    c.type = .error ∧ c.errType = some clause.type

variable {ctx v catchSym : Ptr} {s : State} {T : Nat}

theorem try_loop_clause {error : Cell} (failed : s.cell v = some error)
    (type : error.errType = some T) (filled : catchSym ≠ .null) {i p : Ptr} {rest : List Ptr}
    {clause : Clause} (list : ListAt s (p :: rest) i)
    (clauseAt : ClauseAt W s ctx catchSym clause p) (finallySym candidate cleanup : Ptr) :
    ∃ q, ListAt s rest q ∧ ∀ visits r t,
      (Asks W (call (.tryLoop ctx v i catchSym finallySym candidate cleanup)) s visits r t ↔
        Asks W (call (.tryLoop ctx v q catchSym finallySym
          (if clause.catches T then clause.handler else candidate) cleanup)) s visits r t) := by
  obtain ⟨a, c, rfl, known, _, car, rest⟩ := list
  obtain ⟨w, bound, looked, held, _, errType⟩ := clauseAt.bound
  have form := clauseAt.form
  have len := list_len_runs (W := W) form filled
  have second := list_second_runs (W := W) form
  have third : (runtime W).Runs (blListThird p) s clause.handler s := by
    obtain ⟨q, tail, list⟩ := list_rest_runs (W := W) form
    rw [blListThird, runs_after tail]
    exact list_second_runs list
  obtain ⟨b, d, isRef, found, cons, head, _⟩ := form
  refine ⟨c.cdr, rest, fun visits r t => (asks_call (c := .tryLoop ctx v (.ref a) catchSym
    finallySym candidate cleanup) rfl).trans ?_⟩
  change Asks W (tryLoop ctx v (.ref a) catchSym finallySym candidate cleanup) s visits r t ↔ _
  rw [tryLoop, if_neg (cell_ne_null known), asks_after (silent_load _) (runs_load known), car,
    asks_after (silent_load _) (runs_load found), if_neg (fun other => other cons),
    asks_after (silent_list_len p) len, if_neg (by simp), if_pos head,
    asks_after (silent_list_second p) second, asks_after (silent_ctx_get _ _) looked,
    asks_after (silent_load _) (runs_load held),
    asks_after (silent_member _) (runs_member errType s),
    asks_after (silent_load _) (runs_load failed), asks_after (silent_member _) (runs_member type s)]
  by_cases caught : clause.catches T = true
  · have either : clause.type = T ∨ clause.type = ErrType.any.code := by
      simpa [Clause.catches] using caught
    rw [if_pos either, asks_after (silent_list_third p) third, if_pos caught]
  · have neither : ¬ (clause.type = T ∨ clause.type = ErrType.any.code) := by
      simpa [Clause.catches] using caught
    rw [if_neg neither, if_neg caught]

/-- The loop over clauses comes to its end with the handler of the last one that
catches the error. -/
theorem try_loop_clauses {error : Cell} (failed : s.cell v = some error)
    (type : error.errType = some T) (filled : catchSym ≠ .null) {i : Ptr} {ps rest : List Ptr}
    {clauses : List Clause} (list : ListAt s (ps ++ rest) i)
    (each : List.Forall₂ (ClauseAt W s ctx catchSym) clauses ps)
    (finallySym candidate cleanup : Ptr) :
    ∃ q, ListAt s rest q ∧ ∀ visits r t,
      (Asks W (call (.tryLoop ctx v i catchSym finallySym candidate cleanup)) s visits r t ↔
        Asks W (call (.tryLoop ctx v q catchSym finallySym ((handlerOf T clauses).getD candidate)
          cleanup)) s visits r t) := by
  induction each generalizing i candidate with
  | nil => exact ⟨i, list, fun _ _ _ => Iff.rfl⟩
  | @cons clause p clauses ps here later ih =>
      obtain ⟨j, list', step⟩ := try_loop_clause failed type filled list here finallySym candidate
        cleanup
      obtain ⟨q, rest_, loop⟩ := ih list' (if clause.catches T then clause.handler else candidate)
      refine ⟨q, rest_, fun visits r t => (step visits r t).trans ((loop visits r t).trans ?_)⟩
      rw [handler_of_cons]

end Clauses

section Prelude

variable {W : World} {s m : State} {ctx q v : Ptr}

theorem silent_mk_symbol (name : CStr) : Silent (mkSymbol name) := silent_op _

theorem mk_symbol_extends (name : CStr) (s : State) : Extends s (blMkSymbol name s).2 := by
  intro p c known
  cases found : s.symbolTable.find? (·.key == name) with
  | some entry => rwa [SymbolInterning.mk_symbol_found found]
  | none =>
      rw [SymbolInterning.mk_symbol_entered found]
      exact State.cell_allocated_old known _

theorem mk_symbol_ne_null (name : CStr) (s : State) : (blMkSymbol name s).1 ≠ .null := by
  cases found : s.symbolTable.find? (·.key == name) with
  | some entry =>
      rw [SymbolInterning.mk_symbol_found found]
      simp
  | none =>
      rw [SymbolInterning.mk_symbol_entered found]
      simp

def SymbolsMade (s : State) : Prop :=
  ∀ entry ∈ s.symbolTable, ∃ id, symIdOf s (.ref entry.sym) = some id

theorem sym_id_entered (name : CStr) (s : State) :
    symIdOf (SymbolInterning.entered name s) (.ref s.fresh) = some s.lastSymId := by
  have cell := State.cell_allocated_new s
    { type := .symbol, w0 := .str name, w1 := .ofNat s.lastSymId }
  simp only [symIdOf, State.cell, SymbolInterning.entered] at cell ⊢
  rw [cell, Option.bind_some, Cell.symId, Word.ofNat]
  by_cases first : s.lastSymId = 0
  · rw [if_pos first, first]
  · rw [if_neg first]

theorem mk_symbol_made (made : SymbolsMade s) (name : CStr) :
    SymbolsMade (blMkSymbol name s).2 ∧
      ∃ id, symIdOf (blMkSymbol name s).2 (blMkSymbol name s).1 = some id := by
  cases found : s.symbolTable.find? (·.key == name) with
  | some entry =>
      rw [SymbolInterning.mk_symbol_found found]
      exact ⟨made, made entry (List.mem_of_find?_eq_some found)⟩
  | none =>
      have extended := mk_symbol_extends name s
      rw [SymbolInterning.mk_symbol_entered found] at extended ⊢
      have new : ∃ id, symIdOf (SymbolInterning.entered name s) (.ref s.fresh) = some id :=
        ⟨_, sym_id_entered name s⟩
      refine ⟨fun entry mem => ?_, new⟩
      rcases List.mem_cons.1 mem with rfl | old
      · exact new
      · obtain ⟨id, named⟩ := made entry old
        obtain ⟨c, known, symId⟩ := Option.bind_eq_some_iff.1 named
        refine ⟨id, ?_⟩
        rw [symIdOf, extended _ c known]
        exact symId

theorem cell_allocated_elsewhere {p : Ptr} (other : p ≠ .ref s.fresh) (c : Cell) :
    (s.allocated c).cell p = s.cell p := by
  cases p with
  | ref a =>
      have away : a ≠ s.cells.length := fun same => other (congrArg Ptr.ref same)
      simp only [State.cell, State.allocated, List.getElem?_append, List.getElem?_singleton]
      split
      · rfl
      · rw [List.getElem?_eq_none (by omega), if_neg (by omega)]
  | null => rfl
  | wild => rfl

theorem bound_to_mk_symbol (name : CStr) (s : State) (p : Ptr) (i : Nat) :
    boundTo (blMkSymbol name s).2 p i = boundTo s p i := by
  cases found : s.symbolTable.find? (·.key == name) with
  | some entry => rw [SymbolInterning.mk_symbol_found found]
  | none =>
      have extended := mk_symbol_extends name s
      rw [SymbolInterning.mk_symbol_entered found] at extended ⊢
      cases known : s.cell p with
      | some c => rw [boundTo, boundTo, ctxAt, ctxAt, extended p c known, known]
      | none =>
          -- the only new cell is the symbol, and it has no slots
          have before : boundTo s p i = .null := by
            rw [boundTo, ctxAt, known]
            rfl
          rw [before]
          by_cases here : p = .ref s.fresh
          · have cell := State.cell_allocated_new s
              { type := .symbol, w0 := .str name, w1 := .ofNat s.lastSymId }
            rw [here]
            simp only [boundTo, ctxAt, State.cell, SymbolInterning.entered] at cell ⊢
            rw [cell]
            rfl
          · have other : (SymbolInterning.entered name s).cell p = none :=
              (cell_allocated_elsewhere here _).trans known
            rw [boundTo, ctxAt, other]
            rfl

/-- The symbols that `bl_oper_try` looks for. -/
def catchSymbol (m : State) : Ptr := (blMkSymbol (text "catch") m).1

def withCatch (m : State) : State := (blMkSymbol (text "catch") m).2

def finallySymbol (m : State) : Ptr := (blMkSymbol (text "finally") (withCatch m)).1

def withFinally (m : State) : State := (blMkSymbol (text "finally") (withCatch m)).2

def errorSymbol (m : State) : Ptr := (blMkSymbol (text "*ERR*") (withFinally m)).1

def withSymbols (m : State) : State := (blMkSymbol (text "*ERR*") (withFinally m)).2

theorem with_symbols_extends (m : State) : Extends m (withSymbols m) :=
  extends_trans (mk_symbol_extends _ m) (extends_trans (mk_symbol_extends _ _)
    (mk_symbol_extends _ _))

/-- The context `q` binds `*ERR*` to the error, and that is all that has changed. -/
structure ErrorNoted (W : World) (ctx q v : Ptr) (m m' : State) : Prop where
  set : (runtime W).Runs (blCtxSet ctx (errorSymbol m) v) (withSymbols m) v m'
  keeps : KeepsWords m m'
  bound : ∃ id, symIdOf m' (errorSymbol m) = some id ∧ boundTo m' q id = v ∧
    ∀ p i, ¬ (p = q ∧ i = id) → boundTo m' p i = boundTo m p i

/-- Assignments made in the context go to the context `q`. -/
def GoesTo (s : State) (ctx q : Ptr) : Prop :=
  ∃ c d cell, ctxAt s ctx = some c ∧ target ctx c = q ∧ s.cell q = some cell ∧
    cell.tail = .ctx d ∧ Sized d

theorem note_error (goes : GoesTo m ctx q) (made : SymbolsMade m) (v : Ptr) :
    ∃ m', ErrorNoted W ctx q v m m' := by
  obtain ⟨c, d, cell, known, same, above, tail, sized⟩ := goes
  have extended := with_symbols_extends m
  obtain ⟨b, rfl⟩ := State.ref_of_cell above
  have known' : ctxAt (withSymbols m) ctx = some c := by
    obtain ⟨k, found, member⟩ := Option.bind_eq_some_iff.1 known
    rw [ctxAt, extended _ k found]
    exact member
  have above' := extended _ _ above
  obtain ⟨id, named⟩ := (mk_symbol_made (mk_symbol_made (mk_symbol_made made _).1 _).1
    (text "*ERR*")).2
  obtain ⟨keyCell, keyFound, symId⟩ := Option.bind_eq_some_iff.1 named
  obtain ⟨new, stored, run⟩ := ctx_set_target (W := W) (v := v) known' same above' tail sized
    keyFound symId
  have words := keeps_words_put above' new
  refine ⟨_, run, fun p x found => words p x (extended p x found), id, ?_, ?_, ?_⟩
  · exact sym_id_kept words keyFound |>.trans named
  · rw [bound_to_stored above' tail stored, if_pos ⟨rfl, rfl⟩]
  · intro p i other
    rw [bound_to_stored above' tail stored, if_neg other, withSymbols, bound_to_mk_symbol,
      withFinally, bound_to_mk_symbol, withCatch, bound_to_mk_symbol]

/-- What `try` asks for when its expression gives no error. -/
theorem asks_success {n : Nat} {e : Ptr} {es : List Ptr} {s' t : State} {kind : ValType} {r : Ptr}
    {visits : List Evaluation} (operands : ListAt s' (e :: es) (.ref n))
    (tried : (runtime W).Runs (blEval .tryExpr ctx e) s' v m) (known : m.typeOf v = some kind)
    (fine : kind ≠ .error) : Asks W (blOperTry ctx (.ref n)) s' visits r t ↔
      visits = [evaluation .tryExpr ctx e s' v m] ∧ v = r ∧ m = t := by
  obtain ⟨c, found, rfl⟩ := Option.map_eq_some_iff.1 known
  rw [blOperTry, asks_after (silent_list_first _) (list_first_runs operands),
    asks_evaluated tried]
  constructor
  · rintro ⟨rest, asks, rfl⟩
    rw [asks_after (silent_type_of v) (runs_type_of found), if_pos fine] at asks
    obtain ⟨rfl, rfl, rfl⟩ := asks_pure.1 asks
    exact ⟨rfl, rfl, rfl⟩
  · rintro ⟨rfl, rfl, rfl⟩
    refine ⟨[], ?_, rfl⟩
    rw [asks_after (silent_type_of v) (runs_type_of found), if_pos fine]
    exact asks_pure_self _ _

/-- After an error the clauses are gone through in the state in which `*ERR*` is
bound. -/
theorem asks_failure {n : Nat} {e e' : Ptr} {es ps : List Ptr} {s' m' : State}
    (operands : ListAt s' (e :: es) (.ref n))
    (tried : (runtime W).Runs (blEval .tryExpr ctx e) s' v m) (failed : m.typeOf v = some .error)
    (again : ListAt m (e' :: ps) (.ref n))
    (noted : ErrorNoted W ctx q v m m') :
    ∃ others, ListAt m' ps others ∧ ∀ visits r t,
      (Asks W (blOperTry ctx (.ref n)) s' visits r t ↔
        ∃ rest, Asks W (call (.tryLoop ctx v others (catchSymbol m) (finallySymbol m) v .null)) m'
          rest r t ∧ visits = evaluation .tryExpr ctx e s' v m :: rest) := by
  obtain ⟨c, known, type⟩ := Option.map_eq_some_iff.1 failed
  obtain ⟨others, rest, list⟩ := list_rest_runs (W := W) again
  refine ⟨others, list_at_kept noted.keeps list, fun visits r t => ?_⟩
  rw [blOperTry, asks_after (silent_list_first _) (list_first_runs operands),
    asks_evaluated tried]
  refine exists_congr fun visits' => and_congr_left fun _ => ?_
  rw [asks_after (silent_type_of v) (runs_type_of known), if_neg (fun other => other type),
    asks_after (silent_list_rest _) rest,
    asks_after (silent_mk_symbol _) (runs_mk_symbol _ _),
    asks_after (silent_mk_symbol _) (runs_mk_symbol _ _),
    asks_after (silent_mk_symbol _) (runs_mk_symbol _ _)]
  exact asks_after (silent_ctx_set ctx (errorSymbol m) v) noted.set

end Prelude

section Selection

variable {W : World} {s s' m t : State} {ctx expr q v r : Ptr} {visits : List Evaluation}

theorem asks_handler {handler catchSym finallySym : Ptr} :
    Asks W (call (.tryLoop ctx v .null catchSym finallySym handler .null)) m visits r t ↔
      (runtime W).Runs (blEval .operand ctx handler) m r t ∧
        visits = [evaluation .operand ctx handler m r t] := by
  refine (asks_call (c := .tryLoop ctx v .null catchSym finallySym handler .null) rfl).trans ?_
  change Asks W (tryLoop ctx v .null catchSym finallySym handler .null) m visits r t ↔ _
  rw [tryLoop, if_pos rfl, asks_eval]
  have nothing : ¬ Ptr.null ≠ .null := fun h => h rfl
  constructor
  · rintro ⟨u, k, rest, run, asks, rfl⟩
    rw [if_neg nothing] at asks
    obtain ⟨rfl, rfl, rfl⟩ := asks_pure.1 asks
    exact ⟨run, rfl⟩
  · rintro ⟨run, rfl⟩
    refine ⟨r, t, [], run, ?_, rfl⟩
    rw [if_neg nothing]
    exact asks_pure_self _ _

theorem eval_error (site : Site) (failed : m.typeOf v = some .error) :
    (runtime W).Runs (blEval site ctx v) m v m := by
  obtain ⟨c, known, type⟩ := Option.map_eq_some_iff.1 failed
  rw [runs_eval, evalBody, if_neg (cell_ne_null known)]
  refine runs_call (c := .evalLoop ctx v) ?_
  change (runtime W).Runs (evalLoopBody ctx v) m v m
  rw [evalLoopBody, if_neg (cell_ne_null known), runs_after (runs_load known)]
  simp only [type]
  exact runs_pure_self _ _

/-- `(try e (catch E₁ h₁) … (catch Eₖ hₖ))` evaluates `e` once. If that gives no error
it gives the value and does nothing more. If it gives an error of type `T`, `*ERR*` is
bound to the error, and the value is that of the handler of the last clause for `T` or
for any error, or, if there is none, the error. -/
theorem handler_selected {n : Nat} {e : Ptr} {es : List Ptr}
    (called : OperatorCall W .tryCatch ctx expr s n s') (operands : ListAt s' (e :: es) (.ref n))
    (tried : (runtime W).Runs (blEval .tryExpr ctx e) s' v m) :
    (∀ kind, m.typeOf v = some kind → kind ≠ .error → ∀ visits r t,
      (Asks W (evalBody ctx expr) s visits r t ↔
        visits = [evaluation .tryExpr ctx e s' v m] ∧ r = v ∧ t = m)) ∧
    ∀ error T, m.cell v = some error → error.type = .error → error.errType = some T →
      GoesTo m ctx q → SymbolsMade m → ∀ e' ps, ListAt m (e' :: ps) (.ref n) →
      ∃ m', ErrorNoted W ctx q v m m' ∧
        ∀ clauses, List.Forall₂ (ClauseAt W m' ctx (catchSymbol m)) clauses ps →
          (∀ h, handlerOf T clauses = some h → ∀ visits r t,
            (Asks W (evalBody ctx expr) s visits r t ↔
              (runtime W).Runs (blEval .operand ctx h) m' r t ∧
                visits = [evaluation .tryExpr ctx e s' v m, evaluation .operand ctx h m' r t])) ∧
          (handlerOf T clauses = none → ∀ visits r t,
            (Asks W (evalBody ctx expr) s visits r t ↔ r = v ∧ t = m' ∧
              visits = [evaluation .tryExpr ctx e s' v m, evaluation .operand ctx v m' v m'])) := by
  refine ⟨fun kind known fine visits r t => ?_, ?_⟩
  · refine (asks_operator called).trans ?_
    constructor
    · rintro ⟨u, asks, rfl⟩
      obtain ⟨rfl, rfl, rfl⟩ := (asks_success operands tried known fine).1 asks
      exact ⟨rfl, or_null_evaluated tried, rfl⟩
    · rintro ⟨rfl, rfl, rfl⟩
      exact ⟨r, (asks_success operands tried known fine).2 ⟨rfl, rfl, rfl⟩,
        (or_null_evaluated tried).symm⟩
  · intro error T known type errType goes made e' ps again
    have failed : m.typeOf v = some .error := by
      rw [State.typeOf, known, ← type]
      rfl
    obtain ⟨m', noted⟩ := note_error (W := W) goes made v
    refine ⟨m', noted, fun clauses each => ?_⟩
    obtain ⟨others, list, loop⟩ := asks_failure operands tried failed again noted
    obtain ⟨error', known', type', word, _⟩ := noted.keeps v error known
    have errType' : error'.errType = some T := by
      rw [Cell.errType, word]
      exact errType
    have failed' : m'.typeOf v = some .error := by
      rw [State.typeOf, known', ← type, ← type']
      rfl
    -- the whole evaluation, up to the evaluation at the end of the loop
    have whole (visits : List Evaluation) (r : Ptr) (t : State) :
        Asks W (evalBody ctx expr) s visits r t ↔
          (runtime W).Runs (blEval .operand ctx ((handlerOf T clauses).getD v)) m' r t ∧
            visits = [evaluation .tryExpr ctx e s' v m,
              evaluation .operand ctx ((handlerOf T clauses).getD v) m' r t] := by
      have ends (rest : List Evaluation) (r : Ptr) :
          Asks W (call (.tryLoop ctx v others (catchSymbol m) (finallySymbol m) v .null)) m' rest r
            t ↔ (runtime W).Runs (blEval .operand ctx ((handlerOf T clauses).getD v)) m' r t ∧
              rest = [evaluation .operand ctx ((handlerOf T clauses).getD v) m' r t] := by
        have list' : ListAt m' (ps ++ []) others := by
          rw [List.append_nil]
          exact list
        have some_ : catchSymbol m ≠ .null := mk_symbol_ne_null _ m
        obtain ⟨p, done, turns⟩ := try_loop_clauses known' errType' some_ list' each
          (finallySymbol m) v .null
        have none_ : p = .null := done
        rw [turns, none_]
        exact asks_handler
      refine (asks_operator called).trans ?_
      constructor
      · rintro ⟨u, asks, rfl⟩
        obtain ⟨rest, later, rfl⟩ := (loop visits u t).1 asks
        obtain ⟨run, rfl⟩ := (ends rest u).1 later
        rw [or_null_evaluated run]
        exact ⟨run, rfl⟩
      · rintro ⟨run, rfl⟩
        exact ⟨r, (loop _ r t).2 ⟨_, (ends _ r).2 ⟨run, rfl⟩, rfl⟩, (or_null_evaluated run).symm⟩
    constructor
    · intro h last visits r t
      rw [whole, last]
      rfl
    · intro nothing visits r t
      rw [whole, nothing]
      constructor
      · rintro ⟨run, rfl⟩
        obtain ⟨rfl, rfl⟩ := runs_functional run (eval_error .operand failed')
        exact ⟨rfl, rfl, rfl⟩
      · rintro ⟨rfl, rfl, rfl⟩
        exact ⟨eval_error .operand failed', rfl⟩

/-- `h` is 7, `z` an error and `E` bound to `ERR_ANY`; the forms are
`(try z (catch E h))` and `(try h (finally z))`. -/
def tryForms : State where
  cells := staticCells ++
    [{ type := .symbol, w0 := .str (text "try"), w1 := .ofNat 0 },
     { type := .symbol, w0 := .str (text "z"), w1 := .ofNat 1 },
     { type := .symbol, w0 := .str (text "E"), w1 := .ofNat 2 },
     { type := .symbol, w0 := .str (text "catch"), w1 := .ofNat 3 },
     { type := .symbol, w0 := .str (text "finally"), w1 := .ofNat 4 },
     { type := .symbol, w0 := .str (text "*ERR*"), w1 := .ofNat 5 },
     { type := .operNative, w0 := .code (.builtin .tryCatch) },
     .mkErr .divideByZero 0 {}, .mkErr .any 0 {}, .mkNumber 7,
     .mkCtx { Ctx.new 8 .null with
       keys := [.ref 7, .ref 8, .ref 9, .null, .null, .null, .null, .null]
       vals := [.ref 13, .ref 14, .ref 15, .null, .null, .null, .null, .null] },
     .mkCons (.ref 16) .null, .mkCons (.ref 9) (.ref 18), .mkCons (.ref 10) (.ref 19),
     .mkCons (.ref 20) .null, .mkCons (.ref 8) (.ref 21), .mkCons (.ref 7) (.ref 22),
     .mkCons (.ref 8) .null, .mkCons (.ref 11) (.ref 24), .mkCons (.ref 25) .null,
     .mkCons (.ref 16) (.ref 26), .mkCons (.ref 7) (.ref 27)]
  symbolTable := [⟨text "*ERR*", 12⟩, ⟨text "finally", 11⟩, ⟨text "catch", 10⟩, ⟨text "E", 9⟩,
    ⟨text "z", 8⟩, ⟨text "try", 7⟩]
  lastSymId := 6

/-- `(try z (catch E h))` evaluates `z` and then `h`. -/
theorem handler_selected_any : ∃ s' m m',
    Asks World.bare (evalBody (.ref 17) (.ref 23)) tryForms
      [evaluation .tryExpr (.ref 17) (.ref 8) s' (.ref 14) m,
        evaluation .operand (.ref 17) (.ref 16) m' (.ref 16) m'] (.ref 16) m' := by
  have facts : ∃ s' new error, OperatorCall World.bare .tryCatch (.ref 17) (.ref 23) tryForms 22 s' ∧
      ListAt s' [.ref 8, .ref 20] (.ref 22) ∧
      (runtime World.bare).Runs (blEval .tryExpr (.ref 17) (.ref 8)) s' (.ref 14) s' ∧
      s'.cell (.ref 14) = some error ∧ error.type = .error ∧ error.errType = some 7 ∧
      GoesTo s' (.ref 17) (.ref 17) ∧ SymbolsMade s' ∧
      (runtime World.bare).Runs (blCtxSet (.ref 17) (errorSymbol s') (.ref 14)) (withSymbols s')
        (.ref 14) new ∧
      ClauseAt World.bare new (.ref 17) (catchSymbol s') ⟨.ref 9, 0, .ref 16⟩ (.ref 20) ∧
      (runtime World.bare).Runs (blEval .operand (.ref 17) (.ref 16)) new (.ref 16) new := by
    refine ⟨_, _, _, ⟨_, _, _, _, _, _, rfl, rfl, .symbol rfl rfl ⟨9, rfl⟩ (by decide), rfl, rfl,
      rfl, rfl, rfl, rfl, rfl⟩, ⟨22, _, rfl, rfl, rfl, rfl, 21, _, rfl, rfl, rfl, rfl, rfl⟩,
      ⟨9, rfl⟩, rfl, rfl, rfl, ⟨_, _, _, rfl, rfl, rfl, rfl, rfl, rfl⟩, ?_, ⟨9, rfl⟩,
      ⟨⟨20, _, rfl, rfl, rfl, rfl, 19, _, rfl, rfl, rfl, rfl, 18, _, rfl, rfl, rfl, rfl, rfl⟩,
        .ref 15, _, ⟨9, rfl⟩, rfl, rfl, rfl⟩, ⟨9, rfl⟩⟩
    exact List.forall_mem_cons.2 ⟨⟨5, rfl⟩, List.forall_mem_cons.2 ⟨⟨4, rfl⟩,
      List.forall_mem_cons.2 ⟨⟨3, rfl⟩, List.forall_mem_cons.2 ⟨⟨2, rfl⟩,
      List.forall_mem_cons.2 ⟨⟨1, rfl⟩, List.forall_mem_cons.2 ⟨⟨0, rfl⟩,
      fun _ mem => absurd mem List.not_mem_nil⟩⟩⟩⟩⟩⟩
  obtain ⟨s', new, error, called, operands, tried, known, type, errType, goes, made, set, clause,
    run⟩ := facts
  obtain ⟨m', noted, chosen⟩ := (handler_selected called operands tried).2 error 7 known type
    errType goes made (.ref 8) [.ref 20] operands
  obtain ⟨_, rfl⟩ := runs_functional noted.set set
  exact ⟨s', s', m', ((chosen [⟨.ref 9, 0, .ref 16⟩] (.cons clause .nil)).1 (.ref 16) rfl _ _ _).2
    ⟨run, rfl⟩⟩

end Selection

section Finally

variable {W : World} {s s' m m' t : State} {ctx expr q v r f : Ptr} {visits : List Evaluation}

/-- The evaluations of `f` among these. -/
def evaluationsOf (f : Ptr) (visits : List Evaluation) : List Evaluation :=
  visits.filter fun x =>
    match x.call with
    | .eval _ _ expr => expr == f
    | _ => false

/-- After the first evaluation, which is that of the expression tried, `f` is evaluated
exactly once. -/
def RunsFinally (f : Ptr) (visits : List Evaluation) : Prop :=
  (evaluationsOf f visits.tail).length = 1

/-- The rest of the form, after the expression that gave the error `v`: clauses, and
then `(finally f)`. -/
structure EndsWithFinally (W : World) (ctx q v f : Ptr) (n : Nat) (m m' : State) : Prop where
  noted : ErrorNoted W ctx q v m m'
  form : ∃ error T e ps p clauses, m.cell v = some error ∧ error.type = .error ∧
    error.errType = some T ∧ ListAt m (e :: (ps ++ [p])) (.ref n) ∧
    List.Forall₂ (ClauseAt W m' ctx (catchSymbol m)) clauses ps ∧ finallySymbol m ≠ catchSymbol m ∧
    ListAt m' [finallySymbol m, f] p

/-- A clause of two elements is a parse error. -/
theorem asks_short_clause (ctx v catchSym finallySym candidate cleanup : Ptr) {x y i p : Ptr}
    {rest : List Ptr} (list : ListAt m (p :: rest) i) (clause : ListAt m [x, y] p) (filled : x ≠ .null) :
    ∃ r t, Asks W (call (.tryLoop ctx v i catchSym finallySym candidate cleanup)) m [] r t ∧
      t.typeOf r = some .error := by
  obtain ⟨a, c, rfl, known, _, rfl, _⟩ := list
  have len := list_len_runs (W := W) clause filled
  obtain ⟨b, d, isRef, found, cons, _⟩ := clause
  refine ⟨.ref m.fresh, m.allocated (.mkErr .parse 0 {}), ?_, ?_⟩
  · refine (asks_call (c := .tryLoop ctx v (.ref a) catchSym finallySym candidate cleanup) rfl).2 ?_
    change Asks W (tryLoop ctx v (.ref a) catchSym finallySym candidate cleanup) m [] _ _
    rw [tryLoop, if_neg (cell_ne_null known), asks_after (silent_load _) (runs_load known),
      asks_after (silent_load _) (runs_load found), if_neg (fun other => other cons),
      asks_after (silent_list_len _) len, if_pos (by simp)]
    exact asks_silent (silent_op _) (runs_alloc _ m)
  · rw [State.typeOf, State.cell_allocated_new]
    rfl

/-- `(try e (catch E₁ h₁) … (finally f))` never evaluates `f`: without an error the
value of `e` is given at once, and after an error the clause of two elements is taken for
a parse error. -/
theorem finally_never_runs {n : Nat} {e : Ptr} {es : List Ptr}
    (called : OperatorCall W .tryCatch ctx expr s n s') (operands : ListAt s' (e :: es) (.ref n))
    (tried : (runtime W).Runs (blEval .tryExpr ctx e) s' v m)
    (ended : (∃ kind, m.typeOf v = some kind ∧ kind ≠ .error) ∨
      ∃ m', EndsWithFinally W ctx q v f n m m') :
    ∃ visits r t, Asks W (evalBody ctx expr) s visits r t ∧ ¬ RunsFinally f visits := by
  have only (visits : List Evaluation) (one : visits = [evaluation .tryExpr ctx e s' v m]) :
      ¬ RunsFinally f visits := by
    rw [one]
    intro once
    cases once
  rcases ended with ⟨kind, known, fine⟩ | ⟨m', ending⟩
  · refine ⟨_, orNull v, m, (asks_operator called).2 ⟨v, ?_, rfl⟩, only _ rfl⟩
    exact (asks_success operands tried known fine).2 ⟨rfl, rfl, rfl⟩
  · obtain ⟨error, T, e', ps, p, clauses, known, type, errType, again, each, _, form⟩ := ending.form
    have failed : m.typeOf v = some .error := by
      rw [State.typeOf, known, ← type]
      rfl
    obtain ⟨others, list, loop⟩ := asks_failure operands tried failed again ending.noted
    obtain ⟨error', known', _, word, _⟩ := ending.noted.keeps v error known
    have errType' : error'.errType = some T := by
      rw [Cell.errType, word]
      exact errType
    have some_ : catchSymbol m ≠ .null := mk_symbol_ne_null _ m
    have someFinally : finallySymbol m ≠ .null := mk_symbol_ne_null _ _
    obtain ⟨i, last, turns⟩ := try_loop_clauses known' errType' some_ list each
      (finallySymbol m) v .null
    obtain ⟨r, t, stops, _⟩ := asks_short_clause (W := W) ctx v (catchSymbol m) (finallySymbol m)
      ((handlerOf T clauses).getD v) .null last form someFinally
    refine ⟨_, orNull r, t, (asks_operator called).2 ⟨r, ?_, rfl⟩, only _ rfl⟩
    exact (loop _ r t).2 ⟨[], (turns [] r t).2 stops, rfl⟩

/-- `(try h (finally z))` -/
theorem finally_never_runs_seven : ∃ visits r t,
    Asks World.bare (evalBody (.ref 17) (.ref 28)) tryForms visits r t ∧
      ¬ RunsFinally (.ref 8) visits := by
  have facts : ∃ s', OperatorCall World.bare .tryCatch (.ref 17) (.ref 28) tryForms 27 s' ∧
      ListAt s' [.ref 16, .ref 25] (.ref 27) ∧
      (runtime World.bare).Runs (blEval .tryExpr (.ref 17) (.ref 16)) s' (.ref 16) s' ∧
      s'.typeOf (.ref 16) = some .number :=
    ⟨_, ⟨_, _, _, _, _, _, rfl, rfl, .symbol rfl rfl ⟨9, rfl⟩ (by decide), rfl, rfl, rfl, rfl, rfl,
      rfl, rfl⟩, ⟨27, _, rfl, rfl, rfl, rfl, 26, _, rfl, rfl, rfl, rfl, rfl⟩, ⟨9, rfl⟩, rfl⟩
  obtain ⟨s', called, operands, tried, known⟩ := facts
  exact finally_never_runs (q := .ref 17) called operands tried (.inl ⟨_, known, by decide⟩)

/-- `(try h (finally z))` evaluates `h` and not `z`. -/
theorem finally_skipped : ∃ s',
    OperatorCall World.bare .tryCatch (.ref 17) (.ref 28) tryForms 27 s' ∧
      ListAt s' [.ref 16, .ref 25] (.ref 27) ∧ ListAt s' [finallySymbol s', .ref 8] (.ref 25) ∧
      Asks World.bare (evalBody (.ref 17) (.ref 28)) tryForms
        [evaluation .tryExpr (.ref 17) (.ref 16) s' (.ref 16) s'] (.ref 16) s' ∧
      ¬ RunsFinally (.ref 8) [evaluation .tryExpr (.ref 17) (.ref 16) s' (.ref 16) s'] := by
  have facts : ∃ s', OperatorCall World.bare .tryCatch (.ref 17) (.ref 28) tryForms 27 s' ∧
      ListAt s' [.ref 16, .ref 25] (.ref 27) ∧ ListAt s' [finallySymbol s', .ref 8] (.ref 25) ∧
      (runtime World.bare).Runs (blEval .tryExpr (.ref 17) (.ref 16)) s' (.ref 16) s' ∧
      s'.typeOf (.ref 16) = some .number :=
    ⟨_, ⟨_, _, _, _, _, _, rfl, rfl, .symbol rfl rfl ⟨9, rfl⟩ (by decide), rfl, rfl, rfl, rfl, rfl,
      rfl, rfl⟩, ⟨27, _, rfl, rfl, rfl, rfl, 26, _, rfl, rfl, rfl, rfl, rfl⟩,
      ⟨25, _, rfl, rfl, rfl, rfl, 24, _, rfl, rfl, rfl, rfl, rfl⟩, ⟨9, rfl⟩, rfl⟩
  obtain ⟨s', called, operands, clause, tried, known⟩ := facts
  refine ⟨s', called, operands, clause, (asks_operator called).2 ⟨.ref 16, ?_, rfl⟩,
    fun once => nomatch once⟩
  exact (asks_success operands tried known (by decide)).2 ⟨rfl, rfl, rfl⟩

end Finally

end BearLang.Handlers
