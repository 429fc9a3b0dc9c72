import BearLang.CallTraces
import BearLang.OperatorCalls
import BearLang.ReadingPrograms

/-!
# The sub-expressions a form evaluates

The trace of an evaluation lists the evaluations that the form itself asks for, with
the states before and after each, and not what these ask for in turn.
-/

namespace BearLang.SubExpressions

open CallPrograms OperatorCalls ReadingPrograms

set_option autoImplicit false

section Traces

/-- Evaluations are noted, and the loops of a form are gone into. -/
def directly : Call → Mode
  | .eval .. => .note
  | .evalLoop .. => .enter
  | .evalConsLoop .. => .enter
  | .bodyLoop .. => .enter
  | .whileLoop .. => .enter
  | .funcbody .. => .enter
  | .native .. => .enter
  | .tryLoop .. => .enter
  | .foreachLoop .. => .enter
  | .filteredLoop .. => .enter
  | .filteredInner .. => .enter
  | .mapLoop .. => .enter
  | .mapBody .. => .enter
  | .addLists .. => .enter
  | .addNumbers .. => .enter
  | .addStrings .. => .enter
  | .printLoop .. => .enter
  | .extensionLoop .. => .enter
  | _ => .pass

abbrev Evaluation := Visit bearLang State

def evaluation (site : Site) (ctx expr : Ptr) (before : State) (v : Ptr) (after : State) :
    Evaluation :=
  ⟨.eval site ctx expr, before, v, after⟩

/-- A run of the program, with the evaluations that it asks for itself. -/
abbrev Asks (W : World) {α : Type} (program : Prog α) (s : State) (visits : List Evaluation) (v : α)
    (t : State) : Prop :=
  (runtime W).Traced directly program s visits v t

abbrev Silent {α : Type} (program : Prog α) : Prop := program.Silent directly

end Traces

section Pieces

variable {α β : Type}

theorem silent_pure (v : α) : Silent (pure v : Prog α) := trivial

theorem silent_op (op : Op) : Silent (.perform op .done : Prog op.Answer) := fun _ => trivial

theorem silent_call {c : Call} (passes : directly c = .pass) : Silent (call c) :=
  ⟨passes, fun _ => trivial⟩

theorem silent_seq {program : Prog α} {f : α → Prog β} (first : Silent program)
    (rest : ∀ v, Silent (f v)) : Silent (program >>= f) := silent_bind first rest

def passing (mode : Call → Mode) : Contract bearLang where
  op _ := True
  opAnswer _ _ := True
  call c := mode c = .pass
  callAnswer _ _ := True

instance : Reading (passing directly) :=
  ⟨fun _ => trivial, fun _ => trivial, trivial, fun _ _ => rfl, fun _ _ => rfl⟩

theorem silent_of_allows {mode : Call → Mode} {program : Prog α}
    (allowed : Allows (passing mode) program) : program.Silent mode :=
  silent_of_meets (fun _ passes => passes) (fun _ _ => trivial) (fun _ _ => trivial) allowed

theorem silent_load (p : Ptr) : Silent (load p) := silent_op _

theorem silent_member (value : Option α) : Silent (member value) :=
  silent_of_allows (allows_member value)

theorem silent_type_of (p : Ptr) : Silent (typeOf p) := silent_of_allows (allows_type_of p)

theorem silent_list_first (L : Ptr) : Silent (blListFirst L) :=
  silent_of_allows (allows_list_first L)

theorem silent_list_rest (L : Ptr) : Silent (blListRest L) := silent_of_allows (allows_list_rest L)

theorem silent_list_second (L : Ptr) : Silent (blListSecond L) :=
  silent_of_allows (allows_list_second L)

theorem silent_list_third (L : Ptr) : Silent (blListThird L) :=
  silent_of_allows (allows_list_third L)

theorem silent_list_len (L : Ptr) : Silent (blListLen L) := silent_of_allows (allows_list_len L)

theorem silent_ctx_get (ctx key : Ptr) : Silent (blCtxGet ctx key) := silent_call rfl

theorem silent_ctx_set (ctx key val : Ptr) : Silent (blCtxSet ctx key val) :=
  silent_seq (silent_seq (silent_load ctx) fun _ => silent_member _) fun _ =>
    silent_seq (silent_load key) fun _ => silent_seq (silent_member _) fun _ =>
      silent_seq (silent_op _) fun _ => silent_pure _

end Pieces

section Recording

variable {W : World} {mode : Call → Mode} {α : Type} {s t : State} {visits : List Evaluation}

theorem records_load {p : Ptr} {f : Cell → Prog α} {v : α} :
    (runtime W).Traced mode (load p >>= f) s visits v t ↔
      ∃ c, s.cell p = some c ∧ (runtime W).Traced mode (f c) s visits v t := by
  constructor
  · intro records
    obtain ⟨c, m, stepped, rest⟩ := traced_perform.1 records
    obtain ⟨c', found, rfl, rfl⟩ := mapped_spec stepped
    exact ⟨_, found, rest⟩
  · rintro ⟨c, found, rest⟩
    have silent : (load p).Silent mode := fun _ => trivial
    exact (traced_after silent (runs_load found)).2 rest

theorem records_eval {site : Site} {ctx expr : Ptr} (noted : mode (.eval site ctx expr) = .note)
    {f : Ptr → Prog α} {v : α} :
    (runtime W).Traced mode (blEval site ctx expr >>= f) s visits v t ↔
      ∃ a m rest, (runtime W).Runs (blEval site ctx expr) s a m ∧
        (runtime W).Traced mode (f a) m rest v t ∧
        visits = evaluation site ctx expr s a m :: rest := by
  refine (traced_note (M := runtime W) noted).trans ?_
  simp only [runs_eval]
  rfl

theorem records_call {c : Call} (enters : mode c = .enter) {v : c.Answer} :
    (runtime W).Traced mode (call c) s visits v t ↔
      (runtime W).Traced mode (body W c) s visits v t := by
  refine (traced_enter (M := runtime W) enters).trans ?_
  constructor
  · rintro ⟨a, m, inner, outer, called, rest, rfl⟩
    obtain ⟨rfl, rfl, rfl⟩ := traced_done.1 rest
    rw [List.append_nil]
    exact called
  · intro records
    exact ⟨v, t, visits, [], records, .done _ _, (List.append_nil _).symm⟩

variable {before : List Evaluation} {visit : Evaluation}

/-- The evaluation is the visit, or it comes back before the visit is made. -/
theorem makes_eval {site : Site} {ctx expr : Ptr} (noted : mode (.eval site ctx expr) = .note)
    {f : Ptr → Prog α} :
    (runtime W).Makes mode (blEval site ctx expr >>= f) s before visit ↔
      ∃ a m, (runtime W).Runs (blEval site ctx expr) s a m ∧
        (before = [] ∧ visit = evaluation site ctx expr s a m ∨
          ∃ rest, (runtime W).Makes mode (f a) m rest visit ∧
            before = evaluation site ctx expr s a m :: rest) := by
  refine (makes_note (M := runtime W) noted).trans ?_
  simp only [runs_eval]
  rfl

theorem makes_call {c : Call} (enters : mode c = .enter) :
    (runtime W).Makes mode (call c) s before visit ↔
      (runtime W).Makes mode (body W c) s before visit := by
  refine (makes_enter (M := runtime W) enters).trans ⟨?_, .inl⟩
  rintro (made | ⟨a, m, inner, outer, _, made, _⟩)
  · exact made
  · exact absurd made makes_done

end Recording

section Rules

variable {W : World} {α β : Type} {s t : State} {visits : List Evaluation}

theorem asks_pure {a v : α} : Asks W (pure a) s visits v t ↔ visits = [] ∧ a = v ∧ s = t :=
  traced_done

theorem asks_pure_self (v : α) (s : State) : Asks W (pure v) s [] v s := .done v s

theorem asks_after {program : Prog α} {f : α → Prog β} {a : α} {m : State} {v : β}
    (silent : Silent program) (run : (runtime W).Runs program s a m) :
    Asks W (program >>= f) s visits v t ↔ Asks W (f a) m visits v t :=
  traced_after silent run

theorem asks_silent {program : Prog α} {v : α} (silent : Silent program)
    (run : (runtime W).Runs program s v t) : Asks W program s [] v t := by
  have whole := (traced_after (f := Program.done) silent run).2 (asks_pure_self v t)
  rwa [Program.bind_done] at whole

theorem asks_load {p : Ptr} {f : Cell → Prog α} {v : α} :
    Asks W (load p >>= f) s visits v t ↔ ∃ c, s.cell p = some c ∧ Asks W (f c) s visits v t :=
  records_load

theorem asks_eval {site : Site} {ctx expr : Ptr} {f : Ptr → Prog α} {v : α} :
    Asks W (blEval site ctx expr >>= f) s visits v t ↔
      ∃ a m rest, (runtime W).Runs (blEval site ctx expr) s a m ∧ Asks W (f a) m rest v t ∧
        visits = evaluation site ctx expr s a m :: rest :=
  records_eval rfl

theorem asks_evaluated {site : Site} {ctx expr a : Ptr} {f : Ptr → Prog α} {v : α} {m : State}
    (run : (runtime W).Runs (blEval site ctx expr) s a m) :
    Asks W (blEval site ctx expr >>= f) s visits v t ↔
      ∃ rest, Asks W (f a) m rest v t ∧ visits = evaluation site ctx expr s a m :: rest := by
  rw [asks_eval]
  constructor
  · rintro ⟨b, n, rest, run', later, same⟩
    obtain ⟨rfl, rfl⟩ := runs_functional run run'
    exact ⟨rest, later, same⟩
  · rintro ⟨rest, later, same⟩
    exact ⟨a, m, rest, run, later, same⟩

theorem asks_call {c : Call} (enters : directly c = .enter) {v : c.Answer} :
    Asks W (call c) s visits v t ↔ Asks W (body W c) s visits v t :=
  records_call enters

theorem asks_bind {program : Prog α} {f : α → Prog β} {v : β} :
    Asks W (program >>= f) s visits v t ↔ ∃ a m first second, Asks W program s first a m ∧
      Asks W (f a) m second v t ∧ visits = first ++ second := traced_bind

end Rules

section Forms

variable {W : World} {ctx expr : Ptr} {s s' t : State} {visits : List Evaluation}

/-- What the evaluation of a list asks for is asked for by the application of what its
head is. -/
theorem asks_apply {e : Cell} {v r : Ptr} (known : s.cell expr = some e) (type : e.type = .cons)
    (head : HeadValue W ctx e.car s v s') :
    Asks W (evalBody ctx expr) s visits r t ↔ Asks W (evalApply ctx expr v) s' visits r t := by
  rw [evalBody, if_neg (cell_ne_null known)]
  refine (asks_call (c := .evalLoop ctx expr) rfl).trans ?_
  change Asks W (evalLoopBody ctx expr) s visits r t ↔ _
  rw [evalLoopBody, if_neg (cell_ne_null known), asks_after (silent_load _) (runs_load known)]
  simp only [type]
  rw [if_neg (head_ne_null head)]
  cases head with
  | symbol held kind found bound =>
      rw [asks_after (silent_load _) (runs_load held), if_pos kind,
        asks_after (silent_ctx_get _ _) found, if_neg bound]
  | other held kind =>
      rw [asks_after (silent_load _) (runs_load held), if_neg kind]

theorem asks_operator {op : Builtin} {n : Nat} (called : OperatorCall W op ctx expr s n s') {v : Ptr} :
    Asks W (evalBody ctx expr) s visits v t ↔
      ∃ r, Asks W (builtinCode W op ctx (.ref n)) s' visits r t ∧ v = orNull r := by
  obtain ⟨x, f, m, c, y, args, known, list, head, operator, native, points, again, rest, arguments,
    rfl⟩ := called.expression
  have filled : ¬ y.cdr = .null := by
    rw [rest]
    simp
  have quiet : Silent (setInvoked (.ref n) y.car c.customData) := silent_op _
  rw [asks_apply known list head, evalApply, asks_after (silent_load _) (runs_load operator)]
  simp only [native]
  rw [evalNative, asks_after (silent_load _) (runs_load again),
    asks_after (silent_load _) (runs_load operator),
    asks_after (silent_member _) (runs_member points m), if_neg filled,
    asks_after (silent_load _) (runs_load again), rest,
    asks_after quiet (runs_set_invoked arguments y.car c.customData), asks_bind]
  constructor
  · rintro ⟨r, u, first, second, run, after, rfl⟩
    obtain ⟨rfl, rfl, rfl⟩ := asks_pure.1 after
    rw [List.append_nil]
    exact ⟨r, (asks_call (c := .native (.builtin op) ctx (.ref n)) rfl).1 run, rfl⟩
  · rintro ⟨r, run, rfl⟩
    exact ⟨r, t, visits, [], (asks_call (c := .native (.builtin op) ctx (.ref n)) rfl).2 run,
      asks_pure_self _ _, (List.append_nil _).symm⟩

end Forms

end BearLang.SubExpressions
