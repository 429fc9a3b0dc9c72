import BearLang.Runtime

/-!
# Running the runtime

One fact for each kind of statement, and the rule that takes the first
statement off a program when its run is known.
-/

namespace BearLang

open CallPrograms

set_option autoImplicit false

section Statements

variable {W : World} {α β : Type}

/-- The rule for a sequence whose first part has a known run. -/
theorem runs_after {p : Prog α} {f : α → Prog β} {s m s' : State} {a : α} {v : β}
    (first : (runtime W).Runs p s a m) :
    (runtime W).Runs (p >>= f) s v s' ↔ (runtime W).Runs (f a) m v s' := by
  rw [runs_bind]
  constructor
  · rintro ⟨b, n, run, rest⟩
    obtain ⟨rfl, rfl⟩ := runs_functional run first
    exact rest
  · intro rest
    exact ⟨a, m, first, rest⟩

theorem runs_pure {v w : α} {s s' : State} :
    (runtime W).Runs (pure v) s w s' ↔ v = w ∧ s = s' := runs_done

theorem runs_pure_self (v : α) (s : State) : (runtime W).Runs (pure v) s v s :=
  runs_pure.2 ⟨rfl, rfl⟩

theorem runs_step {op : Op} {s s' : State} {a : op.Answer} (stepped : step op s = some (a, s')) :
    (runtime W).Runs (.perform op .done) s a s' :=
  runs_perform.2 ⟨a, s', stepped, runs_done.2 ⟨rfl, rfl⟩⟩

theorem runs_step_iff {op : Op} {s s' : State} {a : op.Answer} :
    (runtime W).Runs (.perform op .done) s a s' ↔ step op s = some (a, s') := by
  constructor
  · intro run
    obtain ⟨b, m, stepped, rest⟩ := runs_perform.1 run
    obtain ⟨rfl, rfl⟩ := runs_done.1 rest
    exact stepped
  · exact runs_step

theorem runs_call {c : Call} {s s' : State} {a : c.Answer}
    (run : (runtime W).Runs (body W c) s a s') : (runtime W).Runs (call c) s a s' :=
  runs_invoke.2 ⟨a, s', run, runs_done.2 ⟨rfl, rfl⟩⟩

theorem runs_call_iff {c : Call} {s s' : State} {a : c.Answer} :
    (runtime W).Runs (call c) s a s' ↔ (runtime W).Runs (body W c) s a s' := by
  constructor
  · intro run
    obtain ⟨b, m, called, rest⟩ := runs_invoke.1 run
    obtain ⟨rfl, rfl⟩ := runs_done.1 rest
    exact called
  · exact runs_call

theorem runs_load {p : Ptr} {c : Cell} {s : State} (known : s.cell p = some c) :
    (runtime W).Runs (load p) s c s :=
  runs_step (by
    simp only [step, known]
    rfl)

theorem runs_alloc (c : Cell) (s : State) :
    (runtime W).Runs (alloc c) s (.ref s.fresh) (s.allocated c) :=
  runs_step rfl

theorem runs_set_cdr {a : Nat} {c : Cell} {s : State} (known : s.cell (.ref a) = some c)
    (site : StoreSite) (q : Ptr) :
    (runtime W).Runs (setCdr site (.ref a) q) s () (s.put a { c with w1 := .ofPtr q }) := by
  have held : s.cells[a]? = some c := known
  refine runs_step ?_
  simp only [step, State.modify, held]
  rfl

theorem runs_set_inner {a : Nat} {c : Cell} {s : State} {lexical inner sym : Ptr}
    (known : s.cell (.ref a) = some c) (tail : c.tail = .closure lexical inner sym) (q : Ptr) :
    (runtime W).Runs (setInner (.ref a) q) s ()
      (s.put a { c with tail := .closure lexical q sym }) := by
  have held : s.cells[a]? = some c := known
  refine runs_step ?_
  simp only [step, State.modify, held, Cell.setInner, tail]
  rfl

theorem runs_set_write_to_parent {a : Nat} {c : Cell} {ctx : Ctx} {s : State}
    (known : s.cell (.ref a) = some c) (tail : c.tail = .ctx ctx) :
    (runtime W).Runs (setWriteToParent (.ref a)) s ()
      (s.put a { c with tail := .ctx { ctx with writeToParent := true } }) := by
  have held : s.cells[a]? = some c := known
  refine runs_step ?_
  simp only [step, State.modify, held, Cell.setCtx, tail]
  rfl

theorem runs_set_line {a : Nat} {c : Cell} {s : State} (known : s.cell (.ref a) = some c)
    (line : Nat) :
    (runtime W).Runs (setLine (.ref a) line) s () (s.put a { c with lineNum := line }) := by
  have held : s.cells[a]? = some c := known
  refine runs_step ?_
  simp only [step, State.modify, held]
  rfl

theorem runs_set_invoked {a : Nat} {c : Cell} {s : State} (known : s.cell (.ref a) = some c)
    (sym : Ptr) (customData : Nat) :
    (runtime W).Runs (setInvoked (.ref a) sym customData) s ()
      (s.put a { c with invokedSym := sym, customData := customData }) := by
  have held : s.cells[a]? = some c := known
  refine runs_step ?_
  simp only [step, State.modify, held]
  rfl

theorem runs_mk_symbol (name : CStr) (s : State) :
    (runtime W).Runs (mkSymbol name) s (blMkSymbol name s).1 (blMkSymbol name s).2 :=
  runs_step rfl

theorem runs_member {value : Option α} {v : α} (held : value = some v) (s : State) :
    (runtime W).Runs (member value) s v s := by
  rw [held]
  exact runs_done.2 ⟨rfl, rfl⟩

theorem runs_type_of {p : Ptr} {c : Cell} {s : State} (known : s.cell p = some c) :
    (runtime W).Runs (typeOf p) s c.type s := by
  rw [typeOf, runs_after (runs_load known)]
  exact runs_pure_self _ _

theorem runs_load_iff {p : Ptr} {f : Cell → Prog α} {s s' : State} {v : α} :
    (runtime W).Runs (load p >>= f) s v s' ↔
      ∃ c, s.cell p = some c ∧ (runtime W).Runs (f c) s v s' := by
  constructor
  · intro run
    obtain ⟨c, m, loaded, rest⟩ := (runs_bind.1 run)
    have stepped := runs_step_iff.1 loaded
    obtain ⟨d, known, same⟩ := Option.map_eq_some_iff.1 stepped
    cases same
    exact ⟨_, known, rest⟩
  · rintro ⟨c, known, rest⟩
    exact (runs_after (runs_load known)).2 rest

theorem runs_member_iff {value : Option β} {f : β → Prog α} {s s' : State} {v : α} :
    (runtime W).Runs (member value >>= f) s v s' ↔
      ∃ w, value = some w ∧ (runtime W).Runs (f w) s v s' := by
  constructor
  · intro run
    obtain ⟨w, m, held, rest⟩ := runs_bind.1 run
    cases value with
    | none =>
        have trapped : (runtime W).Runs (trap : Prog β) s w m := held
        obtain ⟨answer, _⟩ := runs_perform.1 trapped
        exact nomatch answer
    | some u =>
        obtain ⟨rfl, rfl⟩ := runs_pure.1 held
        exact ⟨u, rfl, rest⟩
  · rintro ⟨w, held, rest⟩
    exact (runs_after (runs_member held s)).2 rest

end Statements

section Calls

variable {W : World} {s s' : State}

theorem runs_ctx_get {ctx key v : Ptr} :
    (runtime W).Runs (blCtxGet ctx key) s v s' ↔
      (runtime W).Runs (ctxGetBody ctx key) s v s' :=
  runs_call_iff (c := .ctxGet ctx key)

theorem runs_eval {site : Site} {ctx expr v : Ptr} :
    (runtime W).Runs (blEval site ctx expr) s v s' ↔
      (runtime W).Runs (evalBody ctx expr) s v s' :=
  runs_call_iff (c := .eval site ctx expr)

theorem runs_read_form {sc : Scanner} {result : Ptr × Scanner} :
    (runtime W).Runs (call (.readForm sc)) s result s' ↔
      (runtime W).Runs (readFormBody W.slash sc) s result s' :=
  runs_call_iff (c := .readForm sc)

theorem runs_read_list_loop {sc sc' : Scanner} {L : Ptr} :
    (runtime W).Runs (call (.readListLoop sc L)) s sc' s' ↔
      (runtime W).Runs (readListLoop sc L) s sc' s' :=
  runs_call_iff (c := .readListLoop sc L)

end Calls

end BearLang
