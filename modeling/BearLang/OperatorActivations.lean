import BearLang.ArgumentBinding
import BearLang.Assignments

/-!
# Activations of opers

The call of an oper binds its arguments, unevaluated, in a new child of the
definition context, and the body runs there. The context is also stored in the
oper, where the next call replaces it; an activation goes on in the context it
began with. Assignments in it go to the definition context, which is older than
every activation.
-/

namespace BearLang.OperatorActivations

open CallPrograms ContextRefinement ArgumentBinding Assignments

set_option autoImplicit false

section Calls

/-- An oper with these parameters, whose names have these ids, defined in the context
`lexical`. -/
structure OperValue (s : State) (o : Ptr) (params : List Ptr) (ids : List Nat) (lexical : Ptr) :
    Prop where
  cell : ∃ f, s.cell o = some f ∧ f.type = .operBl ∧ ListAt s params f.cdr ∧
    f.lexicalClosure = some lexical
  named : params.map (symIdOf s) = ids.map some
  definition : ∃ d, ctxAt s lexical = some d

/-- The expression is a call of the oper with these argument expressions. -/
def OperCall (W : World) (s : State) (ctx expr o : Ptr) (args : List Ptr) : Prop :=
  ∃ h, ListAt s (h :: args) expr ∧ HeadValue W ctx h s o s

def operBody (inner body : Ptr) : Prog Ptr := do
  let (_, retval) ← call (.bodyLoop .operBody inner body nullVal)
  leave
  pure (orNull retval)

/-- The call made in `s` has come to its body, in `t`, in the new context at `a`; no
cell that existed before is changed but the oper, which refers to the context. -/
structure Activation (s t : State) (o : Ptr) (ids : List Nat) (args : List Ptr) (lexical : Ptr)
    (a : Nat) : Prop where
  fresh : s.fresh = a
  bound : ∃ c, ContextAt t (.ref a) c ∧ c.parent = lexical ∧ c.writeToParent = true ∧
    ∀ i, c.vals.getD i .null = lastBound (ids.zip args) i .null
  refers : ∃ f sym, s.cell o = some f ∧ t.cell o = some { f with
    tail := .closure lexical (.ref a) sym }
  kept : ∀ p c, p ≠ o → s.cell p = some c → t.cell p = some c

variable {W : World} {s t : State}

theorem keeps_words_put_tail {a : Nat} {cell : Cell} (known : s.cell (.ref a) = some cell)
    (tail : Tail) : KeepsWords s (s.put a { cell with tail := tail }) := by
  intro p old found
  by_cases same : p = .ref a
  · subst same
    rw [known] at found
    cases found
    exact ⟨_, State.cell_put_same (State.ref_lt_fresh known) _, rfl, rfl, rfl⟩
  · exact ⟨old, by rw [State.cell_put_other same, found], rfl, rfl, rfl⟩

theorem keeps_words_trans {u : State} (first : KeepsWords s t) (second : KeepsWords t u) :
    KeepsWords s u := by
  intro p cell known
  obtain ⟨middle, found, type, word, word'⟩ := first p cell known
  obtain ⟨last, found', type', word₂, word₂'⟩ := second p middle found
  exact ⟨last, found', type'.trans type, word₂.trans word, word₂'.trans word'⟩

theorem ctx_new_runs {p : Ptr} {d : Ctx} (known : ctxAt s p = some d) :
    (runtime W).Runs (blCtxNew p) s (.ref s.fresh) (s.allocated (.mkCtx (.new d.valsCount p))) := by
  have notNull : p ≠ .null := by
    rintro rfl
    cases known
  rw [blCtxNew, if_neg notNull, runs_after (runs_load_at known)]
  exact runs_alloc _ s

theorem new_slot (n : Nat) (p : Ptr) (i : Nat) : (Ctx.new n p).vals.getD i .null = .null := by
  rw [Ctx.new, get_replicate_null]

def operRest (o : Ptr) : Prog Ptr := do
  let oc ← load o
  let inner ← member oc.innerClosure
  setWriteToParent inner
  operBody inner oc.car

/-- The new context is made and the oper refers to it; nothing else is changed. -/
structure ContextMade (s t : State) (o : Ptr) (f : Cell) (lexical : Ptr) : Prop where
  words : KeepsWords s t
  created : ∃ n, t.cell (.ref s.fresh) = some (.mkCtx (.new n lexical))
  refers : ∃ sym, t.cell o = some { f with tail := .closure lexical (.ref s.fresh) sym }
  kept : ∀ p c, p ≠ o → s.cell p = some c → t.cell p = some c

theorem oper_call_reaches {ctx expr o lexical : Ptr} {args : List Ptr} {f : Cell} {d : Ctx}
    (site : Site) (called : OperCall W s ctx expr o args) (found : s.cell o = some f)
    (kind : f.type = .operBl) (closure : f.lexicalClosure = some lexical)
    (definition : ctxAt s lexical = some d) :
    ∃ t vals, ContextMade s t o f lexical ∧ ListAt s args vals ∧
      (runtime W).Reaches (blEval site ctx expr) s
        (if 1 < args.length + 1 then
          blSetParams (.ref s.fresh) f.cdr vals >>= fun _ => operRest o
        else operRest o) t := by
  obtain ⟨h, list, head⟩ := called
  have filled : h ≠ .null := head_ne_null head
  obtain ⟨o, rfl⟩ := State.ref_of_cell found
  obtain ⟨inner, sym, tail⟩ : ∃ inner sym, f.tail = .closure lexical inner sym := by
    unfold Cell.lexicalClosure at closure
    split at closure
    · rename_i inner sym same
      cases closure
      exact ⟨inner, sym, same⟩
    · cases closure
  -- the new context, and the oper that refers to it
  have oBound := State.ref_lt_fresh found
  have made := ctx_new_runs (W := W) definition
  generalize allocated : s.allocated (.mkCtx (.new d.valsCount lexical)) = s1 at made
  have found1 : s1.cell (.ref o) = some f := by
    rw [← allocated]
    exact State.cell_allocated_old found _
  have refer := runs_set_inner (W := W) found1 tail (.ref s.fresh)
  generalize referred : s1.put o { f with tail := .closure lexical (.ref s.fresh) sym } = s2 at refer
  have kept2 : KeepsWords s s2 := by
    rw [← referred]
    refine keeps_words_trans ?_ (keeps_words_put_tail found1 _)
    rw [← allocated]
    exact keeps_words_allocated s _
  have other : Ptr.ref s.fresh ≠ .ref o := fun same => Nat.ne_of_gt oBound (Ptr.ref.inj same)
  have oper2 : s2.cell (.ref o) = some { f with tail := .closure lexical (.ref s.fresh) sym } := by
    rw [← referred]
    exact State.cell_put_same (State.ref_lt_fresh found1) _
  have list2 := list_at_kept kept2 list
  obtain ⟨m, e, rfl, known, type, rfl, given⟩ := list
  refine ⟨s2, e.cdr, ⟨kept2, ⟨d.valsCount, ?_⟩, ⟨sym, oper2⟩, fun p c notOper held => ?_⟩, given, ?_⟩
  · rw [← referred, State.cell_put_other other, ← allocated]
    exact State.cell_allocated_new s _
  · rw [← referred, State.cell_put_other notOper, ← allocated]
    exact State.cell_allocated_old held _
  · have enter : (runtime W).Runs (enterOper (.ref o)) s2 () s2 := runs_step rfl
    refine reaches_trans (eval_reaches_apply site known type head) ?_
    refine reaches_after (runs_load found) ?_
    simp only [kind]
    refine reaches_after (runs_load known) (reaches_after (runs_load found) ?_)
    refine reaches_after (runs_member closure s) (reaches_after made (reaches_after refer ?_))
    refine reaches_after (list_len_runs list2 filled) (reaches_after enter ?_)
    exact reaches_after (runs_load oper2) (reaches_after (runs_member rfl s2) (.refl _ _))

theorem activation_starts {ctx expr o lexical : Ptr} {params args : List Ptr} {ids : List Nat}
    (site : Site) (called : OperCall W s ctx expr o args) (value : OperValue s o params ids lexical)
    (some_ : args ≠ []) (enough : args.length ≤ params.length) :
    ∃ t body, (runtime W).Reaches (blEval site ctx expr) s (operBody (.ref s.fresh) body) t ∧
      Activation s t o ids args lexical s.fresh := by
  obtain ⟨⟨f, found, kind, listed, closure⟩, named, d, definition⟩ := value
  obtain ⟨s2, vals, made, given, reached⟩ :=
    oper_call_reaches site called found kind closure definition
  obtain ⟨words, ⟨n, new2⟩, ⟨sym, oper2⟩, kept2⟩ := made
  have other : Ptr.ref s.fresh ≠ o := by
    rintro rfl
    exact Nat.lt_irrefl _ (State.ref_lt_fresh found)
  have opened : OpenContext s2 (.ref s.fresh) (.mkCtx (.new n lexical)) (.new n lexical) :=
    ⟨new2, rfl, rfl, ⟨by simp [Ctx.new], by simp [Ctx.new]⟩, rfl⟩
  obtain ⟨s3, bind, binds⟩ := set_params_binds (W := W) opened (list_at_kept words listed)
    (list_at_kept words given) (sym_ids_kept words named) enough some_
  obtain ⟨others, _, new, opened3, parent, plain, slots⟩ := binds
  have oper3 : s3.cell o = some { f with tail := .closure lexical (.ref s.fresh) sym } := by
    rw [others _ fun same => other same.symm]
    exact oper2
  obtain ⟨new3, _, _, sized, _⟩ := opened3
  refine ⟨s3.put s.fresh { Cell.mkCtx (.new n lexical) with
    tail := .ctx { new with writeToParent := true } }, f.car, ?_, ?_⟩
  · have mark := runs_set_write_to_parent (W := W) new3 rfl
    have long : 1 < args.length + 1 := Nat.succ_lt_succ (List.length_pos_iff.2 some_)
    rw [if_pos long] at reached
    refine reaches_trans reached (reaches_after bind ?_)
    refine reaches_after (runs_load oper3) (reaches_after (runs_member rfl s3) ?_)
    exact reaches_after mark (.refl _ _)
  · refine ⟨rfl, ?_, ?_, ?_⟩
    · have here := State.cell_put_same (State.ref_lt_fresh new3)
        { Cell.mkCtx (.new n lexical) with
          tail := .ctx { new with writeToParent := true } }
      refine ⟨{ new with writeToParent := true }, ⟨_, here, rfl, sized, plain⟩, parent, rfl, ?_⟩
      intro i
      rw [slots i, new_slot]
    · exact ⟨f, sym, found, (State.cell_put_other other.symm _).trans oper3⟩
    · intro p c notOper known
      have old : p ≠ .ref s.fresh := by
        rintro rfl
        exact Nat.lt_irrefl _ (State.ref_lt_fresh known)
      rw [State.cell_put_other old, others p old]
      exact kept2 p c notOper known

end Calls

section Separation

variable {W : World} {s t : State}

/-- An assignment executed in the context `p` leaves the cell `q` as it is. -/
def LeavesAlone (W : World) (s : State) (p q : Ptr) : Prop :=
  ∀ key v r t, (runtime W).Runs (blCtxSet p key v) s r t → t.cell q = s.cell q

def Redirected (s : State) (p lexical : Ptr) : Prop :=
  ∃ c, ContextAt s p c ∧ c.parent = lexical ∧ c.writeToParent = true

/-- An assignment changes the context it goes to, and no other cell. -/
theorem ctx_set_elsewhere {p key v r : Ptr} {c : Ctx} (known : ctxAt s p = some c)
    (run : (runtime W).Runs (blCtxSet p key v) s r t) {q : Ptr} (other : q ≠ target p c) :
    t.cell q = s.cell q := by
  rw [blCtxSet, runs_after (runs_load_at known)] at run
  dsimp only at run
  obtain ⟨k, s1, loaded, afterKey⟩ := runs_bind.1 run
  obtain ⟨_, _, _, rfl⟩ := mapped_spec (runs_step_iff.1 loaded)
  obtain ⟨id, s2, held, afterId⟩ := runs_bind.1 afterKey
  have same : s2 = s1 := by
    cases symId : k.symId with
    | none =>
        rw [symId] at held
        obtain ⟨_, _, stepped, _⟩ := runs_perform.1 held
        cases stepped
    | some n => exact (runs_functional held (runs_member symId s1)).2
  subst same
  obtain ⟨_, s3, stored, done_⟩ := runs_bind.1 afterId
  obtain ⟨_, rfl⟩ := runs_pure.1 done_
  obtain ⟨a, old, new, goes, _, _, rfl⟩ := modify_spec (runs_step_iff.1 stored)
  have goes' : target p c = .ref a := goes
  rw [goes'] at other
  exact State.cell_put_other other new

theorem redirected_leaves {p lexical q : Ptr} (redirected : Redirected s p lexical)
    (other : q ≠ lexical) : LeavesAlone W s p q := by
  obtain ⟨c, known, parent, marked⟩ := redirected
  intro key v r t run
  refine ctx_set_elsewhere (context_at_ctx known) run ?_
  rw [target, if_pos marked, parent]
  exact other

theorem redirected_reached {α : Type} {program rest : Prog α} {p lexical : Ptr}
    (redirected : Redirected s p lexical) (reached : (runtime W).Reaches program s rest t) :
    Redirected t p lexical := by
  have keeps : ∀ op u answer after, Redirected u p lexical → True →
      (runtime W).step op u = some (answer, after) → Redirected after p lexical := by
    rintro op u answer after ⟨c, known, parent, marked⟩ _ stepped
    obtain ⟨d, known', parent', marked', _⟩ := context_step stepped known
    exact ⟨d, known', parent'.trans parent, marked' marked⟩
  exact guarded_invariant (fun _ _ => True) keeps reached (fun _ _ _ => trivial) redirected

/-- The definition context of an oper stays what it is. -/
theorem lexical_reached {α : Type} {program rest : Prog α} {o lexical : Ptr}
    (held : ∃ f, s.cell o = some f ∧ f.lexicalClosure = some lexical)
    (reached : (runtime W).Reaches program s rest t) :
    ∃ f, t.cell o = some f ∧ f.lexicalClosure = some lexical := by
  have keeps : ∀ op u answer after, (∃ f, u.cell o = some f ∧ f.lexicalClosure = some lexical) →
      True → (runtime W).step op u = some (answer, after) →
      ∃ f, after.cell o = some f ∧ f.lexicalClosure = some lexical := by
    rintro op u answer after ⟨f, found, closure⟩ _ stepped
    obtain ⟨g, found', change⟩ := step_cell stepped found
    refine ⟨g, found', ?_⟩
    cases change with
    | inner q lexical' old sym _ tail =>
        rw [Cell.lexicalClosure, tail] at closure
        exact closure
    | mark old _ tail =>
        rw [Cell.lexicalClosure, tail] at closure
        cases closure
    | store id key val old new _ tail stores =>
        rw [Cell.lexicalClosure, tail] at closure
        cases closure
    | _ => exact closure
  exact guarded_invariant (fun _ _ => True) keeps reached (fun _ _ _ => trivial) held

theorem redirected_other {p lexical : Ptr} {a : Nat} (redirected : Redirected s p lexical)
    (known : ∃ d, ctxAt s lexical = some d) (new : s.fresh ≤ a) :
    p ≠ .ref a ∧ lexical ≠ .ref a := by
  obtain ⟨c, ⟨cell, found, _⟩, _⟩ := redirected
  obtain ⟨d, definition⟩ := known
  obtain ⟨cell', found', _⟩ := Option.bind_eq_some_iff.1 definition
  constructor
  · rintro rfl
    exact absurd (State.ref_lt_fresh found) (Nat.not_lt.2 new)
  · rintro rfl
    exact absurd (State.ref_lt_fresh found') (Nat.not_lt.2 new)

/-- The calls of an oper are separate. A call binds its arguments in a new child of the
definition context and changes no other context. Another call of the same oper, at
any later point, leaves the context of the first as it is, also when it is stored in
the oper in its place; and from then on no assignment in the context of one of the
two changes the context of the other. -/
theorem opers_reentrant {ctx expr o lexical : Ptr} {params args : List Ptr} {ids : List Nat}
    (site : Site) (called : OperCall W s ctx expr o args) (value : OperValue s o params ids lexical)
    (some_ : args ≠ []) (enough : args.length ≤ params.length) :
    ∃ t body, (runtime W).Reaches (blEval site ctx expr) s (operBody (.ref s.fresh) body) t ∧
      Activation s t o ids args lexical s.fresh ∧
      ∀ (α : Type) (program rest : Prog α) (u : State), (runtime W).Reaches program t rest u →
        ∀ site' ctx' expr' params' args' ids' lexical', OperCall W u ctx' expr' o args' →
          OperValue u o params' ids' lexical' → args' ≠ [] → args'.length ≤ params'.length →
          ∃ t' body', (runtime W).Reaches (blEval site' ctx' expr') u
              (operBody (.ref u.fresh) body') t' ∧
            Activation u t' o ids' args' lexical' u.fresh ∧
            t'.cell (.ref s.fresh) = u.cell (.ref s.fresh) ∧
            ∀ (β : Type) (program' rest' : Prog β) (w : State),
              (runtime W).Reaches program' t' rest' w →
              LeavesAlone W w (.ref s.fresh) (.ref u.fresh) ∧
                LeavesAlone W w (.ref u.fresh) (.ref s.fresh) := by
  obtain ⟨t, body, reached, active⟩ := activation_starts site called value some_ enough
  refine ⟨t, body, reached, active, ?_⟩
  intro α program rest u later site' ctx' expr' params' args' ids' lexical' called' value' some'
    enough'
  obtain ⟨t', body', reached', active'⟩ := activation_starts site' called' value' some' enough'
  obtain ⟨⟨f, found, _, _, closure⟩, _, d, definition⟩ := value
  obtain ⟨⟨f', found', _, _, closure'⟩, _, d', definition'⟩ := value'
  obtain ⟨c, known, parent, marked, _⟩ := active.bound
  obtain ⟨c', known', parent', marked', _⟩ := active'.bound
  -- both calls are calls of the oper with one definition context
  have same : lexical' = lexical := by
    obtain ⟨g, held, closure₂⟩ :=
      lexical_reached (lexical_reached ⟨f, found, closure⟩ reached) later
    rw [held] at found'
    cases found'
    rw [closure₂] at closure'
    exact (Option.some.inj closure').symm
  subst same
  have first : Redirected u (.ref s.fresh) lexical' :=
    redirected_reached ⟨c, known, parent, marked⟩ later
  have firstLater := redirected_reached first reached'
  obtain ⟨other, lexicalOther⟩ := redirected_other first ⟨d', definition'⟩ (Nat.le_refl u.fresh)
  have lexicalOld : lexical' ≠ .ref s.fresh := by
    rintro rfl
    obtain ⟨cell, held, _⟩ := Option.bind_eq_some_iff.1 definition
    exact Nat.lt_irrefl _ (State.ref_lt_fresh held)
  have notOper : Ptr.ref s.fresh ≠ o := by
    rintro rfl
    exact Nat.lt_irrefl _ (State.ref_lt_fresh found)
  refine ⟨t', body', reached', active', ?_, fun β program' rest' w last => ?_⟩
  · obtain ⟨_, ⟨cell, held, _⟩, _⟩ := first
    rw [held, active'.kept _ _ notOper held]
  · have firstLast := redirected_reached firstLater last
    have secondLast : Redirected w (.ref u.fresh) lexical' :=
      redirected_reached ⟨c', known', parent', marked'⟩ last
    exact ⟨redirected_leaves firstLast lexicalOther.symm,
      redirected_leaves secondLast lexicalOld.symm⟩

/-- The oper `(oper o (p) (o p))` and the call `(o x)`. -/
def recursiveOper : State where
  cells := staticCells ++
    [{ type := .symbol, w0 := .str (text "o"), w1 := .ofNat 0 },
     { type := .symbol, w0 := .str (text "p"), w1 := .ofNat 1 },
     { type := .symbol, w0 := .str (text "x"), w1 := .ofNat 2 },
     .mkCtx { Ctx.new 8 .null with
       keys := [.ref 7, .null, .null, .null, .null, .null, .null, .null]
       vals := [.ref 15, .null, .null, .null, .null, .null, .null, .null] },
     .mkCons (.ref 8) .null, .mkCons (.ref 8) .null, .mkCons (.ref 7) (.ref 12),
     .mkCons (.ref 13) .null,
     .mkClosure .operBl (.ref 14) (.ref 11) (.ref 10) (.ref 16) .null .null,
     .mkCtx (.new 8 (.ref 10)), .mkCons (.ref 9) .null, .mkCons (.ref 7) (.ref 17)]
  symbolTable := [⟨text "x", 9⟩, ⟨text "p", 8⟩, ⟨text "o", 7⟩]
  lastSymId := 3

/-- The call of the body in the context of the first call. -/
theorem opers_reentrant_recursive : ∃ t t',
    Activation recursiveOper t (.ref 15) [1] [.ref 9] (.ref 10) 19 ∧
    Activation t t' (.ref 15) [1] [.ref 8] (.ref 10) t.fresh ∧
    t'.cell (.ref 19) = t.cell (.ref 19) ∧
    LeavesAlone World.bare t' (.ref 19) (.ref t.fresh) ∧
    LeavesAlone World.bare t' (.ref t.fresh) (.ref 19) := by
  have called : OperCall World.bare recursiveOper (.ref 10) (.ref 18) (.ref 15) [.ref 9] :=
    ⟨.ref 7, ⟨18, _, rfl, rfl, rfl, rfl, 17, _, rfl, rfl, rfl, rfl, rfl⟩,
      .symbol rfl rfl ⟨9, rfl⟩ (by decide)⟩
  have value : OperValue recursiveOper (.ref 15) [.ref 8] [1] (.ref 10) :=
    ⟨⟨_, rfl, rfl, ⟨11, _, rfl, rfl, rfl, rfl, rfl⟩, rfl⟩, rfl, _, rfl⟩
  obtain ⟨t, body, reached, active, again⟩ :=
    opers_reentrant .operand called value (by simp) (by simp)
  have old : ∀ a c, a ≠ 15 → recursiveOper.cell (.ref a) = some c → t.cell (.ref a) = some c :=
    fun a c other known => active.kept _ c (fun same => other (Ptr.ref.inj same)) known
  have name : PlainSymbol t (.ref 7) 0 :=
    ⟨_, text "o", old 7 _ (by decide) rfl, rfl, rfl, rfl, by decide, by decide⟩
  have finds : Finds t 0 (.ref 19) 10 (.ref 15) := by
    obtain ⟨c, known, parent, _, slots⟩ := active.bound
    have outer : ctxAt t (.ref 10) = ctxAt recursiveOper (.ref 10) := by
      rw [ctxAt, old 10 _ (by decide) rfl]
      rfl
    have ctx := context_at_ctx known
    obtain ⟨_, _, _, sized, plain⟩ := known
    refine .above ctx plain (slot_empty sized (slots 0)) ?_
    rw [parent]
    exact .here outer rfl (by decide) rfl (by decide)
  have called' : OperCall World.bare t (.ref 19) (.ref 13) (.ref 15) [.ref 8] :=
    ⟨.ref 7, ⟨13, _, rfl, old 13 _ (by decide) rfl, rfl, rfl, 12, _, rfl, old 12 _ (by decide) rfl,
      rfl, rfl, rfl⟩, head_named (.plain name finds)⟩
  have value' : OperValue t (.ref 15) [.ref 8] [1] (.ref 10) := by
    obtain ⟨f, sym, found, oper⟩ := active.refers
    cases found
    have id : symIdOf t (.ref 8) = some 1 := by
      rw [symIdOf, old 8 _ (by decide) rfl]
      rfl
    refine ⟨⟨_, oper, rfl, ⟨11, _, rfl, old 11 _ (by decide) rfl, rfl, rfl, rfl⟩, rfl⟩, ?_, ?_⟩
    · rw [List.map_cons, id]
      rfl
    · exact ⟨_, by rw [ctxAt, old 10 _ (by decide) rfl]; rfl⟩
  obtain ⟨t', _, _, active', same, separate⟩ := again Unit (pure ()) (pure ()) t (.refl _ _) .operand
    (.ref 19) (.ref 13) _ _ _ _ called' value' (by simp) (by simp)
  have apart := separate Unit (pure ()) (pure ()) t' (.refl _ _)
  exact ⟨t, t', active, active', same, apart.1, apart.2⟩

end Separation

end BearLang.OperatorActivations
