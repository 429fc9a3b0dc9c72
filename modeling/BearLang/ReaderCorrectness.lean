import BearLang.FormGrammar

/-!
# The reader builds the forms

`read_form` and `read_list` run to their end on every input, and what they
build denotes the forms that are in the tokens. Reading touches no cell that
was there before, but for line numbers and the end of the list being built.
-/

namespace BearLang

open CallPrograms SymbolInterning

set_option autoImplicit false

section Frames

def untouched : Ptr → Prop := fun _ => False

theorem kept_allocated (s : State) (c : Cell) : Kept untouched s (s.allocated c) :=
  fun _ old known _ => ⟨old, State.cell_allocated_old known c, rfl⟩

theorem kept_put_line {s : State} {a : Nat} {c : Cell} (known : s.cell (.ref a) = some c)
    (line : Nat) : Kept untouched s (s.put a { c with lineNum := line }) := by
  intro p old found _
  by_cases same : p = .ref a
  · subst same
    rw [known] at found
    cases found
    exact ⟨_, State.cell_put_same (State.ref_lt_fresh known) _, rfl⟩
  · exact ⟨old, by rw [State.cell_put_other same, found], rfl⟩

theorem kept_put {s : State} {a : Nat} (new : Cell) : Kept (· = .ref a) s (s.put a new) :=
  fun _ old found other => ⟨old, by rw [State.cell_put_other other, found], rfl⟩

theorem kept_mk_symbol (name : CStr) (s : State) : Kept untouched s (blMkSymbol name s).2 := by
  cases found : s.symbolTable.find? (·.key == name) with
  | some entry =>
      rw [mk_symbol_found found]
      exact kept_refl _ s
  | none =>
      rw [mk_symbol_entered found]
      exact kept_allocated s _

theorem kept_untouched_trans {touched : Ptr → Prop} {s t u : State} (first : Kept untouched s t)
    (second : Kept touched t u) : Kept touched s u :=
  kept_trans first second (fun _ no => no.elim) fun _ _ _ hit => hit

theorem denotes_untouched {s t : State} {lo : Nat} (kept : Kept untouched s t) {d : Datum} {p : Ptr}
    (held : Denotes s lo d p) : Denotes t lo d p :=
  denotes_kept kept (fun _ _ _ no => no.elim) d p held

theorem denotes_cell {s : State} {lo : Nat} {d : Datum} {p : Ptr} (held : Denotes s lo d p) :
    ∃ a c, p = .ref a ∧ s.cell p = some c ∧ c.type ≠ .listEnd := by
  cases d with
  | atom atom =>
      simp only [Denotes] at held
      obtain ⟨c, known, value⟩ := held
      obtain ⟨a, rfl⟩ := State.ref_of_cell known
      refine ⟨a, c, rfl, known, fun type => ?_⟩
      simp [Cell.atom, type] at value
  | list items =>
      simp only [Denotes] at held
      rcases held with ⟨_, c, ⟨a, rfl, _, known, type⟩, _⟩ | ⟨filled, all⟩
      · exact ⟨a, c, rfl, known, by rw [type]; decide⟩
      · cases items with
        | nil => exact absurd rfl filled
        | cons d items =>
            simp only [DenotesAll] at all
            obtain ⟨c, ⟨a, rfl, _, known, type⟩, _⟩ := all
            exact ⟨a, c, rfl, known, by rw [type]; decide⟩

end Frames

section Statements

/-- Where reading ends: the tokens that are left, and the names known then. -/
structure Ends (s' : State) (sc' : Scanner) (rest : List Token) (after : List CStr) : Prop where
  lexes : Lexes sc'.input rest
  known : knownNames s' = after

variable (W : World)

/-- `read_form` builds `d` from the first of the tokens. -/
def ReadsForm (known : List CStr) (tokens : List Token) (d : Datum) (rest : List Token)
    (after : List CStr) : Prop :=
  ∀ (s : State) (sc : Scanner), Sound s → knownNames s = known → Lexes sc.input tokens →
    ∃ p s' sc', (runtime W).Runs (readFormBody W.slash sc) s (p, sc') s' ∧
      Ends s' sc' rest after ∧ Kept untouched s s' ∧ Denotes s' s.fresh d p

/-- `read_list` builds the list of `items`. -/
def ReadsList (known : List CStr) (tokens : List Token) (items : List Datum) (rest : List Token)
    (after : List CStr) : Prop :=
  ∀ (s : State) (sc : Scanner), Sound s → knownNames s = known → Lexes sc.input tokens →
    ∃ p s' sc', (runtime W).Runs (readList sc) s (p, sc') s' ∧
      Ends s' sc' rest after ∧ Kept untouched s s' ∧ Denotes s' s.fresh (.list items) p

/-- The loop of `read_list` links `items` to the last cell of the list. -/
def ReadsLoop (known : List CStr) (tokens : List Token) (items : List Datum) (rest : List Token)
    (after : List CStr) : Prop :=
  ∀ (s : State) (sc : Scanner) (a : Nat) (c : Cell), Sound s → knownNames s = known →
    Lexes sc.input tokens → s.cell (.ref a) = some c → c.type = .cons → c.cdr = .null →
    ∃ s' sc' c', (runtime W).Runs (readListLoop sc (.ref a)) s sc' s' ∧
      Ends s' sc' rest after ∧ Kept (· = .ref a) s s' ∧ s'.cell (.ref a) = some c' ∧
      c'.type = .cons ∧ c'.car = c.car ∧ DenotesAll s' s.fresh items c'.cdr

end Statements

section Forms

variable {W : World} {known between after : List CStr} {tokens middle rest : List Token}

theorem line_runs {s : State} {p : Ptr} {c : Cell} (found : s.cell p = some c) (sc : Scanner) :
    ∃ s', (runtime W).Runs (setLine p sc.lineno >>= fun _ => pure (p, sc)) s (p, sc) s' ∧
      Kept untouched s s' ∧ s'.symbolTable = s.symbolTable := by
  obtain ⟨a, rfl⟩ := State.ref_of_cell found
  refine ⟨_, ?_, kept_put_line found sc.lineno, rfl⟩
  rw [runs_after (runs_set_line found sc.lineno)]
  exact runs_pure_self _ _

theorem kept_grows {s t : State} (kept : Kept untouched s t) : Grows s t := by
  intro p c found
  obtain ⟨new, held, same⟩ := kept p c found id
  exact ⟨new, held, by rw [same], by rw [same]⟩

/-- The program comes back with a cell that holds the atom. -/
def Builds (W : World) (program : Prog (Ptr × Scanner)) (s : State) (sc : Scanner) (a : Atom)
    (after : List CStr) : Prop :=
  ∃ p s' c, (runtime W).Runs program s (p, sc) s' ∧ Kept untouched s s' ∧
    s'.cell p = some c ∧ c.atom = some a ∧ knownNames s' = after

theorem builds_new {s : State} (sound : Sound s) {c : Cell} {a : Atom} (atom : c.atom = some a)
    (sc : Scanner) :
    Builds W (alloc c >>= fun p => pure (p, sc)) s sc a (knownNames s) := by
  refine ⟨_, _, c, ?_, kept_allocated s c, State.cell_allocated_new s c, atom,
    known_names_grows sound (grows_allocated s c) rfl⟩
  rw [runs_after (runs_alloc c s)]
  exact runs_pure_self _ _

theorem builds_static {s : State} (sound : Sound s) {p : Ptr} {c : Cell} {a : Atom}
    (static : State.initial.cell p = some c)
    (atom : ∀ new : Cell, new.type = c.type → new.atom = some a) (sc : Scanner) :
    Builds W (pure (p, sc)) s sc a (knownNames s) := by
  obtain ⟨new, found, kind, _⟩ := sound.statics p c static
  exact ⟨p, s, new, runs_pure_self _ _, kept_refl _ s, found, atom new kind, rfl⟩

theorem builds_symbol {s : State} (sound : Sound s) (name : CStr) (sc : Scanner) :
    Builds W (mkSymbol name >>= fun p => pure (p, sc)) s sc
      (.symbol (internName (knownNames s) name).1) (internName (knownNames s) name).2 := by
  obtain ⟨named, kind, names⟩ := mk_symbol_interns sound name
  simp only [State.typeOf, Option.map_eq_some_iff] at kind
  obtain ⟨c, found, type⟩ := kind
  simp only [nameOf, found, Option.bind_some] at named
  refine ⟨_, _, c, ?_, kept_mk_symbol name s, found, ?_, names⟩
  · rw [runs_after (runs_mk_symbol name s)]
    exact runs_pure_self _ _
  · simp only [Cell.atom, type, named, Option.map_some]

theorem builds_atom {s : State} (sound : Sound s) {t : Token} {a : Atom}
    (value : t.atom W.slash (knownNames s) = some (a, between)) (sc : Scanner)
    (text : sc.yytext = t.text) :
    Builds W (readToken W.slash t.type sc) s sc a between := by
  unfold Token.atom at value
  cases kind : t.type with
  | lparen => simp [kind] at value
  | rparen => simp [kind] at value
  | string =>
      simp only [kind, Option.some.injEq, Prod.mk.injEq] at value
      obtain ⟨rfl, rfl⟩ := value
      rw [readToken, text]
      exact builds_new sound rfl sc
  | integer =>
      simp only [kind, Option.some.injEq, Prod.mk.injEq] at value
      obtain ⟨rfl, rfl⟩ := value
      rw [readToken, text]
      exact builds_new sound rfl sc
  | symbol =>
      simp only [kind, Option.some.injEq, Prod.mk.injEq] at value
      obtain ⟨rfl, rfl⟩ := value
      rw [readToken, text]
      exact builds_symbol sound t.text sc
  | docstring =>
      simp only [kind, Option.some.injEq, Prod.mk.injEq] at value
      obtain ⟨rfl, rfl⟩ := value
      rw [readToken, text]
      exact builds_new sound rfl sc
  | ifToken =>
      simp only [kind, Option.some.injEq, Prod.mk.injEq] at value
      obtain ⟨rfl, rfl⟩ := value
      refine builds_static sound (c := { type := .operIf }) rfl (fun new type => ?_) sc
      simp only [Cell.atom, type]
  | doToken =>
      simp only [kind, Option.some.injEq, Prod.mk.injEq] at value
      obtain ⟨rfl, rfl⟩ := value
      refine builds_static sound (c := { type := .operDo }) rfl (fun new type => ?_) sc
      simp only [Cell.atom, type]
  | whileToken =>
      simp only [kind, Option.some.injEq, Prod.mk.injEq] at value
      obtain ⟨rfl, rfl⟩ := value
      refine builds_static sound (c := { type := .operWhile }) rfl (fun new type => ?_) sc
      simp only [Cell.atom, type]

theorem known_names_kept {s t : State} (sound : Sound s) (kept : Kept untouched s t)
    (table : t.symbolTable = s.symbolTable) : knownNames t = knownNames s :=
  known_names_grows sound (kept_grows kept) table

theorem reads_atom {t : Token} {a : Atom} (value : t.atom W.slash known = some (a, between)) :
    ReadsForm W known (t :: tokens) (.atom a) tokens between := by
  intro s sc sound names lexes
  obtain ⟨type, text, later⟩ := yylex_yields lexes
  rw [← names] at value
  obtain ⟨p, s₁, c, run, kept, found, atom, names₁⟩ :=
    builds_atom sound value (yylex sc).2 text
  have sound₁ := runs_sound sound run
  obtain ⟨s₂, lineRun, kept₂, table⟩ := line_runs (W := W) found (yylex sc).2
  have held : Denotes s₁ s.fresh (.atom a) p := by
    simp only [Denotes]
    exact ⟨c, found, atom⟩
  refine ⟨p, s₂, (yylex sc).2, ?_, ⟨later, ?_⟩, kept_untouched_trans kept kept₂,
    denotes_untouched kept₂ held⟩
  · have split : yylex sc = (some t.type, (yylex sc).2) := Prod.ext type rfl
    rw [readFormBody, split]
    simp only
    rw [runs_after run]
    exact lineRun
  · rw [known_names_kept sound₁ kept₂ table, names₁]

/-- A list in parentheses is what `read_list` makes of the tokens after the
opening one. -/
theorem reads_list_form {t : Token} {inner : List Datum} (opens : t.type = .lparen)
    (inside : ReadsList W known tokens inner rest after) :
    ReadsForm W known (t :: tokens) (.list inner) rest after := by
  intro s sc sound names lexes
  obtain ⟨type, _, later⟩ := yylex_yields lexes
  obtain ⟨p, s₁, sc₁, run, ends, kept, held⟩ := inside s (yylex sc).2 sound names later
  have sound₁ := runs_sound sound run
  obtain ⟨a, c, rfl, found, _⟩ := denotes_cell held
  obtain ⟨s₂, lineRun, kept₂, table⟩ := line_runs (W := W) found sc₁
  refine ⟨.ref a, s₂, sc₁, ?_, ⟨ends.lexes, ?_⟩, kept_untouched_trans kept kept₂,
    denotes_untouched kept₂ held⟩
  · have split : yylex sc = (some .lparen, (yylex sc).2) := Prod.ext (type.trans (by rw [opens])) rfl
    rw [readFormBody, split]
    simp only [readToken]
    rw [runs_after run]
    exact lineRun
  · rw [known_names_kept sound₁ kept₂ table, ends.known]

/-- At the end of the tokens `read_form` gives a null pointer. -/
theorem end_runs {s : State} {sc : Scanner} (lexes : Lexes sc.input []) :
    (runtime W).Runs (call (.readForm sc)) s (.null, (yylex sc).2) s ∧
      Lexes (yylex sc).2.input [] := by
  obtain ⟨type, later⟩ := yylex_yields lexes
  refine ⟨?_, later⟩
  have split : yylex sc = (none, (yylex sc).2) := Prod.ext type rfl
  rw [runs_read_form, readFormBody, split]
  exact runs_pure_self _ _

/-- At a closing parenthesis it gives the mark for the end of a list. -/
theorem close_runs {t : Token} (closes : t.type = .rparen) {s : State} {sc : Scanner}
    (sound : Sound s) (lexes : Lexes sc.input (t :: tokens)) :
    ∃ s' c, (runtime W).Runs (call (.readForm sc)) s (endListVal, (yylex sc).2) s' ∧
      Ends s' (yylex sc).2 tokens (knownNames s) ∧ Kept untouched s s' ∧
      s'.cell endListVal = some c ∧ c.type = .listEnd := by
  obtain ⟨type, _, later⟩ := yylex_yields lexes
  obtain ⟨c, found, kind, _⟩ := sound.statics endListVal { type := .listEnd } rfl
  obtain ⟨s', lineRun, kept, table⟩ := line_runs (W := W) found (yylex sc).2
  obtain ⟨new, found', same⟩ := kept endListVal c found id
  refine ⟨s', new, ?_, ⟨later, known_names_kept sound kept table⟩, kept, found',
    (same_but_line_type same).trans kind⟩
  have split : yylex sc = (some .rparen, (yylex sc).2) := Prod.ext (type.trans (by rw [closes])) rfl
  rw [runs_read_form, readFormBody, split]
  simp only [readToken]
  rw [pure_bind]
  exact lineRun

end Forms

section Lists

variable {W : World} {known between after : List CStr} {tokens middle rest : List Token}

theorem empty_list_runs {s : State} (sound : Sound s) {lo : Nat} (bound : lo ≤ s.fresh)
    (sc : Scanner) :
    ∃ p s', (runtime W).Runs (alloc (.mkCons .null .null) >>= fun p => pure (p, sc)) s (p, sc) s' ∧
      Kept untouched s s' ∧ knownNames s' = knownNames s ∧ Denotes s' lo (.list []) p := by
  refine ⟨.ref s.fresh, s.allocated (.mkCons .null .null), ?_, kept_allocated s _,
    known_names_grows sound (grows_allocated s _) rfl, ?_⟩
  · rw [runs_after (runs_alloc _ s)]
    exact runs_pure_self _ _
  · simp only [Denotes]
    exact .inl ⟨trivial, _, ⟨s.fresh, rfl, bound, State.cell_allocated_new s _, rfl⟩,
      Cell.mk_cons_car _ _, Cell.mk_cons_cdr _ _⟩

theorem reads_list_stop : ReadsList W known [] [] [] known := by
  intro s sc sound names lexes
  obtain ⟨run, later⟩ := end_runs (W := W) (s := s) lexes
  obtain ⟨p, s', listRun, kept, names', held⟩ :=
    empty_list_runs (W := W) sound (Nat.le_refl s.fresh) (yylex sc).2
  refine ⟨p, s', (yylex sc).2, ?_, ⟨later, names'.trans names⟩, kept, held⟩
  rw [readList, runs_after run]
  simp only [if_true]
  exact listRun

theorem reads_list_close {t : Token} (closes : t.type = .rparen) :
    ReadsList W known (t :: rest) [] rest known := by
  intro s sc sound names lexes
  obtain ⟨s₁, c, run, ends, kept, found, kind⟩ := close_runs (W := W) closes sound lexes
  have sound₁ := runs_sound sound run
  obtain ⟨p, s', listRun, kept', names', held⟩ := empty_list_runs (W := W) sound₁
    (fresh_le_of_grows (kept_grows kept)) (yylex sc).2
  refine ⟨p, s', (yylex sc).2, ?_, ⟨ends.lexes, ?_⟩, kept_untouched_trans kept kept', held⟩
  · rw [readList, runs_after run]
    have notNull : endListVal ≠ .null := by decide
    simp only [if_neg notNull]
    rw [runs_after (runs_type_of found), if_pos kind]
    exact listRun
  · rw [names', ends.known, names]

theorem reads_loop_stop : ReadsLoop W known [] [] [] known := by
  intro s sc a c sound names lexes found type cdr
  obtain ⟨run, later⟩ := end_runs (W := W) (s := s) lexes
  refine ⟨s, (yylex sc).2, c, ?_, ⟨later, names⟩, kept_refl _ s, found, type, rfl, ?_⟩
  · rw [readListLoop, runs_after run]
    simp only [if_true]
    exact runs_pure_self _ _
  · simp only [DenotesAll]
    exact cdr

theorem reads_loop_close {t : Token} (closes : t.type = .rparen) :
    ReadsLoop W known (t :: rest) [] rest known := by
  intro s sc a c sound names lexes found type cdr
  obtain ⟨s₁, e, run, ends, kept, found', kind⟩ := close_runs (W := W) closes sound lexes
  obtain ⟨new, held, same⟩ := kept _ c found id
  refine ⟨s₁, (yylex sc).2, new, ?_, ⟨ends.lexes, by rw [ends.known, names]⟩,
    fun p d known _ => kept p d known id, held, (same_but_line_type same).trans type,
    same_but_line_car same, ?_⟩
  · rw [readListLoop, runs_after run]
    have notNull : endListVal ≠ .null := by decide
    simp only [if_neg notNull]
    rw [runs_after (runs_type_of found'), if_pos kind]
    exact runs_pure_self _ _
  · simp only [DenotesAll]
    rw [same_but_line_cdr same]
    exact cdr

/-- The first element goes into the cell that the list starts with. -/
theorem reads_list_cons {d : Datum} {items : List Datum}
    (first : ReadsForm W known tokens d middle between)
    (later : ReadsLoop W between middle items rest after) :
    ReadsList W known tokens (d :: items) rest after := by
  intro s sc sound names lexes
  obtain ⟨p, s₁, sc₁, run, ends, kept, held⟩ := first s sc sound names lexes
  have sound₁ := runs_sound sound run
  obtain ⟨b, e, rfl, found, kind⟩ := denotes_cell held
  have bound := fresh_le_of_grows (kept_grows kept)
  have allocRun := runs_alloc (W := W) (.mkCons (.ref b) .null) s₁
  obtain ⟨s', sc', c', loopRun, ends', kept', last, type, car, all⟩ :=
    later (s₁.allocated (.mkCons (.ref b) .null)) sc₁ s₁.fresh (.mkCons (.ref b) .null)
      (runs_sound sound₁ allocRun)
      (by rw [known_names_grows sound₁ (grows_allocated s₁ _) rfl, ends.known]) ends.lexes
      (State.cell_allocated_new s₁ _) rfl (Cell.mk_cons_cdr _ _)
  have kept₁ : Kept untouched s₁ s' :=
    kept_trans (kept_allocated s₁ _) kept' (fun _ no => no) fun q c known same => by
      subst same
      exact absurd (State.ref_lt_fresh known) (Nat.lt_irrefl _)
  refine ⟨.ref s₁.fresh, s', sc', ?_, ends', kept_untouched_trans kept kept₁, ?_⟩
  · rw [readList, runs_after (runs_read_form.2 run)]
    have notNull : Ptr.ref b ≠ .null := by simp
    simp only [if_neg notNull]
    rw [runs_after (runs_type_of found), if_neg kind, runs_after allocRun,
      runs_after (runs_read_list_loop.2 loopRun)]
    exact runs_pure_self _ _
  · simp only [Denotes, DenotesAll]
    refine .inr ⟨List.cons_ne_nil _ _, c', ⟨s₁.fresh, rfl, bound, last, type⟩, ?_, ?_⟩
    · rw [car, Cell.mk_cons_car]
      exact denotes_untouched kept₁ held
    · refine denotes_all_lower ?_ items c'.cdr all
      rw [State.fresh_allocated]
      omega

/-- A further element goes into a new cell behind the last one. -/
theorem reads_loop_cons {d : Datum} {items : List Datum}
    (first : ReadsForm W known tokens d middle between)
    (later : ReadsLoop W between middle items rest after) :
    ReadsLoop W known tokens (d :: items) rest after := by
  intro s sc a c sound names lexes found type cdr
  obtain ⟨p, s₁, sc₁, run, ends, kept, held⟩ := first s sc sound names lexes
  have sound₁ := runs_sound sound run
  obtain ⟨b, e, rfl, foundForm, kind⟩ := denotes_cell held
  obtain ⟨c₁, found₁, same₁⟩ := kept _ c found id
  have bound := fresh_le_of_grows (kept_grows kept)
  have older := State.ref_lt_fresh found
  have allocRun := runs_alloc (W := W) (.mkCons (.ref b) .null) s₁
  have linkRun := runs_set_cdr (W := W) (State.cell_allocated_old found₁ (.mkCons (.ref b) .null))
    .build (.ref s₁.fresh)
  have sound₂ := runs_sound sound₁ allocRun
  have sound₃ := runs_sound sound₂ linkRun
  have apart : Ptr.ref s₁.fresh ≠ .ref a := by
    intro same
    cases same
    omega
  have new := State.cell_put_other apart { c₁ with w1 := .ofPtr (.ref s₁.fresh) }
    |>.trans (State.cell_allocated_new s₁ (.mkCons (.ref b) .null))
  obtain ⟨s', sc', c', loopRun, ends', kept', last, type', car', all⟩ :=
    later _ sc₁ s₁.fresh (.mkCons (.ref b) .null) sound₃
      (by
        rw [known_names_grows sound₂ (runs_grows linkRun) rfl,
          known_names_grows sound₁ (runs_grows allocRun) rfl, ends.known])
      ends.lexes new rfl (Cell.mk_cons_cdr _ _)
  have linked := State.cell_put_same
    (State.ref_lt_fresh (State.cell_allocated_old found₁ (.mkCons (.ref b) .null)))
    { c₁ with w1 := .ofPtr (.ref s₁.fresh) }
  obtain ⟨cLast, foundLast, sameLast⟩ := kept' _ _ linked apart.symm
  -- of the cells of `s₁` only the one at `a` has changed
  have kept₁ : Kept (· = .ref a) s₁ s' := by
    refine kept_trans (kept_untouched_trans (kept_allocated s₁ _) (kept_put _)) kept'
      (fun _ hit => hit) fun q old known same => ?_
    subst same
    exact absurd (State.ref_lt_fresh known) (Nat.lt_irrefl _)
  refine ⟨s', sc', cLast, ?_, ends', kept_untouched_trans kept kept₁, foundLast, ?_, ?_, ?_⟩
  · rw [readListLoop, runs_after (runs_read_form.2 run)]
    have notNull : Ptr.ref b ≠ .null := by simp
    simp only [if_neg notNull]
    rw [runs_after (runs_type_of foundForm), if_neg kind, runs_after allocRun, runs_after linkRun]
    exact runs_read_list_loop.2 loopRun
  · rw [same_but_line_type sameLast]
    exact (same_but_line_type same₁).trans type
  · rw [same_but_line_car sameLast, ← same_but_line_car same₁]
    rfl
  · have tail : cLast.cdr = .ref s₁.fresh := by
      rw [same_but_line_cdr sameLast]
      rfl
    rw [tail]
    simp only [DenotesAll]
    refine ⟨c', ⟨s₁.fresh, rfl, bound, last, type'⟩, ?_, ?_⟩
    · rw [car', Cell.mk_cons_car]
      refine denotes_kept kept₁ (fun b' c' known same => ?_) d _ held
      cases same
      rw [found₁] at known
      cases known
      exact ⟨(same_but_line_type same₁).trans type, older⟩
    · refine denotes_all_lower ?_ items c'.cdr all
      rw [State.fresh_put, State.fresh_allocated]
      omega

/-- On every list of tokens `read_list` and its loop build what `Forms` says. -/
theorem reads_forms {items : List Datum} (forms : Forms W.slash known tokens items rest after) :
    ReadsList W known tokens items rest after ∧ ReadsLoop W known tokens items rest after := by
  induction forms with
  | stop known => exact ⟨reads_list_stop, reads_loop_stop⟩
  | close known rest closes => exact ⟨reads_list_close closes, reads_loop_close closes⟩
  | atom value _ ih =>
      exact ⟨reads_list_cons (reads_atom value) ih.2, reads_loop_cons (reads_atom value) ih.2⟩
  | list opens _ _ inside later =>
      have first := reads_list_form opens inside.1
      exact ⟨reads_list_cons first later.2, reads_loop_cons first later.2⟩

end Lists

end BearLang
