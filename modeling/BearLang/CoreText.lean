import BearLang.CoreEvaluation
import BearLang.Handlers
import BearLang.SerialiseRoundTrip

/-!
# Texts of the core

What the reader makes of the text of a program lies in memory as the program.
The reader makes every symbol by interning, so a short name is read as the one
symbol that has it; from there the evaluator does what the program says.
-/

namespace BearLang.CoreLanguage

open CallPrograms SymbolInterning EqualValues OperandEvaluation StructuredPrograms

set_option autoImplicit false

section Symbols

/-- The symbols are those of the table, and a name that fits into a key has only
one. -/
structure Listed (s : State) : Prop where
  listed : ∀ p, s.typeOf p = some .symbol → ∃ entry ∈ s.symbolTable, p = .ref entry.sym
  single : ∀ one ∈ s.symbolTable, ∀ other ∈ s.symbolTable, ∀ name, ¬ Long name →
    nameOf s (.ref one.sym) = some name → nameOf s (.ref other.sym) = some name →
    one.sym = other.sym

theorem listed_initial : Listed State.initial where
  listed p isSymbol := by
    obtain ⟨c, known, type⟩ := Option.map_eq_some_iff.1 isSymbol
    have mem : c ∈ staticCells := by
      obtain ⟨a, rfl⟩ := State.ref_of_cell known
      exact List.mem_of_getElem? known
    have none_ : ∀ c ∈ staticCells, c.type ≠ .symbol := by decide
    exact absurd type (none_ c mem)
  single one mem := absurd mem List.not_mem_nil

/-- Nothing but interning makes symbols. -/
def interning : Contract bearLang where
  op
    | .alloc c => c.type ≠ .symbol
    | _ => True
  opAnswer _ _ := True
  call
    | .readForm _ => True
    | .readListLoop .. => True
    | _ => False
  callAnswer _ _ := True

variable {s t : State}

theorem listed_same (types : ∀ p, t.typeOf p = some .symbol → s.typeOf p = some .symbol)
    (grown : Grows s t) (table : t.symbolTable = s.symbolTable) (sound : Sound s) (listed : Listed s) :
    Listed t where
  listed p isSymbol := by
    rw [table]
    exact listed.listed p (types p isSymbol)
  single one mem other mem' name short named named' := by
    rw [table] at mem mem'
    have named_before : ∀ entry ∈ s.symbolTable, nameOf t (.ref entry.sym) = some name →
        nameOf s (.ref entry.sym) = some name := by
      intro entry mem named
      obtain ⟨old, known, _⟩ := sound.keys.cut entry mem
      have still := name_of_grows grown known
      rw [named] at still
      rw [known, still]
    exact listed.single one mem other mem' name short (named_before one mem named)
      (named_before other mem' named')

/-- A name is entered only where it is not found. -/
theorem listed_entered (sound : Sound s) (listed : Listed s) {name : CStr}
    (missed : s.symbolTable.find? (·.key == name) = none) : Listed (entered name s) := by
  have old : ∀ entry ∈ s.symbolTable, ∀ other, ¬ Long other →
      nameOf (entered name s) (.ref entry.sym) = some other →
      nameOf s (.ref entry.sym) = some other ∧ other ≠ name := by
    intro entry mem other short named
    obtain ⟨known, held, key⟩ := sound.keys.cut entry mem
    have still := entered_keeps_name held name
    rw [named] at still
    cases still
    refine ⟨held, ?_⟩
    intro same
    subst same
    rw [List.take_of_length_le (Nat.not_lt.1 short)] at key
    have absent := List.find?_eq_none.1 missed entry mem
    exact absent (beq_iff_eq.2 key)
  have new := name_of_entered name s
  constructor
  · intro p isSymbol
    by_cases here : p = .ref s.fresh
    · exact ⟨_, List.mem_cons_self, here⟩
    · have before : s.typeOf p = some .symbol := by
        obtain ⟨c, known, type⟩ := Option.map_eq_some_iff.1 isSymbol
        refine Option.map_eq_some_iff.2 ⟨c, ?_, type⟩
        rw [← known]
        exact (Handlers.cell_allocated_elsewhere here _).symm
      obtain ⟨entry, mem, is⟩ := listed.listed p before
      exact ⟨entry, List.mem_cons_of_mem _ mem, is⟩
  · intro one mem other mem' given short named named'
    rcases List.mem_cons.1 mem with rfl | before
    · rcases List.mem_cons.1 mem' with rfl | before'
      · rfl
      · rw [new] at named
        cases named
        exact absurd rfl (old other before' _ short named').2
    · rcases List.mem_cons.1 mem' with rfl | before'
      · rw [new] at named'
        cases named'
        exact absurd rfl (old one before _ short named).2
      · exact listed.single one before other before' given short (old one before given short named).1
          (old other before' given short named').1

theorem step_listed {op : Op} {answer : op.Answer} (sound : Sound s) (listed : Listed s)
    (made : interning.op op) (stepped : step op s = some (answer, t)) : Listed t := by
  have grown := step_grows stepped
  cases step_effect stepped with
  | same => exact listed
  | written out is => exact ⟨listed.listed, listed.single⟩
  | symbol name is missed => exact listed_entered sound listed missed
  | made c is =>
      subst is
      refine listed_same ?_ grown rfl sound listed
      intro p isSymbol
      by_cases here : p = .ref s.fresh
      · subst here
        rw [State.typeOf, State.cell_allocated_new] at isSymbol
        exact absurd (Option.some.inj isSymbol) made
      · rwa [State.typeOf, Handlers.cell_allocated_elsewhere here] at isSymbol
  | @stored a c new known cell =>
      refine listed_same ?_ grown rfl sound listed
      intro p isSymbol
      by_cases here : p = .ref a
      · subst here
        obtain ⟨d, found, type, _⟩ := grown _ c known
        rw [State.typeOf, found] at isSymbol
        rw [State.typeOf, known]
        rw [Option.map_some, type] at isSymbol
        exact isSymbol
      · rwa [State.typeOf, State.cell_put_other here] at isSymbol

theorem same_symbol (listed : Listed s) {p q : Ptr} {name : CStr} (short : ¬ Long name)
    (isSymbol : s.typeOf p = some .symbol) (isSymbol' : s.typeOf q = some .symbol)
    (named : nameOf s p = some name) (named' : nameOf s q = some name) : p = q := by
  obtain ⟨one, mem, rfl⟩ := listed.listed p isSymbol
  obtain ⟨other, mem', rfl⟩ := listed.listed q isSymbol'
  rw [listed.single one mem other mem' name short named named']

def Interns {α : Type} (program : Prog α) : Prop := program.Meets interning fun _ => True

theorem interns_after {α β : Type} {program : Prog α} {f : α → Prog β} (first : Interns program)
    (rest : ∀ v, Interns (f v)) : Interns (program >>= f) := by
  unfold Interns
  rw [meets_bind]
  exact meets_mono first fun v _ => rest v

theorem interns_alloc {c : Cell} (other : c.type ≠ .symbol) : Interns (alloc c) :=
  ⟨other, fun _ _ => trivial⟩

theorem interns_type_of (p : Ptr) : Interns (typeOf p) := ⟨trivial, fun _ _ => trivial⟩

theorem interns_read (sc : Scanner) : Interns (call (.readForm sc)) :=
  ⟨trivial, fun _ _ => trivial⟩

theorem read_list_loop_interns (sc : Scanner) (L : Ptr) : Interns (readListLoop sc L) := by
  apply interns_after (interns_read sc)
  intro pair
  dsimp only
  split
  · trivial
  · apply interns_after (interns_type_of pair.1)
    intro kind
    split
    · trivial
    · apply interns_after (interns_alloc (by simp [Cell.mkCons]))
      exact fun new => ⟨trivial, fun _ _ => ⟨trivial, fun _ _ => trivial⟩⟩

theorem read_list_interns (sc : Scanner) : Interns (readList sc) := by
  apply interns_after (interns_read sc)
  intro pair
  dsimp only
  split
  · exact interns_after (interns_alloc (by simp [Cell.mkCons])) fun _ => trivial
  · apply interns_after (interns_type_of pair.1)
    intro kind
    split
    · exact interns_after (interns_alloc (by simp [Cell.mkCons])) fun _ => trivial
    · apply interns_after (interns_alloc (by simp [Cell.mkCons]))
      exact fun first => ⟨trivial, fun _ _ => trivial⟩

theorem read_token_interns (slash : Bool) (token : TokenType) (sc : Scanner) :
    Interns (readToken slash token sc) := by
  cases token with
  | lparen => exact read_list_interns sc
  | string => exact interns_after (interns_alloc (by simp [Cell.mkStr])) fun _ => trivial
  | integer => exact interns_after (interns_alloc (by simp [Cell.mkNumber])) fun _ => trivial
  | docstring => exact interns_after (interns_alloc (by simp [Cell.mkDocstr])) fun _ => trivial
  | symbol => exact ⟨trivial, fun _ _ => trivial⟩
  | _ => trivial

theorem read_form_interns (slash : Bool) (sc : Scanner) : Interns (readFormBody slash sc) := by
  unfold readFormBody
  split
  · trivial
  · apply interns_after (read_token_interns slash _ _)
    exact fun pair => ⟨trivial, fun _ _ => trivial⟩

theorem reader_interns (W : World) : (runtime W).Honours interning := by
  intro c allowed
  cases c with
  | readForm sc => exact read_form_interns W.slash sc
  | readListLoop sc L => exact read_list_loop_interns sc L
  | _ => cases allowed

theorem parse_listed {W : World} {contents : CStr} {p : Ptr} (sound : Sound s) (listed : Listed s)
    (run : (runtime W).Runs (blParseSexp contents) s p t) : Listed t := by
  have keeps (op : Op) (before : State) (answer : op.Answer) (after : State)
      (held : Sound before ∧ Listed before) (made : interning.op op) (_ : True)
      (stepped : (runtime W).step op before = some (answer, after)) :
      interning.opAnswer op answer ∧ Sound after ∧ Listed after :=
    ⟨trivial, step_sound held.1 stepped, step_listed held.1 held.2 made stepped⟩
  have meets : Interns (blParseSexp contents) := interns_after (interns_read _) fun _ => trivial
  have ends := contract_invariant (reader_interns W) keeps (reaches_done_of_runs run)
    (fun _ _ _ => trivial) ⟨sound, listed⟩ meets
  exact ends.1.2

end Symbols

section Spelling

variable (s : State) (vars : Nat → Prop)

/-- The name of a variable; one that fits into a key is found again. -/
def Naming (x : Nat) (name : CStr) : Prop :=
  vars x ∧ ¬ Long name ∧ ∃ p, PlainSymbol s p x ∧ nameOf s p = some name

/-- The tree is the expression, written down; its literals are numbers. -/
def Expr.Spells : Expr → Datum → Prop
  | .const x, d => ∃ i, x = .number i ∧ d = .atom (.integer i)
  | .var x, d => ∃ name, Naming s vars x name ∧ d = .atom (.symbol name)
  | .call op left right, d => ∃ one other,
      d = .list [.atom (.symbol op.builtin.symbol), one, other] ∧ left.Spells one ∧ right.Spells other
  | .negate e, d => ∃ one, d = .list [.atom (.symbol Builtin.not.symbol), one] ∧ e.Spells one

mutual
def Form.Spells : Form → Datum → Prop
  | .absent, _ => False
  | .value e, d => e.Spells s vars d
  | .assign x e, d => ∃ name one,
      d = .list [.atom (.symbol Builtin.set.symbol), .atom (.symbol name), one] ∧
      Naming s vars x name ∧ e.Spells s vars one
  | .block body, d => ∃ items, d = .list (.atom .doOper :: items) ∧ body.Spells items
  | .branch test yes no, d => ∃ one two rest, d = .list (.atom .ifOper :: one :: two :: rest) ∧
      test.Spells s vars one ∧ yes.Spells two ∧
      (no = .absent ∧ rest = [] ∨ ∃ three, rest = [three] ∧ no.Spells three)
  | .loop test body, d => ∃ one items, d = .list (.atom .whileOper :: one :: items) ∧
      test.Spells s vars one ∧ body.Spells items
def Body.Spells : Body → List Datum → Prop
  | .last form, items => ∃ d, items = [d] ∧ form.Spells d
  | .next form rest, items => ∃ d later, items = d :: later ∧ form.Spells d ∧ rest.Spells later
end

def Provided (ctx : Ptr) (b : Builtin) : Prop :=
  ∃ key, nameOf s key = some b.symbol ∧ OperatorHead s ctx vars b key

def coreOperators : List Builtin :=
  [.add, .sub, .mult, .div, .mod, .lt, .gt, .eq, .and, .or, .xor, .not, .set]

def Provides (ctx : Ptr) : Prop := ∀ b ∈ coreOperators, Provided s vars ctx b

end Spelling

section Denotation

variable {s : State} {vars : Nat → Prop} {ctx p q : Ptr} {lo : Nat} {d : Datum} {items : List Datum}

theorem list_denoted (held : Denotes s lo (.list (d :: items)) p) : ∃ c, s.cell p = some c ∧
    c.type = .cons ∧ Denotes s lo d c.car ∧ DenotesAll s lo items c.cdr := by
  rw [Denotes] at held
  rcases held with ⟨none_, _⟩ | ⟨_, all⟩
  · cases none_
  · rw [DenotesAll] at all
    obtain ⟨c, ⟨a, _, _, known, type⟩, first, rest⟩ := all
    exact ⟨c, known, type, first, rest⟩

theorem rest_denoted (held : DenotesAll s lo (d :: items) q) : ∃ n c, q = .ref n ∧
    s.cell q = some c ∧ c.type = .cons ∧ Denotes s lo d c.car ∧ DenotesAll s lo items c.cdr := by
  rw [DenotesAll] at held
  obtain ⟨c, ⟨n, is, _, known, type⟩, first, rest⟩ := held
  exact ⟨n, c, is, known, type, first, rest⟩

theorem none_denoted (held : DenotesAll s lo [] q) : q = .null := by
  rw [DenotesAll] at held
  exact held

theorem atom_denoted {a : Atom} (held : Denotes s lo (.atom a) p) :
    ∃ c, s.cell p = some c ∧ c.atom = some a := by
  rw [Denotes] at held
  exact held

theorem symbol_denoted {name : CStr} (held : Denotes s lo (.atom (.symbol name)) p) :
    s.typeOf p = some .symbol ∧ nameOf s p = some name := by
  obtain ⟨c, known, atom⟩ := atom_denoted held
  unfold Cell.atom at atom
  split at atom <;> simp only [Option.map_eq_some_iff, Option.some.injEq, reduceCtorEq, and_false,
    exists_false] at atom
  next type =>
    obtain ⟨_, value, same⟩ := atom
    cases same
    refine ⟨Option.map_eq_some_iff.2 ⟨c, known, type⟩, ?_⟩
    rw [nameOf, known]
    exact value

theorem form_denoted_head {a : Atom} {kind : ValType} (held : Denotes s lo (.atom a) p)
    (only : ∀ c : Cell, c.atom = some a → c.type = kind) : FormHead s kind p := by
  obtain ⟨c, known, atom⟩ := atom_denoted held
  exact Option.map_eq_some_iff.2 ⟨c, known, only c atom⟩

theorem number_denoted {i : Int} (held : Denotes s lo (.atom (.integer i)) p) : Holds s (.number i) p := by
  obtain ⟨c, known, atom⟩ := atom_denoted held
  unfold Cell.atom at atom
  split at atom <;> simp only [Option.map_eq_some_iff, Option.some.injEq, reduceCtorEq, and_false,
    exists_false] at atom
  next type =>
    obtain ⟨_, value, same⟩ := atom
    cases same
    exact ⟨c, known, type, value⟩

theorem plain_symbol_type {key : Ptr} {id : Nat} (named : PlainSymbol s key id) :
    s.typeOf key = some .symbol := by
  obtain ⟨c, _, known, type, _⟩ := named
  exact Option.map_eq_some_iff.2 ⟨c, known, type⟩

theorem operator_core (op : Operator) : op.builtin ∈ coreOperators := by
  cases op <;> decide

theorem builtin_symbol_short (b : Builtin) : ¬ Long b.symbol := by
  unfold Long
  cases b <;> decide

/-- The name of an operator is read as the head of its calls. -/
theorem operator_denoted (listed : Listed s) {b : Builtin} (provided : Provided s vars ctx b)
    (held : Denotes s lo (.atom (.symbol b.symbol)) p) : OperatorHead s ctx vars b p := by
  obtain ⟨isSymbol, named⟩ := symbol_denoted held
  obtain ⟨key, named', head⟩ := provided
  obtain ⟨id, m, v, op, symbol, _⟩ := id head
  rw [same_symbol listed (builtin_symbol_short b) isSymbol (plain_symbol_type symbol) named named']
  exact head

theorem variable_denoted (listed : Listed s) {x : Nat} {name : CStr} (naming : Naming s vars x name)
    (held : Denotes s lo (.atom (.symbol name)) p) : VarAt s vars x p := by
  obtain ⟨isSymbol, named⟩ := symbol_denoted held
  obtain ⟨inside, short, key, symbol, named'⟩ := naming
  rw [same_symbol listed short isSymbol (plain_symbol_type symbol) named named']
  exact ⟨symbol, inside⟩

theorem atom_kind (c : Cell) : (c.atom = some .doOper → c.type = .operDo) ∧
    (c.atom = some .ifOper → c.type = .operIf) ∧ (c.atom = some .whileOper → c.type = .operWhile) := by
  unfold Cell.atom
  split <;> simp_all

theorem body_filled (b : Body) (spells : b.Spells s vars items) (held : DenotesAll s lo items q) :
    ∃ n, q = .ref n := by
  cases b with
  | last f =>
      unfold Body.Spells at spells
      obtain ⟨d, rfl, _⟩ := spells
      obtain ⟨n, _, is, _⟩ := rest_denoted held
      exact ⟨n, is⟩
  | next f rest =>
      unfold Body.Spells at spells
      obtain ⟨d, later, rfl, _⟩ := spells
      obtain ⟨n, _, is, _⟩ := rest_denoted held
      exact ⟨n, is⟩

theorem call_denoted (listed : Listed s) {b : Builtin} (provided : Provided s vars ctx b)
    (held : Denotes s lo (.list (.atom (.symbol b.symbol) :: d :: items)) p) :
    ∃ n, CallAt s (OperatorHead s ctx vars b) p n ∧ DenotesAll s lo (d :: items) (.ref n) := by
  obtain ⟨c, known, type, first, rest⟩ := list_denoted held
  obtain ⟨n, _, is, _⟩ := rest_denoted rest
  refine ⟨n, ⟨c, known, type, is, operator_denoted listed provided first⟩, ?_⟩
  rw [← is]
  exact rest

theorem pair_denoted {n : Nat} {e : Datum} (held : DenotesAll s lo [d, e] (.ref n)) :
    ∃ k q r, CellsAt s [(n, q), (k, r)] (.ref n) ∧ Denotes s lo d q ∧ Denotes s lo e r := by
  obtain ⟨_, c, _, known, type, first, rest⟩ := rest_denoted held
  obtain ⟨k, c', is, known', type', second, none_⟩ := rest_denoted rest
  refine ⟨k, c.car, c'.car, ⟨rfl, c, known, type, rfl, is, c', known', type', rfl, ?_⟩, first, second⟩
  exact none_denoted none_

/-- The tree of an expression lies in memory as the expression. -/
theorem expr_denoted (listed : Listed s) (provides : Provides s vars ctx) (e : Expr)
    (spells : e.Spells s vars d) (held : Denotes s lo d p) : ExprAt s ctx vars e p := by
  induction e generalizing d p with
  | const x =>
      obtain ⟨i, rfl, rfl⟩ := spells
      exact number_denoted held
  | var x =>
      obtain ⟨name, naming, rfl⟩ := spells
      exact variable_denoted listed naming held
  | call op left right ih ih' =>
      obtain ⟨one, other, rfl, first, second⟩ := spells
      obtain ⟨n, call, operands⟩ := call_denoted listed (provides _ (operator_core op)) held
      obtain ⟨k, q, r, cells, held', held''⟩ := pair_denoted operands
      exact ⟨n, k, q, r, call, cells, ih first held', ih' second held''⟩
  | negate e ih =>
      obtain ⟨one, rfl, first⟩ := spells
      obtain ⟨n, call, operands⟩ := call_denoted listed (provides _ (by decide)) held
      obtain ⟨_, c, _, known, type, held', none_⟩ := rest_denoted operands
      exact ⟨n, c.car, call, ⟨rfl, c, known, type, rfl, none_denoted none_⟩, ih first held'⟩

mutual
theorem form_denoted (listed : Listed s) (provides : Provides s vars ctx) (f : Form) {p : Ptr}
    {d : Datum} (spells : f.Spells s vars d) (held : Denotes s lo d p) : FormAt s ctx vars f p := by
  cases f with
  | absent =>
      unfold Form.Spells at spells
      exact spells.elim
  | value e =>
      unfold Form.Spells at spells
      unfold FormAt
      exact expr_denoted listed provides e spells held
  | assign x e =>
      unfold Form.Spells at spells
      unfold FormAt
      obtain ⟨name, one, rfl, naming, first⟩ := spells
      obtain ⟨n, call, operands⟩ := call_denoted listed (provides _ (by decide)) held
      obtain ⟨k, q, r, cells, held', held''⟩ := pair_denoted operands
      exact ⟨n, k, q, r, call, cells, variable_denoted listed naming held',
        expr_denoted listed provides e first held''⟩
  | block body =>
      unfold Form.Spells at spells
      unfold FormAt
      obtain ⟨items, rfl, inner⟩ := spells
      obtain ⟨c, known, type, head, rest⟩ := list_denoted held
      have isDo : FormHead s .operDo c.car := form_denoted_head head fun c => (atom_kind c).1
      obtain ⟨n, is⟩ := body_filled body inner rest
      refine ⟨n, ⟨c, known, type, is, isDo⟩, ?_⟩
      rw [← is]
      exact body_denoted listed provides body inner rest
  | branch test yes no =>
      unfold Form.Spells at spells
      unfold FormAt
      obtain ⟨one, two, rest, rfl, first, second, last⟩ := spells
      obtain ⟨c, known, type, head, operands⟩ := list_denoted held
      have isIf : FormHead s .operIf c.car := form_denoted_head head fun c => (atom_kind c).2.1
      obtain ⟨n, c₁, is, known₁, type₁, held₁, operands⟩ := rest_denoted operands
      obtain ⟨k, c₂, is₂, known₂, type₂, held₂, operands⟩ := rest_denoted operands
      have call : CallAt s (FormHead s .operIf) p n := ⟨c, known, type, is, isIf⟩
      rw [is] at known₁
      rw [is₂] at known₂
      have test' := expr_denoted listed provides test first held₁
      have yes' := form_denoted listed provides yes second held₂
      rcases last with ⟨rfl, rfl⟩ | ⟨three, rfl, third⟩
      · refine ⟨n, c₁.car, c₂.car, .null, call, .inr ⟨rfl, ?_⟩, test', yes', ?_⟩
        · exact ⟨n, c₁, rfl, known₁, type₁, rfl, k, c₂, is₂, is₂ ▸ known₂, type₂, rfl,
            none_denoted operands⟩
        · unfold FormAt
          rfl
      · obtain ⟨l, c₃, is₃, known₃, type₃, held₃, none_⟩ := rest_denoted operands
        refine ⟨n, c₁.car, c₂.car, c₃.car, call, .inl ?_, test', yes',
          form_denoted listed provides no third held₃⟩
        exact ⟨n, c₁, rfl, known₁, type₁, rfl, k, c₂, is₂, is₂ ▸ known₂, type₂, rfl, l, c₃, is₃,
          known₃, type₃, rfl, none_denoted none_⟩
  | loop test body =>
      unfold Form.Spells at spells
      unfold FormAt
      obtain ⟨one, items, rfl, first, inner⟩ := spells
      obtain ⟨c, known, type, head, operands⟩ := list_denoted held
      have isWhile : FormHead s .operWhile c.car := form_denoted_head head fun c => (atom_kind c).2.2
      obtain ⟨n, c₁, is, known₁, type₁, held₁, rest⟩ := rest_denoted operands
      rw [is] at known₁
      exact ⟨n, c₁, ⟨c, known, type, is, isWhile⟩, known₁, type₁,
        expr_denoted listed provides test first held₁, body_denoted listed provides body inner rest⟩

theorem body_denoted (listed : Listed s) (provides : Provides s vars ctx) (b : Body) {q : Ptr}
    {items : List Datum} (spells : b.Spells s vars items) (held : DenotesAll s lo items q) :
    BodyAt s ctx vars b q := by
  cases b with
  | last f =>
      unfold Body.Spells at spells
      unfold BodyAt
      obtain ⟨d, rfl, first⟩ := spells
      obtain ⟨_, c, _, known, type, held', none_⟩ := rest_denoted held
      exact ⟨c, known, type, none_denoted none_, form_denoted listed provides f first held'⟩
  | next f rest =>
      unfold Body.Spells at spells
      unfold BodyAt
      obtain ⟨d, later, rfl, first, second⟩ := spells
      obtain ⟨_, c, _, known, type, held', rest'⟩ := rest_denoted held
      exact ⟨c, known, type, form_denoted listed provides f first held',
        body_denoted listed provides rest second rest'⟩
end

end Denotation

section Reading

variable {W : World} {s t : State} {ctx : Ptr} {vars : Nat → Prop} {σ : Store} {contents : CStr}
  {d : Datum} {after : List CStr}

theorem contents_untouched (kept : Kept untouched s t) : SameContents s t := by
  intro p c known
  obtain ⟨e, found, same⟩ := kept p c known id
  refine ⟨e, found, ?_⟩
  rw [same]
  exact ⟨rfl, rfl, rfl, rfl⟩

theorem provided_kept (same : SameContents s t) {b : Builtin} (provided : Provided s vars ctx b) :
    Provided t vars ctx b := by
  obtain ⟨key, named, head⟩ := provided
  refine ⟨key, ?_, operator_head_kept (retains_contents same) b head⟩
  obtain ⟨c, known, value⟩ := Option.bind_eq_some_iff.1 named
  obtain ⟨e, found, _, word, _⟩ := same key c known
  refine Option.bind_eq_some_iff.2 ⟨e, found, ?_⟩
  rw [Cell.sVal, word]
  exact value

/-- What is read from a text says what the text says, where the variables are as
they were. -/
theorem text_read (disciplined : ∀ D, W.Disciplined D) (sound : Sound s) (listed : Listed s)
    (provides : Provides s vars ctx) (stands : Stands ctx vars σ s)
    (forest : Forest W.slash (knownNames s) (tokensOf contents) [d] after) :
    ∃ p t, (runtime W).Runs (blParseSexp contents) s p t ∧ Stands ctx vars σ t ∧ Retains ctx vars s t ∧
      ∀ f : Form, f.Spells t vars d → FormAt t ctx vars f p := by
  have reads := reads_one (W := W) forest []
  rw [List.append_nil] at reads
  obtain ⟨p, t, run, _, kept, held⟩ := parse_sexp_of_reads sound reads
  have same := contents_untouched kept
  obtain ⟨closed, _⟩ := closed_reached (fun D => D.good) disciplined stands.closed
    (fun D _ => parse_sexp_safe contents) (reaches_done_of_runs run)
  refine ⟨p, t, run, stands_contents stands same closed, retains_contents same, ?_⟩
  intro f spells
  exact form_denoted (parse_listed sound listed run)
    (fun b core => provided_kept same (provides b core)) f spells held

/-- A text of the core, read and evaluated, does what the program does that it
spells. -/
theorem core_text_runs (disciplined : ∀ D, W.Disciplined D) (sound : Sound s) (listed : Listed s)
    (provides : Provides s vars ctx) (stands : Stands ctx vars σ s)
    (forest : Forest W.slash (knownNames s) (tokensOf contents) [d] after) (site : Site) :
    ∃ p t, (runtime W).Runs (blParseSexp contents) s p t ∧ Retains ctx vars s t ∧
      ∀ f : Form, f.Spells t vars d → ¬ Sticks f.command σ →
        ((∃ r u, (runtime W).Runs (blParseSexp contents >>= blEval site ctx) s r u) ↔
          ∃ v τ, EndsIn f.command σ v τ) ∧
        ∀ v τ, EndsIn f.command σ v τ →
          ∀ r u, (runtime W).Runs (blParseSexp contents >>= blEval site ctx) s r u →
            Holds u v r ∧ Stands ctx vars τ u ∧ Retains ctx vars s u := by
  obtain ⟨p, t, run, between, retains, code⟩ :=
    text_read disciplined sound listed provides stands forest
  refine ⟨p, t, run, retains, ?_⟩
  intro f spells fine
  have agrees := evaluator_implements_core disciplined f (code f spells) between fine site
  have behind (r : Ptr) (u : State) : (runtime W).Runs (blParseSexp contents >>= blEval site ctx) s r u ↔
      (runtime W).Runs (blEval site ctx p) t r u := runs_after run
  simp only [behind]
  refine ⟨agrees.1, ?_⟩
  intro v τ ends r u evaluated
  obtain ⟨held, stands', retains'⟩ := agrees.2 v τ ends r u evaluated
  exact ⟨held, stands', retains_trans retains retains'⟩

theorem naming_kept (kept : Retains ctx vars s t) {x : Nat} {name : CStr} (naming : Naming s vars x name) :
    Naming t vars x name := by
  obtain ⟨inside, short, key, symbol, named⟩ := naming
  refine ⟨inside, short, key, symbol_kept kept symbol, ?_⟩
  obtain ⟨c, known, value⟩ := Option.bind_eq_some_iff.1 named
  obtain ⟨e, found, _, word, _⟩ := kept.words key c known
  refine Option.bind_eq_some_iff.2 ⟨e, found, ?_⟩
  rw [Cell.sVal, word]
  exact value

/-- The operators, and a variable `n` that is 0. -/
def prepared : State where
  cells := staticCells ++
    coreOperators.mapIdx (fun i b => { type := .symbol, w0 := .str b.symbol, w1 := .ofNat i }) ++
    [{ type := .symbol, w0 := .str (text "n"), w1 := .ofNat 13 }] ++
    coreOperators.map (fun b => { type := .operNative, w0 := .code (.builtin b) }) ++
    [.mkNumber 0,
     .mkCtx { Ctx.new 16 .null with
       keys := (List.range 14).map (fun i => .ref (7 + i)) ++ [.null, .null]
       vals := (List.range 14).map (fun i => .ref (21 + i)) ++ [.null, .null] }]
  symbolTable := ⟨text "n", 20⟩ :: (coreOperators.mapIdx fun i b => ⟨b.symbol, 7 + i⟩).reverse
  lastSymId := 14

def preparedStore : Store := fun x => if x = 13 then some (.number 0) else none

theorem prepared_provides : Provides prepared (· = 13) (.ref 35) := by
  have symbols : ∀ i < 13, prepared.cell (.ref (7 + i)) =
      some { type := .symbol, w0 := .str (coreOperators.getD i .add).symbol, w1 := .ofNat i } ∧
      Cell.symId { type := .symbol, w1 := .ofNat i } = some i := by decide
  have natives : ∀ i < 13, prepared.cell (.ref (21 + i)) =
      some { type := .operNative, w0 := .code (.builtin (coreOperators.getD i .add)) } := by decide
  have slots : ∀ i < 13, ((List.range 14).map (fun i => Ptr.ref (21 + i)) ++ [.null, .null])[i]? =
      some (.ref (21 + i)) := by decide
  have plain : ∀ i < 13, (coreOperators.getD i .add).symbol.head? ≠ some (chr '\'') ∧
      strstr (text "::") (coreOperators.getD i .add).symbol = none := by decide
  intro b core
  obtain ⟨i, inside, is⟩ := List.getElem_of_mem core
  have here : coreOperators.getD i .add = b := by
    rw [List.getD_eq_getElem?_getD, List.getElem?_eq_getElem inside, is]
    rfl
  have less : i < 13 := inside
  obtain ⟨known, numbered⟩ := symbols i less
  have native := natives i less
  have shape := plain i less
  rw [here] at known native shape
  refine ⟨.ref (7 + i), ?_, i, 35, .ref (21 + i), _, ⟨_, _, known, rfl, rfl, numbered, shape⟩, ?_,
    .here rfl rfl ?_ (slots i less) (by simp), native, rfl, rfl⟩
  · rw [nameOf, known]
    rfl
  · exact Nat.ne_of_lt less
  · exact Nat.lt_trans less (by decide)

theorem prepared_listed : Listed prepared where
  listed p isSymbol := by
    obtain ⟨c, known, type⟩ := Option.map_eq_some_iff.1 isSymbol
    obtain ⟨a, rfl⟩ := State.ref_of_cell known
    have inside : a < 36 := State.ref_lt_fresh known
    have each : ∀ a < 36, prepared.typeOf (.ref a) = some .symbol →
        ∃ entry ∈ prepared.symbolTable, entry.sym = a := by decide
    obtain ⟨entry, mem, is⟩ := each a inside isSymbol
    exact ⟨entry, mem, by rw [is]⟩
  single one mem other mem' name _ named named' := by
    have each : ∀ one ∈ prepared.symbolTable, ∀ other ∈ prepared.symbolTable,
        nameOf prepared (.ref one.sym) = nameOf prepared (.ref other.sym) → one.sym = other.sym := by
      decide
    exact each one mem other mem' (named.trans named'.symm)

theorem prepared_stands : Stands (.ref 35) (· = 13) preparedStore prepared where
  closed := closed_of_check (by decide) (by decide) (by decide)
  context := ⟨_, ⟨_, rfl, rfl, ⟨rfl, rfl⟩, rfl⟩, rfl⟩
  none_ := ⟨_, rfl, rfl, rfl, rfl⟩
  true_ := ⟨_, rfl, rfl, rfl, rfl⟩
  false_ := ⟨_, rfl, rfl, rfl, rfl⟩
  bound x v value := by
    unfold preparedStore at value
    split at value
    · next isN =>
        subst isN
        cases value
        exact ⟨rfl, 35, .ref 34, .here rfl rfl (by decide) rfl (by decide), _, rfl, rfl, rfl⟩
    · cases value

theorem prepared_sound : Sound prepared :=
  sound_of_names (statics_of_append _ _ _ _) (by decide) (by decide)

/-- `(= n (+ n 1))` -/
theorem core_text_runs_step : ∃ p t,
    (runtime World.bare).Runs (blParseSexp (text "(= n (+ n 1))")) prepared p t ∧
    ∃ r u, (runtime World.bare).Runs (blParseSexp (text "(= n (+ n 1))") >>= blEval .operand (.ref 35))
      prepared r u ∧ Holds u (.number 1) r ∧
      Stands (.ref 35) (· = 13) (preparedStore.set 13 (.number 1)) u := by
  let sum : List Token := [⟨.symbol, text "+"⟩, ⟨.symbol, text "n"⟩, ⟨.integer, text "1"⟩]
  let inside : List Token :=
    ⟨.symbol, text "="⟩ :: ⟨.symbol, text "n"⟩ :: (openToken :: (sum ++ [closeToken]))
  have tokens : tokensOf (text "(= n (+ n 1))") = openToken :: (inside ++ [closeToken]) := by decide
  have inner : Forest false (knownNames prepared) sum [.atom (.symbol (text "+")),
      .atom (.symbol (text "n")), .atom (.integer 1)] (knownNames prepared) :=
    .atom rfl (.atom rfl (.atom rfl (.nothing _)))
  have within : Forest false (knownNames prepared) inside [.atom (.symbol (text "=")),
      .atom (.symbol (text "n")), .list [.atom (.symbol (text "+")), .atom (.symbol (text "n")),
        .atom (.integer 1)]] (knownNames prepared) :=
    .atom rfl (.atom rfl (.list rfl inner rfl (.nothing _)))
  have forest : Forest World.bare.slash (knownNames prepared) (tokensOf (text "(= n (+ n 1))"))
      [.list [.atom (.symbol (text "=")), .atom (.symbol (text "n")), .list [.atom (.symbol (text "+")),
        .atom (.symbol (text "n")), .atom (.integer 1)]]] (knownNames prepared) := by
    rw [tokens]
    exact .list rfl within rfl (.nothing _)
  obtain ⟨p, t, run, retains, agrees⟩ := core_text_runs bare_disciplined prepared_sound prepared_listed
    prepared_provides prepared_stands forest .operand
  have naming : Naming prepared (· = 13) 13 (text "n") :=
    ⟨rfl, by unfold Long; decide, .ref 20, ⟨_, _, rfl, rfl, rfl, rfl, by decide, by decide⟩, rfl⟩
  have naming' := naming_kept retains naming
  have ends : EndsIn (Form.assign 13 (.call .add (.var 13) (.const (.number 1)))).command preparedStore
      (.number 1) (preparedStore.set 13 (.number 1)) := by
    unfold Form.command
    exact .act rfl
  have spells : (Form.assign 13 (.call .add (.var 13) (.const (.number 1)))).Spells t (· = 13)
      (.list [.atom (.symbol (text "=")), .atom (.symbol (text "n")), .list [.atom (.symbol (text "+")),
        .atom (.symbol (text "n")), .atom (.integer 1)]]) := by
    unfold Form.Spells
    exact ⟨_, _, rfl, naming', _, _, rfl, ⟨_, naming', rfl⟩, 1, rfl, rfl⟩
  obtain ⟨comes, gives⟩ := agrees _ spells (not_sticks_of_ends ends)
  obtain ⟨r, u, evaluated⟩ := comes.2 ⟨_, _, ends⟩
  obtain ⟨held, stands, _⟩ := gives _ _ ends r u evaluated
  exact ⟨p, t, run, r, u, evaluated, held, stands⟩

end Reading

end BearLang.CoreLanguage
