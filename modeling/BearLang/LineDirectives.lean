import BearLang.EmittedCode
import BearLang.LineNumbers
import BearLang.ListEvaluation
import BearLang.ReadingPrograms

/-!
# The line directives of the compiler

`blc` reads a whole file before it compiles the first function. The directive ahead of
a function has the line of the `fun` symbol, which is one cell for all of them, and the
directive ahead of an expression the line on which the reading of it ended.
-/

namespace BearLang

open CallPrograms ReadingPrograms SymbolInterning

set_option autoImplicit false

section Directives

/-- The line that a `#line` directive at the start of the code gives. -/
def directiveLine (code : CStr) : Option Nat :=
  let opening := text "\n#line "
  if opening.isPrefixOf code then some (decimalValue ((code.drop opening.length).takeWhile isDigit))
  else none

theorem directive_line (n : Nat) (rest : CStr) :
    directiveLine (text "\n#line " ++ (decimal n ++ (text " \"" ++ rest))) = some n := by
  have opens : (text "\n#line ").isPrefixOf
      (text "\n#line " ++ (decimal n ++ (text " \"" ++ rest))) = true :=
    List.isPrefixOf_iff_prefix.2 (List.prefix_append _ _)
  have digits : (decimal n ++ (text " \"" ++ rest)).takeWhile isDigit = decimal n := by
    rw [List.takeWhile_append_of_pos (decimal_digits n)]
    change decimal n ++ (chr ' ' :: (text "\"" ++ rest)).takeWhile isDigit = decimal n
    rw [List.takeWhile_cons_of_neg (by decide), List.append_nil]
  simp only [directiveLine, if_pos opens, List.drop_left, digits, decimal_value_decimal]

def funName : CStr := text "fun"

/-- A list that begins with the symbol `fun`. -/
def Placed.IsFunction (f : Placed) : Prop :=
  ∃ first line rest last, f = .list first (.atom ⟨.symbol, funName⟩ line :: rest) last

/-- The line on which the `fun` of a function stands. -/
def Placed.headLine : Placed → Option Nat
  | .list _ (.atom _ line :: _) _ => some line
  | _ => none

/-- A documentation string ahead of the body is passed over. -/
def expressions : List Placed → List Placed
  | .atom t line :: body => if t.type = .docstring then body else .atom t line :: body
  | body => body

def Placed.body : Placed → List Placed
  | .list _ inner _ => expressions (inner.drop 3)
  | .atom _ _ => []

/-- The directive ahead of a list-valued expression gives the line on which it begins. -/
def BeginLine (e : Placed) (code : CStr) : Prop :=
  ∀ first inner last, e = .list first inner last → directiveLine code = some first

/-- The directives of each function are those of its own lines. -/
def CarryLines (items : List Placed) (codes : List FunctionCode) : Prop :=
  List.Forall₂ (fun f code => directiveLine code.head = f.headLine ∧
    List.Forall₂ BeginLine f.body code.exprs) items codes

/-- The last `fun` of the file. -/
def lastFun (items : List Placed) : Option Nat := (linesOf funName items).getLast?

def OneLine (e : Placed) : Prop := ∀ first inner last, e = .list first inner last → last = first

/-- Every function begins on the line of the last `fun` of the file, and its expressions
end where they begin. -/
def OwnLines (items : List Placed) : Prop :=
  ∀ f ∈ items, f.headLine = lastFun items ∧ ∀ e ∈ f.body, OneLine e

/-- A function with a name and a body of lists. -/
def Placed.Compilable (f : Placed) : Prop :=
  ∃ first line name nameLine args body last, f = .list first (.atom ⟨.symbol, funName⟩ line ::
    .atom ⟨.symbol, name⟩ nameLine :: args :: body) last ∧ body ≠ [] ∧
      ∀ e ∈ expressions body, ∃ begins inner ends, e = .list begins inner ends

end Directives

section Reading

/-- The compiler reads only, and what it reads stays. -/
structure Leaves (s t : State) : Prop where
  cells : ∀ p c, s.cell p = some c → t.cell p = some c
  table : t.symbolTable = s.symbolTable

def writing : Contract bearLang where
  op
    | .load _ => True
    | .alloc _ => True
    | .trap => True
    | _ => False
  opAnswer _ _ := True
  call
    | .listLen .. => True
    | .reverseLoop .. => True
    | .serSexp _ => True
    | .serLoop .. => True
    | .compileAtom _ => True
    | .compileBody .. => True
    | .compileForms .. => True
    | _ => False
  callAnswer _ _ := True

instance : Printing writing where
  load _ := trivial
  alloc _ := trivial
  trap := trivial
  listLen _ _ := trivial
  reverseLoop _ _ := trivial
  serSexp _ := trivial
  serLoop _ _ := trivial

theorem writing_compile_cons (L : Ptr) : Allows writing (compileCons L) := by
  refine allows_seq (allows_load L) fun c => ?_
  refine allows_seq (allows_call (c := .compileAtom c.car) trivial) fun car => ?_
  refine allows_seq (allows_load L) fun c => ?_
  exact allows_seq (allows_call (c := .compileAtom c.cdr) trivial) fun cdr => allows_pure _

theorem writing_compile_atom (E : Ptr) : Allows writing (compileAtomBody E) := by
  refine allows_ite (allows_pure _) (allows_seq (allows_load E) fun c => ?_)
  cases c.type with
  | cons => exact writing_compile_cons E
  | symbol => exact allows_seq (allows_ser E) fun s => allows_pure _
  | number => exact allows_seq (allows_ser E) fun s => allows_pure _
  | bool => exact allows_seq (allows_member _) fun b => allows_pure _
  | string => exact allows_seq (allows_member _) fun s => allows_pure _
  | _ => exact allows_pure _

theorem writing_compile_expr (infileName : CStr) (expr : Ptr) :
    Allows writing (compileExpr infileName expr) :=
  allows_seq (allows_load expr) fun _ => allows_seq (writing_compile_cons expr) fun _ =>
    allows_pure _

theorem writing_compile_body (infileName : CStr) (L : Ptr) :
    Allows writing (compileBodyLoop infileName L) := by
  refine allows_ite (allows_pure _) (allows_seq (allows_load L) fun c => ?_)
  refine allows_seq (writing_compile_expr infileName c.car) fun expr => ?_
  refine allows_seq (allows_load L) fun c => ?_
  exact allows_seq (allows_call (c := .compileBody infileName c.cdr) trivial) fun exprs =>
    allows_pure _

theorem writing_compile_fun (infileName : CStr) (funExpr : Ptr) :
    Allows writing (compileFun infileName funExpr) := by
  refine allows_seq (allows_list_rest funExpr) fun params => ?_
  refine allows_seq (allows_list_first params) fun name => ?_
  refine allows_seq (allows_list_second params) fun args => ?_
  refine allows_seq (allows_list_rest params) fun rest => ?_
  refine allows_seq (allows_list_rest rest) fun body => ?_
  refine allows_seq (allows_load body) fun b => ?_
  refine allows_seq (allows_type_of b.car) fun first => ?_
  refine allows_seq (allows_load funExpr) fun f => ?_
  refine allows_seq (allows_load f.car) fun car => ?_
  refine allows_seq (allows_load name) fun n => ?_
  refine allows_seq (allows_member n.sVal) fun name => ?_
  exact allows_seq (allows_call (c := .compileBody infileName _) trivial) fun exprs => allows_pure _

theorem writing_compile_forms (infileName : CStr) (setOper funOper L : Ptr) :
    Allows writing (compileFormsLoop infileName setOper funOper L) := by
  refine allows_ite (allows_pure _) (allows_seq (allows_load L) fun c => ?_)
  refine allows_seq (allows_load c.car) fun expr => ?_
  refine allows_ite (allows_call (c := .compileForms infileName setOper funOper c.cdr) trivial) ?_
  refine allows_ite (allows_seq (writing_compile_fun infileName c.car) fun code => ?_)
    (allows_pure _)
  refine allows_seq (allows_load L) fun c => ?_
  exact allows_seq (allows_call (c := .compileForms infileName setOper funOper c.cdr) trivial)
    fun codes => allows_pure _

theorem writing_honoured (W : World) : (runtime W).Honours writing := by
  intro c allowed
  cases c with
  | listLen i count =>
      refine allows_ite (allows_pure _) (allows_seq (allows_load i) fun c => ?_)
      exact allows_call (c := .listLen c.cdr (count + 1)) trivial
  | reverseLoop L retval =>
      refine allows_ite (allows_pure _) (allows_seq (allows_load L) fun c => ?_)
      exact allows_seq (allows_alloc _) fun p => allows_call (c := .reverseLoop c.cdr p) trivial
  | serSexp expr => exact allows_ser_sexp expr
  | serLoop L retval => exact allows_ser_loop L retval
  | compileAtom E => exact writing_compile_atom E
  | compileBody infileName L => exact writing_compile_body infileName L
  | compileForms infileName setOper funOper L =>
      exact writing_compile_forms infileName setOper funOper L
  | _ => exact allowed.elim

variable {W : World} {α : Type} {s t u : State}

theorem leaves_refl (s : State) : Leaves s s := ⟨fun _ _ known => known, rfl⟩

theorem writing_leaves {program : Prog α} {v : α} (allowed : Allows writing program)
    (run : (runtime W).Runs program s v t) : Leaves s t := by
  have keeps : ∀ op state answer final, Leaves s state → writing.op op → True →
      (runtime W).step op state = some (answer, final) →
      writing.opAnswer op answer ∧ Leaves s final := by
    intro op state answer final held allowed _ stepped
    refine ⟨trivial, ?_⟩
    cases op with
    | load p =>
        obtain ⟨c, known, same⟩ := Option.map_eq_some_iff.1 stepped
        cases same
        exact held
    | alloc c =>
        cases stepped
        exact ⟨fun p d known => State.cell_allocated_old (held.cells p d known) c, held.table⟩
    | trap => cases stepped
    | _ => exact allowed.elim
  exact (contract_invariant (writing_honoured W) keeps (reaches_done_of_runs run)
    (fun _ _ _ => trivial) (leaves_refl s) allowed).1

theorem forms_kept_leaves (held : Leaves s t) : FormsKept untouched s t where
  kept p c known _ := ⟨c, held.cells p c known, rfl⟩
  lists p c known _ _ := held.cells p c known
  symbols name p _ at_ := by
    unfold SymbolFor
    rw [held.table]
    exact at_

end Reading

section Compiling

variable {W : World} {s s' : State} {lo : Nat} {infileName : CStr}

theorem runs_compile_body {p : Ptr} {codes : List CStr} :
    (runtime W).Runs (call (.compileBody infileName p)) s codes s' ↔
      (runtime W).Runs (compileBodyLoop infileName p) s codes s' :=
  runs_call_iff (c := .compileBody infileName p)

theorem runs_compile_forms {setOper funOper p : Ptr} {codes : List FunctionCode} :
    (runtime W).Runs (call (.compileForms infileName setOper funOper p)) s codes s' ↔
      (runtime W).Runs (compileFormsLoop infileName setOper funOper p) s codes s' :=
  runs_call_iff (c := .compileForms infileName setOper funOper p)

/-- The directive ahead of an expression has the line on its first cell. -/
theorem compile_expr_line {expr : Ptr} {c : Cell} {code : CStr} (known : s.cell expr = some c)
    (run : (runtime W).Runs (compileExpr infileName expr) s code s') :
    directiveLine code = some c.lineNum := by
  rw [compileExpr, runs_after (runs_load known)] at run
  obtain ⟨inner, m, _, run⟩ := runs_bind.1 run
  obtain ⟨rfl, _⟩ := runs_pure.1 run
  simp only [List.append_assoc]
  exact directive_line _ _

/-- The directive ahead of a list-valued expression gives the line on which it ends. -/
def EndLine (e : Placed) (code : CStr) : Prop :=
  ∀ first inner last, e = .list first inner last → directiveLine code = some last

theorem compile_body_lines {items : List Placed} {p : Ptr} {codes : List CStr}
    (all : AllPlaced s lo items p)
    (run : (runtime W).Runs (call (.compileBody infileName p)) s codes s') :
    List.Forall₂ EndLine items codes := by
  induction items generalizing s s' p codes with
  | nil =>
      simp only [AllPlaced] at all
      subst all
      rw [runs_compile_body, compileBodyLoop, if_pos rfl] at run
      obtain ⟨rfl, _⟩ := runs_pure.1 run
      exact .nil
  | cons f items ih =>
      simp only [AllPlaced] at all
      obtain ⟨c, ⟨a, rfl, _, known, _⟩, first, rest⟩ := all
      rw [runs_compile_body, compileBodyLoop, if_neg (by simp), runs_after (runs_load known)] at run
      obtain ⟨code, m, exprRun, run⟩ := runs_bind.1 run
      have kept := writing_leaves (writing_compile_expr infileName c.car) exprRun
      rw [runs_after (runs_load (kept.cells _ c known))] at run
      obtain ⟨later, m', loopRun, run⟩ := runs_bind.1 run
      obtain ⟨rfl, _⟩ := runs_pure.1 run
      have rest := all_placed_kept (forms_kept_leaves kept) (fun _ _ _ no => no.elim) items c.cdr
        rest
      refine .cons (fun begins inner ends same => ?_) (ih rest loopRun)
      rw [same] at first
      simp only [PlacedAt] at first
      obtain ⟨d, ⟨_, _, _, found, _⟩, line, _⟩ := first
      rw [compile_expr_line found exprRun, line]

theorem rest_placed {items : List Placed} {p q : Ptr} (all : AllPlaced s lo items p)
    (run : (runtime W).Runs (blListRest p) s q s') : s' = s ∧ AllPlaced s lo items.tail q := by
  cases items with
  | nil =>
      simp only [AllPlaced] at all
      subst all
      rw [blListRest, if_pos rfl] at run
      obtain ⟨rfl, rfl⟩ := runs_pure.1 run
      simp only [List.tail_nil, AllPlaced, and_self]
  | cons f items =>
      simp only [AllPlaced] at all
      obtain ⟨c, ⟨a, rfl, _, known, _⟩, _, rest⟩ := all
      rw [blListRest, if_neg (by simp), runs_after (runs_load known)] at run
      obtain ⟨rfl, rfl⟩ := runs_pure.1 run
      exact ⟨rfl, rest⟩

theorem docstring_type {f : Placed} {p : Ptr} {c : Cell} (held : PlacedAt s lo f p)
    (known : s.cell p = some c) :
    c.type = .docstring ↔ ∃ t line, f = .atom t line ∧ t.type = .docstring := by
  cases f with
  | atom t line =>
      simp only [PlacedAt] at held
      obtain ⟨d, at_⟩ := held
      rw [at_.known] at known
      cases known
      rw [at_.type]
      constructor
      · intro type
        refine ⟨t, line, rfl, ?_⟩
        cases kind : t.type <;> simp_all [TokenType.value]
      · rintro ⟨u, number, same, kind⟩
        cases same
        rw [kind]
        rfl
  | list first inner last =>
      simp only [PlacedAt] at held
      obtain ⟨d, ⟨_, _, _, found, type⟩, _⟩ := held
      rw [found] at known
      cases known
      rw [type]
      constructor
      · intro kind
        cases kind
      · rintro ⟨u, number, same, _⟩
        cases same

/-- What `compile_fun` takes for the body, ahead of its first form. -/
theorem expressions_placed {f : Placed} {items : List Placed} {p : Ptr} {c d : Cell}
    (all : AllPlaced s lo (f :: items) p) (known : s.cell p = some c)
    (found : s.cell c.car = some d) :
    AllPlaced s lo (expressions (f :: items)) (if d.type = .docstring then c.cdr else p) := by
  have whole := all
  simp only [AllPlaced] at all
  obtain ⟨c', ⟨a, rfl, _, known', _⟩, first, rest⟩ := all
  rw [known'] at known
  cases known
  have kind := docstring_type first found
  by_cases docstring : d.type = .docstring
  · obtain ⟨t, line, rfl, type⟩ := kind.1 docstring
    rw [if_pos docstring, expressions, if_pos type]
    exact rest
  · rw [if_neg docstring]
    cases f with
    | atom t line =>
        have other : t.type ≠ .docstring := fun type => docstring (kind.2 ⟨t, line, rfl, type⟩)
        rw [expressions, if_neg other]
        exact whole
    | list first inner last => exact whole

/-- The code of a function: its directive has the line on the cell of `fun`. -/
theorem compile_fun_lines {first last line : Nat} {t : Token} {rest : List Placed} {p : Ptr}
    {c : Cell} {code : FunctionCode} (known : s.cell p = some c)
    (placed : PlacedAt s lo (.list first (.atom t line :: rest) last) p)
    (run : (runtime W).Runs (compileFun infileName p) s code s') :
    directiveLine code.head = lineOf s c.car ∧
      List.Forall₂ EndLine (Placed.list first (.atom t line :: rest) last).body code.exprs := by
  simp only [PlacedAt] at placed
  obtain ⟨_, _, _, ⟨empty, _⟩ | ⟨_, all⟩⟩ := placed
  · cases empty
  unfold compileFun at run
  obtain ⟨params, m₁, paramsRun, run₁⟩ := runs_bind.1 run
  obtain ⟨rfl, inParams⟩ := rest_placed all paramsRun
  obtain ⟨funName, m₂, nameRun, run₂⟩ := runs_bind.1 run₁
  obtain rfl := list_first_same nameRun
  obtain ⟨args, m₃, argsRun, run₃⟩ := runs_bind.1 run₂
  obtain rfl := list_second_same argsRun
  obtain ⟨tail, m₄, tailRun, run₄⟩ := runs_bind.1 run₃
  obtain ⟨rfl, inTail⟩ := rest_placed inParams tailRun
  obtain ⟨body, m₅, bodyRun, run₅⟩ := runs_bind.1 run₄
  obtain ⟨rfl, inBody⟩ := rest_placed inTail bodyRun
  obtain ⟨b, foundBody, run₆⟩ := runs_load_iff.1 run₅
  obtain ⟨kind, m₆, typeRun, run₇⟩ := runs_bind.1 run₆
  obtain ⟨d, foundFirst, typeRun'⟩ := runs_load_iff.1 typeRun
  obtain ⟨rfl, rfl⟩ := runs_pure.1 typeRun'
  rw [runs_after (runs_load known)] at run₇
  obtain ⟨car, foundCar, run₈⟩ := runs_load_iff.1 run₇
  obtain ⟨n, _, run₉⟩ := runs_load_iff.1 run₈
  obtain ⟨name, _, run₁₀⟩ := runs_member_iff.1 run₉
  obtain ⟨exprs, m₇, exprsRun, run₁₁⟩ := runs_bind.1 run₁₀
  obtain ⟨rfl, _⟩ := runs_pure.1 run₁₁
  have body_ : (Placed.list first (.atom t line :: rest) last).body =
      expressions ((Placed.atom t line :: rest).tail.tail.tail) := by
    rw [Placed.body]
    cases rest with
    | nil => rfl
    | cons x rest => cases rest <;> rfl
  rw [body_]
  refine ⟨?_, ?_⟩
  · rw [lineOf, foundCar, Option.map_some]
    simp only [List.append_assoc]
    exact directive_line _ _
  · generalize (Placed.atom t line :: rest).tail.tail.tail = items at inBody
    cases items with
    | nil =>
        simp only [AllPlaced] at inBody
        subst inBody
        cases foundBody
    | cons f items =>
        exact compile_body_lines (expressions_placed inBody foundBody foundFirst) exprsRun

theorem short_fun : Short funName := by
  unfold Short
  decide

theorem symbol_for_unique {name : CStr} {p q : Ptr} (first : SymbolFor s name p)
    (second : SymbolFor s name q) : p = q := by
  obtain ⟨entry, found, rfl⟩ := first
  obtain ⟨other, found', rfl⟩ := second
  rw [found] at found'
  cases found'
  rfl

theorem function_head {f : Placed} {p : Ptr} (held : PlacedAt s lo f p) (function : f.IsFunction) :
    ∃ c, s.cell p = some c ∧ SymbolFor s funName c.car := by
  obtain ⟨first, line, rest, last, rfl⟩ := function
  simp only [PlacedAt] at held
  obtain ⟨_, _, _, ⟨empty, _⟩ | ⟨_, all⟩⟩ := held
  · cases empty
  · simp only [AllPlaced, PlacedAt] at all
    obtain ⟨c, ⟨_, _, _, known, _⟩, ⟨d, at_⟩, _⟩ := all
    exact ⟨c, known, at_.symbol rfl short_fun⟩

/-- The directives that a function gets: one line for all heads, and the end of each
list-valued expression. -/
def Directed (line : Nat) (f : Placed) (code : FunctionCode) : Prop :=
  directiveLine code.head = some line ∧ List.Forall₂ EndLine f.body code.exprs

theorem compile_forms_lines {items : List Placed} {p setOper funOper : Ptr}
    {codes : List FunctionCode} {line : Nat} (all : AllPlaced s lo items p)
    (functions : ∀ f ∈ items, f.IsFunction) (at_ : SymbolFor s funName funOper)
    (differs : setOper ≠ funOper) (marked : lineOf s funOper = some line)
    (run : (runtime W).Runs (call (.compileForms infileName setOper funOper p)) s codes s') :
    List.Forall₂ (Directed line) items codes := by
  induction items generalizing s s' p codes with
  | nil =>
      simp only [AllPlaced] at all
      subst all
      rw [runs_compile_forms, compileFormsLoop, if_pos rfl] at run
      obtain ⟨rfl, _⟩ := runs_pure.1 run
      exact .nil
  | cons f items ih =>
      simp only [AllPlaced] at all
      obtain ⟨c, ⟨a, rfl, _, known, _⟩, first, rest⟩ := all
      have function := functions f List.mem_cons_self
      obtain ⟨e, found, head⟩ := function_head first function
      have isFun := symbol_for_unique head at_
      rw [runs_compile_forms, compileFormsLoop, if_neg (by simp), runs_after (runs_load known),
        runs_after (runs_load found), if_neg (by rw [isFun]; exact differs.symm),
        if_pos isFun] at run
      obtain ⟨code, m, funRun, run⟩ := runs_bind.1 run
      have kept := writing_leaves (writing_compile_fun infileName c.car) funRun
      rw [runs_after (runs_load (kept.cells _ c known))] at run
      obtain ⟨later, m', loopRun, run⟩ := runs_bind.1 run
      obtain ⟨rfl, _⟩ := runs_pure.1 run
      have undisturbed := forms_kept_leaves kept
      have rest := all_placed_kept undisturbed (fun _ _ _ no => no.elim) items c.cdr rest
      have marked' : lineOf m funOper = some line := by
        obtain ⟨d, foundSymbol, same⟩ := Option.map_eq_some_iff.1 marked
        rw [lineOf, kept.cells _ d foundSymbol, Option.map_some, same]
      refine .cons ?_ (ih rest (fun g mem => functions g (List.mem_cons_of_mem _ mem))
        (undisturbed.symbols _ _ short_fun at_) marked' loopRun)
      obtain ⟨begins, number, forms, ends, rfl⟩ := function
      have lines := compile_fun_lines found first funRun
      rw [isFun, marked] at lines
      exact lines

/-- The file is read: its forms are in the heap, with their lines. -/
theorem parse_file_placed (sound : Sound s) {contents rest : CStr} {items : List Placed}
    (layout : Layout contents contents items rest) :
    ∃ a c s₁, (runtime W).Runs (blParseFile contents) s (.ref a) s₁ ∧ s₁.cell (.ref a) = some c ∧
      c.type = .cons ∧ Marks untouched (fun name => linesOf name items) s s₁ ∧
      ((items = [] ∧ c.car = .null) ∨ (items ≠ [] ∧ AllPlaced s₁ s.fresh items (.ref a))) := by
  obtain ⟨p, s₁, sc, readRun, _, _, marks, a, c, rfl, bound, known, type, held⟩ :=
    (reads_layout (W := W) layout).1 s (scannerOf contents) sound (standing_start contents) rfl
  refine ⟨a, c, s₁, ?_, known, type, marks, ?_⟩
  · rw [blParseFile, runs_after readRun]
    exact runs_pure_self _ _
  · -- the list of the file keeps the line it was made with
    have same : s₁.put a { c with lineNum := c.lineNum } = s₁ := by
      obtain ⟨inside, here⟩ := List.getElem?_eq_some_iff.1 (show s₁.cells[a]? = some c from known)
      have put : s₁.cells.set a c = s₁.cells := by rw [← here, List.set_getElem_self]
      simp only [State.put, put]
    have list := held 0 c.lineNum
    rw [same] at list
    simp only [PlacedAt] at list
    obtain ⟨d, ⟨_, _, _, known', _⟩, _, ⟨empty, car, _⟩ | filled⟩ := list
    · rw [known] at known'
      cases known'
      exact .inl ⟨empty, car⟩
    · exact .inr filled

/-- Before the first form is compiled `=` and `fun` are interned. -/
theorem compile_file_start (sound : Sound s) {contents rest : CStr} {items : List Placed}
    (layout : Layout contents contents items rest) :
    ∃ a c s₁, (∀ infileName written s',
        (runtime W).Runs (compileFile infileName contents) s written s' ↔
          ∃ codes, written = (text "#include <bearlang/bearlang.h>\n", codes) ∧
            (runtime W).Runs (call (.compileForms infileName (blMkSymbol (text "=") s₁).1
              (blMkSymbol funName (blMkSymbol (text "=") s₁).2).1 (.ref a)))
              (blMkSymbol funName (blMkSymbol (text "=") s₁).2).2 codes s') ∧
      Sound s₁ ∧ s₁.cell (.ref a) = some c ∧ Marks untouched (fun name => linesOf name items) s s₁ ∧
      ((items = [] ∧ c.car = .null) ∨ (items ≠ [] ∧ AllPlaced s₁ s.fresh items (.ref a))) := by
  obtain ⟨a, c, s₁, parsed, known, type, marks, list⟩ := parse_file_placed (W := W) sound layout
  refine ⟨a, c, s₁, fun infileName written s' => ?_, runs_sound sound parsed, known, marks, list⟩
  have typeRun := runs_type_of (W := W) known
  rw [type] at typeRun
  rw [compileFile, runs_after parsed, runs_after typeRun, if_neg (by decide),
    runs_after (runs_mk_symbol _ s₁), runs_after (runs_mk_symbol _ _), runs_bind]
  constructor
  · rintro ⟨codes, m, formsRun, last⟩
    obtain ⟨rfl, rfl⟩ := runs_pure.1 last
    exact ⟨codes, rfl, formsRun⟩
  · rintro ⟨codes, rfl, formsRun⟩
    exact ⟨codes, s', formsRun, runs_pure_self _ _⟩

theorem forms_kept_interned (s : State) :
    FormsKept untouched s (blMkSymbol funName (blMkSymbol (text "=") s).2).2 :=
  forms_kept_trans (forms_kept_mk_symbol _ s) (forms_kept_mk_symbol _ _) (fun _ no => no)
    fun _ _ _ no => no

/-- The heads of the functions are the symbol that `compile_file` compares them with, and
it has the line of the last `fun`. -/
theorem head_symbol {t : State} (sound' : Sound t) {f : Placed} {items : List Placed} {p : Ptr}
    (marks : Marks untouched (fun name => linesOf name (f :: items)) s t)
    (all : AllPlaced t lo (f :: items) p) (function : f.IsFunction) :
    ∃ line, lastFun (f :: items) = some line ∧
      (blMkSymbol (text "=") t).1 ≠ (blMkSymbol funName (blMkSymbol (text "=") t).2).1 ∧
      lineOf (blMkSymbol funName (blMkSymbol (text "=") t).2).2
        (blMkSymbol funName (blMkSymbol (text "=") t).2).1 = some line := by
  simp only [AllPlaced] at all
  obtain ⟨c, _, first, _⟩ := all
  obtain ⟨e, found, at_⟩ := function_head first function
  obtain ⟨begins, number, forms, ends, rfl⟩ := function
  have differs : text "=" ≠ funName := by decide
  obtain ⟨line, last⟩ : ∃ line, lastFun
      (.list begins (.atom ⟨.symbol, funName⟩ number :: forms) ends :: items) = some line := by
    refine ⟨_, List.getLast?_eq_some_getLast ?_⟩
    rw [linesOf, Placed.lines, linesOf, Placed.lines, if_pos ⟨rfl, rfl⟩]
    exact List.cons_ne_nil _ _
  have at₂ := (forms_kept_mk_symbol (text "=") t).symbols _ _ short_fun at_
  obtain ⟨entry, held, sym⟩ := at₂
  have again := mk_symbol_found held
  rw [again]
  refine ⟨line, last, ?_, ?_⟩
  · exact fun same => mk_symbol_apart sound' short_fun differs ⟨entry, held, rfl⟩ same.symm
  · have marked := marks.marked funName short_fun
    unfold lastFun at last
    rw [last, Option.some_or, ← symbol_line_mk sound' short_fun differs,
      symbol_line_for (show SymbolFor _ funName (.ref entry.sym) from ⟨entry, held, rfl⟩)] at marked
    exact marked

/-- Each function of the file gets the line of the last `fun`. -/
theorem compile_file_lines (sound : Sound s) {contents rest : CStr} {items : List Placed}
    (layout : Layout contents contents items rest) (functions : ∀ f ∈ items, f.IsFunction)
    {written : CStr × List FunctionCode}
    (run : (runtime W).Runs (compileFile infileName contents) s written s') :
    ∃ line, lastFun items = some line ∧ List.Forall₂ (Directed line) items written.2 := by
  obtain ⟨a, c, s₁, start, sound₁, known, marks, list⟩ := compile_file_start (W := W) sound layout
  obtain ⟨codes, rfl, formsRun⟩ := (start _ _ _).1 run
  have kept := forms_kept_interned s₁
  rcases list with ⟨rfl, car⟩ | ⟨filled, all⟩
  · -- a file without forms is a list cell without `car`, and following that is a fault
    obtain ⟨d, found, same⟩ := kept.kept _ c known id
    rw [runs_compile_forms, compileFormsLoop, if_neg (by simp),
      runs_after (runs_load found)] at formsRun
    obtain ⟨e, none_, _⟩ := runs_load_iff.1 formsRun
    rw [same_but_line_car same, car] at none_
    cases none_
  · cases items with
    | nil => exact absurd rfl filled
    | cons f items =>
        obtain ⟨line, last, differs, marked⟩ :=
          head_symbol sound₁ marks all (functions f List.mem_cons_self)
        have all := all_placed_kept kept (fun _ _ _ no => no.elim) _ _ all
        exact ⟨line, last, compile_forms_lines all functions (symbol_for_mk short_fun) differs marked
          formsRun⟩

end Compiling

section Completing

variable {W : World} {s : State} {lo : Nat}

mutual

theorem emits_placed : ∀ (f : Placed) (p : Ptr), PlacedAt s lo f p →
    ∃ code, (runtime W).Runs (call (.compileAtom p)) s code s
  | .atom t line, p, held => by
      simp only [PlacedAt] at held
      obtain ⟨c, at_⟩ := held
      obtain ⟨a, atom⟩ := Option.isSome_iff_exists.1 at_.isAtom
      exact ⟨_, emits_atom at_.known atom⟩
  | .list first inner last, p, held => by
      simp only [PlacedAt] at held
      obtain ⟨c, ⟨a, rfl, _, known, type⟩, _, ⟨_, car, cdr⟩ | ⟨_, all⟩⟩ := held
      · refine ⟨consText (text "NULL") (text "NULL"),
          (runs_compile_cell known type).2 (emits_cons known ?_ ?_)⟩
        · rw [car]
          exact emits_null
        · rw [cdr]
          exact emits_null
      · exact emits_all_placed inner (.ref a) all

theorem emits_all_placed : ∀ (items : List Placed) (p : Ptr), AllPlaced s lo items p →
    ∃ code, (runtime W).Runs (call (.compileAtom p)) s code s
  | [], p, held => by
      simp only [AllPlaced] at held
      rw [held]
      exact ⟨_, emits_null⟩
  | f :: items, p, held => by
      simp only [AllPlaced] at held
      obtain ⟨c, ⟨a, rfl, _, known, type⟩, first, rest⟩ := held
      obtain ⟨car, carRun⟩ := emits_placed f _ first
      obtain ⟨cdr, cdrRun⟩ := emits_all_placed items _ rest
      exact ⟨_, (runs_compile_cell known type).2 (emits_cons known carRun cdrRun)⟩

end

variable (infileName : CStr)

theorem compile_body_runs {items : List Placed} {p : Ptr} (all : AllPlaced s lo items p)
    (lists : ∀ e ∈ items, ∃ first inner last, e = .list first inner last) :
    ∃ codes, (runtime W).Runs (call (.compileBody infileName p)) s codes s := by
  induction items generalizing p with
  | nil =>
      simp only [AllPlaced] at all
      subst all
      refine ⟨[], ?_⟩
      rw [runs_compile_body, compileBodyLoop, if_pos rfl]
      exact runs_pure_self _ _
  | cons e items ih =>
      simp only [AllPlaced] at all
      obtain ⟨c, ⟨a, rfl, _, known, _⟩, first, rest⟩ := all
      obtain ⟨begins, inner, ends, rfl⟩ := lists e List.mem_cons_self
      obtain ⟨codes, later⟩ := ih rest fun f mem => lists f (List.mem_cons_of_mem _ mem)
      obtain ⟨code, run⟩ := emits_placed (W := W) _ _ first
      simp only [PlacedAt] at first
      obtain ⟨d, ⟨_, _, _, found, type⟩, _⟩ := first
      have exprRun : (runtime W).Runs (compileExpr infileName c.car) s
          (statement infileName d.lineNum code) s := by
        rw [compileExpr, runs_after (runs_load found),
          runs_after ((runs_compile_cell found type).1 run)]
        exact runs_pure_self _ _
      refine ⟨statement infileName d.lineNum code :: codes, ?_⟩
      rw [runs_compile_body, compileBodyLoop, if_neg (by simp), runs_after (runs_load known),
        runs_after exprRun, runs_after (runs_load known), runs_after later]
      exact runs_pure_self _ _

theorem cell_filled {p : Ptr} {c : Cell} (known : s.cell p = some c) : p ≠ .null := by
  rintro rfl
  cases known

theorem first_of_cell {p : Ptr} {c : Cell} (known : s.cell p = some c) :
    (runtime W).Runs (blListFirst p) s c.car s := by
  rw [blListFirst, if_neg (cell_filled known), runs_after (runs_load known)]
  exact runs_pure_self _ _

theorem rest_of_cell {p : Ptr} {c : Cell} (known : s.cell p = some c) :
    (runtime W).Runs (blListRest p) s c.cdr s := by
  rw [blListRest, if_neg (cell_filled known), runs_after (runs_load known)]
  exact runs_pure_self _ _

theorem second_of_cell {p : Ptr} {c d : Cell} (known : s.cell p = some c)
    (next : s.cell c.cdr = some d) : (runtime W).Runs (blListSecond p) s d.car s := by
  rw [blListSecond, if_neg (cell_filled known), runs_after (rest_of_cell known)]
  exact first_of_cell next

theorem compilable_function {f : Placed} (ok : f.Compilable) : f.IsFunction := by
  obtain ⟨begins, line, name, nameLine, args, body, ends, rfl, _⟩ := ok
  exact ⟨begins, line, _, ends, rfl⟩

theorem compile_fun_runs {f : Placed} {p : Ptr} (held : PlacedAt s lo f p) (ok : f.Compilable) :
    ∃ code, (runtime W).Runs (compileFun infileName p) s code s := by
  obtain ⟨begins, line, name, nameLine, args, body, ends, rfl, filled, lists⟩ := ok
  cases body with
  | nil => exact absurd rfl filled
  | cons b body =>
      simp only [PlacedAt, AllPlaced] at held
      obtain ⟨_, _, _, ⟨empty, _⟩ | ⟨_, c, ⟨a, rfl, _, known, _⟩, ⟨headCell, head⟩, paramsCell,
        ⟨_, _, _, known₁, _⟩, ⟨nameCell, named⟩, restCell, ⟨_, _, _, known₂, _⟩, _,
        inBody⟩⟩ := held
      · cases empty
      have whole := inBody
      obtain ⟨bodyCell, ⟨_, _, _, known₃, _⟩, first, _⟩ := inBody
      obtain ⟨_, firstCell, _, foundFirst, _⟩ := placed_cell first
      have inBody : AllPlaced s lo (b :: body) restCell.cdr := by
        simp only [AllPlaced]
        exact whole
      obtain ⟨exprs, exprsRun⟩ := compile_body_runs (W := W) infileName
        (expressions_placed inBody known₃ foundFirst) lists
      obtain ⟨atom, value⟩ := Option.isSome_iff_exists.1 named.isAtom
      have nameType : nameCell.type = .symbol := named.type
      obtain ⟨str, chars⟩ : ∃ str, nameCell.sVal = some str := by
        simp only [Cell.atom, nameType, Option.map_eq_some_iff] at value
        obtain ⟨str, chars, _⟩ := value
        exact ⟨str, chars⟩
      refine ⟨?code, ?run⟩
      case' run =>
        rw [compileFun, runs_after (rest_of_cell known), runs_after (first_of_cell known₁),
          runs_after (second_of_cell known₁ known₂), runs_after (rest_of_cell known₁),
          runs_after (rest_of_cell known₂), runs_after (runs_load known₃),
          runs_after (runs_type_of foundFirst), runs_after (runs_load known),
          runs_after (runs_load head.known), runs_after (runs_load named.known),
          runs_after (runs_member chars s), runs_after exprsRun]
        exact runs_pure_self _ _

theorem compile_forms_runs {items : List Placed} {p setOper funOper : Ptr}
    (all : AllPlaced s lo items p) (compilable : ∀ f ∈ items, f.Compilable)
    (at_ : SymbolFor s funName funOper) (differs : setOper ≠ funOper) :
    ∃ codes, (runtime W).Runs (call (.compileForms infileName setOper funOper p)) s codes s := by
  induction items generalizing p with
  | nil =>
      simp only [AllPlaced] at all
      subst all
      refine ⟨[], ?_⟩
      rw [runs_compile_forms, compileFormsLoop, if_pos rfl]
      exact runs_pure_self _ _
  | cons f items ih =>
      simp only [AllPlaced] at all
      obtain ⟨c, ⟨a, rfl, _, known, _⟩, first, rest⟩ := all
      have ok := compilable f List.mem_cons_self
      obtain ⟨e, found, head⟩ := function_head first (compilable_function ok)
      have isFun := symbol_for_unique head at_
      obtain ⟨code, funRun⟩ := compile_fun_runs (W := W) infileName first ok
      obtain ⟨codes, later⟩ := ih rest fun g mem => compilable g (List.mem_cons_of_mem _ mem)
      refine ⟨code :: codes, ?_⟩
      rw [runs_compile_forms, compileFormsLoop, if_neg (by simp), runs_after (runs_load known),
        runs_after (runs_load found), if_neg (by rw [isFun]; exact differs.symm), if_pos isFun,
        runs_after funRun, runs_after (runs_load known), runs_after later]
      exact runs_pure_self _ _

theorem compile_file_runs (sound : Sound s) {contents rest : CStr} {items : List Placed}
    (layout : Layout contents contents items rest) (filled : items ≠ [])
    (compilable : ∀ f ∈ items, f.Compilable) :
    ∃ written s', (runtime W).Runs (compileFile infileName contents) s written s' := by
  obtain ⟨a, c, s₁, start, sound₁, known, marks, list⟩ := compile_file_start (W := W) sound layout
  rcases list with ⟨empty, _⟩ | ⟨_, all⟩
  · exact absurd empty filled
  · cases items with
    | nil => exact absurd rfl filled
    | cons f items =>
        obtain ⟨line, _, differs, _⟩ := head_symbol sound₁ marks all
          (compilable_function (compilable f List.mem_cons_self))
        obtain ⟨codes, run⟩ := compile_forms_runs (W := W) infileName
          (all_placed_kept (forms_kept_interned s₁) (fun _ _ _ no => no.elim) _ _ all) compilable
          (symbol_for_mk short_fun) differs
        exact ⟨_, _, (start infileName _ _).2 ⟨codes, rfl, run⟩⟩

end Completing

section Results

theorem forall_two_iff {α β : Type} {R S : α → β → Prop} {P : α → Prop} {xs : List α} {ys : List β}
    (related : List.Forall₂ R xs ys) (differ : ∀ x y, R x y → (S x y ↔ P x)) :
    List.Forall₂ S xs ys ↔ ∀ x ∈ xs, P x := by
  induction related with
  | nil => simp
  | cons held _ ih => rw [List.forall₂_cons, List.forall_mem_cons, ih, differ _ _ held]

theorem begins_iff {e : Placed} {code : CStr} (ends : EndLine e code) :
    BeginLine e code ↔ OneLine e := by
  constructor
  · intro begins first inner last same
    have line := begins first inner last same
    rw [ends first inner last same] at line
    exact Option.some.inj line
  · intro one first inner last same
    rw [ends first inner last same, one first inner last same]

theorem carry_lines_iff {line : Nat} {items : List Placed} {codes : List FunctionCode}
    (last : lastFun items = some line) (directed : List.Forall₂ (Directed line) items codes) :
    CarryLines items codes ↔ OwnLines items := by
  refine forall_two_iff directed fun f code held => ?_
  have inner := forall_two_iff (S := BeginLine) held.2 fun e text ends => begins_iff ends
  rw [held.1, last, inner]
  exact and_congr_left fun _ => eq_comm

/-- A file of functions compiles if they have names and bodies of lists. Whenever it does,
the directives give the lines of the functions and of their expressions exactly if all
functions stand on the line of the last `fun` of the file, and each expression on one. -/
theorem lines_carried_iff (W : World) (s : State) (reachable : Reachable W s)
    (infileName contents rest : CStr) (items : List Placed)
    (layout : Layout contents contents items rest) (functions : ∀ f ∈ items, f.IsFunction) :
    (items ≠ [] ∧ (∀ f ∈ items, f.Compilable) →
      ∃ written s', (runtime W).Runs (compileFile infileName contents) s written s') ∧
    ∀ written s', (runtime W).Runs (compileFile infileName contents) s written s' →
      (CarryLines items written.2 ↔ OwnLines items) := by
  have sound := sound_of_reachable reachable
  refine ⟨fun ok => compile_file_runs infileName sound layout ok.1 ok.2, fun written s' run => ?_⟩
  obtain ⟨line, last, directed⟩ := compile_file_lines sound layout functions run
  exact carry_lines_iff last directed

def oneFunction : CStr := text "(fun f ()\n(g 1))"

def twoFunctions : CStr := text "(fun f () (g))\n(fun h () (g))"

/-- `(fun name () (g …))` on these lines. -/
def placedFunction (first last : Nat) (name : String) (body : Placed) : Placed :=
  .list first [.atom ⟨.symbol, funName⟩ first, .atom ⟨.symbol, text name⟩ first,
    .list first [] first, body] last

def callOfG (line : Nat) (args : List Placed) : Placed :=
  .list line (.atom ⟨.symbol, text "g"⟩ line :: args) line

theorem compilable_placed (first last : Nat) (name : String) (line : Nat) (args : List Placed) :
    (placedFunction first last name (callOfG line args)).Compilable := by
  refine ⟨first, first, _, first, _, _, last, rfl, List.cons_ne_nil _ _, fun e mem => ?_⟩
  rw [expressions, List.mem_singleton] at mem
  · exact ⟨_, _, _, mem⟩
  · intro t line body same
    cases same

theorem placed_functions {items : List Placed} (all : ∀ f ∈ items, f.Compilable) :
    ∀ f ∈ items, f.IsFunction := fun f mem => compilable_function (all f mem)

theorem one_function_layout : Layout oneFunction oneFunction
    [placedFunction 1 2 "f" (callOfG 2 [.atom ⟨.integer, text "1"⟩ 2])] [] :=
  layout_of_from 12 rfl

theorem two_functions_layout : Layout twoFunctions twoFunctions
    [placedFunction 1 1 "f" (callOfG 1 []), placedFunction 2 2 "h" (callOfG 2 [])] [] :=
  layout_of_from 12 rfl

theorem lines_carried_one_function : ∃ written s',
    (runtime World.bare).Runs (compileFile (text "a.bl") oneFunction) State.initial written s' ∧
      (CarryLines [placedFunction 1 2 "f" (callOfG 2 [.atom ⟨.integer, text "1"⟩ 2])] written.2 ↔
        OwnLines [placedFunction 1 2 "f" (callOfG 2 [.atom ⟨.integer, text "1"⟩ 2])]) := by
  have compilable : ∀ f ∈ [placedFunction 1 2 "f" (callOfG 2 [.atom ⟨.integer, text "1"⟩ 2])],
      f.Compilable := by
    intro f mem
    rw [List.mem_singleton.1 mem]
    exact compilable_placed _ _ _ _ _
  obtain ⟨comes, lines⟩ := lines_carried_iff World.bare State.initial (reachable_initial _)
    (text "a.bl") oneFunction [] _ one_function_layout (placed_functions compilable)
  obtain ⟨written, s', run⟩ := comes ⟨List.cons_ne_nil _ _, compilable⟩
  exact ⟨written, s', run, lines written s' run⟩

/-- The function on line 1 gets the line of the `fun` on line 2. -/
theorem directive_of_last_fun :
    ¬ ∀ (W : World) (s : State), Reachable W s → ∀ (infileName contents rest : CStr)
      (items : List Placed), Layout contents contents items rest → (∀ f ∈ items, f.IsFunction) →
        ∀ written s', (runtime W).Runs (compileFile infileName contents) s written s' →
          CarryLines items written.2 := by
  intro all
  have compilable : ∀ f ∈ [placedFunction 1 1 "f" (callOfG 1 []),
      placedFunction 2 2 "h" (callOfG 2 [])], f.Compilable := by
    intro f mem
    simp only [List.mem_cons, List.not_mem_nil, or_false] at mem
    rcases mem with rfl | rfl <;> exact compilable_placed _ _ _ _ _
  obtain ⟨written, s', run⟩ := compile_file_runs (W := World.bare) (text "a.bl") sound_initial
    two_functions_layout (List.cons_ne_nil _ _) compilable
  have carried := all World.bare State.initial (reachable_initial _) _ _ _ _ two_functions_layout
    (placed_functions compilable) written s' run
  obtain ⟨line, last, directed⟩ := compile_file_lines sound_initial two_functions_layout
    (placed_functions compilable) run
  have own := ((carry_lines_iff last directed).1 carried _ List.mem_cons_self).1
  cases own

end Results

end BearLang
