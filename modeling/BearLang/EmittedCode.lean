import BearLang.CInitialisers
import BearLang.Compiler
import BearLang.SerialiseRoundTrip

/-!
# What the compiler writes

The C text that `compile_expr` writes for a value that was read, its tokens, and
the meaning of an expression of C that is spelled by such a text. Numbers lack a
closing parenthesis and docstrings leave their member empty.
-/

namespace BearLang

open CallPrograms CInitialisers SymbolInterning

set_option autoImplicit false

section Meaning

inductive Value where
  | null
  | atom (a : Atom)
  | bool (b : Bool)
  | cons (car cdr : Value)

inductive CVal where
  | type (t : ValType)
  | flag (b : Bool)
  | chars (s : CStr)
  | value (v : Value)

def constants : List (Text × CVal) :=
  [(bytes "NULL", .value .null), (bytes "true", .flag true), (bytes "false", .flag false),
   (bytes "BL_VAL_TYPE_CONS", .type .cons), (bytes "BL_VAL_TYPE_OPER_DO", .type .operDo),
   (bytes "BL_VAL_TYPE_OPER_IF", .type .operIf), (bytes "BL_VAL_TYPE_OPER_WHILE", .type .operWhile),
   (bytes "BL_VAL_TYPE_BOOL", .type .bool), (bytes "BL_VAL_TYPE_STRING", .type .string)]

def constructed (func arg : Text) : Option CVal :=
  if func = bytes "bl_mk_symbol" then some (.value (.atom (.symbol arg)))
  else if func = bytes "bl_mk_integer" then some (.value (.atom (.integer (mpzSetStr arg))))
  else none

def toChar (i : Int) : Byte := (i % 256).toNat.toUInt8

def charArray (values : List Int) : Option CVal :=
  if values.getLast? = some 0 then some (.chars (cString (values.map toChar))) else none

/-- A member that is a pointer to a value; one that is not named is zero. -/
def pointer (fields : List (Text × CVal)) (name : String) : Option Value :=
  match fields.lookup (bytes name) with
  | none => some .null
  | some (.value v) => some v
  | some _ => none

/-- A `bl_val_t` with these members. -/
def compound (fields : List (Text × CVal)) : Option Value :=
  match fields.lookup (bytes "type") with
  | some (.type .cons) => do
      let car ← pointer fields "car"
      let cdr ← pointer fields "cdr"
      pure (.cons car cdr)
  | some (.type .operDo) => some (.atom .doOper)
  | some (.type .operIf) => some (.atom .ifOper)
  | some (.type .operWhile) => some (.atom .whileOper)
  | some (.type .bool) =>
      match fields.lookup (bytes "b_val") with
      | some (.flag b) => some (.bool b)
      | none => some (.bool false)
      | some _ => none
  | some (.type .string) =>
      match fields.lookup (bytes "s_val") with
      | some (.chars s) => some (.atom (.string s))
      | _ => none
  | _ => none

mutual

def initMeaning : Init → Option CVal
  | .name id => constants.lookup id
  | .call func arg => constructed func arg
  | .chars values => charArray values
  | .literal type fields =>
      if type = bytes "bl_val_t" then
        ((fieldsMeaning fields).bind compound).map .value
      else none

/-- The members by their names; none is named twice. -/
def fieldsMeaning : Fields → Option (List (Text × CVal))
  | .last field value => (initMeaning value).map fun v => [(field, v)]
  | .more field value rest =>
      (initMeaning value).bind fun v => (fieldsMeaning rest).bind fun others =>
        if (others.lookup field).isSome then none else some ((field, v) :: others)

end

/-- The value has the structure of the tree. -/
inductive Shape (s : State) : Ptr → Value → Prop where
  | null : Shape s .null .null
  | atom {p : Ptr} {c : Cell} {a : Atom} (known : s.cell p = some c) (atom : c.atom = some a) :
      Shape s p (.atom a)
  | bool {p : Ptr} {c : Cell} {b : Bool} (known : s.cell p = some c) (type : c.type = .bool)
      (held : c.bVal = some b) : Shape s p (.bool b)
  | cons {p : Ptr} {c : Cell} {car cdr : Value} (known : s.cell p = some c) (type : c.type = .cons)
      (first : Shape s c.car car) (rest : Shape s c.cdr cdr) : Shape s p (.cons car cdr)

/-- The line of C around the text of an expression. -/
def statement (infileName : CStr) (line : Nat) (code : CStr) : CStr :=
  text "\n#line " ++ decimal line ++ text " \"" ++ infileName ++
    text "\"\nretval = bl_eval(ctx," ++ code ++ text ");\n"

/-- The text for an expression is well bracketed, is an expression of C, and
that builds a value of the same structure. -/
def Emits (W : World) (s : State) (v : Ptr) : Prop :=
  ∀ infileName, ∃ cell code ts e value, s.cell v = some cell ∧
    (runtime W).Runs (compileExpr infileName v) s (statement infileName cell.lineNum code) s ∧
      CInitialisers.tokensOf code = some ts ∧ Bracketed ts ∧ Spells code e ∧
        initMeaning e = some (.value value) ∧ Shape s v value

mutual

def Datum.value : Datum → Value
  | .atom a => .atom a
  | .list [] => .cons .null .null
  | .list (d :: items) => .cons d.value (Datum.restValue items)

def Datum.restValue : List Datum → Value
  | [] => .null
  | d :: items => .cons d.value (Datum.restValue items)

end

variable {s : State} {lo : Nat}

mutual

theorem shape_of_denotes : ∀ (d : Datum) (p : Ptr), Denotes s lo d p → Shape s p d.value
  | .atom a, p, held => by
      simp only [Denotes] at held
      obtain ⟨c, known, atom⟩ := held
      exact .atom known atom
  | .list [], p, held => by
      simp only [Denotes] at held
      rcases held with ⟨_, c, ⟨a, rfl, _, known, type⟩, car, cdr⟩ | ⟨filled, _⟩
      · refine .cons known type ?_ ?_
        · rw [car]
          exact .null
        · rw [cdr]
          exact .null
      · exact absurd rfl filled
  | .list (d :: items), p, held => by
      simp only [Denotes, DenotesAll] at held
      rcases held with ⟨empty, _⟩ | ⟨_, c, ⟨a, rfl, _, known, type⟩, first, rest⟩
      · cases empty
      · exact .cons known type (shape_of_denotes d _ first) (shape_of_denotes_all items _ rest)

theorem shape_of_denotes_all : ∀ (items : List Datum) (p : Ptr), DenotesAll s lo items p →
    Shape s p (Datum.restValue items)
  | [], p, held => by
      simp only [DenotesAll] at held
      rw [held]
      exact .null
  | d :: items, p, held => by
      simp only [DenotesAll] at held
      obtain ⟨c, ⟨a, rfl, _, known, type⟩, first, rest⟩ := held
      exact .cons known type (shape_of_denotes d _ first) (shape_of_denotes_all items _ rest)

end

end Meaning

section Written

def Atom.emitted : Atom → CStr
  | .integer i => text "bl_mk_integer(\"" ++ mpzGetStr i ++ text "\""
  | .symbol name => text "bl_mk_symbol(\"" ++ name ++ text "\")"
  | .string s =>
      text "&(bl_val_t) \x7b.type=BL_VAL_TYPE_STRING, .s_val=" ++ compileString s ++ text "\x7d"
  | .docstring _ => []
  | .ifOper => text "&(bl_val_t) \x7b.type = BL_VAL_TYPE_OPER_IF\x7d"
  | .doOper => text "&(bl_val_t) \x7b.type = BL_VAL_TYPE_OPER_DO\x7d"
  | .whileOper => text "&(bl_val_t) \x7b.type = BL_VAL_TYPE_OPER_WHILE\x7d"

mutual

def Datum.emitted : Datum → CStr
  | .atom a => a.emitted
  | .list [] => consText (text "NULL") (text "NULL")
  | .list (d :: items) => consText d.emitted (Datum.emittedRest items)

def Datum.emittedRest : List Datum → CStr
  | [] => text "NULL"
  | d :: items => consText d.emitted (Datum.emittedRest items)

end

variable {W : World} {s : State} {lo : Nat}

theorem runs_compile_atom {p : Ptr} {out : CStr} {s' : State} :
    (runtime W).Runs (call (.compileAtom p)) s out s' ↔
      (runtime W).Runs (compileAtomBody p) s out s' :=
  runs_call_iff (c := .compileAtom p)

theorem emits_null : (runtime W).Runs (call (.compileAtom .null)) s (text "NULL") s := by
  rw [runs_compile_atom, compileAtomBody, if_pos rfl]
  exact runs_pure_self _ _

theorem emits_atom {a : Atom} {p : Ptr} {c : Cell} (known : s.cell p = some c)
    (atom : c.atom = some a) : (runtime W).Runs (call (.compileAtom p)) s a.emitted s := by
  have printed := prints_atom (W := W) known atom
  have notNull : p ≠ .null := by
    rintro rfl
    cases known
  rw [runs_compile_atom, compileAtomBody, if_neg notNull, runs_after (runs_load known)]
  unfold Cell.atom at atom
  cases type : c.type <;> simp only [type, reduceCtorEq, Option.map_eq_some_iff] at atom ⊢
  case number =>
    obtain ⟨i, value, rfl⟩ := atom
    rw [runs_after printed]
    exact runs_pure_self _ _
  case symbol =>
    obtain ⟨name, value, rfl⟩ := atom
    rw [runs_after printed]
    exact runs_pure_self _ _
  case string =>
    obtain ⟨str, value, rfl⟩ := atom
    rw [runs_after (runs_member value s)]
    exact runs_pure_self _ _
  case docstring =>
    obtain ⟨str, _, rfl⟩ := atom
    exact runs_pure_self _ _
  case operIf =>
    cases atom
    exact runs_pure_self _ _
  case operDo =>
    cases atom
    exact runs_pure_self _ _
  case operWhile =>
    cases atom
    exact runs_pure_self _ _

theorem emits_cons {p : Ptr} {c : Cell} {car cdr : CStr} (known : s.cell p = some c)
    (first : (runtime W).Runs (call (.compileAtom c.car)) s car s)
    (rest : (runtime W).Runs (call (.compileAtom c.cdr)) s cdr s) :
    (runtime W).Runs (compileCons p) s (consText car cdr) s := by
  rw [compileCons, runs_after (runs_load known), runs_after first, runs_after (runs_load known),
    runs_after rest]
  exact runs_pure_self _ _

/-- A list cell is written by `compile_cons`. -/
theorem runs_compile_cell {p : Ptr} {c : Cell} (known : s.cell p = some c) (type : c.type = .cons)
    {code : CStr} {s' : State} : (runtime W).Runs (call (.compileAtom p)) s code s' ↔
      (runtime W).Runs (compileCons p) s code s' := by
  have notNull : p ≠ .null := by
    rintro rfl
    cases known
  rw [runs_compile_atom, compileAtomBody, if_neg notNull, runs_after (runs_load known)]
  simp only [type]

mutual

theorem emits_datum : ∀ (d : Datum) (p : Ptr), Denotes s lo d p →
    (runtime W).Runs (call (.compileAtom p)) s d.emitted s
  | .atom a, p, held => by
      simp only [Denotes] at held
      obtain ⟨c, known, atom⟩ := held
      exact emits_atom known atom
  | .list [], p, held => by
      simp only [Denotes] at held
      rcases held with ⟨_, c, ⟨a, rfl, _, known, type⟩, car, cdr⟩ | ⟨filled, _⟩
      · refine (runs_compile_cell known type).2 (emits_cons known ?_ ?_)
        · rw [car]
          exact emits_null
        · rw [cdr]
          exact emits_null
      · exact absurd rfl filled
  | .list (d :: items), p, held => by
      simp only [Denotes] at held
      rcases held with ⟨empty, _⟩ | ⟨_, all⟩
      · cases empty
      · exact emits_all (d :: items) p all

theorem emits_all : ∀ (items : List Datum) (p : Ptr), DenotesAll s lo items p →
    (runtime W).Runs (call (.compileAtom p)) s (Datum.emittedRest items) s
  | [], p, held => by
      simp only [DenotesAll] at held
      rw [held]
      exact emits_null
  | d :: items, p, held => by
      simp only [DenotesAll] at held
      obtain ⟨c, ⟨a, rfl, _, known, type⟩, first, rest⟩ := held
      exact (runs_compile_cell known type).2
        (emits_cons known (emits_datum d _ first) (emits_all items _ rest))

end

end Written

section Code

/-- What is known of the atoms of a text that was read. -/
def Atom.Written : Atom → Prop
  | .symbol name => SymbolName name
  | .string s => ∀ c ∈ s, c ≠ 0
  | _ => True

/-- The tokens in front of the members of a literal. -/
def literalHead : List CToken :=
  [mark '&', mark '(', .name (bytes "bl_val_t"), mark ')', mark '\x7b', mark '.',
   .name (bytes "type"), mark '=']

def typeCode (type : String) : List CToken := literalHead ++ [.name (bytes type), mark '\x7d']

def consCode (car cdr : List CToken) : List CToken :=
  literalHead ++ ([.name (bytes "BL_VAL_TYPE_CONS"), mark ',', mark '.', .name (bytes "car"),
    mark '='] ++ (car ++ ([mark ',', mark '.', .name (bytes "cdr"), mark '='] ++
      (cdr ++ [mark '\x7d']))))

def stringValues (s : CStr) : List Int := s.map signedChar ++ [0]

def Atom.code : Atom → List CToken
  | .integer i => [.name (bytes "bl_mk_integer"), mark '(', .string (mpzGetStr i)]
  | .symbol name => Init.tokens (.call (bytes "bl_mk_symbol") name)
  | .string s =>
      literalHead ++ ([.name (bytes "BL_VAL_TYPE_STRING"), mark ',', mark '.',
        .name (bytes "s_val"), mark '='] ++ (Init.tokens (.chars (stringValues s)) ++
          [mark '\x7d']))
  | .docstring _ => []
  | .ifOper => typeCode "BL_VAL_TYPE_OPER_IF"
  | .doOper => typeCode "BL_VAL_TYPE_OPER_DO"
  | .whileOper => typeCode "BL_VAL_TYPE_OPER_WHILE"

mutual

def Datum.code : Datum → List CToken
  | .atom a => a.code
  | .list [] => consCode [.name (bytes "NULL")] [.name (bytes "NULL")]
  | .list (d :: items) => consCode d.code (Datum.restCode items)

def Datum.restCode : List Datum → List CToken
  | [] => [.name (bytes "NULL")]
  | d :: items => consCode d.code (Datum.restCode items)

end

theorem scan_parts {p q : Pending} {first second : Text} {ts : List CToken}
    (known : scan p first = (ts, q)) {us : List CToken} {r : Pending}
    (later : scan q second = (us, r)) : scan p (first ++ second) = (ts ++ us, r) := by
  rw [scan_append_of known, later]

theorem scan_cons {car cdr : CStr} {cs ds : List CToken}
    (first : scan .nothing car = (cs, .nothing))
    (rest : scan .nothing (cdr ++ text "\x7d") = (ds ++ [mark '\x7d'], .nothing)) :
    scan .nothing (consText car cdr) = (consCode cs ds, .nothing) := by
  have front : scan .nothing (text "&(bl_val_t) \x7b.type = BL_VAL_TYPE_CONS, .car=") =
      (literalHead ++ [.name (bytes "BL_VAL_TYPE_CONS"), mark ',', mark '.', .name (bytes "car"),
        mark '='], .nothing) := by decide
  have middle : scan .nothing (text ", .cdr=") =
      ([mark ',', mark '.', .name (bytes "cdr"), mark '='], .nothing) := by decide
  have whole := scan_parts front (scan_parts first (scan_parts middle rest))
  simp only [consText, consCode, List.append_assoc] at whole ⊢
  exact whole

theorem scan_decimal (n : Nat) :
    scan .nothing (decimal n ++ text ",") = ([.number n, mark ','], .nothing) := by
  have digits := scan_digits (decimal_ne_nil n) (decimal_digits n)
  have value : digitsValue 0 (decimal n) = n := decimal_value_decimal n
  rw [value] at digits
  have comma : scan (.number n) (text ",") = ([.number n, mark ','], .nothing) := rfl
  exact scan_parts digits comma

theorem scan_int (i : Int) :
    scan .nothing (mpzGetStr i ++ text ",") = (intTokens i ++ [mark ','], .nothing) := by
  cases i with
  | ofNat n => exact scan_decimal n
  | negSucc n =>
      have minus : scan .nothing [chr '-'] = ([mark '-'], .nothing) := by decide
      exact scan_parts minus (scan_decimal (n + 1))

theorem scan_chars (s : CStr) :
    scan .nothing ((s.map fun c => mpzGetStr (signedChar c) ++ text ",").flatten ++ text "0\x7d") =
      (listTokens (s.map signedChar ++ [0]) ++ [mark '\x7d'], .nothing) := by
  induction s with
  | nil => decide
  | cons c s ih =>
      have whole := scan_parts (scan_int (signedChar c)) ih
      have shape : listTokens (signedChar c :: (s.map signedChar ++ [0])) =
          intTokens (signedChar c) ++ mark ',' :: listTokens (s.map signedChar ++ [0]) := by
        cases s <;> rfl
      rw [List.map_cons, List.flatten_cons, List.append_assoc, List.map_cons, List.cons_append,
        shape]
      simpa using whole

theorem scan_array (s : CStr) :
    scan .nothing (compileString s) = (Init.tokens (.chars (stringValues s)), .nothing) := by
  have front : scan .nothing (text "(char[])\x7b") =
      ([mark '(', .name (bytes "char"), mark '[', mark ']', mark ')', mark '\x7b'], .nothing) := by
    decide
  have whole := scan_parts front (scan_chars s)
  simpa only [compileString, Init.tokens, stringValues, List.append_assoc] using whole

theorem quoted_plain {name : CStr} (plain : ∀ c ∈ name, isSymbolChar c = true ∨ c = chr '\'') :
    ∀ c ∈ name, c ≠ ascii '"' ∧ c ≠ ascii '\\' ∧ c ≠ 10 := by
  intro c mem
  rcases plain c mem with char | rfl
  · exact ⟨symbol_char_ne char (by decide), symbol_char_ne char (by decide),
      symbol_char_ne char (by decide)⟩
  · decide

theorem symbol_name_chars {name : CStr} (isName : SymbolName name) :
    ∀ c ∈ name, isSymbolChar c = true ∨ c = chr '\'' := by
  intro c mem
  rcases isName with ⟨_, chars, _⟩ | ⟨l, rfl, _, chars⟩
  · exact .inl (chars c mem)
  · rcases List.mem_cons.1 mem with rfl | mem
    · exact .inr rfl
    · exact .inl (chars c mem)

theorem integer_chars (i : Int) : ∀ c ∈ mpzGetStr i, isSymbolChar c = true ∨ c = chr '\'' := by
  have like : numberLike (mpzGetStr i) = true := by
    rw [← printed_integer_text]
    exact number_like_integer _
  exact fun c mem => .inl ((number_like_symbol_chars like).2 c mem)

theorem scan_atom {a : Atom} (written : a.Written) :
    scan .nothing a.emitted = (a.code, .nothing) := by
  cases a with
  | integer i =>
      have front : scan .nothing (text "bl_mk_integer(\"") =
          ([.name (bytes "bl_mk_integer"), mark '('], .string []) := by decide
      have close : scan (.string (mpzGetStr i)) (text "\"") = ([.string (mpzGetStr i)], .nothing) :=
        rfl
      exact scan_parts (scan_parts front (scan_string [] (quoted_plain (integer_chars i)))) close
  | symbol name =>
      have front : scan .nothing (text "bl_mk_symbol(\"") =
          ([.name (bytes "bl_mk_symbol"), mark '('], .string []) := by decide
      have close : scan (.string name) (text "\")") = ([.string name, mark ')'], .nothing) := rfl
      exact scan_parts
        (scan_parts front (scan_string [] (quoted_plain (symbol_name_chars written)))) close
  | string s =>
      have front : scan .nothing (text "&(bl_val_t) \x7b.type=BL_VAL_TYPE_STRING, .s_val=") =
          (literalHead ++ [.name (bytes "BL_VAL_TYPE_STRING"), mark ',', mark '.',
            .name (bytes "s_val"), mark '='], .nothing) := by decide
      have close : scan .nothing (text "\x7d") = ([mark '\x7d'], .nothing) := by decide
      have whole := scan_parts (scan_parts front (scan_array s)) close
      simpa only [Atom.emitted, Atom.code, List.append_assoc] using whole
  | docstring s => rfl
  | ifOper => decide
  | doOper => decide
  | whileOper => decide

theorem scan_close : scan .nothing (text "NULL" ++ text "\x7d") =
    ([.name (bytes "NULL")] ++ [mark '\x7d'], .nothing) := by decide

mutual

theorem scan_emitted : ∀ d : Datum, (∀ a ∈ d.atoms, a.Written) →
    scan .nothing d.emitted = (d.code, .nothing)
  | .atom a, written => scan_atom (written a List.mem_cons_self)
  | .list [], _ => by decide
  | .list (d :: items), written => by
      simp only [Datum.atoms, Datum.allAtoms, List.mem_append] at written
      exact scan_cons (scan_emitted d fun a mem => written a (.inl mem))
        (scan_rest items fun a mem => written a (.inr mem))

theorem scan_rest : ∀ items : List Datum, (∀ a ∈ Datum.allAtoms items, a.Written) →
    scan .nothing (Datum.emittedRest items ++ text "\x7d") =
      (Datum.restCode items ++ [mark '\x7d'], .nothing)
  | [], _ => scan_close
  | d :: items, written => by
      simp only [Datum.allAtoms, List.mem_append] at written
      have cell := scan_cons (scan_emitted d fun a mem => written a (.inl mem))
        (scan_rest items fun a mem => written a (.inr mem))
      have close : scan .nothing (text "\x7d") = ([mark '\x7d'], .nothing) := by decide
      exact scan_parts cell close

end

end Code

end BearLang
