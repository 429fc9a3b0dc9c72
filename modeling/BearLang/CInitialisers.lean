import Mathlib.Data.List.Basic
import Mathlib.Tactic.Linarith

/-!
# Initialisers in C

The tokens of a piece of C text, and the expressions that a generator of C can
put into an initialiser: named constants, calls with one string argument, arrays
of characters and compound literals with designated fields. No two expressions
have the same tokens.
-/

namespace BearLang.CInitialisers

set_option autoImplicit false

section Tokens

abbrev Text := List UInt8

def ascii (c : Char) : UInt8 := c.toNat.toUInt8

def bytes (s : String) : Text := s.toList.map ascii

def isDigit (c : UInt8) : Bool := decide (ascii '0' ≤ c) && decide (c ≤ ascii '9')

def isNameStart (c : UInt8) : Bool :=
  (decide (ascii 'a' ≤ c) && decide (c ≤ ascii 'z')) ||
    (decide (ascii 'A' ≤ c) && decide (c ≤ ascii 'Z')) || c == ascii '_'

def isNameChar (c : UInt8) : Bool := isNameStart c || isDigit c

def isBlank (c : UInt8) : Bool := c == ascii ' ' || c == 9 || c == 10

inductive CToken where
  | name (id : Text)
  | number (n : Nat)
  | string (s : Text)
  | punct (c : UInt8)
deriving DecidableEq, Repr

/-- The token that has begun. Escapes in a string, and names that start with a
digit, are left out: their text has no tokens. -/
inductive Pending where
  | nothing
  | name (id : Text)
  | number (n : Nat)
  | string (s : Text)
  | broken
deriving DecidableEq, Repr

def begin_ (c : UInt8) : List CToken × Pending :=
  if isNameStart c then ([], .name [c])
  else if isDigit c then ([], .number (c.toNat - (ascii '0').toNat))
  else if c = ascii '"' then ([], .string [])
  else if isBlank c then ([], .nothing)
  else ([.punct c], .nothing)

/-- One more character: the tokens that end in front of it or with it. -/
@[grind =]
def next : Pending → UInt8 → List CToken × Pending
  | .nothing, c => begin_ c
  | .name id, c =>
      if isNameChar c then ([], .name (id ++ [c]))
      else (.name id :: (begin_ c).1, (begin_ c).2)
  | .number n, c =>
      if isDigit c then ([], .number (10 * n + (c.toNat - (ascii '0').toNat)))
      else if isNameStart c then ([], .broken)
      else (.number n :: (begin_ c).1, (begin_ c).2)
  | .string s, c =>
      if c = ascii '"' then ([.string s], .nothing)
      else if c = ascii '\\' ∨ c = 10 then ([], .broken)
      else ([], .string (s ++ [c]))
  | .broken, _ => ([], .broken)

@[grind =]
def scan : Pending → Text → List CToken × Pending
  | p, [] => ([], p)
  | p, c :: rest => ((next p c).1 ++ (scan (next p c).2 rest).1, (scan (next p c).2 rest).2)

def tokensOf (text : Text) : Option (List CToken) :=
  match scan .nothing text with
  | (ts, .nothing) => some ts
  | (ts, .name id) => some (ts ++ [.name id])
  | (ts, .number n) => some (ts ++ [.number n])
  | _ => none

theorem scan_append (p : Pending) (first second : Text) :
    scan p (first ++ second) =
      ((scan p first).1 ++ (scan (scan p first).2 second).1, (scan (scan p first).2 second).2) := by
  induction first generalizing p with
  | nil => rfl
  | cons c first ih => simp only [List.cons_append, scan, ih, List.append_assoc]

theorem scan_append_of {p q : Pending} {first : Text} {ts : List CToken}
    (known : scan p first = (ts, q)) (second : Text) :
    scan p (first ++ second) = (ts ++ (scan q second).1, (scan q second).2) := by
  rw [scan_append, known]

/-- The characters of a string up to its closing quote. -/
theorem scan_string (s : Text) {text : Text}
    (plain : ∀ c ∈ text, c ≠ ascii '"' ∧ c ≠ ascii '\\' ∧ c ≠ 10) :
    scan (.string s) text = ([], .string (s ++ text)) := by
  induction text generalizing s with
  | nil => simp [scan]
  | cons c text ih =>
      obtain ⟨quote, slash, line⟩ := plain c List.mem_cons_self
      have rest := ih (s ++ [c]) fun d mem => plain d (List.mem_cons_of_mem _ mem)
      have here : next (.string s) c = ([], .string (s ++ [c])) := by
        simp only [next, if_neg quote, if_neg (not_or.2 ⟨slash, line⟩)]
      simp only [scan, here, rest, List.nil_append, List.append_assoc, List.singleton_append]

def digitsValue (start : Nat) (digits : Text) : Nat :=
  digits.foldl (fun n c => 10 * n + (c.toNat - (ascii '0').toNat)) start

theorem scan_number (n : Nat) {digits : Text} (all : ∀ c ∈ digits, isDigit c = true) :
    scan (.number n) digits = ([], .number (digitsValue n digits)) := by
  induction digits generalizing n with
  | nil => rfl
  | cons c digits ih =>
      have here : next (.number n) c = ([], .number (10 * n + (c.toNat - (ascii '0').toNat))) := by
        simp only [next, all c List.mem_cons_self, if_true]
      simp only [scan, here, ih _ fun d mem => all d (List.mem_cons_of_mem _ mem), List.nil_append]
      rfl

theorem digit_not_name {c : UInt8} (digit : isDigit c = true) : isNameStart c = false := by
  simp only [isDigit, Bool.and_eq_true, decide_eq_true_eq, UInt8.le_iff_toNat_le] at digit
  have low : (ascii '0').toNat = 48 := by decide
  have high : (ascii '9').toNat = 57 := by decide
  have letters : (ascii 'a').toNat = 97 ∧ (ascii 'A').toNat = 65 ∧ (ascii '_').toNat = 95 := by decide
  have notUnderscore : c ≠ ascii '_' := by
    rintro rfl
    omega
  simp only [isNameStart, UInt8.le_iff_toNat_le, Bool.or_eq_false_iff, Bool.and_eq_false_iff,
    decide_eq_false_iff_not, beq_eq_false_iff_ne]
  exact ⟨⟨.inl (by omega), .inl (by omega)⟩, notUnderscore⟩

theorem scan_digits {digits : Text} (nonempty : digits ≠ [])
    (all : ∀ c ∈ digits, isDigit c = true) :
    scan .nothing digits = ([], .number (digitsValue 0 digits)) := by
  cases digits with
  | nil => exact absurd rfl nonempty
  | cons c digits =>
      have digit := all c List.mem_cons_self
      have here : next .nothing c = ([], .number (c.toNat - (ascii '0').toNat)) := by
        simp only [next, begin_, digit_not_name digit, digit, if_true, Bool.false_eq_true, if_false]
      simp only [scan, here, scan_number _ fun d mem => all d (List.mem_cons_of_mem _ mem),
        List.nil_append]
      simp only [digitsValue, List.foldl_cons, Nat.mul_zero, Nat.zero_add]

end Tokens

section Grammar

mutual

inductive Init where
  | name (id : Text)
  | call (func arg : Text)
  | chars (values : List Int)
  | literal (type : Text) (fields : Fields)

/-- Designated fields, at least one. -/
inductive Fields where
  | last (field : Text) (value : Init)
  | more (field : Text) (value : Init) (rest : Fields)

end

abbrev mark (c : Char) : CToken := .punct (ascii c)

def intTokens : Int → List CToken
  | .ofNat n => [.number n]
  | .negSucc n => [mark '-', .number (n + 1)]

def listTokens : List Int → List CToken
  | [] => []
  | [i] => intTokens i
  | i :: j :: rest => intTokens i ++ mark ',' :: listTokens (j :: rest)

mutual

def Init.tokens : Init → List CToken
  | .name id => [.name id]
  | .call func arg => [.name func, mark '(', .string arg, mark ')']
  | .chars values =>
      [mark '(', .name (bytes "char"), mark '[', mark ']', mark ')', mark '\x7b'] ++
        (listTokens values ++ [mark '\x7d'])
  | .literal type fields =>
      [mark '&', mark '(', .name type, mark ')', mark '\x7b'] ++ (fields.tokens ++ [mark '\x7d'])

def Fields.tokens : Fields → List CToken
  | .last field value => [mark '.', .name field, mark '='] ++ value.tokens
  | .more field value rest =>
      [mark '.', .name field, mark '='] ++ (value.tokens ++ mark ',' :: rest.tokens)

end

def Spells (text : Text) (e : Init) : Prop := tokensOf text = some e.tokens

end Grammar

section Unambiguous

theorem int_tokens_unique {i j : Int} {r r' : List CToken}
    (same : intTokens i ++ r = intTokens j ++ r') : i = j ∧ r = r' := by
  cases i <;> cases j <;> simp only [intTokens, List.cons_append, List.nil_append,
    List.cons.injEq, CToken.number.injEq, reduceCtorEq, false_and, true_and] at same
  · obtain ⟨rfl, rest⟩ := same
    exact ⟨rfl, rest⟩
  · obtain ⟨number, rest⟩ := same
    exact ⟨by rw [Nat.succ.inj number], rest⟩

theorem list_tokens_unique (values others : List Int) {r r' : List CToken}
    (same : listTokens values ++ mark '\x7d' :: r = listTokens others ++ mark '\x7d' :: r') :
    values = others ∧ r = r' := by
  have start : ∀ (i : Int) (rest : List CToken) (c : UInt8) (tail : List CToken), c ≠ ascii '-' →
      intTokens i ++ rest ≠ .punct c :: tail := by
    intro i rest c tail other same
    cases i with
    | ofNat n => simp [intTokens] at same
    | negSucc n =>
        simp only [intTokens, List.cons_append, List.cons.injEq, CToken.punct.injEq] at same
        exact other same.1.symm
  induction values generalizing others with
  | nil =>
      cases others with
      | nil => exact ⟨rfl, by simpa [listTokens] using same⟩
      | cons j others =>
          cases others with
          | nil => exact absurd same.symm (start _ _ _ _ (by decide))
          | cons k others =>
              simp only [listTokens, List.append_assoc] at same
              exact absurd same.symm (start _ _ _ _ (by decide))
  | cons i values ih =>
      cases others with
      | nil =>
          cases values with
          | nil => exact absurd same (start _ _ _ _ (by decide))
          | cons k values =>
              simp only [listTokens, List.append_assoc] at same
              exact absurd same (start _ _ _ _ (by decide))
      | cons j others =>
          cases values with
          | nil =>
              cases others with
              | nil =>
                  obtain ⟨rfl, rest⟩ := int_tokens_unique same
                  exact ⟨rfl, (List.cons.inj rest).2⟩
              | cons k others =>
                  simp only [listTokens, List.append_assoc] at same
                  obtain ⟨_, rest⟩ := int_tokens_unique same
                  exact absurd (List.cons.inj rest).1 (by decide)
          | cons l values =>
              cases others with
              | nil =>
                  simp only [listTokens, List.append_assoc] at same
                  obtain ⟨_, rest⟩ := int_tokens_unique same
                  exact absurd (List.cons.inj rest).1 (by decide)
              | cons k others =>
                  simp only [listTokens, List.append_assoc, List.cons_append] at same
                  obtain ⟨rfl, rest⟩ := int_tokens_unique same
                  obtain ⟨equal, after⟩ := ih (k :: others) (List.cons.inj rest).2
                  exact ⟨by rw [equal], after⟩

/-- What can follow an expression: no argument list. -/
def Ends (r : List CToken) : Prop := ∀ tail, r ≠ mark '(' :: tail

theorem ends_mark {c : Char} {r : List CToken} (other : ascii c ≠ ascii '(') : Ends (mark c :: r) := by
  intro tail same
  simp only [List.cons.injEq, CToken.punct.injEq] at same
  exact other same.1

mutual

/-- No two expressions have the same tokens, whatever follows them. -/
theorem init_unique : ∀ (e f : Init) {r r' : List CToken}, e.tokens ++ r = f.tokens ++ r' →
    Ends r → Ends r' → e = f ∧ r = r'
  | .name id, f, r, r', same, ends, _ => by
      cases f with
      | name id' =>
          simp only [Init.tokens, List.cons_append, List.nil_append, List.cons.injEq,
            CToken.name.injEq] at same
          exact ⟨by rw [same.1], same.2⟩
      | call func arg =>
          simp only [Init.tokens, List.cons_append, List.cons.injEq] at same
          exact absurd same.2 (ends _)
      | chars values => simp [Init.tokens] at same
      | literal type fields => simp [Init.tokens] at same
  | .call func arg, f, r, r', same, _, ends => by
      cases f with
      | name id =>
          simp only [Init.tokens, List.cons_append, List.nil_append, List.cons.injEq] at same
          exact absurd same.2.symm (ends _)
      | call func' arg' =>
          simp only [Init.tokens, List.cons_append, List.nil_append, List.cons.injEq,
            CToken.name.injEq, CToken.string.injEq, true_and] at same
          obtain ⟨rfl, rfl, rest⟩ := same
          exact ⟨rfl, rest⟩
      | chars values => simp [Init.tokens] at same
      | literal type fields => simp [Init.tokens] at same
  | .chars values, f, r, r', same, _, _ => by
      cases f with
      | name id => simp [Init.tokens] at same
      | call func arg => simp [Init.tokens] at same
      | chars others =>
          simp only [Init.tokens, List.append_assoc, List.cons_append, List.nil_append] at same
          simp only [List.cons.injEq, true_and] at same
          obtain ⟨rfl, rest⟩ := list_tokens_unique values others same
          exact ⟨rfl, rest⟩
      | literal type fields => simp [Init.tokens, ascii] at same
  | .literal type fields, f, r, r', same, _, _ => by
      cases f with
      | name id => simp [Init.tokens] at same
      | call func arg => simp [Init.tokens] at same
      | chars others => simp [Init.tokens, ascii] at same
      | literal type' others =>
          simp only [Init.tokens, List.append_assoc, List.cons_append, List.nil_append,
            List.cons.injEq, CToken.name.injEq, true_and] at same
          obtain ⟨rfl, rest⟩ := same
          obtain ⟨rfl, after⟩ := fields_unique fields others rest
          exact ⟨rfl, after⟩

theorem fields_unique : ∀ (fields others : Fields) {r r' : List CToken},
    fields.tokens ++ mark '\x7d' :: r = others.tokens ++ mark '\x7d' :: r' →
      fields = others ∧ r = r'
  | .last field value, others, r, r', same => by
      cases others with
      | last field' value' =>
          simp only [Fields.tokens, List.cons_append, List.nil_append, List.cons.injEq,
            CToken.name.injEq, true_and] at same
          obtain ⟨rfl, rest⟩ := same
          obtain ⟨rfl, after⟩ := init_unique value value' rest (ends_mark (by decide))
            (ends_mark (by decide))
          exact ⟨rfl, (List.cons.inj after).2⟩
      | more field' value' rest' =>
          simp only [Fields.tokens, List.append_assoc, List.cons_append, List.nil_append,
            List.cons.injEq, CToken.name.injEq, true_and] at same
          obtain ⟨_, after⟩ := init_unique value value' same.2 (ends_mark (by decide))
            (ends_mark (by decide))
          exact absurd (List.cons.inj after).1 (by decide)
  | .more field value rest, others, r, r', same => by
      cases others with
      | last field' value' =>
          simp only [Fields.tokens, List.append_assoc, List.cons_append, List.nil_append,
            List.cons.injEq, CToken.name.injEq, true_and] at same
          obtain ⟨_, after⟩ := init_unique value value' same.2 (ends_mark (by decide))
            (ends_mark (by decide))
          exact absurd (List.cons.inj after).1 (by decide)
      | more field' value' rest' =>
          simp only [Fields.tokens, List.append_assoc, List.cons_append, List.nil_append,
            List.cons.injEq, CToken.name.injEq, true_and] at same
          obtain ⟨rfl, after⟩ := same
          obtain ⟨rfl, later⟩ := init_unique value value' after (ends_mark (by decide))
            (ends_mark (by decide))
          obtain ⟨rfl, ends⟩ := fields_unique rest rest' (List.cons.inj later).2
          exact ⟨rfl, ends⟩

end

/-- A text spells at most one expression. -/
theorem spells_unique {text : Text} {e f : Init} (first : Spells text e) (second : Spells text f) :
    e = f := by
  have same : e.tokens ++ [] = f.tokens ++ [] := by
    rw [List.append_nil, List.append_nil]
    exact Option.some.inj (first.symm.trans second)
  exact (init_unique e f same (fun _ none_ => nomatch none_) (fun _ none_ => nomatch none_)).1

end Unambiguous

section Brackets

def closing (c : UInt8) : Option UInt8 :=
  if c = ascii '(' then some (ascii ')')
  else if c = ascii '[' then some (ascii ']')
  else if c = ascii '\x7b' then some (ascii '\x7d')
  else none

/-- The closing brackets that are still to come. -/
def brackets : List UInt8 → List CToken → Option (List UInt8)
  | open_, [] => some open_
  | open_, .punct c :: rest =>
      match closing c with
      | some d => brackets (d :: open_) rest
      | none =>
          if c = ascii ')' ∨ c = ascii ']' ∨ c = ascii '\x7d' then
            match open_ with
            | [] => none
            | d :: before => if c = d then brackets before rest else none
          else brackets open_ rest
  | open_, _ :: rest => brackets open_ rest

def Bracketed (ts : List CToken) : Prop := brackets [] ts = some []

theorem brackets_ints (open_ : List UInt8) (values : List Int) (r : List CToken) :
    brackets open_ (listTokens values ++ r) = brackets open_ r := by
  have one : ∀ (i : Int) (r : List CToken), brackets open_ (intTokens i ++ r) = brackets open_ r := by
    intro i r
    cases i <;> rfl
  induction values with
  | nil => rfl
  | cons i values ih =>
      cases values with
      | nil => exact one i r
      | cons j values =>
          simp only [listTokens, List.append_assoc, one]
          exact ih

mutual

theorem brackets_init : ∀ (e : Init) (open_ : List UInt8) (r : List CToken),
    brackets open_ (e.tokens ++ r) = brackets open_ r
  | .name id, open_, r => rfl
  | .call func arg, open_, r => rfl
  | .chars values, open_, r => by
      simp only [Init.tokens, List.append_assoc]
      exact brackets_ints _ values _
  | .literal type fields, open_, r => by
      simp only [Init.tokens, List.append_assoc]
      exact brackets_fields fields _ _

theorem brackets_fields : ∀ (fields : Fields) (open_ : List UInt8) (r : List CToken),
    brackets open_ (fields.tokens ++ r) = brackets open_ r
  | .last field value, open_, r => by
      simp only [Fields.tokens, List.append_assoc]
      exact brackets_init value open_ r
  | .more field value rest, open_, r => by
      simp only [Fields.tokens, List.append_assoc]
      exact (brackets_init value open_ _).trans (brackets_fields rest open_ r)

end

/-- What spells an expression is well bracketed. -/
theorem bracketed_init (e : Init) : Bracketed e.tokens := by
  have closed := brackets_init e [] []
  rwa [List.append_nil] at closed

end Brackets

section Defects

/-- Opening parentheses without a closing one. -/
@[grind =]
def excess : List CToken → Int
  | [] => 0
  | t :: rest => (if t = mark '(' then 1 else if t = mark ')' then -1 else 0) + excess rest

theorem excess_append (first second : List CToken) :
    excess (first ++ second) = excess first + excess second := by
  induction first with
  | nil => simp [excess]
  | cons t first ih =>
      simp only [List.cons_append, excess, ih]
      omega

theorem excess_ints (values : List Int) : excess (listTokens values) = 0 := by
  have one : ∀ i : Int, excess (intTokens i) = 0 := by
    intro i
    cases i <;> rfl
  induction values with
  | nil => rfl
  | cons i values ih =>
      cases values with
      | nil => exact one i
      | cons j values =>
          simp only [listTokens, excess_append, one, excess, ih]
          rfl

mutual

theorem excess_init : ∀ e : Init, excess e.tokens = 0
  | .name id => rfl
  | .call func arg => rfl
  | .chars values => by
      simp only [Init.tokens, excess_append, excess_ints]
      rfl
  | .literal type fields => by
      simp only [Init.tokens, excess_append, excess_fields fields]
      rfl

theorem excess_fields : ∀ fields : Fields, excess fields.tokens = 0
  | .last field value => by
      simp only [Fields.tokens, excess_append, excess_init value]
      rfl
  | .more field value rest => by
      simp only [Fields.tokens, excess_append, excess_init value, excess, excess_fields rest]
      rfl

end

/-- Whether the last token was an equals sign, and whether a comma has followed one. -/
def gapNext (state : Bool × Bool) (t : CToken) : Bool × Bool :=
  (decide (t = mark '='), state.2 || (state.1 && decide (t = mark ',')))

/-- A field is left empty: a comma follows an equals sign. -/
def gap (state : Bool × Bool) (ts : List CToken) : Bool × Bool := ts.foldl gapNext state

theorem gap_append (state : Bool × Bool) (first second : List CToken) :
    gap state (first ++ second) = gap (gap state first) second := List.foldl_append

theorem gap_found (ts : List CToken) (last : Bool) : (gap (last, true) ts).2 = true := by
  induction ts generalizing last with
  | nil => rfl
  | cons t ts ih => exact ih (decide (t = mark '='))

theorem gap_ints (values : List Int) (r : List CToken) :
    gap (false, false) (listTokens values ++ r) = gap (false, false) r := by
  have one : ∀ (i : Int) (r : List CToken),
      gap (false, false) (intTokens i ++ r) = gap (false, false) r := by
    intro i r
    cases i <;> rfl
  induction values with
  | nil => rfl
  | cons i values ih =>
      cases values with
      | nil => exact one i r
      | cons j values =>
          simp only [listTokens, List.append_assoc, one]
          exact ih

mutual

theorem gap_init : ∀ (e : Init) (last : Bool) (r : List CToken),
    gap (last, false) (e.tokens ++ r) = gap (false, false) r
  | .name id, last, r => by cases last <;> rfl
  | .call func arg, last, r => by cases last <;> rfl
  | .chars values, last, r => by
      simp only [Init.tokens, List.append_assoc]
      cases last <;> exact gap_ints values _
  | .literal type fields, last, r => by
      simp only [Init.tokens, List.append_assoc]
      cases last <;> exact gap_fields fields _

theorem gap_fields : ∀ (fields : Fields) (r : List CToken),
    gap (false, false) (fields.tokens ++ r) = gap (false, false) r
  | .last field value, r => by
      simp only [Fields.tokens, List.append_assoc]
      exact gap_init value true r
  | .more field value rest, r => by
      simp only [Fields.tokens, List.append_assoc]
      exact (gap_init value true _).trans (gap_fields rest r)

end

theorem no_gap (e : Init) : (gap (false, false) e.tokens).2 = false := by
  have whole := gap_init e false []
  rw [List.append_nil] at whole
  rw [whole]
  rfl

end Defects

end BearLang.CInitialisers
