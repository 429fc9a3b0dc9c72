import BearLang.Printing

/-!
# The tokens of printed text

A number prints as its digits, and its digits are read as the number. A symbol
token is a name that the lexer cuts off as a symbol again. So the tokens of a
printed tree are known, as long as no string in it has a quote.
-/

namespace BearLang

open MaximalMunch

set_option autoImplicit false

section Digits

theorem chr_of_digit {c : Char} (digit : c.isDigit = true) :
    (chr c).toNat = c.toNat ∧ isDigit (chr c) = true := by
  have range := Char.isDigit_iff_toNat.1 digit
  have low : 48 ≤ c.toNat := range.1
  have high : c.toNat ≤ 57 := range.2
  have value : (chr c).toNat = c.toNat := by
    simp only [chr, Nat.toUInt8, UInt8.toNat_ofNat']
    omega
  refine ⟨value, ?_⟩
  have zero : (chr '0').toNat = 48 := by decide
  have nine : (chr '9').toNat = 57 := by decide
  simp only [isDigit, Bool.and_eq_true, decide_eq_true_eq, UInt8.le_iff_toNat_le, value, zero, nine]
  exact ⟨low, high⟩

theorem decimal_fold (digits : List Char) (all : ∀ c ∈ digits, c.isDigit = true) (start : Nat) :
    (digits.map chr).foldl (fun value c => 10 * value + (c.toNat - (chr '0').toNat)) start =
      Nat.ofDigitChars 10 digits start := by
  induction digits generalizing start with
  | nil => rfl
  | cons c digits ih =>
      have value := (chr_of_digit (all c List.mem_cons_self)).1
      have zero : (chr '0').toNat = '0'.toNat := by decide
      rw [List.map_cons, List.foldl_cons, Nat.ofDigitChars_cons, value, zero]
      exact ih (fun d mem => all d (List.mem_cons_of_mem _ mem)) _

theorem digits_of_to_digits (n : Nat) : ∀ c ∈ Nat.toDigits 10 n, c.isDigit = true :=
  fun _ mem => Nat.isDigit_of_mem_toDigits (by decide) (by decide) mem

theorem decimal_value_decimal (n : Nat) : decimalValue (decimal n) = n := by
  unfold decimalValue decimal
  rw [decimal_fold _ (digits_of_to_digits n), Nat.ofDigitChars_ten_toDigits]

theorem decimal_digits (n : Nat) : ∀ c ∈ decimal n, isDigit c = true := by
  intro c mem
  obtain ⟨d, inside, rfl⟩ := List.mem_map.1 mem
  exact (chr_of_digit (digits_of_to_digits n d inside)).2

theorem decimal_ne_nil (n : Nat) : decimal n ≠ [] := by
  intro empty
  have size : Nat.toDigits 10 n = [] := List.map_eq_nil_iff.1 empty
  rw [Nat.toDigits_eq_if (by decide)] at size
  split at size <;> simp at size

def printedInteger (i : Int) : IntegerText :=
  match i with
  | .ofNat n => ⟨false, decimal n, decimal_ne_nil n, decimal_digits n⟩
  | .negSucc n => ⟨true, decimal (n + 1), decimal_ne_nil (n + 1), decimal_digits (n + 1)⟩

theorem printed_integer_text (i : Int) : (printedInteger i).text = mpzGetStr i := by
  cases i <;> rfl

/-- A printed number is read as the number. -/
theorem mpz_set_get (i : Int) : mpzSetStr (mpzGetStr i) = i := by
  rw [← printed_integer_text, mpz_set_str_value]
  cases i with
  | ofNat n =>
      simp only [printedInteger, IntegerText.value, Bool.false_eq_true, if_false,
        decimal_value_decimal]
      rfl
  | negSucc n =>
      simp only [printedInteger, IntegerText.value, if_true, decimal_value_decimal]
      rfl

end Digits

section Names

/-- The names that the lexer cuts off as symbols. -/
def SymbolName (name : CStr) : Prop :=
  (name ≠ [] ∧ (∀ c ∈ name, isSymbolChar c = true) ∧ numberLike name = false ∧
      ∀ k : Keyword, name ≠ k.word) ∨
    ∃ l, name = chr '\'' :: l ∧ l ≠ [] ∧ ∀ c ∈ l, isSymbolChar c = true

theorem cut_symbol_name {name tail : CStr} (lexable : SymbolName name) (ends : RunEnds tail) :
    cut (name ++ tail) = (some ⟨.symbol, name⟩, tail) := by
  rcases lexable with ⟨nonempty, chars, noNumber, noKeyword⟩ | ⟨l, rfl, nonempty, chars⟩
  · exact cut_symbol nonempty chars noNumber noKeyword ends
  · exact cut_quoted_symbol nonempty chars ends

theorem symbol_name_of_cut {input rest : CStr} {t : Token} (found : cut input = (some t, rest))
    (symbol : t.type = .symbol) : SymbolName t.text := by
  have whole := found
  unfold cut at found
  split at found
  · cases found
  · rename_i rule n wins
    obtain ⟨_, hit⟩ := longest_matched wins
    obtain ⟨token, rfl⟩ := Prod.mk.inj found
    obtain ⟨kind, isKind, rfl⟩ := Option.map_eq_some_iff.1 token
    cases rule <;> simp only [Rule.token, reduceCtorEq, Option.some.injEq] at isKind <;>
      subst isKind <;> simp only [reduceCtorEq] at symbol
    case quotedSymbol =>
      cases input with
      | nil => cases hit
      | cons c input =>
          simp only [Rule.matched] at hit
          split at hit
          · rename_i isQuote
            obtain ⟨m, run, rfl⟩ := Option.map_eq_some_iff.1 hit
            obtain ⟨l, tail, rfl, rfl, nonempty, chars, ends⟩ := run_of_split run
            have cut' := cut_quoted_symbol nonempty chars ends
            subst isQuote
            rw [cut'] at whole
            have same := congrArg (fun pair => pair.1.map Token.text) whole
            exact .inr ⟨l, (Option.some.inj same).symm, nonempty, chars⟩
          · cases hit
    case symbol =>
      obtain ⟨l, tail, rfl, rfl, nonempty, chars, ends⟩ := run_of_split hit
      have noNumber : numberLike l = false := by
        cases like : numberLike l with
        | false => rfl
        | true =>
            rw [cut_number like ends] at whole
            cases whole
      have noKeyword : ∀ k : Keyword, l ≠ k.word := by
        intro k same
        subst same
        rw [cut_keyword k ends] at whole
        cases k <;> cases whole
      rw [cut_symbol nonempty chars noNumber noKeyword ends] at whole
      have same := congrArg (fun pair => pair.1.map Token.text) whole
      have text : l = Rule.symbol.yytext ((l ++ tail).take (Rule.symbol.consumed l.length)) :=
        Option.some.inj same
      rw [← text]
      exact .inl ⟨nonempty, chars, noNumber, noKeyword⟩

end Names

section Strings

/-- Without a backslash the closing quote is the first one. -/
theorem closing_quote_first {l : CStr} {n : Nat} (found : closingQuote l = some n)
    (noBackslash : backslash ∉ l) : quote ∉ l.take (n - 1) := by
  induction l generalizing n with
  | nil => cases found
  | cons c l ih =>
      simp only [List.mem_cons, not_or] at noBackslash
      cases l with
      | nil =>
          simp only [closingQuote] at found
          split at found <;> cases found
          simp
      | cons d rest =>
          rw [closingQuote] at found
          split at found
          · cases found
            simp
          · rename_i other
            rw [if_neg fun same => noBackslash.1 same.symm] at found
            obtain ⟨m, later, rfl⟩ := Option.map_eq_some_iff.1 found
            have first := ih later noBackslash.2
            cases m with
            | zero => simp
            | succ m =>
                simp only [Nat.add_sub_cancel] at first ⊢
                rw [List.take_succ_cons, List.mem_cons, not_or]
                exact ⟨fun same => other same.symm, first⟩

theorem c_string_sub {l : CStr} {c : Byte} (mem : c ∈ cString l) : c ∈ l ∧ c ≠ 0 := by
  refine ⟨List.takeWhile_subset _ mem, ?_⟩
  have kept := List.mem_takeWhile_imp mem
  simpa using kept

/-- The text of a string token: no zero, and in an input without a backslash no
quote. -/
theorem string_of_cut {input rest : CStr} {t : Token} (found : cut input = (some t, rest))
    (string : t.type = .string) :
    (∀ c ∈ t.text, c ≠ 0) ∧ (backslash ∉ input → quote ∉ t.text) := by
  unfold cut at found
  split at found
  · cases found
  · rename_i rule n wins
    obtain ⟨_, hit⟩ := longest_matched wins
    obtain ⟨token, rfl⟩ := Prod.mk.inj found
    obtain ⟨kind, isKind, rfl⟩ := Option.map_eq_some_iff.1 token
    cases rule <;> simp only [Rule.token, reduceCtorEq, Option.some.injEq] at isKind <;>
      subst isKind <;> simp only [reduceCtorEq] at string
    refine ⟨fun c mem => (c_string_sub mem).2, fun plain mem => ?_⟩
    have inside := (c_string_sub mem).1
    cases input with
    | nil => cases hit
    | cons c input =>
        simp only [Rule.matched] at hit
        split at hit
        · obtain ⟨m, closing, rfl⟩ := Option.map_eq_some_iff.1 hit
          have first := closing_quote_first closing fun mem => plain (List.mem_cons_of_mem _ mem)
          simp only [Rule.consumed, List.take_succ_cons, List.drop_succ_cons, List.drop_zero,
            List.length_cons, List.length_take, List.take_take] at inside
          exact first (List.take_subset_take_left _ (by omega) inside)
        · cases hit

end Strings

section Printed

/-- The token of a printed atom, if anything is printed. -/
def Atom.token : Atom → Option Token
  | .integer i => some ⟨.integer, mpzGetStr i⟩
  | .symbol name => some ⟨.symbol, name⟩
  | .string s => some ⟨.string, s⟩
  | .docstring _ => none
  | .ifOper => some ⟨.ifToken, text "if"⟩
  | .doOper => none
  | .whileOper => none

def Atom.Readable : Atom → Prop
  | .symbol name => SymbolName name
  | .string s => quote ∉ s ∧ backslash ∉ s ∧ ∀ c ∈ s, c ≠ 0
  | _ => True

def openToken : Token := ⟨.lparen, text "("⟩
def closeToken : Token := ⟨.rparen, text ")"⟩

mutual

def Datum.tokens : Datum → List Token
  | .atom a => a.token.toList
  | .list items => openToken :: (Datum.allTokens items ++ [closeToken])

def Datum.allTokens : List Datum → List Token
  | [] => []
  | d :: items => d.tokens ++ Datum.allTokens items

end

mutual

def Datum.atoms : Datum → List Atom
  | .atom a => [a]
  | .list items => Datum.allAtoms items

def Datum.allAtoms : List Datum → List Atom
  | [] => []
  | d :: items => d.atoms ++ Datum.allAtoms items

end

theorem lexes_atom {a : Atom} (readable : a.Readable) {tail : CStr} {tokens : List Token}
    (apart : Apart tail) (later : Lexes tail tokens) :
    Lexes (a.printed ++ tail) (a.token.toList ++ tokens) := by
  have ends := run_ends_of_apart apart
  cases a with
  | integer i =>
      have like : numberLike (mpzGetStr i) = true := by
        rw [← printed_integer_text]
        exact number_like_integer _
      exact lexes_of_cut (cut_number like ends) later
  | symbol name => exact lexes_of_cut (cut_symbol_name readable ends) later
  | string s =>
      obtain ⟨noQuote, noBackslash, noZero⟩ := readable
      have shape : (quote :: (s ++ [quote])) ++ tail = quote :: (s ++ quote :: tail) := by simp
      simp only [Atom.printed, shape]
      exact lexes_of_cut (cut_string noQuote noBackslash noZero apart) later
  | docstring s => exact later
  | ifOper => exact lexes_of_cut (cut_keyword .ifOper ends) later
  | doOper => exact later
  | whileOper => exact later

theorem apart_rest (items : List Datum) (tail : CStr) : Apart (Datum.printedRest items ++ tail) := by
  intro c rest same
  cases items with
  | nil =>
      cases same
      decide
  | cons d items =>
      simp only [Datum.printedRest, List.cons_append] at same
      cases same
      decide

mutual

theorem lexes_datum : ∀ (d : Datum) {tail : CStr} {tokens : List Token},
    (∀ a ∈ d.atoms, a.Readable) → Apart tail → Lexes tail tokens →
      Lexes (d.printed ++ tail) (d.tokens ++ tokens)
  | .atom a, tail, tokens, readable, apart, later => by
      simp only [Datum.printed, Datum.tokens]
      exact lexes_atom (readable a List.mem_cons_self) apart later
  | .list [], tail, tokens, _, _, later => by
      simp only [Datum.printed, Datum.tokens, Datum.allTokens, List.nil_append]
      exact lexes_of_cut (cut_open _) (lexes_of_cut (cut_close _) later)
  | .list (d :: items), tail, tokens, readable, apart, later => by
      simp only [Datum.atoms, Datum.allAtoms, List.mem_append] at readable
      have rest := lexes_rest items (fun a mem => readable a (.inr mem)) later
      have first := lexes_datum d (fun a mem => readable a (.inl mem)) (apart_rest items tail) rest
      simp only [Datum.printed, Datum.tokens, Datum.allTokens, List.cons_append,
        List.append_assoc, List.nil_append]
      exact lexes_of_cut (cut_open _) first

theorem lexes_rest : ∀ (items : List Datum) {tail : CStr} {tokens : List Token},
    (∀ a ∈ Datum.allAtoms items, a.Readable) → Lexes tail tokens →
      Lexes (Datum.printedRest items ++ tail)
        (Datum.allTokens items ++ (closeToken :: tokens))
  | [], tail, tokens, _, later => by
      simp only [Datum.printedRest, Datum.allTokens]
      exact lexes_of_cut (cut_close _) later
  | d :: items, tail, tokens, readable, later => by
      simp only [Datum.allAtoms, List.mem_append] at readable
      have rest := lexes_rest items (fun a mem => readable a (.inr mem)) later
      have first := lexes_datum d (fun a mem => readable a (.inl mem)) (apart_rest items tail) rest
      have blank : isWhitespace (chr ' ') = true := by decide
      simp only [Datum.printedRest, Datum.allTokens, List.cons_append, List.append_assoc]
      exact .skip (cut_whitespace blank _) first

end

theorem tokens_of_printed {d : Datum} (readable : ∀ a ∈ d.atoms, a.Readable) :
    tokensOf d.printed = d.tokens := by
  have lexes := lexes_datum d readable apart_nil .stop
  rw [List.append_nil, List.append_nil] at lexes
  exact tokens_of_eq lexes

end Printed

end BearLang
