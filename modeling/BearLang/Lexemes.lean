import BearLang.Tokens
import Mathlib.Data.List.TakeWhile

/-!
# How a lexeme is cut off

For each kind of token, the text that the scanner takes for it when something
follows that cannot continue it. Which rules compete is seen from the first
byte; among those the longest match wins.
-/

namespace BearLang

open MaximalMunch

set_option autoImplicit false

/-- What follows does not continue a name or a number. -/
def RunEnds (tail : CStr) : Prop := ∀ c rest, tail = c :: rest → isSymbolChar c = false

/-- What follows neither continues a name or a number nor opens a string. -/
def Apart (tail : CStr) : Prop :=
  ∀ c rest, tail = c :: rest → isSymbolChar c = false ∧ c ≠ quote

theorem apart_nil : Apart [] := fun _ _ same => by cases same

theorem run_ends_of_apart {tail : CStr} (apart : Apart tail) : RunEnds tail :=
  fun c rest same => (apart c rest same).1

section FirstByte

/-- The bytes a match of the rule can start with. -/
def Rule.starts (rule : Rule) (c : Byte) : Bool :=
  match rule with
  | .docstr => c == quote
  | .string => c == quote
  | .whitespace => isWhitespace c
  | .comment => c == chr ';'
  | .leftParen => c == chr '('
  | .rightParen => c == chr ')'
  | .numberInteger => c == chr '-' || isDigit c
  | .ifOper => c == chr 'i'
  | .doOper => c == chr 'd'
  | .whileOper => c == chr 'w'
  | .quotedSymbol => c == chr '\''
  | .symbol => isSymbolChar c

theorem literal_starts {w c : Byte} {word input : CStr} {n : Nat}
    (found : literal (w :: word) (c :: input) = some n) : (c == w) = true := by
  unfold literal at found
  split at found
  · rename_i isPrefix
    simp only [List.isPrefixOf, Bool.and_eq_true] at isPrefix
    simp only [beq_iff_eq] at isPrefix ⊢
    exact isPrefix.1.symm
  · cases found

theorem run_starts {p : Byte → Bool} {c : Byte} {input : CStr} {n : Nat}
    (found : runOf p (c :: input) = some n) : p c = true := by
  cases first : p c with
  | true => rfl
  | false => simp [runOf, first] at found

theorem matched_starts {rule : Rule} {c : Byte} {input : CStr} {n : Nat}
    (found : rule.matched (c :: input) = some n) : rule.starts c = true := by
  cases rule with
  | docstr =>
      simp only [Rule.matched] at found
      split at found
      · cases found
      · rename_i opening
        exact literal_starts opening
  | string =>
      simp only [Rule.matched] at found
      split at found
      · rename_i same
        simp only [Rule.starts, same, beq_self_eq_true]
      · cases found
  | whitespace =>
      simp only [Rule.matched] at found
      split at found
      · assumption
      · cases found
  | comment =>
      simp only [Rule.matched] at found
      split at found
      · rename_i same
        simp only [Rule.starts, same, beq_self_eq_true]
      · cases found
  | quotedSymbol =>
      simp only [Rule.matched] at found
      split at found
      · rename_i same
        simp only [Rule.starts, same, beq_self_eq_true]
      · cases found
  | numberInteger =>
      simp only [Rule.starts, Bool.or_eq_true]
      by_cases dash : (c == chr '-') = true
      · exact .inl dash
      · obtain ⟨m, digits, _⟩ := Option.map_eq_some_iff.1 found
        have none : (c :: input).takeWhile (· == chr '-') = [] := List.takeWhile_cons_of_neg dash
        rw [none] at digits
        exact .inr (run_starts digits)
  | symbol => exact run_starts found
  | leftParen => exact literal_starts found
  | rightParen => exact literal_starts found
  | ifOper => exact literal_starts found
  | doOper => exact literal_starts found
  | whileOper => exact literal_starts found

theorem matched_none {rule : Rule} {c : Byte} (other : rule.starts c = false) (input : CStr) :
    rule.matched (c :: input) = none := by
  cases found : rule.matched (c :: input) with
  | none => rfl
  | some n =>
      rw [matched_starts found] at other
      cases other

/-- If no other rule starts with the byte, the rule that matches wins. -/
theorem longest_only {rule : Rule} {c : Byte} {input : CStr} {n : Nat}
    (hit : rule.matched (c :: input) = some n)
    (others : ∀ other ∈ rules, other ≠ rule → other.starts c = false) :
    longest Rule.matched rules (c :: input) = some (rule, n) := by
  have quiet : ∀ other ∈ rules, other ≠ rule → ∀ m, other.matched (c :: input) ≠ some m := by
    intro other mem different m found
    rw [matched_none (others other mem different)] at found
    cases found
  have split : ∃ before after, rules = before ++ rule :: after ∧ rule ∉ before ∧ rule ∉ after := by
    cases rule with
    | docstr => exact ⟨[], _, rfl, by decide, by decide⟩
    | string => exact ⟨[.docstr], _, rfl, by decide, by decide⟩
    | whitespace => exact ⟨[.docstr, .string], _, rfl, by decide, by decide⟩
    | comment => exact ⟨[.docstr, .string, .whitespace], _, rfl, by decide, by decide⟩
    | leftParen =>
        exact ⟨[.docstr, .string, .whitespace, .comment], _, rfl, by decide, by decide⟩
    | rightParen =>
        exact ⟨[.docstr, .string, .whitespace, .comment, .leftParen], _, rfl, by decide,
          by decide⟩
    | numberInteger => exact ⟨rules.take 6, _, rfl, by decide, by decide⟩
    | ifOper => exact ⟨rules.take 7, _, rfl, by decide, by decide⟩
    | doOper => exact ⟨rules.take 8, _, rfl, by decide, by decide⟩
    | whileOper => exact ⟨rules.take 9, _, rfl, by decide, by decide⟩
    | quotedSymbol => exact ⟨rules.take 10, _, rfl, by decide, by decide⟩
    | symbol => exact ⟨rules.take 11, _, rfl, by decide, by decide⟩
  obtain ⟨before, after, order, notBefore, notAfter⟩ := split
  refine longest_eq before after rule n order hit (fun other mem m found => ?_)
    fun other mem m found => ?_
  · have different : other ≠ rule := fun same => notBefore (same ▸ mem)
    exact absurd found (quiet other (by rw [order]; simp [mem]) different m)
  · have different : other ≠ rule := fun same => notAfter (same ▸ mem)
    exact absurd found (quiet other (by rw [order]; simp [mem]) different m)

theorem cut_of_longest {input : CStr} {rule : Rule} {n : Nat}
    (wins : longest Rule.matched rules input = some (rule, n)) :
    cut input = (rule.token.map fun type => ⟨type, rule.yytext (input.take (rule.consumed n))⟩,
      input.drop (rule.consumed n)) := by
  rw [cut, wins]

end FirstByte

section Bytes

theorem c_string_id {l : CStr} (noZero : ∀ c ∈ l, c ≠ 0) : cString l = l := by
  unfold cString
  rw [List.takeWhile_eq_self_iff]
  intro c mem
  simpa using noZero c mem

theorem symbol_char_ne {c d : Byte} (symbolChar : isSymbolChar c = true)
    (other : isSymbolChar d = false) : c ≠ d := by
  rintro rfl
  rw [symbolChar] at other
  cases other

theorem all_symbol_chars {l : CStr} (all : l.all isSymbolChar = true) :
    ∀ c ∈ l, isSymbolChar c = true := List.all_eq_true.1 all

theorem digit_is_symbol_char {c : Byte} (digit : isDigit c = true) : isSymbolChar c = true := by
  simp only [isSymbolChar, digit, Bool.or_true]

theorem digit_ne_dash {c : Byte} (digit : isDigit c = true) : (c == chr '-') = false := by
  rw [beq_eq_false_iff_ne]
  rintro rfl
  revert digit
  decide

theorem run_of_append {p : Byte → Bool} {l tail : CStr} (nonempty : l ≠ [])
    (all : ∀ c ∈ l, p c = true) (ends : ∀ c rest, tail = c :: rest → p c = false) :
    runOf p (l ++ tail) = some l.length := by
  have stops : tail.takeWhile p = [] := by
    cases tail with
    | nil => rfl
    | cons c rest => exact List.takeWhile_cons_of_neg (by simp [ends c rest rfl])
  have run : (l ++ tail).takeWhile p = l := by
    rw [List.takeWhile_append_of_pos all, stops, List.append_nil]
  unfold runOf
  rw [run]
  cases l with
  | nil => exact absurd rfl nonempty
  | cons c l => rfl

end Bytes

section Strings

theorem closing_quote_plain {body : CStr} (tail : CStr) (noQuote : quote ∉ body)
    (noBackslash : backslash ∉ body) :
    closingQuote (body ++ quote :: tail) = some (body.length + 1) := by
  induction body with
  | nil => cases tail <;> simp [closingQuote]
  | cons c body ih =>
      simp only [List.mem_cons, not_or] at noQuote noBackslash
      have later := ih noQuote.2 noBackslash.2
      cases rest : body ++ quote :: tail with
      | nil => simp at rest
      | cons d more =>
          rw [rest] at later
          rw [List.cons_append, rest, closingQuote, if_neg (fun h => noQuote.1 h.symm),
            if_neg (fun h => noBackslash.1 h.symm), later]
          rfl

theorem quote_starts : ∀ other ∈ rules.drop 2, other.starts quote = false := by decide

theorem cut_string {body tail : CStr} (noQuote : quote ∉ body) (noBackslash : backslash ∉ body)
    (noZero : ∀ c ∈ body, c ≠ 0) (apart : Apart tail) :
    cut (quote :: (body ++ quote :: tail)) = (some ⟨.string, body⟩, tail) := by
  have hit : Rule.string.matched (quote :: (body ++ quote :: tail)) = some (body.length + 2) := by
    simp only [Rule.matched, if_true, closing_quote_plain tail noQuote noBackslash, Option.map_some]
  have noDocstr : Rule.docstr.matched (quote :: (body ++ quote :: tail)) = none := by
    have opening : literal [quote, quote, quote] (quote :: (body ++ quote :: tail)) = none := by
      unfold literal
      rw [if_neg]
      intro isPrefix
      cases body with
      | nil =>
          cases tail with
          | nil => simp [List.isPrefixOf] at isPrefix
          | cons c rest =>
              simp only [List.nil_append, List.isPrefixOf, beq_self_eq_true, Bool.true_and,
                Bool.and_true, beq_iff_eq] at isPrefix
              exact (apart c rest rfl).2 isPrefix.symm
      | cons c body =>
          simp only [List.cons_append, List.isPrefixOf, beq_self_eq_true, Bool.true_and,
            Bool.and_eq_true, beq_iff_eq] at isPrefix
          exact noQuote (isPrefix.1 ▸ List.mem_cons_self)
    simp only [Rule.matched, opening]
  have wins : longest Rule.matched rules (quote :: (body ++ quote :: tail)) =
      some (.string, body.length + 2) := by
    refine longest_eq [Rule.docstr] _ Rule.string _ rfl hit (fun other mem m found => ?_)
      fun other mem m found => ?_
    · rw [List.mem_singleton.1 mem, noDocstr] at found
      cases found
    · rw [matched_none (quote_starts other mem)] at found
      cases found
  have lexeme : (quote :: (body ++ quote :: tail)).take (body.length + 2) =
      quote :: (body ++ [quote]) := by
    have shape : quote :: (body ++ quote :: tail) = (quote :: (body ++ [quote])) ++ tail := by simp
    rw [shape, List.take_left' (by simp)]
  have left : (quote :: (body ++ quote :: tail)).drop (body.length + 2) = tail := by
    have shape : quote :: (body ++ quote :: tail) = (quote :: (body ++ [quote])) ++ tail := by simp
    rw [shape, List.drop_left' (by simp)]
  rw [cut_of_longest wins]
  simp only [Rule.consumed, Rule.token, Option.map_some, Rule.yytext, lexeme, left]
  simp [c_string_id noZero]

theorem cut_docstring {body : CStr} (tail : CStr) (noQuote : quote ∉ body)
    (noBackslash : backslash ∉ body) (noZero : ∀ c ∈ body, c ≠ 0) :
    cut ([quote, quote, quote] ++ (body ++ ([quote, quote, quote] ++ tail))) =
      (some ⟨.docstring, body⟩, tail) := by
  have closing := closing_quote_plain (quote :: quote :: tail) noQuote noBackslash
  have rest : (body ++ quote :: quote :: quote :: tail).drop (body.length + 1) =
      quote :: quote :: tail := by
    have shape : body ++ quote :: quote :: quote :: tail =
        (body ++ [quote]) ++ quote :: quote :: tail := by simp
    rw [shape, List.drop_left' (by simp)]
  have hit : Rule.docstr.matched (quote :: quote :: quote :: (body ++ quote :: quote :: quote :: tail)) =
      some (body.length + 6) := by
    have shift : 3 + (body.length + 1) = body.length + 1 + 3 := by omega
    simp [Rule.matched, literal, List.isPrefixOf, closing, shift, rest]
    omega
  have stringHit : Rule.string.matched
      (quote :: quote :: quote :: (body ++ quote :: quote :: quote :: tail)) = some 2 := by
    simp [Rule.matched, closingQuote]
  have wins : longest Rule.matched rules
      (quote :: quote :: quote :: (body ++ quote :: quote :: quote :: tail)) =
      some (.docstr, body.length + 6) := by
    refine longest_eq [] _ Rule.docstr _ rfl hit (fun other mem m found => ?_)
      fun other mem m found => ?_
    · cases mem
    · rcases List.mem_cons.1 mem with rfl | mem
      · rw [stringHit] at found
        cases found
        omega
      · rw [matched_none (quote_starts other mem)] at found
        cases found
  have shape : quote :: quote :: quote :: (body ++ quote :: quote :: quote :: tail) =
      ([quote, quote, quote] ++ body ++ [quote, quote, quote]) ++ tail := by simp
  have lexeme : (([quote, quote, quote] ++ body ++ [quote, quote, quote]) ++ tail).take
      (body.length + 6) = [quote, quote, quote] ++ body ++ [quote, quote, quote] :=
    List.take_left' (by simp)
  have left : (([quote, quote, quote] ++ body ++ [quote, quote, quote]) ++ tail).drop
      (body.length + 6) = tail :=
    List.drop_left' (by simp)
  change cut (quote :: quote :: quote :: (body ++ quote :: quote :: quote :: tail)) = _
  rw [cut_of_longest wins]
  simp only [Rule.consumed, Rule.token, Option.map_some, Rule.yytext]
  rw [shape, lexeme, left]
  simp [c_string_id noZero]

end Strings

section Names

/-- Minus signs and then digits: what the lexer takes for a number. -/
def numberLike (l : CStr) : Bool :=
  (l.dropWhile (· == chr '-')) ≠ [] && (l.dropWhile (· == chr '-')).all isDigit

/-- The special forms with a token of their own. -/
inductive Keyword where
  | ifOper | doOper | whileOper
deriving DecidableEq, Repr

def Keyword.rule : Keyword → Rule
  | .ifOper => .ifOper
  | .doOper => .doOper
  | .whileOper => .whileOper

def Keyword.word : Keyword → CStr
  | .ifOper => text "if"
  | .doOper => text "do"
  | .whileOper => text "while"

def Keyword.token : Keyword → TokenType
  | .ifOper => .ifToken
  | .doOper => .doToken
  | .whileOper => .whileToken

theorem dash_is_symbol_char {c : Byte} (dash : (c == chr '-') = true) : isSymbolChar c = true := by
  rw [beq_iff_eq] at dash
  rw [dash]
  decide

/-- A text that looks like a number, taken apart. -/
structure NumberParts (l dashes digits : CStr) : Prop where
  whole : l = dashes ++ digits
  dash : ∀ c ∈ dashes, (c == chr '-') = true
  nonempty : digits ≠ []
  digit : ∀ c ∈ digits, isDigit c = true

theorem dash_of_leading {l : CStr} {c : Byte} (mem : c ∈ l.takeWhile (· == chr '-')) :
    (c == chr '-') = true :=
  List.mem_takeWhile_imp (p := (· == chr '-')) mem

theorem number_parts {l : CStr} (like : numberLike l = true) :
    ∃ dashes digits, NumberParts l dashes digits := by
  simp only [numberLike, Bool.and_eq_true, decide_eq_true_eq, List.all_eq_true] at like
  exact ⟨_, _, (List.takeWhile_append_dropWhile (p := (· == chr '-')) (l := l)).symm,
    fun _ mem => dash_of_leading mem, like.1, like.2⟩

theorem drop_dashes {l dashes digits : CStr} (parts : NumberParts l dashes digits) (tail : CStr) :
    (l ++ tail).takeWhile (· == chr '-') = dashes ∧
      (l ++ tail).drop dashes.length = digits ++ tail := by
  obtain ⟨rfl, dash, nonempty, digit⟩ := parts
  rw [List.append_assoc]
  constructor
  · cases digits with
    | nil => exact absurd rfl nonempty
    | cons c digits =>
        have stop : (c :: (digits ++ tail)).takeWhile (· == chr '-') = [] :=
          List.takeWhile_cons_of_neg (by simp [digit_ne_dash (digit c List.mem_cons_self)])
        rw [List.takeWhile_append_of_pos dash, List.cons_append, stop, List.append_nil]
  · exact List.drop_left' rfl

theorem number_like_of_parts {l dashes digits : CStr} (parts : NumberParts l dashes digits) :
    numberLike l = true := by
  have left : l.dropWhile (· == chr '-') = digits := by
    obtain ⟨starts, _⟩ := drop_dashes parts []
    rw [List.append_nil] at starts
    have split := List.takeWhile_append_dropWhile (p := (· == chr '-')) (l := l)
    rw [starts, parts.whole] at split
    rw [parts.whole]
    exact List.append_cancel_left split
  simp only [numberLike, left, Bool.and_eq_true, decide_eq_true_eq, List.all_eq_true]
  exact ⟨parts.nonempty, parts.digit⟩

theorem run_of_split {p : Byte → Bool} {l : CStr} {n : Nat} (found : runOf p l = some n) :
    ∃ run rest, l = run ++ rest ∧ run.length = n ∧ run ≠ [] ∧ (∀ c ∈ run, p c = true) ∧
      ∀ c more, rest = c :: more → p c = false := by
  have positive := run_of_pos found
  have size : (l.takeWhile p).length = n := by
    unfold runOf at found
    split at found <;> cases found
    assumption
  refine ⟨l.takeWhile p, l.dropWhile p, List.takeWhile_append_dropWhile.symm, size, ?_,
    fun _ mem => List.mem_takeWhile_imp mem, ?_⟩
  · intro empty
    rw [empty] at size
    simp only [List.length_nil] at size
    omega
  · intro c more same
    have filled : l.dropWhile p ≠ [] := by
      rw [same]
      exact List.cons_ne_nil _ _
    have stop := List.head_dropWhile_not p filled
    simpa only [same, List.head_cons] using stop

theorem number_matched {input : CStr} {n : Nat} (found : Rule.numberInteger.matched input = some n) :
    ∃ l tail, input = l ++ tail ∧ l.length = n ∧ numberLike l = true := by
  obtain ⟨m, digits, rfl⟩ := Option.map_eq_some_iff.1 found
  obtain ⟨run, rest, split, rfl, nonempty, all, _⟩ := run_of_split digits
  have whole : input = input.takeWhile (· == chr '-') ++ run ++ rest := by
    rw [List.append_assoc, ← split]
    conv_lhs => rw [← List.takeWhile_append_dropWhile (p := (· == chr '-')) (l := input)]
    congr 1
    have cancel := List.takeWhile_append_dropWhile (p := (· == chr '-')) (l := input)
    conv_rhs => rw [← cancel]
    rw [List.drop_left' (by rw [cancel])]
  exact ⟨_, rest, whole, by simp; omega,
    number_like_of_parts ⟨rfl, fun _ mem => dash_of_leading mem, nonempty, all⟩⟩

theorem number_like_symbol_chars {l : CStr} (like : numberLike l = true) :
    l ≠ [] ∧ ∀ c ∈ l, isSymbolChar c = true := by
  obtain ⟨dashes, digits, rfl, dash, nonempty, digit⟩ := number_parts like
  refine ⟨by simp [nonempty], fun c mem => ?_⟩
  rcases List.mem_append.1 mem with mem | mem
  · exact dash_is_symbol_char (dash c mem)
  · exact digit_is_symbol_char (digit c mem)

theorem number_matches {l tail : CStr} (like : numberLike l = true) (ends : RunEnds tail) :
    Rule.numberInteger.matched (l ++ tail) = some l.length := by
  obtain ⟨dashes, digits, parts⟩ := number_parts like
  obtain ⟨starts, left⟩ := drop_dashes parts tail
  have digitsEnd : ∀ c rest, tail = c :: rest → isDigit c = false := by
    intro c rest same
    cases digit : isDigit c with
    | false => rfl
    | true =>
        have isChar := digit_is_symbol_char digit
        rw [ends c rest same] at isChar
        cases isChar
  simp only [Rule.matched, starts, left, run_of_append parts.nonempty parts.digit digitsEnd,
    Option.map_some]
  rw [parts.whole, List.length_append, Nat.add_comm]

/-- Among texts of symbol characters at the start of the input the symbol rule
takes the longest. -/
theorem symbol_matches {l tail : CStr} (nonempty : l ≠ []) (chars : ∀ c ∈ l, isSymbolChar c = true)
    (ends : RunEnds tail) : Rule.symbol.matched (l ++ tail) = some l.length :=
  run_of_append nonempty chars ends

theorem no_longer_than {l tail word rest : CStr} (ends : RunEnds tail)
    (chars : ∀ c ∈ word, isSymbolChar c = true) (same : l ++ tail = word ++ rest) :
    word.length ≤ l.length := by
  by_contra longer
  have bound := Nat.not_le.1 longer
  have inside : word[l.length] ∈ word := List.getElem_mem bound
  have first : (l ++ tail)[l.length]? = some word[l.length] := by
    rw [same, List.getElem?_append_left bound, List.getElem?_eq_getElem bound]
  rw [List.getElem?_append_right (Nat.le_refl _), Nat.sub_self] at first
  cases tail with
  | nil => cases first
  | cons c more =>
      simp only [List.getElem?_cons_zero, Option.some.injEq] at first
      have isChar := chars _ inside
      rw [← first, ends c more rfl] at isChar
      cases isChar

theorem same_length_same {l tail word rest : CStr} (same : l ++ tail = word ++ rest)
    (size : word.length = l.length) : word = l := (List.append_inj_left same size.symm).symm

theorem literal_split {word input : CStr} {n : Nat} (found : literal word input = some n) :
    ∃ rest, input = word ++ rest ∧ n = word.length := by
  unfold literal at found
  split at found
  · rename_i isPrefix
    cases found
    obtain ⟨rest, same⟩ := List.isPrefixOf_iff_prefix.1 isPrefix
    exact ⟨rest, same.symm, rfl⟩
  · cases found

/-- What a rule other than the symbol rule takes from the start of a text of
symbol characters: a number or a keyword at its start. -/
theorem word_matched {l tail : CStr} (nonempty : l ≠ []) (chars : ∀ c ∈ l, isSymbolChar c = true)
    {rule : Rule} (other : rule ≠ .symbol) {n : Nat}
    (found : rule.matched (l ++ tail) = some n) :
    ∃ word rest, l ++ tail = word ++ rest ∧ word.length = n ∧
      (∀ c ∈ word, isSymbolChar c = true) ∧
      ((rule = .numberInteger ∧ numberLike word = true) ∨
        ∃ k : Keyword, rule = k.rule ∧ word = k.word) := by
  obtain ⟨c, more, rfl⟩ := List.exists_cons_of_ne_nil nonempty
  have first := chars c List.mem_cons_self
  have starts := matched_starts found
  cases rule with
  | symbol => exact absurd rfl other
  | numberInteger =>
      obtain ⟨word, rest, same, size, like⟩ := number_matched found
      exact ⟨word, rest, same, size, (number_like_symbol_chars like).2, .inl ⟨rfl, like⟩⟩
  | ifOper =>
      obtain ⟨rest, same, rfl⟩ := literal_split found
      exact ⟨_, rest, same, rfl, all_symbol_chars (by decide), .inr ⟨.ifOper, rfl, rfl⟩⟩
  | doOper =>
      obtain ⟨rest, same, rfl⟩ := literal_split found
      exact ⟨_, rest, same, rfl, all_symbol_chars (by decide), .inr ⟨.doOper, rfl, rfl⟩⟩
  | whileOper =>
      obtain ⟨rest, same, rfl⟩ := literal_split found
      exact ⟨_, rest, same, rfl, all_symbol_chars (by decide), .inr ⟨.whileOper, rfl, rfl⟩⟩
  | docstr => exact absurd (beq_iff_eq.1 starts) (symbol_char_ne first (by decide))
  | string => exact absurd (beq_iff_eq.1 starts) (symbol_char_ne first (by decide))
  | comment => exact absurd (beq_iff_eq.1 starts) (symbol_char_ne first (by decide))
  | leftParen => exact absurd (beq_iff_eq.1 starts) (symbol_char_ne first (by decide))
  | rightParen => exact absurd (beq_iff_eq.1 starts) (symbol_char_ne first (by decide))
  | quotedSymbol => exact absurd (beq_iff_eq.1 starts) (symbol_char_ne first (by decide))
  | whitespace =>
      simp only [Rule.starts, isWhitespace, Bool.or_eq_true, beq_iff_eq] at starts
      rcases starts with ((same | same) | same) | same <;>
        exact absurd same (symbol_char_ne first (by decide))

theorem symbol_char_ne_zero {l : CStr} (chars : ∀ c ∈ l, isSymbolChar c = true) :
    ∀ c ∈ l, c ≠ 0 := fun c mem => symbol_char_ne (chars c mem) (by decide)

theorem cut_number {l tail : CStr} (like : numberLike l = true) (ends : RunEnds tail) :
    cut (l ++ tail) = (some ⟨.integer, l⟩, tail) := by
  obtain ⟨nonempty, chars⟩ := number_like_symbol_chars like
  have wins : longest Rule.matched rules (l ++ tail) = some (.numberInteger, l.length) := by
    refine longest_eq (rules.take 6) (rules.drop 7) Rule.numberInteger _ rfl
      (number_matches like ends) (fun other mem m found => ?_) fun other mem m found => ?_
    · have different : other ≠ .symbol := by
        rintro rfl
        revert mem
        decide
      obtain ⟨_, _, _, _, _, kind⟩ := word_matched nonempty chars different found
      rcases kind with ⟨rfl, _⟩ | ⟨k, rfl, _⟩
      · exact absurd mem (by decide)
      · cases k <;> exact absurd mem (by decide)
    · by_cases same : other = .symbol
      · rw [same, symbol_matches nonempty chars ends] at found
        cases found
        exact Nat.le_refl _
      · obtain ⟨word, rest, split, rfl, wordChars, _⟩ := word_matched nonempty chars same found
        exact no_longer_than ends wordChars split
  rw [cut_of_longest wins]
  simp only [Rule.consumed, Rule.token, Option.map_some, Rule.yytext, List.take_left,
    List.drop_left, c_string_id (symbol_char_ne_zero chars)]

theorem cut_symbol {l tail : CStr} (nonempty : l ≠ []) (chars : ∀ c ∈ l, isSymbolChar c = true)
    (noNumber : numberLike l = false) (noKeyword : ∀ k : Keyword, l ≠ k.word) (ends : RunEnds tail) :
    cut (l ++ tail) = (some ⟨.symbol, l⟩, tail) := by
  have wins : longest Rule.matched rules (l ++ tail) = some (.symbol, l.length) := by
    refine longest_eq (rules.take 11) [] Rule.symbol _ rfl (symbol_matches nonempty chars ends)
      (fun other mem m found => ?_) fun other mem => absurd mem List.not_mem_nil
    have different : other ≠ .symbol := by
      rintro rfl
      revert mem
      decide
    obtain ⟨word, rest, split, rfl, wordChars, kind⟩ :=
      word_matched nonempty chars different found
    have bound := no_longer_than ends wordChars split
    rcases Nat.lt_or_eq_of_le bound with less | size
    · exact less
    · have whole := same_length_same split size
      subst whole
      rcases kind with ⟨_, like⟩ | ⟨k, _, same⟩
      · rw [like] at noNumber
        cases noNumber
      · exact absurd same (noKeyword k)
  rw [cut_of_longest wins]
  simp only [Rule.consumed, Rule.token, Option.map_some, Rule.yytext, List.take_left,
    List.drop_left, c_string_id (symbol_char_ne_zero chars)]

theorem literal_matches (word tail : CStr) : literal word (word ++ tail) = some word.length := by
  unfold literal
  rw [if_pos (List.isPrefixOf_iff_prefix.2 (List.prefix_append word tail))]

theorem keyword_facts (k : Keyword) : k.word ≠ [] ∧ (∀ c ∈ k.word, isSymbolChar c = true) ∧
    numberLike k.word = false ∧ k.rule.token = some k.token ∧
    k.rule.consumed k.word.length = k.word.length ∧ k.rule.yytext k.word = k.word := by
  cases k <;> exact ⟨by decide, all_symbol_chars (by decide), by decide, rfl, rfl, by decide⟩

theorem keyword_matches (k : Keyword) (tail : CStr) :
    k.rule.matched (k.word ++ tail) = some k.word.length := by
  cases k <;> exact literal_matches _ _

theorem keyword_words_differ {j k : Keyword} (same : j.word = k.word) : j = k := by
  revert same
  cases j <;> cases k <;> decide

theorem keyword_order (k : Keyword) :
    ∃ before after, rules = before ++ k.rule :: after ∧ k.rule ∉ before ∧ .symbol ∉ before := by
  cases k with
  | ifOper => exact ⟨rules.take 7, rules.drop 8, rfl, by decide, by decide⟩
  | doOper => exact ⟨rules.take 8, rules.drop 9, rfl, by decide, by decide⟩
  | whileOper => exact ⟨rules.take 9, rules.drop 10, rfl, by decide, by decide⟩

/-- A keyword that no symbol character follows is the keyword. -/
theorem cut_keyword (k : Keyword) {tail : CStr} (ends : RunEnds tail) :
    cut (k.word ++ tail) = (some ⟨k.token, k.word⟩, tail) := by
  obtain ⟨nonempty, chars, noNumber, token, consumed, yytext⟩ := keyword_facts k
  have hit := keyword_matches k tail
  have shorter : ∀ other, other ≠ .symbol → other ≠ k.rule → ∀ m,
      other.matched (k.word ++ tail) = some m → m < k.word.length := by
    intro other notSymbol notRule m found
    obtain ⟨start, rest, split, rfl, startChars, kind⟩ :=
      word_matched nonempty chars notSymbol found
    have bound := no_longer_than ends startChars split
    rcases Nat.lt_or_eq_of_le bound with less | size
    · exact less
    · have whole := same_length_same split size
      rcases kind with ⟨_, like⟩ | ⟨j, rfl, same⟩
      · rw [whole, noNumber] at like
        cases like
      · rw [keyword_words_differ (same.symm.trans whole)] at notRule
        exact absurd rfl notRule
  have wins : longest Rule.matched rules (k.word ++ tail) = some (k.rule, k.word.length) := by
    obtain ⟨before, after, split, notBefore, noSymbol⟩ := keyword_order k
    refine longest_eq before after k.rule _ split hit (fun other mem m found => ?_)
      fun other mem m found => ?_
    · exact shorter other (fun same => noSymbol (same ▸ mem)) (fun same => notBefore (same ▸ mem))
        m found
    · by_cases symbol : other = .symbol
      · rw [symbol, symbol_matches nonempty chars ends] at found
        cases found
        exact Nat.le_refl _
      · by_cases same : other = k.rule
        · rw [same, hit] at found
          cases found
          exact Nat.le_refl _
        · exact Nat.le_of_lt (shorter other symbol same m found)
  rw [cut_of_longest wins, consumed, List.take_left, List.drop_left, token, yytext]
  rfl

theorem cut_quoted_symbol {l tail : CStr} (nonempty : l ≠ [])
    (chars : ∀ c ∈ l, isSymbolChar c = true) (ends : RunEnds tail) :
    cut (chr '\'' :: (l ++ tail)) = (some ⟨.symbol, chr '\'' :: l⟩, tail) := by
  have run := run_of_append nonempty chars ends
  have hit : Rule.quotedSymbol.matched (chr '\'' :: (l ++ tail)) = some (l.length + 1) := by
    simp only [Rule.matched, if_true, run, Option.map_some]
  have wins := longest_only hit (by decide)
  have noZero : ∀ c ∈ chr '\'' :: l, c ≠ 0 := by
    intro c mem
    rcases List.mem_cons.1 mem with rfl | mem
    · decide
    · exact symbol_char_ne_zero chars c mem
  rw [cut_of_longest wins]
  simp only [Rule.consumed, Rule.token, Option.map_some, Rule.yytext, List.take_succ_cons,
    List.take_left, List.drop_succ_cons, List.drop_left, c_string_id noZero]

end Names

section Separators

theorem cut_open (tail : CStr) : cut (chr '(' :: tail) = (some ⟨.lparen, text "("⟩, tail) := by
  have hit : Rule.leftParen.matched (chr '(' :: tail) = some 1 := literal_matches (text "(") tail
  rw [cut_of_longest (longest_only hit (by decide))]
  rfl

theorem cut_close (tail : CStr) : cut (chr ')' :: tail) = (some ⟨.rparen, text ")"⟩, tail) := by
  have hit : Rule.rightParen.matched (chr ')' :: tail) = some 1 := literal_matches (text ")") tail
  rw [cut_of_longest (longest_only hit (by decide))]
  rfl

theorem whitespace_cases {c : Byte} (white : isWhitespace c = true) :
    c = chr ' ' ∨ c = 9 ∨ c = newline ∨ c = 13 := by
  simp only [isWhitespace, Bool.or_eq_true, beq_iff_eq] at white
  tauto

theorem cut_whitespace {c : Byte} (white : isWhitespace c = true) (tail : CStr) :
    cut (c :: tail) = (none, tail) := by
  have hit : Rule.whitespace.matched (c :: tail) = some 1 := by
    simp only [Rule.matched, white, if_true]
  have others : ∀ other ∈ rules, other ≠ .whitespace → other.starts c = false := by
    rcases whitespace_cases white with rfl | rfl | rfl | rfl <;> decide
  rw [cut_of_longest (longest_only hit others)]
  rfl

/-- A comment is skipped up to its newline, which is left. -/
theorem cut_comment {body : CStr} (oneLine : newline ∉ body) (tail : CStr) :
    cut (chr ';' :: (body ++ newline :: tail)) = (none, newline :: tail) := by
  have stop : (newline :: tail).takeWhile (· != newline) = [] :=
    List.takeWhile_cons_of_neg (by simp)
  have line : (body ++ newline :: tail).takeWhile (· != newline) = body := by
    rw [List.takeWhile_append_of_pos, stop, List.append_nil]
    intro c mem
    simp only [bne_iff_ne]
    rintro rfl
    exact oneLine mem
  have hit : Rule.comment.matched (chr ';' :: (body ++ newline :: tail)) =
      some (body.length + 2) := by
    have room : body.length < (body ++ newline :: tail).length := by simp
    simp only [Rule.matched, if_true, line, if_pos room]
  rw [cut_of_longest (longest_only hit (by decide))]
  simp only [Rule.consumed, Rule.token, Option.map_none,
    show body.length + 2 - 1 = body.length + 1 by omega, List.drop_succ_cons, List.drop_left]

end Separators

end BearLang
