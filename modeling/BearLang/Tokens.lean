import BearLang.Lexer

/-!
# The tokens of an input

What `yylex` gives, call after call, depends on the unread input only. `Lexes`
is this dependence as a relation, one turn of the scanner loop at a time, and
`tokensOf` the list of all tokens.
-/

namespace BearLang

open MaximalMunch

set_option autoImplicit false

structure Token where
  type : TokenType
  text : CStr
deriving DecidableEq, Repr

/-- One turn of the scanner loop: the token, if the rule has one, and the rest. -/
def cut (input : CStr) : Option Token × CStr :=
  match longest Rule.matched rules input with
  | none => (none, input.drop 1)
  | some (rule, n) =>
      (rule.token.map fun type => ⟨type, rule.yytext (input.take (rule.consumed n))⟩,
        input.drop (rule.consumed n))

inductive Lexes : CStr → List Token → Prop where
  | stop : Lexes [] []
  | skip {c : Byte} {input rest : CStr} {tokens : List Token}
      (skipped : cut (c :: input) = (none, rest)) (later : Lexes rest tokens) :
      Lexes (c :: input) tokens
  | token {c : Byte} {input rest : CStr} {t : Token} {tokens : List Token}
      (found : cut (c :: input) = (some t, rest)) (later : Lexes rest tokens) :
      Lexes (c :: input) (t :: tokens)

/-- Turns of the scanner loop that give these tokens and leave this rest. -/
inductive Scans : CStr → List Token → CStr → Prop where
  | stop (input : CStr) : Scans input [] input
  | skip {c : Byte} {input middle rest : CStr} {tokens : List Token}
      (skipped : cut (c :: input) = (none, middle)) (later : Scans middle tokens rest) :
      Scans (c :: input) tokens rest
  | token {c : Byte} {input middle rest : CStr} {t : Token} {tokens : List Token}
      (found : cut (c :: input) = (some t, middle)) (later : Scans middle tokens rest) :
      Scans (c :: input) (t :: tokens) rest

def tokensFrom : Nat → CStr → List Token
  | 0, _ => []
  | _ + 1, [] => []
  | turns + 1, c :: input =>
      match cut (c :: input) with
      | (none, rest) => tokensFrom turns rest
      | (some t, rest) => t :: tokensFrom turns rest

/-- Every turn shortens the input, so its length bounds the turns. -/
def tokensOf (input : CStr) : List Token := tokensFrom input.length input

section Progress

theorem run_of_pos {p : Byte → Bool} {input : CStr} {n : Nat} (found : runOf p input = some n) :
    0 < n := by
  unfold runOf at found
  split at found <;> cases found
  omega

theorem literal_pos {word input : CStr} {n : Nat} (found : literal word input = some n) :
    n = word.length := by
  unfold literal at found
  split at found <;> cases found
  rfl

theorem matched_consumes {rule : Rule} {input : CStr} {n : Nat}
    (found : rule.matched input = some n) : 0 < rule.consumed n := by
  cases rule with
  | docstr =>
      simp only [Rule.matched] at found
      split at found
      · cases found
      · split at found
        · cases found
        · obtain ⟨m, _, rfl⟩ := Option.map_eq_some_iff.1 found
          simp only [Rule.consumed]
          omega
  | string =>
      simp only [Rule.matched] at found
      split at found
      · cases found
      · split at found
        · obtain ⟨m, _, rfl⟩ := Option.map_eq_some_iff.1 found
          exact Nat.succ_pos m
        · cases found
  | whitespace =>
      simp only [Rule.matched] at found
      split at found
      · cases found
      · split at found <;> cases found
        exact Nat.one_pos
  | comment =>
      simp only [Rule.matched] at found
      split at found
      · cases found
      · split at found
        · split at found <;> cases found
          simp only [Rule.consumed]
          omega
        · cases found
  | quotedSymbol =>
      simp only [Rule.matched] at found
      split at found
      · cases found
      · split at found
        · obtain ⟨m, _, rfl⟩ := Option.map_eq_some_iff.1 found
          exact Nat.succ_pos m
        · cases found
  | numberInteger =>
      obtain ⟨m, digits, rfl⟩ := Option.map_eq_some_iff.1 found
      have := run_of_pos digits
      simp only [Rule.consumed]
      omega
  | symbol => exact run_of_pos found
  | leftParen => exact (literal_pos found) ▸ Nat.one_pos
  | rightParen => exact (literal_pos found) ▸ Nat.one_pos
  | ifOper => exact (literal_pos found) ▸ Nat.two_pos
  | doOper => exact (literal_pos found) ▸ Nat.two_pos
  | whileOper => exact (literal_pos found) ▸ Nat.succ_pos 4

theorem cut_shorter (c : Byte) (input : CStr) : (cut (c :: input)).2.length ≤ input.length := by
  unfold cut
  split
  · simp
  · rename_i rule n found
    have := matched_consumes (longest_matched found).2
    simp only [List.length_drop, List.length_cons]
    omega

end Progress

section Relation

theorem lexes_tokens_from (turns : Nat) (input : CStr) (enough : input.length ≤ turns) :
    Lexes input (tokensFrom turns input) := by
  induction turns generalizing input with
  | zero =>
      rw [List.length_eq_zero_iff.1 (Nat.le_zero.1 enough)]
      exact .stop
  | succ turns ih =>
      cases input with
      | nil => exact .stop
      | cons c input =>
          have shorter := cut_shorter c input
          simp only [List.length_cons, Nat.add_le_add_iff_right] at enough
          rw [tokensFrom]
          split
          · rename_i rest found
            rw [found] at shorter
            exact .skip found (ih rest (Nat.le_trans shorter enough))
          · rename_i t rest found
            rw [found] at shorter
            exact .token found (ih rest (Nat.le_trans shorter enough))

theorem lexes_tokens_of (input : CStr) : Lexes input (tokensOf input) :=
  lexes_tokens_from input.length input (Nat.le_refl _)

theorem lexes_of_scans {input rest : CStr} {tokens more : List Token}
    (scans : Scans input tokens rest) (lexes : Lexes rest more) : Lexes input (tokens ++ more) := by
  induction scans with
  | stop => exact lexes
  | skip skipped _ ih => exact .skip skipped (ih lexes)
  | token found _ ih => exact .token found (ih lexes)

theorem lexes_functional {input : CStr} {first second : List Token} (left : Lexes input first)
    (right : Lexes input second) : first = second := by
  induction left generalizing second with
  | stop =>
      cases right
      rfl
  | skip skipped _ ih =>
      cases right with
      | skip skipped' later =>
          rw [skipped] at skipped'
          cases skipped'
          exact ih later
      | token found later =>
          rw [skipped] at found
          cases found
  | token found _ ih =>
      cases right with
      | skip skipped later =>
          rw [found] at skipped
          cases skipped
      | token found' later =>
          rw [found] at found'
          cases found'
          rw [ih later]

theorem tokens_of_eq {input : CStr} {tokens : List Token} (lexes : Lexes input tokens) :
    tokensOf input = tokens :=
  lexes_functional (lexes_tokens_of input) lexes

theorem scan_step_cut (sc : Scanner) :
    (scanStep sc).1 = (cut sc.input).1.map Token.type ∧ (scanStep sc).2.input = (cut sc.input).2 ∧
      ∀ t, (cut sc.input).1 = some t → (scanStep sc).2.yytext = t.text := by
  unfold scanStep cut
  cases longest Rule.matched rules sc.input with
  | none => exact ⟨rfl, rfl, fun t found => by cases found⟩
  | some pair =>
      refine ⟨?_, rfl, fun t token => ?_⟩
      · simp only [Option.map_map]
        cases pair.1.token <;> rfl
      · obtain ⟨kind, _, rfl⟩ := Option.map_eq_some_iff.1 token
        rfl

/-- What `yylex` does when the tokens that are left are known. -/
def Yields : List Token → Option TokenType × Scanner → Prop
  | [], (found, sc') => found = none ∧ Lexes sc'.input []
  | t :: tokens, (found, sc') =>
      found = some t.type ∧ sc'.yytext = t.text ∧ Lexes sc'.input tokens

theorem yylex_from_yields {input : CStr} {tokens : List Token} (lexes : Lexes input tokens)
    (turns : Nat) (sc : Scanner) (same : sc.input = input) (enough : input.length < turns) :
    Yields tokens (yylexFrom turns sc) := by
  induction lexes generalizing turns sc with
  | stop =>
      cases turns with
      | zero => omega
      | succ turns =>
          rw [yylexFrom, if_pos same]
          exact ⟨rfl, by rw [same]; exact .stop⟩
  | @skip c input rest tokens skipped later ih =>
      cases turns with
      | zero => omega
      | succ turns =>
          obtain ⟨kind, left, _⟩ := scan_step_cut sc
          have shorter := cut_shorter c input
          simp only [List.length_cons] at enough
          rw [same, skipped] at kind left
          rw [skipped] at shorter
          have stepped : scanStep sc = (none, (scanStep sc).2) := Prod.ext kind rfl
          rw [yylexFrom, if_neg (by rw [same]; exact List.cons_ne_nil _ _), stepped]
          have bound : rest.length < turns := Nat.lt_of_le_of_lt shorter (Nat.lt_of_succ_lt_succ enough)
          exact ih turns (scanStep sc).2 left bound
  | @token c input rest t tokens found later ih =>
      cases turns with
      | zero => omega
      | succ turns =>
          obtain ⟨kind, left, text⟩ := scan_step_cut sc
          rw [same, found] at kind left
          have stepped : scanStep sc = (some t.type, (scanStep sc).2) := Prod.ext kind rfl
          rw [yylexFrom, if_neg (by rw [same]; exact List.cons_ne_nil _ _), stepped]
          exact ⟨rfl, text t (by rw [same, found]), by rw [left]; exact later⟩

theorem yylex_yields {sc : Scanner} {tokens : List Token} (lexes : Lexes sc.input tokens) :
    Yields tokens (yylex sc) :=
  yylex_from_yields lexes _ sc rfl (Nat.lt_succ_self _)

end Relation

end BearLang
