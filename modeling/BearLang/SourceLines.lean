import BearLang.Lexemes
import BearLang.ReaderCorrectness

/-!
# Lines of a source file

Where the forms of a file stand. A line is counted in the bytes of the file ahead of
a form, so nothing here depends on the line counter of the scanner, which is shown to
agree with it. `Layout` follows `read_list` over the text.
-/

namespace BearLang

open CallPrograms MaximalMunch SymbolInterning

set_option autoImplicit false

section Positions

/-- The line of the byte that the rest of the file begins with. -/
def lineAt (file rest : CStr) : Nat :=
  1 + (file.take (file.length - rest.length)).count newline

/-- The next token of the input, with the input that it begins and the input behind it. -/
inductive Next : CStr → CStr → Token → CStr → Prop where
  | skip {c : Byte} {input middle from_ rest : CStr} {t : Token}
      (skipped : cut (c :: input) = (none, middle)) (later : Next middle from_ t rest) :
      Next (c :: input) from_ t rest
  | here {c : Byte} {input rest : CStr} {t : Token} (found : cut (c :: input) = (some t, rest)) :
      Next (c :: input) (c :: input) t rest

/-- A form in a file: an atom with its line, or a list with the lines on which it begins
and ends. -/
inductive Placed where
  | atom (t : Token) (line : Nat)
  | list (first : Nat) (inner : List Placed) (last : Nat)

/-- The forms that `read_list` takes from the input, and the input it leaves. -/
inductive Layout (file : CStr) : CStr → List Placed → CStr → Prop where
  | stop {input : CStr} (ends : Lexes input []) : Layout file input [] []
  | close {input from_ rest : CStr} {t : Token} (next : Next input from_ t rest)
      (closes : t.type = .rparen) : Layout file input [] rest
  | atom {input from_ middle rest : CStr} {t : Token} {items : List Placed}
      (next : Next input from_ t middle) (noOpen : t.type ≠ .lparen) (noClose : t.type ≠ .rparen)
      (later : Layout file middle items rest) :
      Layout file input (.atom t (lineAt file from_) :: items) rest
  | list {input from_ inside middle rest : CStr} {t : Token} {inner items : List Placed}
      (next : Next input from_ t inside) (opens : t.type = .lparen)
      (within : Layout file inside inner middle) (later : Layout file middle items rest) :
      Layout file input (.list (lineAt file from_) inner (lineAt file middle) :: items) rest

mutual

/-- The lines on which a symbol stands in a form, in the order of reading. -/
def Placed.lines (name : CStr) : Placed → List Nat
  | .atom t line => if t.type = .symbol ∧ t.text = name then [line] else []
  | .list _ inner _ => linesOf name inner

def linesOf (name : CStr) : List Placed → List Nat
  | [] => []
  | f :: items => f.lines name ++ linesOf name items

end

theorem line_at_append (before rest : CStr) :
    lineAt (before ++ rest) rest = 1 + before.count newline := by
  rw [lineAt, List.length_append, Nat.add_sub_cancel, List.take_left]

end Positions

section LineCounter

/-- The scanner stands in the file, and its line is the line there. -/
def Standing (file : CStr) (sc : Scanner) : Prop :=
  ∃ before, file = before ++ sc.input ∧ sc.lineno = 1 + before.count newline

theorem standing_line {file : CStr} {sc : Scanner} (standing : Standing file sc) :
    sc.lineno = lineAt file sc.input := by
  obtain ⟨before, rfl, line⟩ := standing
  rw [line_at_append, line]

theorem standing_start (file : CStr) : Standing file (scannerOf file) := ⟨[], rfl, rfl⟩

theorem standing_advance {file : CStr} {sc : Scanner} (standing : Standing file sc) (n : Nat) :
    Standing file (sc.advance n) := by
  obtain ⟨before, whole, line⟩ := standing
  refine ⟨before ++ sc.input.take n, ?_, ?_⟩
  · rw [whole, List.append_assoc]
    simp only [Scanner.advance, List.take_append_drop]
  · simp only [Scanner.advance, line, List.count_append, Nat.add_assoc]

theorem standing_step {file : CStr} {sc : Scanner} (standing : Standing file sc) :
    Standing file (scanStep sc).2 := by
  unfold scanStep
  split
  · exact standing_advance standing 1
  · rename_i rule n _
    exact standing_advance standing (rule.consumed n)

/-- The line counter is right wherever `yylex` comes back. -/
theorem standing_yylex {file : CStr} (turns : Nat) {sc : Scanner} (standing : Standing file sc) :
    Standing file (yylexFrom turns sc).2 := by
  induction turns generalizing sc with
  | zero => exact standing
  | succ turns ih =>
      have stepped := standing_step standing
      rw [yylexFrom]
      split
      · exact standing
      · split
        · rename_i token sc' found
          rw [found] at stepped
          exact stepped
        · rename_i sc' found
          rw [found] at stepped
          exact ih stepped

end LineCounter

section NextToken

variable {input from_ rest : CStr} {t : Token}

theorem yylex_from_next (next : Next input from_ t rest) (turns : Nat) (sc : Scanner)
    (same : sc.input = input) (enough : input.length < turns) :
    ∃ sc', yylexFrom turns sc = (some t.type, sc') ∧ sc'.yytext = t.text ∧ sc'.input = rest := by
  induction next generalizing turns sc with
  | @skip c input middle from_ rest t skipped later ih =>
      obtain ⟨turns, rfl⟩ : ∃ n, turns = n + 1 := ⟨turns - 1, by omega⟩
      obtain ⟨kind, left, _⟩ := scan_step_cut sc
      have shorter := cut_shorter c input
      simp only [List.length_cons] at enough
      rw [same, skipped] at kind left
      rw [skipped] at shorter
      have stepped : scanStep sc = (none, (scanStep sc).2) := Prod.ext kind rfl
      rw [yylexFrom, if_neg (by rw [same]; exact List.cons_ne_nil _ _), stepped]
      exact ih turns (scanStep sc).2 left
        (Nat.lt_of_le_of_lt shorter (Nat.lt_of_succ_lt_succ enough))
  | @here c input rest t found =>
      obtain ⟨turns, rfl⟩ : ∃ n, turns = n + 1 := ⟨turns - 1, by omega⟩
      obtain ⟨kind, left, text⟩ := scan_step_cut sc
      rw [same, found] at kind left
      have stepped : scanStep sc = (some t.type, (scanStep sc).2) := Prod.ext kind rfl
      rw [yylexFrom, if_neg (by rw [same]; exact List.cons_ne_nil _ _), stepped]
      exact ⟨_, rfl, text t (by rw [same, found]), left⟩

/-- `yylex` gives the next token, and stands behind it. -/
theorem yylex_next {file : CStr} {sc : Scanner} (next : Next sc.input from_ t rest)
    (standing : Standing file sc) :
    ∃ sc', yylex sc = (some t.type, sc') ∧ sc'.yytext = t.text ∧ sc'.input = rest ∧
      Standing file sc' := by
  obtain ⟨sc', lexed, text, left⟩ := yylex_from_next next _ sc rfl (Nat.lt_succ_self _)
  have stands := standing_yylex (sc.input.length + 1) standing
  rw [lexed] at stands
  exact ⟨sc', lexed, text, left, stands⟩

/-- At the end of the input `yylex` has read the whole of it. -/
theorem yylex_from_end (ends : Lexes input []) (turns : Nat) (sc : Scanner)
    (same : sc.input = input) (enough : input.length < turns) :
    ∃ sc', yylexFrom turns sc = (none, sc') ∧ sc'.input = [] := by
  generalize none_ : ([] : List Token) = tokens at ends
  induction ends generalizing turns sc with
  | stop =>
      obtain ⟨turns, rfl⟩ : ∃ n, turns = n + 1 := ⟨turns - 1, by omega⟩
      rw [yylexFrom, if_pos same]
      exact ⟨sc, rfl, same⟩
  | @skip c input rest tokens skipped later ih =>
      obtain ⟨turns, rfl⟩ : ∃ n, turns = n + 1 := ⟨turns - 1, by omega⟩
      obtain ⟨kind, left, _⟩ := scan_step_cut sc
      have shorter := cut_shorter c input
      simp only [List.length_cons] at enough
      rw [same, skipped] at kind left
      rw [skipped] at shorter
      have stepped : scanStep sc = (none, (scanStep sc).2) := Prod.ext kind rfl
      rw [yylexFrom, if_neg (by rw [same]; exact List.cons_ne_nil _ _), stepped]
      exact ih turns (scanStep sc).2 left
        (Nat.lt_of_le_of_lt shorter (Nat.lt_of_succ_lt_succ enough)) none_
  | token => cases none_

theorem yylex_end {file : CStr} {sc : Scanner} (ends : Lexes sc.input [])
    (standing : Standing file sc) :
    ∃ sc', yylex sc = (none, sc') ∧ sc'.input = [] ∧ Standing file sc' := by
  obtain ⟨sc', lexed, left⟩ := yylex_from_end ends _ sc rfl (Nat.lt_succ_self _)
  have stands := standing_yylex (sc.input.length + 1) standing
  rw [lexed] at stands
  exact ⟨sc', lexed, left, stands⟩

theorem symbol_one_line {c : Byte} (found : cut (c :: input) = (some t, rest))
    (kind : t.type = .symbol) :
    ∃ lexeme, c :: input = lexeme ++ rest ∧ newline ∉ lexeme := by
  unfold cut at found
  split at found
  · cases found
  · rename_i rule n wins
    obtain ⟨_, matched⟩ := longest_matched wins
    simp only [Prod.mk.injEq, Option.map_eq_some_iff] at found
    obtain ⟨⟨type, token, rfl⟩, rfl⟩ := found
    refine ⟨(c :: input).take (rule.consumed n), (List.take_append_drop _ _).symm, ?_⟩
    cases kind
    have symbols : ∀ {l : CStr} {m : Nat}, runOf isSymbolChar l = some m → newline ∉ l.take m := by
      intro l m run mem
      obtain ⟨word, more, rfl, rfl, _, chars, _⟩ := run_of_split run
      rw [List.take_left] at mem
      exact absurd (chars newline mem) (by decide)
    cases rule <;> simp only [Rule.token, Option.some.injEq, reduceCtorEq] at token
    case quotedSymbol =>
      simp only [Rule.matched] at matched
      split at matched
      · rename_i mark
        obtain ⟨m, run, rfl⟩ := Option.map_eq_some_iff.1 matched
        simp only [Rule.consumed, List.take_succ_cons, List.mem_cons, not_or]
        refine ⟨?_, symbols run⟩
        rw [mark]
        decide
      · cases matched
    case symbol => exact symbols matched

theorem open_one_line {c : Byte} (found : cut (c :: input) = (some t, rest))
    (kind : t.type = .lparen) :
    ∃ lexeme, c :: input = lexeme ++ rest ∧ newline ∉ lexeme := by
  unfold cut at found
  split at found
  · cases found
  · rename_i rule n wins
    obtain ⟨_, matched⟩ := longest_matched wins
    simp only [Prod.mk.injEq, Option.map_eq_some_iff] at found
    obtain ⟨⟨type, token, rfl⟩, rfl⟩ := found
    cases kind
    cases rule <;> simp only [Rule.token, Option.some.injEq, reduceCtorEq] at token
    obtain ⟨more, split, rfl⟩ := literal_split matched
    refine ⟨text "(", ?_, by decide⟩
    rw [split]
    rfl

/-- Behind a symbol the line is still the one that the symbol stands on. -/
theorem next_line {file : CStr} (next : Next input from_ t rest) (inside : input <:+ file)
    (kind : t.type = .symbol ∨ t.type = .lparen) : lineAt file rest = lineAt file from_ := by
  induction next with
  | @skip c input middle from_ rest t skipped later ih =>
      refine ih (List.IsSuffix.trans ?_ inside) kind
      have cutOff : middle = (cut (c :: input)).2 := by rw [skipped]
      rw [cutOff, cut]
      split <;> exact List.drop_suffix _ _
  | @here c input rest t found =>
      obtain ⟨lexeme, parts, oneLine⟩ :
          ∃ lexeme, c :: input = lexeme ++ rest ∧ newline ∉ lexeme := by
        rcases kind with symbol | opens
        · exact symbol_one_line found symbol
        · exact open_one_line found opens
      obtain ⟨before, rfl⟩ := inside
      rw [parts]
      have whole : before ++ (lexeme ++ rest) = before ++ lexeme ++ rest :=
        (List.append_assoc _ _ _).symm
      rw [line_at_append, whole, line_at_append, List.count_append,
        List.count_eq_zero_of_not_mem oneLine, Nat.add_zero]

end NextToken

section Computed

/-- The next token, its input and the rest, if so many turns reach it. -/
def nextFrom : Nat → CStr → Option (CStr × Token × CStr)
  | 0, _ => none
  | _ + 1, [] => none
  | turns + 1, c :: input =>
      match cut (c :: input) with
      | (none, rest) => nextFrom turns rest
      | (some t, rest) => some (c :: input, t, rest)

theorem next_of_from {turns : Nat} {input from_ rest : CStr} {t : Token}
    (found : nextFrom turns input = some (from_, t, rest)) : Next input from_ t rest := by
  induction turns generalizing input with
  | zero => cases found
  | succ turns ih =>
      cases input with
      | nil => cases found
      | cons c input =>
          rw [nextFrom] at found
          split at found
          · rename_i middle skipped
            exact .skip skipped (ih found)
          · rename_i u left here
            cases found
            exact .here here

/-- The layout of the input, computed. -/
def layoutFrom (file : CStr) : Nat → CStr → Option (List Placed × CStr)
  | 0, _ => none
  | depth + 1, input =>
      match nextFrom (input.length + 1) input with
      | none => if tokensOf input = [] then some ([], []) else none
      | some (from_, t, rest) =>
          if t.type = .rparen then some ([], rest)
          else if t.type = .lparen then
            match layoutFrom file depth rest with
            | none => none
            | some (inner, middle) =>
                match layoutFrom file depth middle with
                | none => none
                | some (items, left) =>
                    some (.list (lineAt file from_) inner (lineAt file middle) :: items, left)
          else
            match layoutFrom file depth rest with
            | none => none
            | some (items, left) => some (.atom t (lineAt file from_) :: items, left)

theorem layout_of_from {file : CStr} (depth : Nat) {input rest : CStr} {items : List Placed}
    (found : layoutFrom file depth input = some (items, rest)) : Layout file input items rest := by
  induction depth generalizing input items rest with
  | zero => cases found
  | succ depth ih =>
      rw [layoutFrom] at found
      split at found
      · split at found
        · rename_i none_
          cases found
          exact .stop (none_ ▸ lexes_tokens_of input)
        · cases found
      · rename_i from_ t left next
        have next := next_of_from next
        split at found
        · rename_i closes
          cases found
          exact .close next closes
        · rename_i noClose
          split at found
          · rename_i opens
            split at found
            · cases found
            · rename_i inner middle within
              split at found
              · cases found
              · rename_i later
                cases found
                exact .list next opens (ih within) (ih later)
          · rename_i noOpen
            split at found
            · cases found
            · rename_i later
              cases found
              exact .atom next noOpen noClose (ih later)

end Computed

end BearLang
