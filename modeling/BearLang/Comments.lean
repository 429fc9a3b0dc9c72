import BearLang.Lexemes
import BearLang.ParseFile

/-!
# Comments

A comment is matched together with the newline behind it. On the last line there is no
newline, so there its semicolon is copied to the output and the rest is read as tokens.
Elsewhere the scanner takes the same turns with a comment and without it, except that
a quote ahead of the comment may find a closing one when the comment is gone.
-/

namespace BearLang.Comments

open CallPrograms MaximalMunch

set_option autoImplicit false

section Quotes

variable {b x y : CStr} {m : Nat}

theorem closing_quote_quote (l : CStr) : closingQuote (quote :: l) = some 1 := by
  cases l <;> simp [closingQuote]

theorem closing_quote_other {c : Byte} (noQuote : c ≠ quote) (noBackslash : c ≠ backslash)
    (l : CStr) : closingQuote (c :: l) = (closingQuote l).map (· + 1) := by
  cases l with
  | nil => simp [closingQuote, noQuote]
  | cons d rest => rw [closingQuote, if_neg noQuote, if_neg noBackslash]

theorem closing_quote_escape (d : Byte) (l : CStr) : closingQuote (backslash :: d :: l) =
    if d = newline then none else (closingQuote l).map (· + 2) := by
  rw [closingQuote, if_neg (by decide), if_pos rfl]

theorem closing_quote_pos {l : CStr} (found : closingQuote l = some m) : 0 < m := by
  induction l using closingQuote.induct generalizing m with
  | case1 => cases found
  | case2 =>
      cases found
      exact Nat.one_pos
  | case3 c other =>
      rw [closingQuote, if_neg other] at found
      cases found
  | case4 d rest =>
      rw [closing_quote_quote] at found
      cases found
      exact Nat.one_pos
  | case5 rest _ =>
      rw [closing_quote_escape, if_pos rfl] at found
      cases found
  | case6 d rest other _ _ =>
      rw [closing_quote_escape, if_neg other] at found
      obtain ⟨n, _, rfl⟩ := Option.map_eq_some_iff.1 found
      exact Nat.succ_pos _
  | case7 c d rest noQuote noBackslash _ =>
      rw [closing_quote_other noQuote noBackslash] at found
      obtain ⟨n, _, rfl⟩ := Option.map_eq_some_iff.1 found
      exact Nat.succ_pos _

/-- A closing quote does not depend on what is behind it. -/
theorem closing_quote_local (found : closingQuote (b ++ x) = some m) (inside : m ≤ b.length) :
    closingQuote (b ++ y) = some m := by
  induction b using closingQuote.induct generalizing m with
  | case1 => exact absurd (closing_quote_pos found) (Nat.not_lt.2 inside)
  | case2 =>
      rw [List.singleton_append, closing_quote_quote] at found ⊢
      exact found
  | case3 c other =>
      rw [List.singleton_append] at found
      by_cases back : c = backslash
      · subst back
        cases x with
        | nil => cases found
        | cons d x =>
            rw [closing_quote_escape] at found
            split at found
            · cases found
            · obtain ⟨n, _, rfl⟩ := Option.map_eq_some_iff.1 found
              exact absurd inside (by simp)
      · rw [closing_quote_other other back] at found
        obtain ⟨n, later, rfl⟩ := Option.map_eq_some_iff.1 found
        have positive := closing_quote_pos later
        exact absurd inside (by simp; omega)
  | case4 d rest =>
      rw [List.cons_append, closing_quote_quote] at found ⊢
      exact found
  | case5 rest _ =>
      rw [List.cons_append, List.cons_append, closing_quote_escape, if_pos rfl] at found
      cases found
  | case6 d rest other _ ih =>
      rw [List.cons_append, List.cons_append, closing_quote_escape, if_neg other] at found ⊢
      obtain ⟨n, later, rfl⟩ := Option.map_eq_some_iff.1 found
      rw [ih later (by simpa using inside)]
      rfl
  | case7 c d rest noQuote noBackslash ih =>
      rw [List.cons_append, closing_quote_other noQuote noBackslash] at found ⊢
      obtain ⟨n, later, rfl⟩ := Option.map_eq_some_iff.1 found
      rw [ih later (by simpa using inside)]
      rfl

end Quotes

section Contexts

variable {b x y : CStr} {p : Byte → Bool}

/-- What stands where the comment begins, with it or without it. -/
def Breaks (x : CStr) : Prop := ∀ c rest, x = c :: rest → c = chr ';' ∨ c = newline

/-- The word goes on over no such place. -/
def unbroken (word : CStr) : Bool := word.all fun c => c != chr ';' && c != newline

theorem literal_context {word : CStr} (plain : unbroken word = true) (breaks : Breaks x) :
    literal word (b ++ x) = literal word b := by
  have same : word.isPrefixOf (b ++ x) = word.isPrefixOf b := by
    induction word generalizing b with
    | nil => simp [List.isPrefixOf]
    | cons w word ih =>
        simp only [unbroken, List.all_cons, Bool.and_eq_true, bne_iff_ne] at plain
        have later := fun l => ih (b := l) plain.2
        cases b with
        | cons c b => simp only [List.cons_append, List.isPrefixOf, later b]
        | nil =>
            cases x with
            | nil => rfl
            | cons c x =>
                have other : (w == c) = false := by
                  rw [beq_eq_false_iff_ne]
                  rintro rfl
                  exact (breaks w x rfl).elim plain.1.1 plain.1.2
                simp [List.isPrefixOf, other]
  rw [literal, literal, same]

theorem take_while_context (semicolon : p (chr ';') = false) (line : p newline = false)
    (breaks : Breaks x) : (b ++ x).takeWhile p = b.takeWhile p := by
  induction b with
  | nil =>
      cases x with
      | nil => rfl
      | cons c x =>
          have stops : p c = false := by
            rcases breaks c x rfl with rfl | rfl
            · exact semicolon
            · exact line
          simp [stops]
  | cons c b ih => simp only [List.cons_append, List.takeWhile_cons, ih]

theorem run_of_context (semicolon : p (chr ';') = false) (line : p newline = false)
    (breaks : Breaks x) : runOf p (b ++ x) = runOf p b := by
  rw [runOf, runOf, take_while_context semicolon line breaks]

theorem number_context (breaks : Breaks x) :
    Rule.numberInteger.matched (b ++ x) = Rule.numberInteger.matched b := by
  have short : (b.takeWhile (· == chr '-')).length ≤ b.length :=
    (List.takeWhile_prefix _).length_le
  simp only [Rule.matched]
  rw [take_while_context (by decide) (by decide) breaks, List.drop_append_of_le_length short,
    run_of_context (by decide) (by decide) breaks]

/-- A text without a newline is all of its first line. -/
theorem first_line_whole {l : CStr} :
    (l.takeWhile (· != newline)).length = l.length ↔ newline ∉ l := by
  constructor
  · intro whole line
    have all := List.takeWhile_eq_self_iff.1 ((List.takeWhile_prefix _).eq_of_length whole)
    simpa using all newline line
  · intro free
    refine congrArg _ (List.takeWhile_eq_self_iff.2 fun d mem => ?_)
    simpa using fun same : d = newline => free (same ▸ mem)

theorem first_line_shorter {l : CStr} (line : newline ∈ l) :
    (l.takeWhile (· != newline)).length < l.length :=
  Nat.lt_of_le_of_ne (List.takeWhile_prefix _).length_le fun whole => first_line_whole.1 whole line

theorem first_line_semicolon (l : CStr) : (chr ';' :: l).takeWhile (· != newline) =
    chr ';' :: l.takeWhile (· != newline) := List.takeWhile_cons_of_pos (by decide)

theorem first_line_append {b : CStr} (free : newline ∉ b) (l : CStr) :
    (b ++ l).takeWhile (· != newline) = b ++ l.takeWhile (· != newline) :=
  List.takeWhile_append_of_pos fun d mem => by
    simpa using fun same : d = newline => free (same ▸ mem)

/-- The text from a comment on, and what is there without it. -/
structure Swap (x y : CStr) : Prop where
  semicolon : ∃ rest, x = chr ';' :: rest
  breaks : Breaks y
  lines : newline ∉ x → newline ∉ y

theorem swap_breaks (swap : Swap x y) : Breaks x := by
  obtain ⟨rest, rfl⟩ := swap.semicolon
  intro c more same
  exact .inl (List.cons_eq_cons.1 same).1.symm

/-- The quotes are closed ahead of the comment or not at all, with it and without it. -/
def QuotesAgree (b x y : CStr) : Prop :=
  ∀ body, b = quote :: body ∨ b = quote :: quote :: quote :: body →
    closingQuote (body ++ y) = closingQuote (body ++ x) ∧
      ∀ m, closingQuote (body ++ x) = some m → m ≤ body.length

theorem docstr_context (swap : Swap x y) (quotes : QuotesAgree b x y) :
    Rule.docstr.matched (b ++ y) = Rule.docstr.matched (b ++ x) := by
  have plain : unbroken [quote, quote, quote] = true := by decide
  have plain' : unbroken [quote, quote] = true := by decide
  simp only [Rule.matched]
  rw [literal_context plain swap.breaks, literal_context plain (swap_breaks swap)]
  by_cases opening : [quote, quote, quote].isPrefixOf b = true
  · obtain ⟨body, rfl⟩ := List.isPrefixOf_iff_prefix.1 opening
    obtain ⟨same, inside⟩ := quotes body (.inr rfl)
    have behind (z : CStr) (n : Nat) : ([quote, quote, quote] ++ body ++ z).drop (3 + n) =
        (body ++ z).drop n := by
      rw [← List.drop_drop]
      rfl
    rw [literal, if_pos opening]
    dsimp only
    rw [show ([quote, quote, quote] ++ body ++ y).drop 3 = body ++ y from rfl,
      show ([quote, quote, quote] ++ body ++ x).drop 3 = body ++ x from rfl, same]
    cases closing : closingQuote (body ++ x) with
    | none => rfl
    | some n =>
        dsimp only
        rw [behind, behind, List.drop_append_of_le_length (inside n closing),
          List.drop_append_of_le_length (inside n closing), literal_context plain' swap.breaks,
          literal_context plain' (swap_breaks swap)]
  · rw [literal, if_neg opening]

theorem comment_context {c : Byte} (swap : Swap x y)
    (short : ∀ m, Rule.comment.matched (c :: b ++ x) = some m → m ≤ (c :: b).length) :
    Rule.comment.matched (c :: b ++ y) = Rule.comment.matched (c :: b ++ x) := by
  simp only [Rule.matched, List.cons_append] at short ⊢
  by_cases semicolon : c = chr ';'
  · rw [if_pos semicolon] at short
    rw [if_pos semicolon, if_pos semicolon]
    by_cases line : newline ∈ b
    · -- the comment ends in the common part
      have less := first_line_shorter line
      have hit (z : CStr) : (b.takeWhile (· != newline)).length < (b ++ z).length := by
        rw [List.length_append]
        omega
      simp only [List.takeWhile_append, if_neg (Nat.ne_of_lt less), if_pos (hit _)]
    · obtain ⟨rest, rfl⟩ := swap.semicolon
      simp only [first_line_append line, first_line_semicolon] at short ⊢
      by_cases more : newline ∈ rest
      · -- then the match would go beyond the common part
        have less := first_line_shorter more
        rw [if_pos (by simp only [List.length_append, List.length_cons]; omega)] at short
        have bound := short _ rfl
        simp only [List.length_append, List.length_cons] at bound
        omega
      · have none_ : newline ∉ y := swap.lines (by simpa using ⟨by decide, more⟩)
        have whole := first_line_whole.2 none_
        have whole' := first_line_whole.2 more
        rw [if_neg (by simp only [List.length_append]; omega),
          if_neg (by simp only [List.length_append, List.length_cons]; omega)]
  · rw [if_neg semicolon, if_neg semicolon]

theorem matched_context {c : Byte} (swap : Swap x y) (rule : Rule)
    (short : ∀ m, rule.matched (c :: b ++ x) = some m → m ≤ (c :: b).length)
    (quotes : QuotesAgree (c :: b) x y) :
    rule.matched (c :: b ++ y) = rule.matched (c :: b ++ x) := by
  have word {w : CStr} (plain : unbroken w = true) :
      literal w (c :: b ++ y) = literal w (c :: b ++ x) := by
    rw [literal_context plain swap.breaks, literal_context plain (swap_breaks swap)]
  have run {b : CStr} : runOf isSymbolChar (b ++ y) = runOf isSymbolChar (b ++ x) := by
    rw [run_of_context (by decide) (by decide) swap.breaks,
      run_of_context (by decide) (by decide) (swap_breaks swap)]
  cases rule with
  | docstr => exact docstr_context swap quotes
  | string =>
      simp only [Rule.matched, List.cons_append]
      by_cases opening : c = quote
      · subst opening
        rw [if_pos rfl, if_pos rfl, (quotes b (.inl rfl)).1]
      · rw [if_neg opening, if_neg opening]
  | whitespace => rfl
  | comment => exact comment_context swap short
  | leftParen => exact word (by decide)
  | rightParen => exact word (by decide)
  | numberInteger => rw [number_context swap.breaks, number_context (swap_breaks swap)]
  | ifOper => exact word (by decide)
  | doOper => exact word (by decide)
  | whileOper => exact word (by decide)
  | quotedSymbol =>
      simp only [Rule.matched, List.cons_append]
      rw [run]
  | symbol => exact run

end Contexts

section Turns

variable {b x y : CStr} {tokens : List Token}

theorem scans_turn {c : Byte} {input middle rest : CStr} {found : Option Token}
    (turn : cut (c :: input) = (found, middle)) (later : Scans middle tokens rest) :
    Scans (c :: input) (found.toList ++ tokens) rest := by
  cases found with
  | none => exact .skip turn later
  | some t => exact .token turn later

theorem scans_cases {c : Byte} {input rest : CStr} (scans : Scans (c :: input) tokens rest) :
    (tokens = [] ∧ rest = c :: input) ∨ ∃ found middle tokens', cut (c :: input) = (found, middle) ∧
      Scans middle tokens' rest ∧ tokens = found.toList ++ tokens' := by
  cases scans with
  | stop => exact .inl ⟨rfl, rfl⟩
  | skip skipped later => exact .inr ⟨_, _, _, skipped, later, rfl⟩
  | token found later => exact .inr ⟨_, _, _, found, later, rfl⟩

theorem scans_suffix {input rest : CStr} (scans : Scans input tokens rest) : rest <:+ input := by
  have turn (input : CStr) : (cut input).2 <:+ input := by
    rw [cut]
    split
    · exact List.drop_suffix _ _
    · exact List.drop_suffix _ _
  induction scans with
  | stop => exact List.suffix_rfl
  | @skip c input middle rest tokens skipped _ ih =>
      have first := turn (c :: input)
      rw [skipped] at first
      exact ih.trans first
  | @token c input middle rest t tokens found _ ih =>
      have first := turn (c :: input)
      rw [found] at first
      exact ih.trans first

theorem comment_short {c : Byte} (swap : Swap x y) {n : Nat}
    (hit : Rule.comment.matched (c :: b ++ x) = some n) (ahead : n - 1 ≤ (c :: b).length) :
    n ≤ (c :: b).length := by
  simp only [Rule.matched, List.cons_append] at hit
  split at hit
  · split at hit
    · cases hit
      by_contra beyond
      simp only [List.length_cons] at ahead beyond
      have size : ((b ++ x).takeWhile (· != newline)).length = b.length := by omega
      obtain ⟨rest, rfl⟩ := swap.semicolon
      by_cases line : newline ∈ b
      · have less := first_line_shorter line
        rw [List.takeWhile_append, if_neg (Nat.ne_of_lt less)] at size
        omega
      · rw [first_line_append line, first_line_semicolon, List.length_append, List.length_cons] at size
        omega
    · cases hit
  · cases hit

/-- A turn that ends ahead of the comment is the same without it. -/
theorem cut_context {c : Byte} {found : Option Token} {middle : CStr} (swap : Swap x y)
    (quotes : QuotesAgree (c :: b) x y) (turn : cut (c :: b ++ x) = (found, middle))
    (ahead : x <:+ middle) :
    ∃ b', middle = b' ++ x ∧ b'.length < (c :: b).length ∧ cut (c :: b ++ y) = (found, b' ++ y) := by
  cases choice : longest Rule.matched rules (c :: b ++ x) with
  | none =>
      have missed : longest Rule.matched rules (c :: b ++ y) = none := by
        rw [← choice]
        refine longest_congr fun rule mem => matched_context swap rule (fun m hit => ?_) quotes
        rw [misses_of_longest choice mem] at hit
        cases hit
      rw [cut, choice] at turn
      cases turn
      exact ⟨b, rfl, Nat.lt_succ_self _, by rw [cut, missed]; rfl⟩
  | some pair =>
      obtain ⟨rule, n⟩ := pair
      obtain ⟨mem, hit⟩ := longest_matched choice
      rw [cut, choice] at turn
      obtain ⟨rfl, rfl⟩ := Prod.mk.inj turn
      have positive := matched_consumes hit
      have inside : rule.consumed n ≤ (c :: b).length := by
        have size := ahead.length_le
        simp only [List.length_drop, List.length_append] at size
        obtain ⟨rest, rfl⟩ := swap.semicolon
        simp only [List.length_cons] at size ⊢
        omega
      have short : n ≤ (c :: b).length := by
        cases rule with
        | comment => exact comment_short swap hit inside
        | _ => exact inside
      have same : longest Rule.matched rules (c :: b ++ y) = some (rule, n) := by
        rw [← choice]
        refine longest_congr fun other mem' => matched_context swap other (fun m hit' => ?_) quotes
        exact Nat.le_trans (longest_bound choice mem' hit') short
      refine ⟨(c :: b).drop (rule.consumed n), List.drop_append_of_le_length inside, ?_, ?_⟩
      · rw [List.length_drop]
        omega
      · rw [cut, same]
        dsimp only
        rw [List.take_append_of_le_length inside, List.take_append_of_le_length inside,
          List.drop_append_of_le_length inside]

/-- A quote that is scanned ahead of the comment and has no closing one, has none
without the comment. -/
def StrayQuotes (b x y : CStr) : Prop :=
  ∀ body tokens, Scans (b ++ x) tokens (quote :: (body ++ x)) →
    closingQuote (body ++ x) = none → closingQuote (body ++ y) = none

theorem starts_quote {rule : Rule} (starts : rule.starts quote = true) :
    rule = .docstr ∨ rule = .string := by
  cases rule with
  | docstr => exact .inl rfl
  | string => exact .inr rfl
  | _ => exact absurd starts (by decide)

/-- What a rule matches at a quote that is scanned ahead of the comment ends there. -/
theorem match_inside {l : CStr} (swap : Swap x y) (scans : Scans (quote :: (l ++ x)) tokens x)
    {rule : Rule} (mem : rule ∈ rules) {k : Nat}
    (hit : rule.matched (quote :: (l ++ x)) = some k) : k ≤ l.length + 1 := by
  rcases scans_cases scans with ⟨_, same⟩ | ⟨found, middle, tokens', turn, later, _⟩
  · have size := congrArg List.length same
    simp only [List.length_cons, List.length_append] at size
    omega
  · have size := (scans_suffix later).length_le
    rw [cut] at turn
    cases choice : longest Rule.matched rules (quote :: (l ++ x)) with
    | none =>
        rw [misses_of_longest choice mem] at hit
        cases hit
    | some pair =>
        obtain ⟨wins, n⟩ := pair
        have more := longest_bound choice mem hit
        have consumed : wins.consumed n = n := by
          rcases starts_quote (matched_starts (longest_matched choice).2) with rfl | rfl
          · rfl
          · rfl
        rw [choice] at turn
        obtain ⟨_, rfl⟩ := Prod.mk.inj turn
        obtain ⟨rest, rfl⟩ := swap.semicolon
        simp only [consumed, List.length_drop, List.length_cons, List.length_append] at size
        omega

theorem closing_inside {body : CStr} (swap : Swap x y)
    (scans : Scans (quote :: (body ++ x)) tokens x) {m : Nat}
    (closing : closingQuote (body ++ x) = some m) : m ≤ body.length := by
  have hit : Rule.string.matched (quote :: (body ++ x)) = some (m + 1) := by
    simp only [Rule.matched, if_true, closing, Option.map_some]
  exact Nat.le_of_succ_le_succ (match_inside swap scans (by decide) hit)

theorem closing_agree {body : CStr} (inside : ∀ m, closingQuote (body ++ x) = some m → m ≤ body.length)
    (stray : closingQuote (body ++ x) = none → closingQuote (body ++ y) = none) :
    closingQuote (body ++ y) = closingQuote (body ++ x) := by
  cases closing : closingQuote (body ++ x) with
  | none => exact stray closing
  | some m => exact closing_quote_local closing (inside m closing)

/-- Two quotes that do not begin a docstring are a string. -/
theorem cut_empty_string {body : CStr}
    (noDocstr : Rule.docstr.matched (quote :: quote :: body) = none) :
    ∃ t, cut (quote :: quote :: body) = (some t, body) := by
  have hit : Rule.string.matched (quote :: quote :: body) = some 2 := by
    simp only [Rule.matched, if_true, closing_quote_quote, Option.map_some]
  have wins : longest Rule.matched rules (quote :: quote :: body) = some (.string, 2) := by
    refine longest_eq [Rule.docstr] _ Rule.string _ rfl hit (fun other mem m found => ?_)
      fun other mem m found => ?_
    · rw [List.mem_singleton.1 mem, noDocstr] at found
      cases found
    · rw [matched_none (quote_starts other mem)] at found
      cases found
  exact ⟨_, cut_of_longest wins⟩

/-- What a docstring needs of the text behind its opening quotes. -/
theorem docstr_inside {body : CStr} {k : Nat}
    (hit : Rule.docstr.matched (quote :: quote :: quote :: body) = some k) :
    ∃ m, closingQuote body = some m ∧ k = m + 5 := by
  have opening : literal [quote, quote, quote] (quote :: quote :: quote :: body) = some 3 := by
    simp [literal, List.isPrefixOf]
  simp only [Rule.matched, opening, List.drop_succ_cons, List.drop_zero] at hit
  cases closing : closingQuote body with
  | none =>
      rw [closing] at hit
      cases hit
  | some m =>
      rw [closing] at hit
      obtain ⟨l, found, rfl⟩ := Option.map_eq_some_iff.1 hit
      rw [literal_pos found]
      exact ⟨m, rfl, by simp only [List.length_cons, List.length_nil]; omega⟩

/-- The quotes that a turn of the scanner reads agree. -/
theorem quotes_agree {c : Byte} (swap : Swap x y) (scans : Scans (c :: b ++ x) tokens x)
    (strays : StrayQuotes (c :: b) x y) : QuotesAgree (c :: b) x y := by
  rintro body (same | same)
  · rw [same] at scans strays
    have inside := fun m => closing_inside (m := m) swap scans
    exact ⟨closing_agree inside (strays body [] (.stop _)), inside⟩
  · rw [same] at scans strays
    have scans' : Scans (quote :: ((quote :: quote :: body) ++ x)) tokens x := scans
    cases docstr : Rule.docstr.matched (quote :: quote :: quote :: (body ++ x)) with
    | some k =>
        obtain ⟨m, closing, rfl⟩ := docstr_inside docstr
        have bound := match_inside swap scans' (by decide) docstr
        simp only [List.length_cons] at bound
        have inside : ∀ n, closingQuote (body ++ x) = some n → n ≤ body.length := by
          intro n closing'
          rw [closing] at closing'
          cases closing'
          omega
        exact ⟨closing_agree inside (fun none_ => nomatch closing.symm.trans none_), inside⟩
    | none =>
        obtain ⟨t, turn⟩ := cut_empty_string docstr
        rcases scans_cases scans' with ⟨_, all⟩ | ⟨found, middle, tokens', turn', later, _⟩
        · have size := congrArg List.length all
          simp only [List.length_cons, List.length_append] at size
          omega
        · obtain ⟨_, rfl⟩ := Prod.mk.inj (turn.symm.trans turn')
          have inside := fun m => closing_inside (m := m) swap later
          have stray := strays body [t] (.token turn (.stop _))
          exact ⟨closing_agree inside stray, inside⟩

theorem scans_self {input : CStr} (scans : Scans input tokens input) : tokens = [] := by
  cases input with
  | nil =>
      cases scans
      rfl
  | cons c input =>
      rcases scans_cases scans with ⟨none_, _⟩ | ⟨found, middle, tokens', turn, later, _⟩
      · exact none_
      · have size := (scans_suffix later).length_le
        have shorter := cut_shorter c input
        rw [turn] at shorter
        exact absurd (Nat.le_trans size shorter) (by simp)

/-- The scanner gives the same tokens ahead of the comment when it is gone. -/
theorem scans_context (swap : Swap x y) (scans : Scans (b ++ x) tokens x)
    (strays : StrayQuotes b x y) : Scans (b ++ y) tokens y := by
  generalize size : b.length = n
  induction n using Nat.strongRecOn generalizing b tokens with
  | ind n ih =>
      cases b with
      | nil =>
          rw [scans_self scans]
          exact .stop y
      | cons c b =>
          have scans' : Scans (c :: (b ++ x)) tokens x := scans
          rcases scans_cases scans' with ⟨_, all⟩ | ⟨found, middle, tokens', turn, later, rfl⟩
          · have whole := congrArg List.length all
            simp only [List.length_append, List.length_cons] at whole
            omega
          · have quotes := quotes_agree swap scans strays
            obtain ⟨b', rfl, shorter, turn'⟩ :=
              cut_context swap quotes turn (scans_suffix later)
            refine scans_turn turn' (ih b'.length (size ▸ shorter) later ?_ rfl)
            exact fun body more scanned => strays body _ (scans_turn turn scanned)

/-- Without quotes none is stray. -/
theorem stray_none (free : quote ∉ b ++ x) : StrayQuotes b x y := by
  intro body tokens scans _
  have inside := (scans_suffix scans).subset List.mem_cons_self
  exact absurd inside free

end Turns

section Semicolons

variable {pre comment post tail : CStr} {tokens : List Token}

/-- The byte behind `pre` belongs to a turn of the scanner that begins with `lexeme`,
and the turn gives no string and no docstring. -/
def Outside (pre rest : CStr) (tokens : List Token) : Prop :=
  ∃ before lexeme, pre = before ++ lexeme ∧ Scans (pre ++ rest) tokens (lexeme ++ rest) ∧
    (cut (lexeme ++ rest)).2.length < rest.length ∧
    ∀ rule n, longest Rule.matched rules (lexeme ++ rest) = some (rule, n) →
      rule ≠ .string ∧ rule ≠ .docstr

theorem take_run {p : Byte → Bool} {input : CStr} {n : Nat} (found : runOf p input = some n) :
    input.take n = input.takeWhile p := by
  have size : n = (input.takeWhile p).length := by
    rw [runOf] at found
    split at found
    · cases found
    · rename_i m same
      cases found
      exact same.symm
  rw [size]
  exact (List.prefix_iff_eq_take.1 (List.takeWhile_prefix p)).symm

theorem run_free {p : Byte → Bool} (other : p (chr ';') = false) (input : CStr) :
    chr ';' ∉ input.takeWhile p := by
  intro mem
  rw [List.mem_takeWhile_imp mem] at other
  cases other

theorem literal_free {word input : CStr} {n : Nat} (plain : chr ';' ∉ word)
    (found : literal word input = some n) : chr ';' ∉ input.take n := by
  rw [literal] at found
  split at found
  · rename_i begins
    cases found
    obtain ⟨rest, rfl⟩ := List.isPrefixOf_iff_prefix.1 begins
    rw [List.take_left]
    exact plain
  · cases found

/-- No other token has a semicolon. -/
theorem no_semicolon {rule : Rule} {input : CStr} {n : Nat} (noDocstr : rule ≠ .docstr)
    (noString : rule ≠ .string) (noComment : rule ≠ .comment)
    (hit : rule.matched input = some n) : chr ';' ∉ input.take n := by
  cases rule with
  | docstr => exact absurd rfl noDocstr
  | string => exact absurd rfl noString
  | comment => exact absurd rfl noComment
  | whitespace =>
      cases input with
      | nil => cases hit
      | cons c input =>
          simp only [Rule.matched] at hit
          split at hit
          · rename_i white
            cases hit
            rw [List.take_succ_cons, List.take_zero, List.mem_singleton]
            rintro rfl
            exact absurd white (by decide)
          · cases hit
  | leftParen => exact literal_free (by decide) hit
  | rightParen => exact literal_free (by decide) hit
  | ifOper => exact literal_free (by decide) hit
  | doOper => exact literal_free (by decide) hit
  | whileOper => exact literal_free (by decide) hit
  | symbol =>
      rw [take_run hit]
      exact run_free (by decide) input
  | quotedSymbol =>
      cases input with
      | nil => cases hit
      | cons c input =>
          simp only [Rule.matched] at hit
          split at hit
          · rename_i apostrophe
            obtain ⟨m, run, rfl⟩ := Option.map_eq_some_iff.1 hit
            rw [List.take_succ_cons, take_run run, List.mem_cons, not_or]
            exact ⟨by rw [apostrophe]; decide, run_free (by decide) input⟩
          · cases hit
  | numberInteger =>
      obtain ⟨m, digits, rfl⟩ := Option.map_eq_some_iff.1 hit
      have dashes : input.take (input.takeWhile (· == chr '-')).length =
          input.takeWhile (· == chr '-') :=
        (List.prefix_iff_eq_take.1 (List.takeWhile_prefix _)).symm
      rw [Nat.add_comm, List.take_add, dashes, take_run digits, List.mem_append, not_or]
      exact ⟨run_free (by decide) input, run_free (by decide) _⟩

/-- A semicolon outside of strings begins a turn, or is in a comment that a newline
ends. -/
theorem outside_cases (outside : Outside pre (chr ';' :: tail) tokens) :
    Scans (pre ++ chr ';' :: tail) tokens (chr ';' :: tail) ∨
      ∃ before body, pre = before ++ chr ';' :: body ∧ newline ∉ body ∧ newline ∈ tail ∧
        Scans (pre ++ chr ';' :: tail) tokens (chr ';' :: body ++ chr ';' :: tail) := by
  obtain ⟨before, lexeme, rfl, scans, reaches, plain⟩ := outside
  cases lexeme with
  | nil => exact .inl scans
  | cons c body =>
      right
      rw [cut] at reaches
      cases choice : longest Rule.matched rules (c :: body ++ chr ';' :: tail) with
      | none =>
          rw [choice] at reaches
          simp only [List.cons_append, List.drop_succ_cons, List.drop_zero, List.length_append] at reaches
          omega
      | some pair =>
          obtain ⟨rule, n⟩ := pair
          obtain ⟨noString, noDocstr⟩ := plain rule n choice
          have hit := (longest_matched choice).2
          rw [choice] at reaches
          simp only [List.length_drop, List.length_append, List.length_cons] at reaches
          by_cases comment : rule = .comment
          · subst comment
            obtain rfl : c = chr ';' := by simpa [Rule.starts] using matched_starts hit
            simp only [Rule.matched, List.cons_append, if_true] at hit
            split at hit
            · rename_i ends
              cases hit
              simp only [Rule.consumed] at reaches
              have free : newline ∉ body := by
                intro line
                have less := first_line_shorter line
                rw [List.takeWhile_append, if_neg (Nat.ne_of_lt less)] at reaches
                omega
              have more : newline ∈ tail := by
                by_contra none_
                have whole := first_line_whole.2 none_
                rw [first_line_append free, first_line_semicolon] at ends
                simp only [List.length_append, List.length_cons] at ends
                omega
              exact ⟨before, body, rfl, free, more, scans⟩
            · cases hit
          · have consumed : rule.consumed n = n := by
              cases rule with
              | comment => exact absurd rfl comment
              | _ => rfl
            have inside : chr ';' ∈ (c :: body ++ chr ';' :: tail).take n := by
              obtain ⟨k, rfl⟩ : ∃ k, n = (c :: body).length + (k + 1) :=
                ⟨n - (c :: body).length - 1, by simp only [List.length_cons]; omega⟩
              rw [List.take_length_add_append]
              exact List.mem_append_right _ List.mem_cons_self
            exact absurd inside (no_semicolon noDocstr noString comment hit)

theorem semicolon_starts : ∀ other ∈ rules, other ≠ .comment → other.starts (chr ';') = false := by
  decide

/-- With a newline behind it a comment gives no token. -/
theorem cut_comment (noLine : newline ∉ comment) (more : CStr) :
    cut (chr ';' :: (comment ++ newline :: more)) = (none, newline :: more) := by
  have line : (comment ++ newline :: more).takeWhile (· != newline) = comment := by
    rw [first_line_append noLine, List.takeWhile_cons_of_neg (by simp), List.append_nil]
  have hit : Rule.comment.matched (chr ';' :: (comment ++ newline :: more)) =
      some (comment.length + 2) := by
    simp only [Rule.matched, if_true, line]
    rw [if_pos (by simp)]
  have consumed : Rule.comment.consumed (comment.length + 2) = comment.length + 1 := rfl
  rw [cut_of_longest (longest_only hit semicolon_starts), consumed, List.drop_succ_cons,
    List.drop_left]
  rfl

/-- On the last line only the semicolon is passed over. -/
theorem cut_semicolon (noLine : newline ∉ comment) :
    cut (chr ';' :: comment) = (none, comment) := by
  have missed : longest Rule.matched rules (chr ';' :: comment) = none := by
    refine longest_none fun rule mem => ?_
    by_cases comment_ : rule = .comment
    · subst comment_
      have whole := first_line_whole.2 noLine
      simp only [Rule.matched, if_true]
      rw [if_neg (by omega)]
    · exact matched_none (semicolon_starts rule mem comment_) comment
  rw [cut, missed]
  rfl

end Semicolons

section Transparency

variable {W : World} {s : State} {pre comment post : CStr} {tokens : List Token}

/-- The tokens of the text with the comment and of the text without it. -/
theorem comment_tokens (noLine : newline ∉ comment)
    (line : post = [] ∨ ∃ more, post = newline :: more)
    (outside : Outside pre (chr ';' :: (comment ++ post)) tokens)
    (strays : StrayQuotes pre (chr ';' :: (comment ++ post)) post) :
    (post ≠ [] → tokensOf (pre ++ chr ';' :: (comment ++ post)) = tokensOf (pre ++ post)) ∧
      (post = [] → tokensOf (pre ++ chr ';' :: (comment ++ post)) = tokens ++ tokensOf comment ∧
        tokensOf (pre ++ post) = tokens) := by
  have breaks : Breaks post := by
    rintro c rest rfl
    rcases line with none_ | ⟨more, same⟩
    · cases none_
    · exact .inr (List.cons_eq_cons.1 same).1
  have lines : newline ∉ chr ';' :: (comment ++ post) → newline ∉ post := by
    intro free inside
    exact free (List.mem_cons_of_mem _ (List.mem_append_right _ inside))
  rcases outside_cases outside with scans | ⟨before, body, rfl, free, ends, scans⟩
  · have swap : Swap (chr ';' :: (comment ++ post)) post := ⟨⟨_, rfl⟩, breaks, lines⟩
    have scans' := scans_context swap scans strays
    constructor
    · intro some_
      obtain ⟨more, rfl⟩ := line.resolve_left some_
      have skipped : Lexes (chr ';' :: (comment ++ newline :: more)) (tokensOf (newline :: more)) :=
        .skip (cut_comment noLine more) (lexes_tokens_of _)
      rw [tokens_of_eq (lexes_of_scans scans skipped),
        tokens_of_eq (lexes_of_scans scans' (lexes_tokens_of _))]
    · rintro rfl
      rw [List.append_nil] at scans ⊢
      have skipped : Lexes (chr ';' :: comment) (tokensOf comment) :=
        .skip (cut_semicolon noLine) (lexes_tokens_of _)
      refine ⟨tokens_of_eq (lexes_of_scans scans skipped), ?_⟩
      rw [tokens_of_eq (lexes_of_scans scans' .stop), List.append_nil]
  · -- the comment gets shorter
    have some_ : post ≠ [] := by
      rintro rfl
      rw [List.append_nil] at ends
      exact noLine ends
    refine ⟨fun _ => ?_, fun none_ => absurd none_ some_⟩
    obtain ⟨more, rfl⟩ := line.resolve_left some_
    have longer : newline ∉ body ++ chr ';' :: comment := by
      simp only [List.mem_append, List.mem_cons, not_or]
      exact ⟨free, by decide, noLine⟩
    have whole : chr ';' :: body ++ chr ';' :: (comment ++ newline :: more) =
        chr ';' :: ((body ++ chr ';' :: comment) ++ newline :: more) := by simp
    have swap : Swap (chr ';' :: body ++ chr ';' :: (comment ++ newline :: more))
        (chr ';' :: body ++ newline :: more) := by
      refine ⟨⟨_, rfl⟩, ?_, fun none_ => absurd (by simp) none_⟩
      rintro c rest same
      exact .inl (List.cons_eq_cons.1 same).1.symm
    have shifted : StrayQuotes before (chr ';' :: body ++ chr ';' :: (comment ++ newline :: more))
        (chr ';' :: body ++ newline :: more) := by
      intro quoted more' scanned unclosed
      have agree := strays (quoted ++ chr ';' :: body) more'
      simp only [List.append_assoc] at agree scanned unclosed ⊢
      exact agree scanned unclosed
    rw [List.append_assoc] at scans
    have scans' := scans_context swap scans shifted
    have skipped : Lexes (chr ';' :: body ++ chr ';' :: (comment ++ newline :: more))
        (tokensOf (newline :: more)) := by
      rw [whole]
      exact .skip (cut_comment longer more) (lexes_tokens_of _)
    have skipped' : Lexes (chr ';' :: body ++ newline :: more) (tokensOf (newline :: more)) :=
      .skip (cut_comment free more) (lexes_tokens_of _)
    rw [List.append_assoc, List.append_assoc, tokens_of_eq (lexes_of_scans scans skipped),
      tokens_of_eq (lexes_of_scans scans' skipped')]

/-- `bl_parse_file` gives the list of these forms. -/
def Parses (W : World) (s : State) (contents : CStr) (items : List Datum) : Prop :=
  ∃ p t, (runtime W).Runs (blParseFile contents) s p t ∧ Denotes t s.fresh (.list items) p

/-- A text with a comment gives the forms of the text without it exactly if there is a
newline behind the comment, or nothing in the comment is read as a form. -/
theorem comment_transparent_iff (sound : Sound s) (noLine : newline ∉ comment)
    (line : post = [] ∨ ∃ more, post = newline :: more)
    (outside : Outside pre (chr ';' :: (comment ++ post)) tokens)
    (strays : StrayQuotes pre (chr ';' :: (comment ++ post)) post) :
    ∃ items items', Parses W s (pre ++ chr ';' :: (comment ++ post)) items' ∧
      Parses W s (pre ++ post) items ∧
      (items' = items ↔ post ≠ [] ∨ AddsNone tokens (tokensOf comment)) := by
  obtain ⟨items, rest, after, forms, _⟩ :=
    forms_exist W.slash _ (knownNames s) (tokensOf (pre ++ post)) le_rfl
  obtain ⟨items', rest', after', forms', _⟩ := forms_exist W.slash _ (knownNames s)
    (tokensOf (pre ++ chr ';' :: (comment ++ post))) le_rfl
  obtain ⟨p, t, run, _, held⟩ := parse_file_runs sound forms
  obtain ⟨p', t', run', _, held'⟩ := parse_file_runs sound forms'
  obtain ⟨same, apart⟩ := comment_tokens noLine line outside strays
  refine ⟨items, items', ⟨p', t', run', held'⟩, ⟨p, t, run, held⟩, ?_⟩
  by_cases last : post = []
  · obtain ⟨whole, ahead⟩ := apart last
    rw [ahead] at forms
    rw [whole] at forms'
    rw [same_forms_iff forms forms']
    exact ⟨.inr, fun right => right.resolve_left fun some_ => some_ last⟩
  · rw [same last] at forms'
    exact iff_of_true (forms_functional forms' forms).1 (.inl last)

/-- The comment in `a ;b` and a second line. -/
theorem comment_transparent_iff_line : ∃ items items',
    Parses World.bare State.initial (text "a " ++ chr ';' :: (text "b" ++ text "\nc")) items' ∧
      Parses World.bare State.initial (text "a " ++ text "\nc") items ∧
      (items' = items ↔
        text "\nc" ≠ [] ∨ AddsNone [⟨.symbol, text "a"⟩] (tokensOf (text "b"))) := by
  have choice : longest Rule.matched rules (text ";b\nc") = some (.comment, 3) := rfl
  have outside : Outside (text "a ") (chr ';' :: (text "b" ++ text "\nc"))
      [⟨.symbol, text "a"⟩] := by
    refine ⟨text "a ", [], rfl, .token rfl (.skip rfl (.stop _)), by decide, fun rule n found => ?_⟩
    cases choice.symm.trans found
    exact ⟨by decide, by decide⟩
  exact comment_transparent_iff sound_initial (by decide) (.inr ⟨_, rfl⟩) outside
    (stray_none (by decide))

/-- On the last line, `a ;b` is read like `a b`. -/
theorem last_comment_read : ∃ items items',
    Outside (text "a ") (chr ';' :: (text "b" ++ [])) [⟨.symbol, text "a"⟩] ∧
      Parses World.bare State.initial (text "a " ++ chr ';' :: (text "b" ++ [])) items' ∧
      Parses World.bare State.initial (text "a " ++ []) items ∧ items' ≠ items := by
  have outside : Outside (text "a ") (chr ';' :: (text "b" ++ [])) [⟨.symbol, text "a"⟩] := by
    refine ⟨text "a ", [], rfl, .token rfl (.skip rfl (.stop _)), by decide, fun rule n found => ?_⟩
    have missed : longest Rule.matched rules (text ";b") = none := rfl
    cases missed.symm.trans found
  have both : tokensOf (text "a " ++ chr ';' :: (text "b" ++ [])) =
      [⟨.symbol, text "a"⟩, ⟨.symbol, text "b"⟩] := by decide
  have one : tokensOf (text "a " ++ []) = [⟨.symbol, text "a"⟩] := by decide
  have forms' : ∃ items after, items.length = 2 ∧ Forms World.bare.slash (knownNames State.initial)
      (tokensOf (text "a " ++ chr ';' :: (text "b" ++ []))) items [] after := by
    rw [both]
    exact ⟨_, _, rfl, .atom rfl (.atom rfl (.stop _))⟩
  have forms : ∃ items after, items.length = 1 ∧ Forms World.bare.slash (knownNames State.initial)
      (tokensOf (text "a " ++ [])) items [] after := by
    rw [one]
    exact ⟨_, _, rfl, .atom rfl (.stop _)⟩
  obtain ⟨items', after', two, forms'⟩ := forms'
  obtain ⟨items, after, single, forms⟩ := forms
  obtain ⟨p', t', run', _, held'⟩ := parse_file_runs (W := World.bare) sound_initial forms'
  obtain ⟨p, t, run, _, held⟩ := parse_file_runs (W := World.bare) sound_initial forms
  refine ⟨items, items', outside, ⟨p', t', run', held'⟩, ⟨p, t, run, held⟩, ?_⟩
  rintro rfl
  omega

end Transparency

end BearLang.Comments
