import BearLang.Lexemes
import BearLang.ParseFile

/-!
# Written trees are read back

Trees with literals for leaves, and the texts that render them: the lexemes in
order with white space and comments between them. The reader gives the tree
back, as long as no symbol is dashes and digits, which is a number to the lexer.
-/

namespace BearLang

open CallPrograms SymbolInterning

set_option autoImplicit false

section Literals

/-- Digits with at most one minus sign in front. -/
structure IntegerText where
  negative : Bool
  digits : CStr
  nonempty : digits ≠ []
  digit : ∀ c ∈ digits, isDigit c = true

def IntegerText.text (t : IntegerText) : CStr :=
  (if t.negative then [chr '-'] else []) ++ t.digits

def IntegerText.value (t : IntegerText) : Int :=
  if t.negative then -(decimalValue t.digits : Int) else (decimalValue t.digits : Int)

/-- A name of fewer than 32 characters that is no integer and no keyword, or any
such name behind a quote. -/
structure SymbolText where
  quoted : Bool
  chars : CStr
  nonempty : chars ≠ []
  symbolChar : ∀ c ∈ chars, isSymbolChar c = true
  plain : quoted = false → (∀ t : IntegerText, chars ≠ t.text) ∧ ∀ k : Keyword, chars ≠ k.word
  short : (if quoted then 1 else 0) + chars.length < 32

def SymbolText.text (t : SymbolText) : CStr :=
  (if t.quoted then [chr '\''] else []) ++ t.chars

/-- The body of a string or docstring without quotes and backslashes. -/
structure StringText where
  body : CStr
  noQuote : quote ∉ body
  noBackslash : backslash ∉ body
  noZero : ∀ c ∈ body, c ≠ 0

inductive Leaf where
  | integer (t : IntegerText)
  | symbol (t : SymbolText)
  | keyword (k : Keyword)
  | string (t : StringText)
  | docstring (t : StringText)

def Leaf.text : Leaf → CStr
  | .integer t => t.text
  | .symbol t => t.text
  | .keyword k => k.word
  | .string t => quote :: (t.body ++ [quote])
  | .docstring t => [quote, quote, quote] ++ (t.body ++ [quote, quote, quote])

def Keyword.atom : Keyword → Atom
  | .ifOper => .ifOper
  | .doOper => .doOper
  | .whileOper => .whileOper

def Leaf.atom : Leaf → Atom
  | .integer t => .integer t.value
  | .symbol t => .symbol t.text
  | .keyword k => k.atom
  | .string t => .string t.body
  | .docstring t => .docstring t.body

def Leaf.token : Leaf → Token
  | .integer t => ⟨.integer, t.text⟩
  | .symbol t => ⟨.symbol, t.text⟩
  | .keyword k => ⟨k.token, k.word⟩
  | .string t => ⟨.string, t.body⟩
  | .docstring t => ⟨.docstring, t.body⟩

/-- No unquoted symbol of dashes and digits. -/
def Leaf.Clear : Leaf → Prop
  | .symbol t => t.quoted = false → numberLike t.chars = false
  | _ => True

inductive Lexeme where
  | opening | closing
  | leaf (l : Leaf)

def Lexeme.text : Lexeme → CStr
  | .opening => BearLang.text "("
  | .closing => BearLang.text ")"
  | .leaf l => l.text

def Lexeme.token : Lexeme → Token
  | .opening => ⟨.lparen, BearLang.text "("⟩
  | .closing => ⟨.rparen, BearLang.text ")"⟩
  | .leaf l => l.token

def Lexeme.Clear : Lexeme → Prop
  | .leaf l => l.Clear
  | _ => True

inductive Tree where
  | leaf (l : Leaf)
  | list (items : List Tree)

mutual

def Tree.lexemes : Tree → List Lexeme
  | .leaf l => [.leaf l]
  | .list items => .opening :: (Tree.allLexemes items ++ [.closing])

def Tree.allLexemes : List Tree → List Lexeme
  | [] => []
  | t :: ts => t.lexemes ++ Tree.allLexemes ts

end

mutual

def Tree.datum : Tree → Datum
  | .leaf l => .atom l.atom
  | .list items => .list (Tree.allData items)

def Tree.allData : List Tree → List Datum
  | [] => []
  | t :: ts => t.datum :: Tree.allData ts

end

end Literals

section Texts

/-- White space and comments that end with their line. -/
inductive Gap : CStr → Prop where
  | nothing : Gap []
  | white {c : Byte} {rest : CStr} (white : isWhitespace c = true) (later : Gap rest) :
      Gap (c :: rest)
  | comment {body rest : CStr} (oneLine : newline ∉ body) (later : Gap rest) :
      Gap (chr ';' :: (body ++ newline :: rest))

/-- The lexemes one after the other, with a gap between any two of them. -/
inductive Spaced : List Lexeme → CStr → Prop where
  | last (w : Lexeme) {gap : CStr} (trailing : Gap gap) : Spaced [w] (w.text ++ gap)
  | next (w : Lexeme) {gap rest : CStr} {ws : List Lexeme} (between : Gap gap)
      (nonempty : gap ≠ []) (later : Spaced ws rest) : Spaced (w :: ws) (w.text ++ (gap ++ rest))

def Rendering (ws : List Lexeme) (rendered : CStr) : Prop :=
  (ws = [] ∧ Gap rendered) ∨
    ∃ gap rest, Gap gap ∧ Spaced ws rest ∧ rendered = gap ++ rest

theorem lexes_of_cut {input rest : CStr} {t : Token} {tokens : List Token}
    (found : cut input = (some t, rest)) (later : Lexes rest tokens) :
    Lexes input (t :: tokens) := by
  cases input with
  | nil =>
      have silent : cut [] = (none, []) := by decide
      rw [silent] at found
      cases found
  | cons c input => exact .token found later

theorem lexes_gap {gap rest : CStr} {tokens : List Token} (gapped : Gap gap)
    (later : Lexes rest tokens) : Lexes (gap ++ rest) tokens := by
  induction gapped with
  | nothing => exact later
  | white white _ ih => exact .skip (cut_whitespace white _) ih
  | @comment body more oneLine _ ih =>
      have line : Lexes (newline :: (more ++ rest)) tokens :=
        .skip (cut_whitespace (by decide) _) ih
      rw [List.cons_append, List.append_assoc]
      exact .skip (cut_comment oneLine _) line

theorem apart_gap {gap rest : CStr} (gapped : Gap gap) (nonempty : gap ≠ []) :
    Apart (gap ++ rest) := by
  intro c more same
  cases gapped with
  | nothing => exact absurd rfl nonempty
  | white white _ =>
      cases same
      rcases whitespace_cases white with rfl | rfl | rfl | rfl <;> decide
  | comment _ _ =>
      cases same
      decide

theorem apart_trailing {gap : CStr} (gapped : Gap gap) : Apart gap := by
  by_cases empty : gap = []
  · rw [empty]
    exact apart_nil
  · have apart := @apart_gap gap [] gapped empty
    rw [List.append_nil] at apart
    exact apart

theorem number_like_integer (t : IntegerText) : numberLike t.text = true := by
  have parts : NumberParts t.text (if t.negative then [chr '-'] else []) t.digits := by
    refine ⟨rfl, fun c mem => ?_, t.nonempty, t.digit⟩
    cases negative : t.negative with
    | false => simp [negative] at mem
    | true =>
        simp only [negative, if_true, List.mem_singleton] at mem
        rw [mem]
        decide
  exact number_like_of_parts parts

theorem cut_lexeme {w : Lexeme} (clear : w.Clear) {tail : CStr} (apart : Apart tail) :
    cut (w.text ++ tail) = (some w.token, tail) := by
  cases w with
  | opening => exact cut_open tail
  | closing => exact cut_close tail
  | leaf l =>
      cases l with
      | integer t => exact cut_number (number_like_integer t) (run_ends_of_apart apart)
      | keyword k => exact cut_keyword k (run_ends_of_apart apart)
      | symbol t =>
          simp only [Lexeme.text, Lexeme.token, Leaf.text, Leaf.token, SymbolText.text]
          cases quoted : t.quoted with
          | true => exact cut_quoted_symbol t.nonempty t.symbolChar (run_ends_of_apart apart)
          | false =>
              exact cut_symbol t.nonempty t.symbolChar (clear quoted) (t.plain quoted).2
                (run_ends_of_apart apart)
      | string t =>
          simp only [Lexeme.text, Lexeme.token, Leaf.text, Leaf.token, List.cons_append,
            List.append_assoc, List.nil_append]
          exact cut_string t.noQuote t.noBackslash t.noZero apart
      | docstring t =>
          simp only [Lexeme.text, Lexeme.token, Leaf.text, Leaf.token, List.append_assoc]
          exact cut_docstring tail t.noQuote t.noBackslash t.noZero

theorem lexes_spaced {ws : List Lexeme} {rendered : CStr} (spaced : Spaced ws rendered)
    (clear : ∀ w ∈ ws, w.Clear) : Lexes rendered (ws.map Lexeme.token) := by
  induction spaced with
  | last w trailing =>
      have rest := lexes_gap trailing .stop
      rw [List.append_nil] at rest
      exact lexes_of_cut (cut_lexeme (clear w List.mem_cons_self) (apart_trailing trailing)) rest
  | next w between nonempty _ ih =>
      have rest := lexes_gap between (ih fun v mem => clear v (List.mem_cons_of_mem _ mem))
      exact lexes_of_cut
        (cut_lexeme (clear w List.mem_cons_self) (apart_gap between nonempty)) rest

theorem lexes_rendering {ws : List Lexeme} {rendered : CStr} (rendering : Rendering ws rendered)
    (clear : ∀ w ∈ ws, w.Clear) : Lexes rendered (ws.map Lexeme.token) := by
  rcases rendering with ⟨rfl, gapped⟩ | ⟨gap, rest, gapped, spaced, rfl⟩
  · have all := lexes_gap gapped .stop
    rw [List.append_nil] at all
    exact all
  · exact lexes_gap gapped (lexes_spaced spaced clear)

end Texts

section Values

def ShortNames (known : List CStr) : Prop := ∀ name ∈ known, name.length < 32

theorem unescape_plain {s : CStr} (plain : backslash ∉ s) : unescape false s = s := by
  induction s with
  | nil => rfl
  | cons c rest ih =>
      simp only [List.mem_cons, not_or] at plain
      rw [unescape, if_neg fun h => plain.1 h.symm, if_neg (by simp), if_neg (by simp),
        ih plain.2]

theorem mpz_set_str_value (t : IntegerText) : mpzSetStr t.text = t.value := by
  have all : t.digits.all isDigit = true := List.all_eq_true.2 t.digit
  unfold IntegerText.text IntegerText.value
  cases negative : t.negative with
  | true =>
      have filled : t.digits ≠ [] ∧ t.digits.all isDigit = true := ⟨t.nonempty, all⟩
      simp only [if_true, List.singleton_append, mpzSetStr, if_pos filled]
  | false =>
      obtain ⟨c, rest, same⟩ := List.exists_cons_of_ne_nil t.nonempty
      have digit : isDigit c = true := t.digit c (by rw [same]; exact List.mem_cons_self)
      have noDash : c ≠ chr '-' := by
        rintro rfl
        revert digit
        decide
      rw [same] at all ⊢
      simp only [Bool.false_eq_true, if_false, List.nil_append, mpzSetStr, if_neg noDash,
        if_pos all]

/-- While only short names are known, a short name is interned as itself. -/
theorem intern_short {known : List CStr} (short : ShortNames known) (name : CStr) :
    (internName known name).1 = name := by
  unfold internName
  cases found : known.find? fun other => other.take symKeySize == name with
  | none => rfl
  | some other =>
      have mem := List.mem_of_find?_eq_some found
      have whole : other.take symKeySize = other :=
        List.take_of_length_le (Nat.le_of_lt_succ (short other mem))
      have hit := List.find?_some found
      rw [whole] at hit
      exact beq_iff_eq.1 hit

theorem intern_keeps_short {known : List CStr} (short : ShortNames known) {name : CStr}
    (fits : name.length < 32) : ShortNames (internName known name).2 := by
  unfold internName
  cases known.find? fun other => other.take symKeySize == name with
  | some other => exact short
  | none =>
      intro other mem
      rcases List.mem_cons.1 mem with rfl | mem
      · exact fits
      · exact short other mem

theorem symbol_text_length (t : SymbolText) : t.text.length < 32 := by
  have short := t.short
  unfold SymbolText.text
  cases quoted : t.quoted <;> simp [quoted] at short ⊢ <;> omega

theorem leaf_token_atom {known : List CStr} (short : ShortNames known) (l : Leaf) :
    ∃ after, l.token.atom false known = some (l.atom, after) ∧ ShortNames after := by
  cases l with
  | integer t => exact ⟨known, by simp [Leaf.token, Token.atom, Leaf.atom, mpz_set_str_value], short⟩
  | symbol t =>
      refine ⟨_, ?_, intern_keeps_short short (symbol_text_length t)⟩
      simp [Leaf.token, Token.atom, Leaf.atom, intern_short short]
  | keyword k => cases k <;> exact ⟨known, rfl, short⟩
  | string t =>
      exact ⟨known, by simp [Leaf.token, Token.atom, Leaf.atom, unescape_plain t.noBackslash], short⟩
  | docstring t => exact ⟨known, rfl, short⟩

mutual

/-- The tokens of a tree are its forms, whatever forms come behind. -/
theorem forest_tree : ∀ (t : Tree) {known : List CStr} (_ : ShortNames known),
    ∃ between, ShortNames between ∧ ∀ {tokens : List Token} {items : List Datum}
      {after : List CStr}, Forest false between tokens items after →
        Forest false known (t.lexemes.map Lexeme.token ++ tokens) (t.datum :: items) after
  | .leaf l, known, short => by
      obtain ⟨between, value, kept⟩ := leaf_token_atom short l
      refine ⟨between, kept, fun {tokens items after} later => ?_⟩
      simp only [Tree.lexemes, Tree.datum]
      exact .atom value later
  | .list ts, known, short => by
      obtain ⟨between, kept, within⟩ := forest_trees ts short
      have inner := within (.nothing between)
      rw [List.append_nil, List.append_nil] at inner
      refine ⟨between, kept, fun {tokens items after} later => ?_⟩
      simp only [Tree.lexemes, Tree.datum, List.map_cons, List.map_append, List.map_nil,
        List.cons_append, List.append_assoc, List.nil_append]
      exact .list rfl inner rfl later

theorem forest_trees : ∀ (ts : List Tree) {known : List CStr} (_ : ShortNames known),
    ∃ between, ShortNames between ∧ ∀ {tokens : List Token} {items : List Datum}
      {after : List CStr}, Forest false between tokens items after →
        Forest false known ((Tree.allLexemes ts).map Lexeme.token ++ tokens)
          (Tree.allData ts ++ items) after
  | [], known, short => by
      refine ⟨known, short, fun {tokens items after} later => ?_⟩
      simp only [Tree.allLexemes, Tree.allData]
      exact later
  | t :: ts, known, short => by
      obtain ⟨middle, short', first⟩ := forest_tree t short
      obtain ⟨between, kept, rest⟩ := forest_trees ts short'
      refine ⟨between, kept, fun {tokens items after} later => ?_⟩
      simp only [Tree.allLexemes, Tree.allData, List.map_append, List.append_assoc,
        List.cons_append]
      exact first (rest later)

end

end Values

section Main

variable {W : World} {s : State}

theorem parse_sexp_of_reads {text : CStr} {d : Datum} {rest : List Token} {after : List CStr}
    (sound : Sound s) (reads : ReadsForm W (knownNames s) (tokensOf text) d rest after) :
    ∃ p s', (runtime W).Runs (blParseSexp text) s p s' ∧ knownNames s' = after ∧
      Kept untouched s s' ∧ Denotes s' s.fresh d p := by
  obtain ⟨p, s', sc', run, ends, kept, held⟩ :=
    reads s (scannerOf text) sound rfl (lexes_tokens_of text)
  obtain ⟨a, c, rfl, _, _⟩ := denotes_cell held
  refine ⟨_, s', ?_, ends.known, kept, held⟩
  rw [blParseSexp, runs_after (runs_read_form.2 run)]
  exact runs_pure_self _ _

def Tree.Clear (t : Tree) : Prop := ∀ w ∈ t.lexemes, w.Clear

theorem reads_tree (slash : W.slash = false) (short : ShortNames (knownNames s)) (t : Tree) :
    ∃ after, ReadsForm W (knownNames s) (t.lexemes.map Lexeme.token) t.datum [] after := by
  cases t with
  | leaf l =>
      obtain ⟨after, value, _⟩ := leaf_token_atom short l
      refine ⟨after, ?_⟩
      simp only [Tree.lexemes, Tree.datum]
      exact reads_atom (by rw [slash]; exact value)
  | list ts =>
      obtain ⟨after, _, within⟩ := forest_trees ts short
      have inner := within (.nothing after)
      rw [List.append_nil, List.append_nil, ← slash] at inner
      have forms := forms_of_forest inner (.close after (t := Lexeme.closing.token) [] rfl)
      rw [List.append_nil] at forms
      refine ⟨after, ?_⟩
      simp only [Tree.lexemes, Tree.datum, List.map_cons, List.map_append, List.map_nil]
      exact reads_list_form rfl (reads_forms forms).1

/-- A rendering of a tree is read as the tree, and one of several trees as the
list of them. -/
theorem reader_reconstructs (W : World) (s : State) (slash : W.slash = false)
    (reachable : Reachable W s) (short : ShortNames (knownNames s)) :
    (∀ (t : Tree) (rendered : CStr), t.Clear → Rendering t.lexemes rendered →
      ∃ p s', (runtime W).Runs (blParseSexp rendered) s p s' ∧ Denotes s' s.fresh t.datum p) ∧
    ∀ (ts : List Tree) (rendered : CStr), (∀ t ∈ ts, t.Clear) →
      Rendering (ts.flatMap Tree.lexemes) rendered →
      ∃ p s', (runtime W).Runs (blParseFile rendered) s p s' ∧
        Denotes s' s.fresh (.list (ts.map Tree.datum)) p := by
  have sound := sound_of_reachable reachable
  constructor
  · intro t rendered clear rendering
    have tokens := tokens_of_eq (lexes_rendering rendering clear)
    obtain ⟨after, reads⟩ := reads_tree slash short t
    rw [← tokens] at reads
    obtain ⟨p, s', run, _, _, held⟩ := parse_sexp_of_reads sound reads
    exact ⟨p, s', run, held⟩
  · intro ts rendered clear rendering
    have lexemes : ts.flatMap Tree.lexemes = Tree.allLexemes ts := by
      clear rendering clear
      induction ts with
      | nil => rfl
      | cons t ts ih => rw [List.flatMap_cons, ih, Tree.allLexemes]
    have data : ts.map Tree.datum = Tree.allData ts := by
      clear rendering clear lexemes
      induction ts with
      | nil => rfl
      | cons t ts ih => rw [List.map_cons, ih, Tree.allData]
    have allClear : ∀ w ∈ ts.flatMap Tree.lexemes, w.Clear := by
      intro w mem
      obtain ⟨t, inside, mem⟩ := List.mem_flatMap.1 mem
      exact clear t inside w mem
    have tokens := tokens_of_eq (lexes_rendering rendering allClear)
    obtain ⟨after, _, within⟩ := forest_trees ts short
    have forest := within (.nothing after)
    rw [List.append_nil, List.append_nil, ← lexemes, ← tokens, ← slash] at forest
    have forms := forms_of_forest forest (.stop after)
    rw [List.append_nil, List.append_nil] at forms
    obtain ⟨p, s', run, _, held⟩ := parse_file_runs sound forms
    rw [data]
    exact ⟨p, s', run, held⟩

/-- The name `x`, once as a form and once in a list with a comment. -/
def nameX : SymbolText where
  quoted := false
  chars := text "x"
  nonempty := by decide
  symbolChar := all_symbol_chars (by decide)
  plain := fun _ => ⟨fun t same => by
    have digits : ∀ c ∈ t.digits, c ∈ text "x" := fun c mem => by
      rw [same]
      exact List.mem_append_right _ mem
    obtain ⟨c, rest, first⟩ := List.exists_cons_of_ne_nil t.nonempty
    have inside : c ∈ t.digits := by
      rw [first]
      exact List.mem_cons_self
    have digit := t.digit c inside
    rw [List.mem_singleton.1 (digits c inside)] at digit
    revert digit
    decide, fun k => by cases k <;> decide⟩
  short := by decide

theorem reader_reconstructs_comment :
    ∃ p s', (runtime World.bare).Runs (blParseSexp (text "( x ;c\n ) ")) State.initial p s' ∧
      Denotes s' State.initial.fresh (.list [.atom (.symbol (text "x"))]) p := by
  have blank : Gap [chr ' '] := .white rfl .nothing
  have remark : Gap (chr ' ' :: chr ';' :: (text "c" ++ newline :: [chr ' '])) :=
    .white rfl (.comment (by decide) blank)
  have spaced : Spaced (Tree.list [.leaf (.symbol nameX)]).lexemes (text "( x ;c\n ) ") :=
    .next .opening blank (by decide)
      (.next (.leaf (.symbol nameX)) remark (by decide) (.last .closing blank))
  exact (reader_reconstructs World.bare State.initial rfl (reachable_initial _)
    (fun name mem => absurd mem List.not_mem_nil)).1 (.list [.leaf (.symbol nameX)]) _
    (fun w mem => by
      simp only [Tree.lexemes, Tree.allLexemes, List.cons_append, List.nil_append, List.append_nil,
        List.mem_cons, List.not_mem_nil, or_false] at mem
      rcases mem with rfl | rfl | rfl
      · trivial
      · exact fun _ => by decide
      · trivial)
    (.inr ⟨[], _, .nothing, spaced, rfl⟩)

/-- The name `--5` is made of symbol characters and is no integer, but it is
read as the number 0. -/
def dashesFive : SymbolText where
  quoted := false
  chars := text "--5"
  nonempty := by decide
  symbolChar := all_symbol_chars (by decide)
  plain := fun _ => ⟨fun t same => by
    have digits : ∃ c ∈ t.digits, c = chr '-' := by
      unfold IntegerText.text at same
      cases negative : t.negative with
      | true =>
          simp only [negative, if_true] at same
          have rest : text "-5" = t.digits := (List.cons.inj same).2
          exact ⟨chr '-', by rw [← rest]; decide, rfl⟩
      | false =>
          simp only [negative, Bool.false_eq_true, if_false, List.nil_append] at same
          exact ⟨chr '-', by rw [← same]; decide, rfl⟩
    obtain ⟨c, mem, rfl⟩ := digits
    have digit := t.digit _ mem
    revert digit
    decide, fun k => by cases k <;> decide⟩
  short := by decide

theorem dashes_five_misread :
    ¬ ∀ (W : World) (s : State), W.slash = false → Reachable W s → ShortNames (knownNames s) →
      ∀ (t : Tree) (rendered : CStr), Rendering t.lexemes rendered →
        ∃ p s', (runtime W).Runs (blParseSexp rendered) s p s' ∧ Denotes s' s.fresh t.datum p := by
  intro all
  have rendering : Rendering (Tree.leaf (.symbol dashesFive)).lexemes (text "--5") :=
    .inr ⟨[], _, .nothing, .last (.leaf (.symbol dashesFive)) .nothing, rfl⟩
  obtain ⟨p, s', run, held⟩ := all World.bare State.initial rfl (reachable_initial _)
    (fun name mem => absurd mem List.not_mem_nil) _ _ rendering
  have actual : (runtime World.bare).Runs (blParseSexp (text "--5")) State.initial (.ref 7)
      ((State.initial.allocated (.mkNumber 0)).put 7 { Cell.mkNumber 0 with lineNum := 1 }) :=
    ⟨1, rfl⟩
  obtain ⟨rfl, rfl⟩ := runs_functional run actual
  simp only [Tree.datum, Denotes] at held
  obtain ⟨c, found, atom⟩ := held
  cases found
  cases atom

end Main

end BearLang
