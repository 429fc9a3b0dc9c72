import BearLang.ReaderCorrectness
import BearLang.ReadBack
import BearLang.XmlEvaluation

/-!
# String literals

`unescape` keeps one bit: whether a backslash has been read. An escaped `n` or `t`
clears it, but no other escaped character does, a second backslash is dropped like the
first, and nothing sets the bit at the start. So a plain `n` or `t` is taken for an
escaped one unless the escape before it is one of these two.
-/

namespace BearLang.StringLiterals

open CallPrograms MaximalMunch XmlTrees

set_option autoImplicit false

section Decoding

variable {slash : Bool} {b : CStr}

/-- The string that the body of a literal stands for. -/
def decoded : CStr → CStr
  | [] => []
  | [c] => [c]
  | c :: d :: rest =>
      if c = backslash then
        (if d = chr 'n' then newline else if d = chr 't' then 9 else d) :: decoded rest
      else c :: decoded (d :: rest)

/-- No backslash is escaped, and no `n` or `t` stands unescaped where the bit may be
set: at first it may be if `marked` says so, later after any escape but these two. -/
def Plain : Bool → CStr → Prop
  | _, [] => True
  | marked, [c] => c ≠ backslash ∧ (c = chr 'n' ∨ c = chr 't' → marked = false)
  | marked, c :: d :: rest =>
      if c = backslash then
        d ≠ backslash ∧ Plain (decide (d ≠ chr 'n' ∧ d ≠ chr 't')) rest
      else (c = chr 'n' ∨ c = chr 't' → marked = false) ∧ Plain marked (d :: rest)

instance decidablePlain : (marked : Bool) → (b : CStr) → Decidable (Plain marked b)
  | _, [] => .isTrue trivial
  | marked, [c] => inferInstanceAs (Decidable (c ≠ backslash ∧ (_ → marked = false)))
  | marked, c :: d :: rest =>
      have := decidablePlain (decide (d ≠ chr 'n' ∧ d ≠ chr 't')) rest
      have := decidablePlain marked (d :: rest)
      inferInstanceAs (Decidable (if c = backslash then _ else _))

theorem unescape_backslash (slash : Bool) (rest : CStr) :
    unescape slash (backslash :: rest) = unescape true rest := by
  rw [unescape, if_pos rfl]

theorem unescape_escaped {d : Byte} (other : d ≠ backslash) (rest : CStr) :
    unescape true (d :: rest) =
      (if d = chr 'n' then newline else if d = chr 't' then 9 else d) ::
        unescape (decide (d ≠ chr 'n' ∧ d ≠ chr 't')) rest := by
  rw [unescape, if_neg other]
  by_cases n : d = chr 'n'
  · subst n
    simp
  · by_cases t : d = chr 't'
    · subst t
      simp [n]
    · simp [n, t]

/-- A character that is not escaped is kept, unless the bit is set and it is `n` or
`t`. -/
theorem unescape_kept_iff {c : Byte} (other : c ≠ backslash) (rest out : CStr) :
    unescape slash (c :: rest) = c :: out ↔
      (c = chr 'n' ∨ c = chr 't' → slash = false) ∧ unescape slash rest = out := by
  rw [unescape, if_neg other]
  cases slash with
  | false => simp
  | true =>
      have line : newline ≠ chr 'n' := by decide
      have tab : (9 : Byte) ≠ chr 't' := by decide
      by_cases n : c = chr 'n'
      · subst n
        simp [line]
      · by_cases t : c = chr 't'
        · subst t
          simp [n, tab]
        · simp [n, t]

theorem unescape_decodes_iff (slash : Bool) (b : CStr) :
    unescape slash b = decoded b ↔ Plain slash b := by
  induction b using decoded.induct generalizing slash with
  | case1 => exact iff_of_true rfl trivial
  | case2 c =>
      rw [decoded, Plain]
      by_cases back : c = backslash
      · subst back
        rw [unescape_backslash]
        simp [unescape]
      · rw [unescape_kept_iff back]
        simp [unescape, back]
  | case3 d rest ih =>
      rw [decoded, Plain, if_pos rfl, if_pos rfl, unescape_backslash]
      by_cases back : d = backslash
      · subst back
        refine iff_of_false (fun same => ?_) fun plain => plain.1 rfl
        have head : backslash ∈ unescape true (backslash :: rest) := by
          rw [same]
          exact List.mem_cons_self
        exact (unescape_mem head).1 rfl
      · rw [unescape_escaped back, List.cons_inj_right, ih]
        simp [back]
  | case4 c d rest back ih =>
      rw [decoded, Plain, if_neg back, if_neg back, unescape_kept_iff back, ih]

theorem plain_either (plain : Plain true b) : Plain slash b := by
  induction b using decoded.induct with
  | case1 => trivial
  | case2 c => exact ⟨plain.1, fun letter => nomatch plain.2 letter⟩
  | case3 d rest ih =>
      rw [Plain, if_pos rfl] at plain ⊢
      exact plain
  | case4 c d rest back ih =>
      rw [Plain, if_neg back] at plain
      rw [Plain, if_neg back]
      exact And.intro (fun letter => nomatch plain.1 letter) (ih plain.2)

theorem zero_mem_decoded (zero : 0 ∈ b) : 0 ∈ decoded b := by
  induction b using decoded.induct with
  | case1 => exact zero
  | case2 c => exact zero
  | case3 d rest ih =>
      rw [decoded, if_pos rfl]
      rcases List.mem_cons.1 zero with back | zero
      · exact absurd back (by decide)
      · rcases List.mem_cons.1 zero with rfl | later
        · exact List.mem_cons_self
        · exact List.mem_cons_of_mem _ (ih later)
  | case4 c d rest back ih =>
      rw [decoded, if_neg back]
      rcases List.mem_cons.1 zero with rfl | later
      · exact List.mem_cons_self
      · exact List.mem_cons_of_mem _ (ih later)

/-- The bytes up to a zero byte are decoded, whatever the bit is at the start. -/
theorem decodes_always_iff :
    (∀ slash, unescape slash (cString b) = decoded b) ↔ (0 : Byte) ∉ b ∧ Plain true b := by
  constructor
  · intro decodes
    have noZero : (0 : Byte) ∉ b := by
      intro zero
      have made := zero_mem_decoded zero
      rw [← decodes false] at made
      rcases (unescape_mem made).2 with old | line | tab
      · exact (c_string_sub old).2 rfl
      · exact absurd line (by decide)
      · exact absurd tab (by decide)
    have whole := c_string_id fun c mem same => noZero (same ▸ mem)
    rw [whole] at decodes
    exact ⟨noZero, (unescape_decodes_iff true b).1 (decodes true)⟩
  · rintro ⟨noZero, plain⟩ slash
    rw [c_string_id fun c mem same => noZero (same ▸ mem)]
    exact (unescape_decodes_iff slash b).2 (plain_either plain)

end Decoding

section Reading

variable {sc : Scanner} {s : State} {rest : CStr} {n : Nat}

def bodyOf (lexeme : CStr) : CStr := (lexeme.drop 1).take (lexeme.length - 2)

theorem cut_string (next : longest Rule.matched rules rest = some (.string, n)) :
    cut rest = (some ⟨.string, cString (bodyOf (rest.take n))⟩, rest.drop n) := by
  rw [cut, next]
  rfl

/-- What `read_form` makes of a literal, behind input without tokens. -/
theorem string_read (W : World) (s : State) (skipped : Scans sc.input [] rest)
    (next : longest Rule.matched rules rest = some (.string, n)) :
    ∃ p sc' t, (runtime W).Runs (call (.readForm sc)) s (p, sc') t ∧
      StringAt t (unescape W.slash (cString (bodyOf (rest.take n)))) p := by
  have lexes : Lexes rest (⟨.string, cString (bodyOf (rest.take n))⟩ :: tokensOf (rest.drop n)) := by
    cases rest with
    | nil => exact nomatch (longest_matched next).2
    | cons c input => exact .token (cut_string next) (lexes_tokens_of _)
  have yields := yylex_yields (lexes_of_scans skipped lexes)
  cases scanned : yylex sc with
  | mk found sc' =>
      rw [scanned] at yields
      obtain ⟨rfl, yytext, _⟩ := yields
      let str : Cell := .mkStr (unescape W.slash sc'.yytext)
      have made : (s.allocated str).cell (.ref s.fresh) = some str := State.cell_allocated_new s str
      refine ⟨.ref s.fresh, sc', (s.allocated str).put s.fresh { str with lineNum := sc'.lineno },
        ?_, ?_⟩
      · have token : (runtime W).Runs (readToken W.slash .string sc') s (.ref s.fresh, sc')
            (s.allocated str) := (runs_after (runs_alloc str s)).2 (runs_pure_self _ _)
        rw [runs_read_form, readFormBody, scanned]
        dsimp only
        rw [runs_after token, runs_after (runs_set_line made sc'.lineno)]
        exact runs_pure_self _ _
      · refine ⟨_, State.cell_put_same (State.ref_lt_fresh made) _, rfl, ?_⟩
        exact congrArg (fun body => some (unescape W.slash body)) yytext

/-- A literal is decoded, whatever is in the local variable of `unescape`, exactly if
it has no zero byte, no escaped backslash and no `n` or `t` that is taken for an
escaped one. -/
theorem literal_decodes_iff (skipped : Scans sc.input [] rest)
    (next : longest Rule.matched rules rest = some (.string, n)) :
    (∀ W, ∃ p sc' t, (runtime W).Runs (call (.readForm sc)) s (p, sc') t ∧
      StringAt t (decoded (bodyOf (rest.take n))) p) ↔
      (0 : Byte) ∉ bodyOf (rest.take n) ∧ Plain true (bodyOf (rest.take n)) := by
  rw [← decodes_always_iff]
  constructor
  · intro decodes slash
    obtain ⟨p, sc', t, run, c, known, _, held⟩ := decodes { World.bare with slash := slash }
    obtain ⟨q, sc'', u, run', d, found, _, held'⟩ :=
      string_read { World.bare with slash := slash } s skipped next
    obtain ⟨same, rfl⟩ := runs_functional run run'
    cases same
    rw [known] at found
    cases found
    exact Option.some.inj (held'.symm.trans held)
  · intro decodes W
    obtain ⟨p, sc', t, run, string⟩ := string_read W s skipped next
    rw [decodes W.slash] at string
    exact ⟨p, sc', t, run, string⟩

/-- The literal `"a\nn"`. -/
theorem literal_decodes_iff_line :
    (∀ W, ∃ p sc' t, (runtime W).Runs (call (.readForm (scannerOf (text " \"a\\nn\""))))
        State.initial (p, sc') t ∧
      StringAt t (decoded (bodyOf ((text "\"a\\nn\"").take 6))) p) ↔
      (0 : Byte) ∉ bodyOf ((text "\"a\\nn\"").take 6) ∧
        Plain true (bodyOf ((text "\"a\\nn\"").take 6)) :=
  literal_decodes_iff (.skip rfl (.stop _)) rfl

/-- The literal `"\\"` is read as the empty string. -/
theorem escaped_backslash_lost : ∃ p sc' t,
    (runtime World.bare).Runs (call (.readForm (scannerOf (text "\"\\\\\"")))) State.initial
        (p, sc') t ∧
      StringAt t [] p ∧ longest Rule.matched rules (text "\"\\\\\"") = some (.string, 4) ∧
      decoded (bodyOf (text "\"\\\\\"")) = [backslash] :=
  ⟨_, _, _, ⟨9, rfl⟩, ⟨_, rfl, rfl, rfl⟩, rfl, rfl⟩

end Reading

end BearLang.StringLiterals
