import BearLang.EmittedCode

/-!
# Which expressions are compiled

The text for a list without numbers and docstrings spells an expression that
builds the list. A number leaves a parenthesis open and a docstring a member
empty, so the text of a list with one of them is no expression.
-/

namespace BearLang

open CallPrograms CInitialisers SymbolInterning

set_option autoImplicit false

section Spelled

theorem tokens_after {first : Text} {ts : List CToken}
    (known : scan .nothing first = (ts, .nothing)) (rest : Text) : CInitialisers.tokensOf (first ++ rest) =
      (CInitialisers.tokensOf rest).map (ts ++ ·) := by
  unfold CInitialisers.tokensOf
  rw [scan_append_of known]
  generalize scan .nothing rest = scanned
  obtain ⟨us, pending⟩ := scanned
  cases pending <;> simp

theorem tokens_of_scan {code : Text} {ts : List CToken}
    (scanned : scan .nothing code = (ts, .nothing)) : CInitialisers.tokensOf code = some ts := by
  unfold CInitialisers.tokensOf
  rw [scanned]

/-- Numbers and docstrings are not written as expressions. -/
def Atom.Emittable : Atom → Prop
  | .integer _ => False
  | .docstring _ => False
  | _ => True

def Datum.Emittable (d : Datum) : Prop :=
  (∃ items, d = .list items) ∧ ∀ a ∈ d.atoms, a.Emittable

theorem to_char_signed (c : Byte) : toChar (signedChar c) = c := by
  have bound := c.toNat_lt
  have residue : (signedChar c % 256).toNat = c.toNat := by
    unfold signedChar
    split <;> omega
  rw [toChar, residue]
  exact UInt8.ofNat_toNat

theorem char_array_string {s : CStr} (noZero : ∀ c ∈ s, c ≠ 0) :
    charArray (stringValues s) = some (.chars s) := by
  have chars : (stringValues s).map toChar = s ++ [0] := by
    simp only [stringValues, List.map_append, List.map_map]
    congr 1
    conv => rhs; rw [← List.map_id s]
    exact List.map_congr_left fun c _ => to_char_signed c
  have last : (stringValues s).getLast? = some 0 := by simp [stringValues]
  rw [charArray, if_pos last, chars]
  have ends : cString (s ++ [0]) = s := by
    unfold cString
    rw [List.takeWhile_append_of_pos fun c mem => by simpa using noZero c mem]
    simp
  rw [ends]

/-- The expression that the text of a list cell spells. -/
def consInit (car cdr : Init) : Init :=
  .literal (bytes "bl_val_t") (.more (bytes "type") (.name (bytes "BL_VAL_TYPE_CONS"))
    (.more (bytes "car") car (.last (bytes "cdr") cdr)))

theorem cons_init_tokens (car cdr : Init) :
    (consInit car cdr).tokens = consCode car.tokens cdr.tokens := by
  simp only [consInit, consCode, Init.tokens, Fields.tokens, literalHead, List.append_assoc,
    List.cons_append, List.nil_append]

theorem cons_init_meaning {e f : Init} {car cdr : Value}
    (first : initMeaning e = some (.value car)) (rest : initMeaning f = some (.value cdr)) :
    initMeaning (consInit e f) = some (.value (.cons car cdr)) := by
  simp only [consInit, initMeaning, fieldsMeaning, first, rest]
  rfl

def typeInit (type : String) : Init :=
  .literal (bytes "bl_val_t") (.last (bytes "type") (.name (bytes type)))

theorem spelled_atom {a : Atom} (written : a.Written) (emittable : a.Emittable) :
    ∃ e : Init, e.tokens = a.code ∧ initMeaning e = some (.value (.atom a)) := by
  cases a with
  | integer i => exact emittable.elim
  | symbol name => exact ⟨_, rfl, rfl⟩
  | string s =>
      refine ⟨.literal (bytes "bl_val_t") (.more (bytes "type") (.name (bytes "BL_VAL_TYPE_STRING"))
        (.last (bytes "s_val") (.chars (stringValues s)))), rfl, ?_⟩
      simp only [initMeaning, fieldsMeaning, char_array_string written]
      rfl
  | docstring s => exact emittable.elim
  | ifOper => exact ⟨typeInit "BL_VAL_TYPE_OPER_IF", rfl, rfl⟩
  | doOper => exact ⟨typeInit "BL_VAL_TYPE_OPER_DO", rfl, rfl⟩
  | whileOper => exact ⟨typeInit "BL_VAL_TYPE_OPER_WHILE", rfl, rfl⟩

mutual

/-- The tokens for a tree without numbers and docstrings are an expression that
builds the tree. -/
theorem spelled_datum : ∀ d : Datum, (∀ a ∈ d.atoms, a.Written ∧ a.Emittable) →
    ∃ e : Init, e.tokens = d.code ∧ initMeaning e = some (.value d.value)
  | .atom a, each => by
      obtain ⟨written, emittable⟩ := each a List.mem_cons_self
      exact spelled_atom written emittable
  | .list [], _ =>
      ⟨consInit (.name (bytes "NULL")) (.name (bytes "NULL")), rfl, rfl⟩
  | .list (d :: items), each => by
      simp only [Datum.atoms, Datum.allAtoms, List.mem_append] at each
      obtain ⟨e, first, car⟩ := spelled_datum d fun a mem => each a (.inl mem)
      obtain ⟨f, rest, cdr⟩ := spelled_rest items fun a mem => each a (.inr mem)
      refine ⟨consInit e f, ?_, cons_init_meaning car cdr⟩
      rw [cons_init_tokens, first, rest, Datum.code]

theorem spelled_rest : ∀ items : List Datum,
    (∀ a ∈ Datum.allAtoms items, a.Written ∧ a.Emittable) →
      ∃ e : Init, e.tokens = Datum.restCode items ∧
        initMeaning e = some (.value (Datum.restValue items))
  | [], _ => ⟨.name (bytes "NULL"), rfl, rfl⟩
  | d :: items, each => by
      simp only [Datum.allAtoms, List.mem_append] at each
      obtain ⟨e, first, car⟩ := spelled_datum d fun a mem => each a (.inl mem)
      obtain ⟨f, rest, cdr⟩ := spelled_rest items fun a mem => each a (.inr mem)
      refine ⟨consInit e f, ?_, cons_init_meaning car cdr⟩
      rw [cons_init_tokens, first, rest, Datum.restCode]

end

end Spelled

section Unspelled

theorem excess_cons (car cdr : List CToken) :
    excess (consCode car cdr) = excess car + excess cdr := by
  have head : excess literalHead = 0 := by decide
  have front : excess [.name (bytes "BL_VAL_TYPE_CONS"), mark ',', mark '.', .name (bytes "car"),
    mark '='] = 0 := by decide
  have middle : excess [mark ',', mark '.', .name (bytes "cdr"), mark '='] = 0 := by decide
  have close : excess [mark '\x7d'] = 0 := by decide
  simp only [consCode, excess_append, head, front, middle, close]
  omega

theorem excess_atom (a : Atom) :
    0 ≤ excess a.code ∧ ∀ i, a = .integer i → 0 < excess a.code := by
  cases a with
  | integer i =>
      have one : excess (Atom.integer i).code = 1 := rfl
      rw [one]
      exact ⟨by decide, fun _ _ => by decide⟩
  | symbol name => exact ⟨(excess_init (.call _ name)).ge, by rintro i ⟨⟩⟩
  | string s =>
      have chars := excess_init (.chars (stringValues s))
      refine ⟨?_, by rintro i ⟨⟩⟩
      have head : excess literalHead = 0 := by decide
      have front : excess [.name (bytes "BL_VAL_TYPE_STRING"), mark ',', mark '.',
        .name (bytes "s_val"), mark '='] = 0 := by decide
      have close : excess [mark '\x7d'] = 0 := by decide
      simp only [Atom.code, excess_append, head, front, close, chars]
      decide
  | docstring s => exact ⟨le_rfl, by rintro i ⟨⟩⟩
  | ifOper => exact ⟨by decide, by rintro i ⟨⟩⟩
  | doOper => exact ⟨by decide, by rintro i ⟨⟩⟩
  | whileOper => exact ⟨by decide, by rintro i ⟨⟩⟩

mutual

/-- Every number leaves a parenthesis open. -/
theorem excess_datum : ∀ d : Datum,
    0 ≤ excess d.code ∧ ∀ i, .integer i ∈ d.atoms → 0 < excess d.code
  | .atom a => by
      refine ⟨(excess_atom a).1, fun i mem => (excess_atom a).2 i ?_⟩
      exact (List.mem_singleton.1 mem).symm
  | .list [] => ⟨by decide, nofun⟩
  | .list (d :: items) => by
      have first := excess_datum d
      have rest := excess_rest items
      simp only [Datum.code, excess_cons, Datum.atoms, Datum.allAtoms, List.mem_append]
      refine ⟨by omega, fun i mem => ?_⟩
      rcases mem with mem | mem
      · have open_ := first.2 i mem
        omega
      · have open_ := rest.2 i mem
        omega

theorem excess_rest : ∀ items : List Datum, 0 ≤ excess (Datum.restCode items) ∧
    ∀ i, .integer i ∈ Datum.allAtoms items → 0 < excess (Datum.restCode items)
  | [] => ⟨by decide, nofun⟩
  | d :: items => by
      have first := excess_datum d
      have rest := excess_rest items
      simp only [Datum.restCode, excess_cons, Datum.allAtoms, List.mem_append]
      refine ⟨by omega, fun i mem => ?_⟩
      rcases mem with mem | mem
      · have open_ := first.2 i mem
        omega
      · have open_ := rest.2 i mem
        omega

end

theorem gap_stays {state : Bool × Bool} (found : state.2 = true) (ts : List CToken) :
    (gap state ts).2 = true := by
  obtain ⟨last, seen⟩ := state
  cases found
  exact gap_found ts last

/-- A gap in the first or in the second member. -/
theorem gap_cons {cs ds : List CToken}
    (either : (∀ seen r, (gap (true, seen) (cs ++ mark ',' :: r)).2 = true) ∨
      ∀ state r, (gap state (ds ++ r)).2 = true) (state : Bool × Bool) (r : List CToken) :
    (gap state (consCode cs ds ++ r)).2 = true := by
  have shape : consCode cs ds ++ r = (literalHead ++ [.name (bytes "BL_VAL_TYPE_CONS"), mark ',',
      mark '.', .name (bytes "car"), mark '=']) ++ (cs ++ mark ',' :: (mark '.' ::
        .name (bytes "cdr") :: mark '=' :: (ds ++ (mark '\x7d' :: r)))) := by
    simp only [consCode, List.append_assoc, List.cons_append, List.nil_append]
  have ready : ∃ seen, gap state (literalHead ++ [.name (bytes "BL_VAL_TYPE_CONS"), mark ',',
      mark '.', .name (bytes "car"), mark '=']) = (true, seen) := ⟨_, rfl⟩
  obtain ⟨seen, ready⟩ := ready
  rw [shape, gap_append, ready]
  rcases either with first | rest
  · exact first seen _
  · rw [gap_append]
    exact rest (gap (gap (true, seen) cs) [mark ',', mark '.', .name (bytes "cdr"), mark '=']) _

mutual

/-- A docstring leaves its member empty. -/
theorem gap_datum : ∀ (d : Datum) {str : CStr}, .docstring str ∈ d.atoms → ∀ seen r,
    (gap (true, seen) (d.code ++ mark ',' :: r)).2 = true
  | .atom a, str, mem, seen, r => by
      rw [← List.mem_singleton.1 mem]
      refine gap_stays ?_ r
      cases seen <;> rfl
  | .list [], str, mem, _, _ => by cases mem
  | .list (d :: items), str, mem, seen, r => by
      simp only [Datum.atoms, Datum.allAtoms, List.mem_append] at mem
      exact gap_cons (mem.imp (gap_datum d) (gap_rest items)) _ _

theorem gap_rest : ∀ (items : List Datum) {str : CStr}, .docstring str ∈ Datum.allAtoms items →
    ∀ state r, (gap state (Datum.restCode items ++ r)).2 = true
  | [], str, mem, _, _ => by cases mem
  | d :: items, str, mem, state, r => by
      simp only [Datum.allAtoms, List.mem_append] at mem
      exact gap_cons (mem.imp (gap_datum d) (gap_rest items)) _ _

end

/-- What the text of a list spells is an expression only without numbers and
docstrings. -/
theorem emittable_of_tokens {items : List Datum} {e : Init}
    (same : e.tokens = Datum.restCode items) : ∀ a ∈ Datum.allAtoms items, a.Emittable := by
  intro a mem
  cases a with
  | integer i =>
      have open_ := (excess_rest items).2 i mem
      rw [← same, excess_init] at open_
      exact absurd open_ (Int.lt_irrefl 0)
  | docstring str =>
      have left := gap_rest items mem (false, false) []
      rw [List.append_nil, ← same, no_gap] at left
      cases left
  | _ => trivial

/-- What starts like a list cell builds nothing but a list cell. -/
theorem cons_of_tokens {e : Init} {us : List CToken} {v : Value}
    (same : e.tokens = literalHead ++ ([.name (bytes "BL_VAL_TYPE_CONS"), mark ','] ++ us))
    (meaning : initMeaning e = some (.value v)) : ∃ car cdr, v = .cons car cdr := by
  cases e with
  | name id => simp [Init.tokens, literalHead] at same
  | call func arg => simp [Init.tokens, literalHead] at same
  | chars values => simp [Init.tokens, literalHead, ascii] at same
  | literal type fields =>
      simp only [Init.tokens, literalHead, List.cons_append, List.nil_append, List.cons.injEq,
        CToken.name.injEq, true_and] at same
      obtain ⟨rfl, same⟩ := same
      have first : ∀ (value : Init) (r : List CToken), CInitialisers.Ends r →
          value.tokens ++ r = .name (bytes "BL_VAL_TYPE_CONS") :: mark ',' :: us →
            value = .name (bytes "BL_VAL_TYPE_CONS") ∧ r = mark ',' :: us := by
        intro value r ends tokens
        exact init_unique value (.name (bytes "BL_VAL_TYPE_CONS")) tokens ends
          (ends_mark (by decide))
      cases fields with
      | last field value =>
          simp only [Fields.tokens, List.cons_append, List.nil_append, List.cons.injEq,
            CToken.name.injEq, true_and] at same
          obtain ⟨_, after⟩ := first value _ (ends_mark (by decide)) same.2
          exact absurd (List.cons.inj after).1 (by decide)
      | more field value rest =>
          simp only [Fields.tokens, List.append_assoc, List.cons_append, List.nil_append,
            List.cons.injEq, CToken.name.injEq, true_and] at same
          obtain ⟨rfl, tokens⟩ := same
          obtain ⟨rfl, _⟩ := first value _ (ends_mark (by decide)) tokens
          simp only [initMeaning, if_true, fieldsMeaning, Option.map_eq_some_iff,
            Option.bind_eq_some_iff] at meaning
          obtain ⟨v', ⟨members, ⟨type, isType, others, _, named⟩, built⟩, equal⟩ := meaning
          split at named
          · cases named
          · cases named
            cases isType
            cases equal
            have kind : (((bytes "type"), CVal.type .cons) :: others).lookup (bytes "type") =
                some (.type .cons) := rfl
            simp only [compound, kind] at built
            obtain ⟨car, _, built⟩ := Option.bind_eq_some_iff.1 built
            obtain ⟨cdr, _, built⟩ := Option.bind_eq_some_iff.1 built
            cases built
            exact ⟨car, cdr, rfl⟩

end Unspelled

section Reading

variable {W : World} {s t : State} {v : Ptr}

/-- The compiler reads, and runs no program. -/
inductive OnlyRead (W : World) : State → Prop where
  | start : OnlyRead W State.initial
  | sexp {s t : State} {written : CStr} {v : Ptr} (before : OnlyRead W s)
      (run : (runtime W).Runs (blParseSexp written) s v t) : OnlyRead W t
  | file {s t : State} {contents : CStr} {v : Ptr} (before : OnlyRead W s)
      (run : (runtime W).Runs (blParseFile contents) s v t) : OnlyRead W t

theorem written_of_read {plain : Prop} {a : Atom} (lexable : a.Lexable)
    (read : ReadString plain a) : a.Written := by
  cases a with
  | symbol name => exact lexable
  | string s => exact read.2.1
  | _ => trivial

theorem token_written {input : CStr} {tokens : List Token} (lexes : Lexes input tokens)
    {slash : Bool} : ∀ u ∈ tokens, ∀ known a between, LongLexable known →
      u.atom slash known = some (a, between) → a.Written ∧ LongLexable between := by
  intro u mem known a between longs value
  have lexable := read_lexable lexes mem longs value
  exact ⟨written_of_read lexable.1 (read_string lexes mem value), lexable.2⟩

/-- Reading one form: the names stay names of the lexer, and so are those in the
value. -/
theorem sexp_written (sound : Sound s) (longs : LongLexable (knownNames s)) {written : CStr}
    (run : (runtime W).Runs (blParseSexp written) s v t) :
    LongLexable (knownNames t) ∧
      ∀ {lo d}, Denotes t lo d v → ∀ a ∈ d.atoms, a.Written := by
  have lexes := lexes_tokens_of written
  have without : (tokensOf written = [] ∨ ∃ u rest, tokensOf written = u :: rest ∧
      u.type = .rparen) → LongLexable (knownNames t) ∧
        ∀ {lo d}, Denotes t lo d v → ∀ a ∈ d.atoms, a.Written := by
    intro nothing
    obtain ⟨p, t', parsed, names, _, noForm⟩ := parse_sexp_no_form (W := W) sound nothing
    obtain ⟨rfl, rfl⟩ := runs_functional run parsed
    rw [names]
    refine ⟨longs, fun held => ?_⟩
    exact absurd (alike_of_denotes _ _ _ held held) (not_alike_no_form held noForm)
  rcases reads_some (W := W) (knownNames s) (tokensOf written) with
    nothing | closes | ⟨e, rest, after, reads, each⟩
  · exact without (.inl nothing)
  · exact without (.inr closes)
  · obtain ⟨p, t', parsed, names, _, held'⟩ := parse_sexp_of_reads sound reads
    obtain ⟨rfl, rfl⟩ := runs_functional run parsed
    have all := each LongLexable (token_written lexes) longs
    rw [names]
    refine ⟨all.2, fun held => ?_⟩
    rw [datum_of_alike _ e _ _ held held' (alike_of_denotes _ _ _ held held)]
    exact all.1

theorem file_written (sound : Sound s) (longs : LongLexable (knownNames s)) {contents : CStr}
    (run : (runtime W).Runs (blParseFile contents) s v t) : LongLexable (knownNames t) := by
  obtain ⟨items, rest, after, forms, _⟩ :=
    forms_exist W.slash _ (knownNames s) (tokensOf contents) le_rfl
  obtain ⟨p, t', parsed, names, _⟩ := parse_file_runs sound forms
  obtain ⟨rfl, rfl⟩ := runs_functional run parsed
  rw [names]
  refine (forms_atoms forms LongLexable (· ∈ tokensOf contents) (R := Atom.Written)
    (fun u k a b mem longs value => ?_) (fun _ mem => mem) longs).2.1
  exact token_written (lexes_tokens_of contents) u mem k a b longs value

theorem only_read_sound (read : OnlyRead W s) : Sound s ∧ LongLexable (knownNames s) := by
  induction read with
  | start => exact ⟨sound_initial, nofun⟩
  | sexp _ run ih => exact ⟨runs_sound ih.1 run, (sexp_written ih.1 ih.2 run).1⟩
  | file _ run ih => exact ⟨runs_sound ih.1 run, file_written ih.1 ih.2 run⟩

end Reading

section Main

variable {W : World} {s : State} {v : Ptr} {lo : Nat}

theorem runs_compile_expr {cell : Cell} (known : s.cell v = some cell) {infileName out : CStr}
    {s' : State} : (runtime W).Runs (compileExpr infileName v) s out s' ↔
      ∃ code, (runtime W).Runs (compileCons v) s code s' ∧
        out = statement infileName cell.lineNum code := by
  rw [compileExpr, runs_after (runs_load known), runs_bind]
  constructor
  · rintro ⟨code, m, written, rest⟩
    obtain ⟨rfl, rfl⟩ := runs_pure.1 rest
    exact ⟨code, written, rfl⟩
  · rintro ⟨code, written, rfl⟩
    exact ⟨code, s', written, runs_pure_self _ _⟩

theorem statement_code {infileName : CStr} {line : Nat} {code other : CStr}
    (same : statement infileName line code = statement infileName line other) : code = other :=
  List.append_cancel_left (List.append_cancel_right same)

theorem emits_of_emittable {d : Datum} (held : Denotes s lo d v)
    (written : ∀ a ∈ d.atoms, a.Written) (emittable : d.Emittable) : Emits W s v := by
  obtain ⟨⟨items, rfl⟩, each⟩ := emittable
  obtain ⟨cell, known, type⟩ := Option.map_eq_some_iff.1 (type_of_denotes_list held)
  obtain ⟨e, tokens, meaning⟩ :=
    spelled_datum (.list items) fun a mem => ⟨written a mem, each a mem⟩
  have spells := tokens_of_scan (scan_emitted (.list items) written)
  rw [← tokens] at spells
  intro infileName
  refine ⟨cell, _, _, e, _, known, ?_, spells, bracketed_init e, spells, meaning,
    shape_of_denotes _ v held⟩
  exact (runs_compile_expr known).2
    ⟨_, (runs_compile_cell known type).1 (emits_datum (.list items) v held), rfl⟩

/-- Whatever is taken for a list cell, its text builds one if it builds
anything. -/
theorem cons_of_emits {e : Init} {code : CStr} {value : Value} {s' : State}
    (run : (runtime W).Runs (compileCons v) s code s') (spells : Spells code e)
    (meaning : initMeaning e = some (.value value)) : ∃ car cdr, value = .cons car cdr := by
  obtain ⟨c, m, _, run⟩ := runs_bind.1 run
  obtain ⟨car, m', _, run⟩ := runs_bind.1 run
  obtain ⟨c', m'', _, run⟩ := runs_bind.1 run
  obtain ⟨cdr, m₃, _, run⟩ := runs_bind.1 run
  obtain ⟨rfl, _⟩ := runs_pure.1 run
  have front : scan .nothing (text "&(bl_val_t) \x7b.type = BL_VAL_TYPE_CONS, .car=") =
      (literalHead ++ ([.name (bytes "BL_VAL_TYPE_CONS"), mark ','] ++
        [mark '.', .name (bytes "car"), mark '=']), .nothing) := by decide
  have tokens : CInitialisers.tokensOf (consText car cdr) = some e.tokens := spells
  simp only [consText, List.append_assoc] at tokens
  rw [tokens_after front] at tokens
  obtain ⟨us, _, same⟩ := Option.map_eq_some_iff.1 tokens
  simp only [List.append_assoc] at same
  exact cons_of_tokens same.symm meaning

theorem emittable_of_emits {d : Datum} (held : Denotes s lo d v)
    (written : ∀ a ∈ d.atoms, a.Written) (emits : Emits W s v) : d.Emittable := by
  obtain ⟨cell, code, ts, e, value, known, run, _, _, spells, meaning, shape⟩ := emits []
  obtain ⟨code', conses, same⟩ := (runs_compile_expr known).1 run
  rw [← statement_code same] at conses
  cases d with
  | atom a =>
      simp only [Denotes] at held
      obtain ⟨c, found, atom⟩ := held
      obtain ⟨car, cdr, rfl⟩ := cons_of_emits conses spells meaning
      cases shape with
      | cons found' type =>
          rw [found] at found'
          cases found'
          exact absurd type (atom_not_cons atom)
  | list items =>
      refine ⟨⟨items, rfl⟩, ?_⟩
      obtain ⟨cell', known', type⟩ := Option.map_eq_some_iff.1 (type_of_denotes_list held)
      have emitted :=
        (runs_compile_cell known' type).1 (emits_datum (W := W) (.list items) v held)
      obtain ⟨rfl, _⟩ := runs_functional conses emitted
      have tokens := tokens_of_scan (scan_emitted (.list items) written)
      have equal : e.tokens = (Datum.list items).code :=
        Option.some.inj (Eq.trans (Eq.symm spells) tokens)
      cases items with
      | nil => exact fun a mem => absurd mem List.not_mem_nil
      | cons d items =>
          refine emittable_of_tokens (e := e) ?_
          rw [equal, Datum.code, Datum.restCode]

/-- What the compiler writes for a value that was read builds the same value
exactly if the value is a list and neither a number nor a docstring occurs in
it. -/
theorem emits_iff_emittable (W : World) (s : State) (read : OnlyRead W s) (written : CStr)
    {v : Ptr} {t : State} (run : (runtime W).Runs (blParseSexp written) s v t) {d : Datum}
    (held : Denotes t 0 d v) : Emits W t v ↔ d.Emittable := by
  obtain ⟨sound, longs⟩ := only_read_sound read
  have each := (sexp_written sound longs run).2 held
  exact ⟨emittable_of_emits held each, emits_of_emittable held each⟩

theorem emits_iff_emittable_call : ∃ v t,
    (runtime World.bare).Runs (blParseSexp (text "(f (do \"a\"))")) State.initial v t ∧
      Emits World.bare t v := by
  let inner : List Token := [⟨.doToken, text "do"⟩, ⟨.string, text "a"⟩]
  let inside : List Token := [⟨.symbol, text "f"⟩, openToken] ++ (inner ++ [closeToken])
  have tokens : tokensOf (text "(f (do \"a\"))") =
      (openToken :: (inside ++ [closeToken])) ++ [] := by decide
  have within : Forest false [] inside
      [.atom (.symbol (text "f")), .list [.atom .doOper, .atom (.string (text "a"))]]
      [text "f"] :=
    .atom rfl (.list (t := openToken) (u := closeToken) rfl (.atom rfl (.atom rfl (.nothing _))) rfl
      (.nothing _))
  have form : Forest World.bare.slash (knownNames State.initial)
      (openToken :: (inside ++ [closeToken])) [.list _] [text "f"] :=
    .list rfl within rfl (.nothing _)
  have reads := reads_one form []
  rw [← tokens] at reads
  obtain ⟨v, t, run, _, _, held⟩ := parse_sexp_of_reads sound_initial reads
  refine ⟨v, t, run, (emits_iff_emittable World.bare State.initial .start _ run
    (denotes_lower (Nat.zero_le _) _ _ held)).2 ⟨⟨_, rfl⟩, fun a mem => ?_⟩⟩
  simp only [Datum.atoms, Datum.allAtoms, List.cons_append, List.nil_append, List.mem_cons,
    List.not_mem_nil, or_false] at mem
  rcases mem with rfl | rfl | rfl <;> trivial

/-- In the text for `(f 1)` the call that makes the number is not closed. -/
theorem number_not_closed :
    ¬ ∀ (W : World) (s : State), OnlyRead W s → ∀ (written : CStr) (v : Ptr) (t : State),
      (runtime W).Runs (blParseSexp written) s v t → ∀ d, Denotes t 0 d v → Emits W t v := by
  intro all
  let inside : List Token := [⟨.symbol, text "f"⟩, ⟨.integer, text "1"⟩]
  have tokens : tokensOf (text "(f 1)") = (openToken :: (inside ++ [closeToken])) ++ [] := by decide
  have within :
      Forest false [] inside [.atom (.symbol (text "f")), .atom (.integer 1)] [text "f"] :=
    .atom rfl (.atom rfl (.nothing _))
  have form : Forest World.bare.slash (knownNames State.initial)
      (openToken :: (inside ++ [closeToken])) [.list _] [text "f"] :=
    .list rfl within rfl (.nothing _)
  have reads := reads_one form []
  rw [← tokens] at reads
  obtain ⟨v, t, run, _, _, held⟩ := parse_sexp_of_reads sound_initial reads
  have whole := denotes_lower (Nat.zero_le _) _ _ held
  have each := (sexp_written sound_initial nofun run).2 whole
  have emittable := emittable_of_emits whole each (all _ _ .start _ v t run _ whole)
  exact emittable.2 (.integer 1) (List.mem_cons_of_mem _ List.mem_cons_self)

end Main

end BearLang
