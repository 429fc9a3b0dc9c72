import BearLang.SharedConstants
import BearLang.XmlEvaluation

/-!
# Evaluating an element

The operator that is looked up for `x::tag` evaluates the items of the element one
after the other. Its clauses become attributes, and the texts of the others the
content. The text it returns is that of the tree.
-/

namespace BearLang.XmlTrees

open CallPrograms MarkupGrammar SharedConstants SymbolInterning

set_option autoImplicit false

section Texts

variable {W : World} {s : State} {lo : Nat}

theorem str_of_runs {str : CStr} {p : Ptr} (at_ : StringAt s str p) :
    (runtime W).Runs (strOf p) s str s := by
  obtain ⟨c, known, _, held⟩ := at_
  rw [strOf, runs_after (runs_load known)]
  exact runs_member held s

theorem symbol_str_runs {name : CStr} {p : Ptr} (at_ : SymbolAt s name p) :
    (runtime W).Runs (strOf p) s name s := by
  obtain ⟨c, known, _, held⟩ := at_
  rw [strOf, runs_after (runs_load known)]
  exact runs_member held s

theorem attributes_loop_runs (loaded : W.HasXml) {pairs : List (CStr × CStr)} {p : Ptr}
    (list : ListOf PairAt lo s pairs p) (buf : CStr) :
    (runtime W).Runs (call (.extensionLoop attributesNumber [p] buf)) s
      ([], buf ++ attributeText pairs) s := by
  induction pairs generalizing p buf with
  | nil =>
      have none_ : p = .null := list
      refine runs_call (c := .extensionLoop attributesNumber [p] buf) ?_
      change (runtime W).Runs (W.loop attributesNumber [p] buf) s _ s
      rw [loaded.attributes]
      change (runtime W).Runs (xmlAttributesLoop p buf) s _ s
      rw [xmlAttributesLoop, if_pos none_, attributeText, List.append_nil]
      exact runs_pure_self _ _
  | cons pair pairs ih =>
      obtain ⟨name, value⟩ := pair
      obtain ⟨a, q, rest, rfl, _, ⟨c, known, _, car, cdr⟩, isPair, others⟩ := list
      obtain ⟨quoted, last, str, e, ⟨d, found, _, car', cdr'⟩, named, held, value', string⟩ := isPair
      have next := ih others (buf ++ text " " ++ name ++ text "=\"" ++ value ++ text "\"")
      refine runs_call (c := .extensionLoop attributesNumber [.ref a] buf) ?_
      change (runtime W).Runs (W.loop attributesNumber [.ref a] buf) s _ s
      rw [loaded.attributes]
      change (runtime W).Runs (xmlAttributesLoop (.ref a) buf) s _ s
      rw [xmlAttributesLoop, if_neg (by simp), runs_after (runs_load known), car,
        runs_after (runs_load found), car', runs_after (symbol_str_runs named), cdr',
        runs_after (runs_load held), value', runs_after (str_of_runs string), cdr]
      simpa [attributeText] using next

theorem content_loop_runs (loaded : W.HasXml) {texts : List CStr} {p : Ptr}
    (list : ListOf StringAt lo s texts p) (buf : CStr) :
    (runtime W).Runs (call (.extensionLoop contentNumber [p] buf)) s
      ([], buf ++ texts.flatten) s := by
  induction texts generalizing p buf with
  | nil =>
      have none_ : p = .null := list
      refine runs_call (c := .extensionLoop contentNumber [p] buf) ?_
      change (runtime W).Runs (W.loop contentNumber [p] buf) s _ s
      rw [loaded.content]
      change (runtime W).Runs (xmlContentLoop p buf) s _ s
      rw [xmlContentLoop, if_pos none_, List.flatten_nil, List.append_nil]
      exact runs_pure_self _ _
  | cons str texts ih =>
      obtain ⟨a, q, rest, rfl, _, ⟨c, known, _, car, cdr⟩, string, others⟩ := list
      have next := ih others (buf ++ str)
      refine runs_call (c := .extensionLoop contentNumber [.ref a] buf) ?_
      change (runtime W).Runs (W.loop contentNumber [.ref a] buf) s _ s
      rw [loaded.content]
      change (runtime W).Runs (xmlContentLoop (.ref a) buf) s _ s
      rw [xmlContentLoop, if_neg (by simp), runs_after (runs_load known), car,
        runs_after (str_of_runs string), cdr]
      simpa using next

end Texts

section Heads

variable {W : World} {s : State} {ctx xml : Ptr} {names : List CStr}

theorem tag_name_path (tag : CStr) : tagName (text "x::" ++ tag) = tagName tag := by
  have stop : (text "x::").reverse.takeWhile (· != chr ':') = [] := rfl
  unfold tagName List.rtakeWhile
  rw [List.reverse_append, List.takeWhile_append, stop, List.append_nil]
  split
  · rename_i whole
    rw [List.takeWhile_eq_self_iff.2]
    have all := List.takeWhile_eq_self_iff.1
      ((List.takeWhile_prefix (· != chr ':')).eq_of_length whole)
    exact all
  · rfl

theorem after_colon_path (tag : CStr) : afterColon (text "x::" ++ tag) = some (tagName tag) := by
  have mem : chr ':' ∈ text "x::" ++ tag := List.mem_append_left _ (by decide)
  rw [afterColon, if_pos mem, tag_name_path]

/-- The operator that a look-up in the module makes. -/
def generatorCell : Cell := { type := .operNative, w0 := .code (.extension xmlGenOperNumber) }

/-- Looking up `x::tag` makes an operator. -/
theorem ctx_get_tag (loaded : W.HasXml) (scene : Scene s ctx xml) {tag : CStr} {head : Ptr}
    (made : tag ∈ names) (named : SymbolAt s (text "x::" ++ tag) head) :
    ∃ v t, (runtime W).Runs (blCtxGet ctx head) s v t ∧ t.cell v = some generatorCell ∧
      Keeps names s t := by
  obtain ⟨⟨c, known, plain⟩, ⟨key, id, n, interned, isName, found⟩, m, module, get⟩ := id scene
  obtain ⟨k, cell, type, held⟩ := named
  have keeps := keeps_mk_symbol made s
  have isRef : (blMkSymbol tag s).1 ≠ .null := by
    cases search : s.symbolTable.find? (·.key == tag) with
    | some entry =>
        rw [mk_symbol_found search]
        simp
    | none =>
        rw [mk_symbol_entered search]
        simp
  have split : strstr (text "::") (text "x::" ++ tag) = some 1 := rfl
  have first : (text "x::" ++ tag).take 1 = text "x" := rfl
  have second : (text "x::" ++ tag).drop (1 + 2) = tag := rfl
  have unquoted : (text "x::" ++ tag).head? ≠ some (chr '\'') := by
    have head : (text "x::" ++ tag).head? = some (chr 'x') := rfl
    rw [head]
    decide
  refine ⟨_, _, ?_, State.cell_allocated_new (blMkSymbol tag s).2 generatorCell,
    keeps_trans keeps (keeps_allocated _ _)⟩
  rw [runs_ctx_get, ctxGetBody, if_neg (cell_ne_null cell), runs_after (runs_load_at known)]
  simp only [plain]
  rw [runs_after (runs_load cell), if_neg (fun other => other type), runs_after (runs_member held s),
    if_neg unquoted]
  simp only [split]
  rw [first, second, runs_after (mk_symbol_interned interned), runs_after (ctx_get_found isName found),
    if_neg (found_ne_null found), runs_after (runs_mk_symbol tag s), runs_ctx_get, ctxGetBody,
    if_neg isRef, runs_after (runs_load_at (ctx_at_keeps keeps xml m module))]
  simp only [get]
  refine runs_call (c := .customGet xGetNumber xml _) ?_
  change (runtime W).Runs (W.customGet xGetNumber xml _) _ _ _
  rw [loaded.customGet]
  exact runs_alloc _ _

theorem keeps_invoked {a : Nat} {c : Cell} (known : s.cell (.ref a) = some c) (sym : Ptr)
    (customData : Nat) : Keeps names s (s.put a (c.invokedAs sym customData)) :=
  keeps_put known rfl rfl rfl (.inl rfl)

theorem null_val_cell (sound : Sound s) : ∃ c, s.cell nullVal = some c ∧ c.type = .null := by
  obtain ⟨c, known, type, _⟩ := sound.statics nullVal { type := .null } rfl
  exact ⟨c, known, type⟩

/-- The operator is called with the items, or with `None`. -/
theorem call_reaches_generator (loaded : W.HasXml) (site : Site) (sound : Sound s)
    (scene : Scene s ctx xml) {tag : CStr} {items : List Item} (made : tag ∈ names) {p : Ptr}
    (at_ : ItemAt s (.element tag items) p) :
    ∃ n c head u, (runtime W).Reaches (blEval site ctx p) s
        (call (.native (.extension xmlGenOperNumber) ctx (.ref n)) >>=
          fun retval => pure (orNull retval)) u ∧
      Keeps names s u ∧ u.cell (.ref n) = some c ∧ c.invokedSym = head ∧
      SymbolAt u (text "x::" ++ tag) head ∧
      ((items = [] ∧ c.type = .null) ∨ (items ≠ [] ∧ ItemsAt u items (.ref n))) := by
  obtain ⟨head, args, outer, named, inner⟩ := at_
  obtain ⟨v, s', run, operator, keeps⟩ := ctx_get_tag (W := W) loaded scene made named
  have sound' := runs_sound sound run
  obtain ⟨hc, headCell, headType, _⟩ := id named
  obtain ⟨e, known, isCons, car, cdr⟩ := outer
  obtain ⟨e', again, word0⟩ := keeps.grown p e known
  have isCons' : e'.type = .cons := word0.1.trans isCons
  have car' : e'.car = head := by rw [Cell.car, word0.2]; exact car
  have value : HeadValue W ctx e.car s v s' := by
    rw [car]
    exact .symbol headCell headType run (cell_ne_null operator)
  -- the marks are put into the cell of the arguments
  have marked {n : Nat} {c : Cell} (rest : e'.cdr = .ref n) (arguments : s'.cell (.ref n) = some c) :
      ∃ u, (runtime W).Reaches (blEval site ctx p) s
          (call (.native (.extension xmlGenOperNumber) ctx (.ref n)) >>=
            fun retval => pure (orNull retval)) u ∧
        Keeps names s u ∧ u.cell (.ref n) = some (c.invokedAs head 0) := by
    have points : generatorCell.codePtr = some (.extension xmlGenOperNumber) := rfl
    have reached := eval_reaches_native site known isCons value operator rfl points again rest arguments
    rw [car'] at reached
    exact ⟨_, reached, keeps_trans keeps (keeps_invoked arguments head 0),
      State.cell_put_same (State.ref_lt_fresh arguments) _⟩
  obtain ⟨nc, nullCell, nullType⟩ := null_val_cell sound'
  rcases inner with ⟨empty, none_⟩ | ⟨some_, inner⟩
  · have rest : e'.cdr = .null ∨ e'.cdr = nullVal := by
      rcases (keeps.rest p e e' known again).2 with same | ⟨_, _, filled, _⟩
      · rw [cdr_of_w1 same, cdr]
        exact none_
      · right
        rw [Cell.cdr, filled]
        rfl
    rcases rest with bare | filled
    · -- `None` is stored into the expression
      obtain ⟨a, rfl⟩ : ∃ a, p = .ref a := by
        cases p with
        | null => exact absurd rfl (cell_ne_null known)
        | ref a => exact ⟨a, rfl⟩
        | wild => cases known
      have stored := runs_set_cdr (W := W) again .noArguments nullVal
      have again' := State.cell_put_same (State.ref_lt_fresh again) { e' with w1 := .ofPtr nullVal }
      have apart : nullVal ≠ .ref a := by
        intro same
        rw [same, again] at nullCell
        cases nullCell
        exact absurd (isCons'.symm.trans nullType) (by decide)
      have nullCell' : (s'.put a { e' with w1 := .ofPtr nullVal }).cell nullVal = some nc := by
        rw [State.cell_put_other apart]
        exact nullCell
      have symbol : ∀ h, s'.cell e'.car = some h → h.type = .symbol := by
        intro h found
        obtain ⟨d, found', type', _⟩ := symbol_at_grows keeps.grown named
        rw [car', found'] at found
        cases found
        exact type'
      have keeps' : Keeps names s' (s'.put a { e' with w1 := .ofPtr nullVal }) :=
        keeps_put again rfl rfl rfl (.inr ⟨isCons', w1_of_cdr_null bare, rfl, symbol⟩)
      have kept := keeps_trans (keeps_trans keeps keeps') (keeps_invoked nullCell' head 0)
      have noted : (runtime W).Runs (setInvoked nullVal head 0)
          (s'.put a { e' with w1 := .ofPtr nullVal }) ()
          ((s'.put a { e' with w1 := .ofPtr nullVal }).put 0 (nc.invokedAs head 0)) :=
        runs_set_invoked nullCell' head 0
      have car'' : ({ e' with w1 := .ofPtr nullVal } : Cell).car = head := car'
      refine ⟨0, nc.invokedAs head 0, head, _, reaches_trans
        (eval_reaches_apply site known isCons value) ?_, kept,
        State.cell_put_same (State.ref_lt_fresh nullCell') _, rfl,
        symbol_at_grows kept.grown named, .inl ⟨empty, nullType⟩⟩
      refine reaches_after (runs_load operator) ?_
      simp only [generatorCell]
      refine reaches_after (runs_load again) (reaches_after (runs_load operator) ?_)
      refine reaches_after (runs_member rfl s') ?_
      rw [if_pos bare]
      refine reaches_after stored (reaches_after (runs_load again') ?_)
      rw [car'']
      exact reaches_after noted (.refl _ _)
    · obtain ⟨u, reached, kept, cell⟩ := marked filled nullCell
      exact ⟨0, _, head, u, reached, kept, cell, rfl, symbol_at_grows kept.grown named,
        .inl ⟨empty, nullType⟩⟩
  · have cells := inner
    cases items with
    | nil => exact absurd rfl some_
    | cons item items =>
        obtain ⟨q, next, cell, _⟩ := cells
        have more := list_cell_ne_null cell
        obtain ⟨c, known', _⟩ := cell
        obtain ⟨n, rfl⟩ : ∃ n, args = .ref n := by
          cases args with
          | null => exact absurd rfl more
          | ref n => exact ⟨n, rfl⟩
          | wild => cases known'
        obtain ⟨d, found, _⟩ := keeps.grown _ c known'
        have same : e'.cdr = .ref n := by
          obtain ⟨e'', again'', _, _, cdr''⟩ :=
            list_cell_keeps keeps ⟨e, known, isCons, car, cdr⟩ (.inl more)
          rw [again] at again''
          cases again''
          exact cdr''
        obtain ⟨u, reached, kept, marks⟩ := marked same found
        exact ⟨n, _, head, u, reached, kept, marks, rfl, symbol_at_grows kept.grown named,
          .inr ⟨some_, items_at_keeps _ kept inner⟩⟩

end Heads

section Turns

variable {W : World} {s s0 : State} {ctx xml : Ptr} {names labels : List CStr}

/-- The texts of the items that are no clauses. -/
def contentTexts : List Item → List CStr
  | [] => []
  | .attr _ _ :: items => contentTexts items
  | item :: items => item.render :: contentTexts items

theorem content_texts_flatten (items : List Item) :
    (contentTexts items).flatten = renderAll items := by
  induction items with
  | nil => rfl
  | cons item items ih =>
      cases item with
      | attr name value => exact ih
      | leaf str => exact congrArg ((Item.leaf str).render ++ ·) ih
      | element tag inner => exact congrArg ((Item.element tag inner).render ++ ·) ih

theorem content_texts_empty (items : List Item) :
    contentTexts items = [] ↔ hasContent items = false := by
  induction items with
  | nil => exact ⟨fun _ => rfl, fun _ => rfl⟩
  | cons item items ih =>
      cases item with
      | attr name value => exact ih
      | leaf str => simp [contentTexts, hasContent]
      | element tag inner => simp [contentTexts, hasContent]

mutual

def Item.labels : Item → List CStr
  | .attr name _ => [name]
  | .leaf _ => []
  | .element _ items => labelsOf items

def labelsOf : List Item → List CStr
  | [] => []
  | item :: items => item.labels ++ labelsOf items

end

/-- The tree can be evaluated in the context: the names of attributes are found in
the symbol table, or will be put there, as themselves. -/
structure Setting (names labels : List CStr) (ctx xml : Ptr) (s : State) : Prop where
  scene : Scene s ctx xml
  labels : ∀ name ∈ labels, NoKeyOf names name ∧ FindsOwn s name

theorem setting_keeps {t : State} (keeps : Keeps names s t)
    (setting : Setting names labels ctx xml s) : Setting names labels ctx xml t where
  scene := scene_keeps keeps setting.scene
  labels := fun name mem =>
    ⟨(setting.labels name mem).1, keeps.own name (setting.labels name mem).1 (setting.labels name mem).2⟩

def Item.isClause : Item → Bool
  | .attr _ _ => true
  | _ => false

theorem is_clause_runs (item : Item) {q : Ptr} (at_ : ItemAt s item q) :
    (runtime W).Runs (isAttributeClause q) s item.isClause s := by
  cases item with
  | leaf str =>
      obtain ⟨c, known, type, _⟩ := at_
      rw [isAttributeClause, runs_after (runs_load known), if_neg (by rw [type]; decide)]
      exact runs_pure_self _ _
  | attr name value =>
      obtain ⟨head, clause, _, _, _, ⟨c, known, type, car, _⟩, ⟨h, found, symbol, held⟩, _⟩ := at_
      rw [isAttributeClause, runs_after (runs_load known), if_pos type, car,
        runs_after (runs_load found), if_pos symbol, runs_after (runs_member held s)]
      exact runs_pure_self _ _
  | element tag items =>
      obtain ⟨head, args, ⟨c, known, type, car, _⟩, ⟨h, found, symbol, held⟩, _⟩ := at_
      have other : (text "x::" ++ tag == text "@") = false := rfl
      rw [isAttributeClause, runs_after (runs_load known), if_pos type, car,
        runs_after (runs_load found), if_pos symbol, runs_after (runs_member held s), other]
      exact runs_pure_self _ _

abbrev itemsLoop (ctx i L M : Ptr) : Prog (List Ptr × CStr) :=
  call (.extensionLoop itemsNumber [ctx, i, L, M] [])

theorem items_loop_unfolds (loaded : W.HasXml) {i L M : Ptr} {r : List Ptr × CStr} {t : State} :
    (runtime W).Runs (itemsLoop ctx i L M) s r t ↔
      (runtime W).Runs (xmlItemsLoop ctx i L M) s r t := by
  refine (runs_call_iff (c := .extensionLoop itemsNumber [ctx, i, L, M] [])).trans ?_
  change (runtime W).Runs (W.loop itemsNumber [ctx, i, L, M] []) s r t ↔ _
  rw [loaded.items]
  rfl

structure Collected (names : List CStr) (s0 s : State) (texts : List CStr)
    (pairs : List (CStr × CStr)) (L M : Ptr) : Prop where
  keeps : Keeps names s0 s
  sound : Sound s
  texts : ListOf StringAt s0.fresh s texts L
  pairs : ListOf PairAt s0.fresh s pairs M

theorem collected_keeps {t : State} {texts : List CStr} {pairs : List (CStr × CStr)} {L M : Ptr}
    (before : Collected names s0 s texts pairs L M) (keeps : Keeps names s t) (sound : Sound t) :
    Collected names s0 t texts pairs L M where
  keeps := keeps_trans before.keeps keeps
  sound := sound
  texts := list_of_keeps keeps (fun _ _ => strings_collectable.cell)
    (fun _ _ => strings_collectable.keeps keeps) before.texts
  pairs := list_of_keeps keeps (fun _ _ => pairs_collectable.cell)
    (fun _ _ => pairs_collectable.keeps keeps) before.pairs

theorem items_turn_clause (loaded : W.HasXml) (setting : Setting names labels ctx xml s0)
    {name value : CStr} (made : name ∈ names) (labelled : name ∈ labels) {i q rest L M : Ptr}
    (cell : ListCell s0 i q rest) (at_ : ItemAt s0 (.attr name value) q) {texts : List CStr}
    {pairs : List (CStr × CStr)} (before : Collected names s0 s texts pairs L M) :
    ∃ M' t, Collected names s0 t texts (pairs ++ [(name, value)]) L M' ∧
      ∀ r u, (runtime W).Runs (itemsLoop ctx rest L M') t r u →
        (runtime W).Runs (itemsLoop ctx i L M) s r u := by
  have setting' := setting_keeps before.keeps setting
  obtain ⟨apart, finds⟩ := setting'.labels name labelled
  obtain ⟨c, known, plain⟩ := setting'.scene.plain
  have fixed := item_at_cell _ at_
  have at' := item_at_keeps _ before.keeps at_
  obtain ⟨head, clause, quoted, last, str, ⟨cc, foundClause, _, _, isClause⟩, _, first, isQuoted,
    second, string⟩ := id at'
  obtain ⟨ic, foundI, _, car, _⟩ := list_cell_keeps before.keeps cell (.inr fixed)
  obtain ⟨v, m, run, pair, keeps⟩ := eval_clause_runs (W := W) .operand before.sound known plain made
    apart finds first isQuoted second string
  have middle := collected_keeps before keeps (runs_sound before.sound run)
  obtain ⟨M', t, run', keeps', pairs', texts'⟩ := append_runs (W := W) pairs_collectable
    strings_collectable (fun isPair string => no_string_pair string isPair) middle.keeps middle.pairs
    middle.texts pair
  obtain ⟨jc, foundJ, _, _, cdr⟩ := list_cell_keeps keeps' cell (.inr fixed)
  refine ⟨M', t, ⟨keeps', runs_sound middle.sound run', texts', pairs'⟩, fun r u next => ?_⟩
  rw [items_loop_unfolds loaded, xmlItemsLoop, if_neg (cell_ne_null foundI),
    runs_after (runs_load foundI), car, runs_after (is_clause_runs _ at')]
  have clause_ : (Item.attr name value).isClause = true := rfl
  rw [if_pos clause_, runs_after (runs_load foundClause), isClause, runs_after run, runs_after run',
    runs_after (runs_load foundJ), cdr]
  exact next

theorem items_turn_value (loaded : W.HasXml) {item : Item} (noClause : item.isClause = false)
    {i q rest L M v : Ptr} {m : State} (cell : ListCell s0 i q rest) (at_ : ItemAt s0 item q)
    {texts : List CStr} {pairs : List (CStr × CStr)}
    (before : Collected names s0 s texts pairs L M)
    (run : (runtime W).Runs (blEval .operand ctx q) s v m) (string : StringAt m item.render v)
    (keeps : Keeps names s m) :
    ∃ L' t, Collected names s0 t (texts ++ [item.render]) pairs L' M ∧
      ∀ r u, (runtime W).Runs (itemsLoop ctx rest L' M) t r u →
        (runtime W).Runs (itemsLoop ctx i L M) s r u := by
  have fixed := item_at_cell _ at_
  have at' := item_at_keeps _ before.keeps at_
  obtain ⟨ic, foundI, _, car, _⟩ := list_cell_keeps before.keeps cell (.inr fixed)
  have made : (runtime W).Runs (mkStr item.render) m (.ref m.fresh)
      (m.allocated (.mkStr item.render)) := runs_alloc _ m
  have sound := runs_sound (runs_sound before.sound run) made
  have middle := collected_keeps before (keeps_trans keeps (keeps_allocated m (.mkStr item.render)))
    sound
  have string' : StringAt (m.allocated (.mkStr item.render)) item.render (.ref m.fresh) :=
    ⟨_, State.cell_allocated_new m _, rfl, rfl⟩
  obtain ⟨L', t, run', keeps', texts', pairs'⟩ := append_runs (W := W) strings_collectable
    pairs_collectable no_string_pair middle.keeps middle.texts middle.pairs string'
  obtain ⟨jc, foundJ, _, _, cdr⟩ := list_cell_keeps keeps' cell (.inr fixed)
  refine ⟨L', t, ⟨keeps', runs_sound sound run', texts', pairs'⟩, fun r u next => ?_⟩
  rw [items_loop_unfolds loaded, xmlItemsLoop, if_neg (cell_ne_null foundI),
    runs_after (runs_load foundI), car, runs_after (is_clause_runs _ at'), noClause,
    if_neg (by simp), runs_after run, runs_after (naked_string_runs string), runs_after made,
    runs_after run', runs_after (runs_load foundJ), cdr]
  exact next

end Turns

section Generator

variable {W : World} {s : State} {ctx xml : Ptr} {names labels : List CStr}

theorem items_list_at {items : List Item} {p : Ptr} (at_ : ItemsAt s items p) :
    ∃ xs, ListAt s xs p ∧ xs.length = items.length ∧ ∀ x ∈ xs, x ≠ .null := by
  induction items generalizing p with
  | nil => exact ⟨[], at_, rfl, fun _ mem => absurd mem List.not_mem_nil⟩
  | cons item items ih =>
      obtain ⟨q, rest, ⟨c, known, type, car, cdr⟩, first, others⟩ := at_
      obtain ⟨xs, list, length, filled⟩ := ih others
      obtain ⟨h, held, _⟩ := item_at_cell item first
      obtain ⟨a, rfl⟩ : ∃ a, p = .ref a := by
        cases p with
        | null => exact absurd rfl (cell_ne_null known)
        | ref a => exact ⟨a, rfl⟩
        | wild => cases known
      refine ⟨q :: xs, ⟨a, c, rfl, known, type, car, cdr ▸ list⟩, by simp [length], fun x mem => ?_⟩
      rcases List.mem_cons.1 mem with rfl | mem
      · exact cell_ne_null held
      · exact filled x mem

theorem items_len_runs {items : List Item} (some_ : items ≠ []) {p : Ptr}
    (at_ : ItemsAt s items p) : ∃ n, (runtime W).Runs (blListLen p) s (n + 1) s := by
  obtain ⟨xs, list, length, filled⟩ := items_list_at at_
  cases xs with
  | nil => exact absurd (List.length_eq_zero_iff.1 length.symm) some_
  | cons x xs => exact ⟨_, list_len_runs list (filled x List.mem_cons_self)⟩

theorem list_of_null {α : Type} {P : State → α → Ptr → Prop} {lo : Nat} {xs : List α} {p : Ptr}
    (list : ListOf P lo s xs p) : p = .null ↔ xs = [] := by
  cases xs with
  | nil => exact ⟨fun _ => rfl, fun _ => list⟩
  | cons x xs =>
      obtain ⟨a, _, _, rfl, _⟩ := list
      simp

theorem start_runs (loaded : W.HasXml) {items : List Item} (some_ : items ≠ []) (tag : CStr)
    {lo : Nat} {L M : Ptr} (texts : ListOf StringAt lo s (contentTexts items) L)
    (pairs : ListOf PairAt lo s (attributesOf items) M) :
    (runtime W).Runs (xmlStart tag L M) s
      (text "<" ++ tag ++ attributeText (attributesOf items) ++ text ">") s := by
  by_cases none_ : M = .null
  · have bare := (list_of_null pairs).1 none_
    have content := has_content_of_no_attributes some_ bare
    have filled : L ≠ .null := by
      intro empty
      have noContent := (content_texts_empty items).1 ((list_of_null texts).1 empty)
      rw [content] at noContent
      cases noContent
    rw [xmlStart, if_pos none_, if_neg filled, bare, attributeText, List.append_nil]
    exact runs_pure_self _ _
  · rw [xmlStart, if_neg none_, runs_after (attributes_loop_runs loaded pairs _)]
    exact runs_pure_self _ _

theorem mk_str_at (names : List CStr) (s : State) (str : CStr) :
    (runtime W).Runs (mkStr str) s (.ref s.fresh) (s.allocated (.mkStr str)) ∧
      StringAt (s.allocated (.mkStr str)) str (.ref s.fresh) ∧
      Keeps names s (s.allocated (.mkStr str)) :=
  ⟨runs_alloc _ s, ⟨_, State.cell_allocated_new s _, rfl, rfl⟩, keeps_allocated s _⟩

/-- The generator up to the length of the arguments. -/
theorem generator_begins {n : Nat} {c : Cell} {tag : CStr} (known : s.cell (.ref n) = some c)
    (named : SymbolAt s (text "x::" ++ tag) c.invokedSym) {m : Nat} {v : Ptr} {t : State}
    (length : (runtime W).Runs (blListLen (.ref n)) (s.allocated (.mkStr (tagName tag))) m
      (s.allocated (.mkStr (tagName tag))))
    (rest : (runtime W).Runs (if m = 0 then mkStr (text "<" ++ tagName tag ++ text "/>")
      else do
        let (lists, _) ← itemsLoop ctx (.ref n) .null .null
        match lists with
        | [retList, attrList] =>
            let name ← strOf (.ref s.fresh)
            let retval ← xmlStart name retList attrList
            if retList = .null then mkStr retval
            else
              let (_, retval) ← call (.extensionLoop contentNumber [retList] retval)
              let name ← strOf (.ref s.fresh)
              mkStr (retval ++ text "</" ++ name ++ text ">")
        | _ => trap) (s.allocated (.mkStr (tagName tag))) v t) :
    (runtime W).Runs (xmlGenOper ctx (.ref n)) s v t := by
  have made : (runtime W).Runs (mkStr (tagName tag)) s (.ref s.fresh)
      (s.allocated (.mkStr (tagName tag))) := runs_alloc _ s
  rw [xmlGenOper, runs_after (runs_load known), runs_after (symbol_str_runs named),
    runs_after (runs_member (after_colon_path tag) s), runs_after made, runs_after length]
  exact rest

theorem generator_empty_runs (names : List CStr) (ctx : Ptr) {n : Nat} {c : Cell} {tag : CStr}
    (known : s.cell (.ref n) = some c) (type : c.type = .null)
    (named : SymbolAt s (text "x::" ++ tag) c.invokedSym) :
    ∃ v t, (runtime W).Runs (xmlGenOper ctx (.ref n)) s v t ∧
      StringAt t (Item.element tag []).render v ∧ Keeps names s t := by
  obtain ⟨made, _, keeps⟩ := mk_str_at (W := W) names s (tagName tag)
  obtain ⟨run, string, keeps'⟩ := mk_str_at (W := W) names
    (s.allocated (.mkStr (tagName tag))) (text "<" ++ tagName tag ++ text "/>")
  have length : (runtime W).Runs (blListLen (.ref n)) (s.allocated (.mkStr (tagName tag))) 0
      (s.allocated (.mkStr (tagName tag))) := by
    rw [blListLen, if_neg (by simp), runs_after (runs_load (State.cell_allocated_old known _)),
      if_pos type]
    exact runs_pure_self _ _
  refine ⟨_, _, generator_begins known named length ?_, string,
    keeps_trans keeps keeps'⟩
  rw [if_pos rfl]
  exact run

/-- The generator, when the loop over the items is known. -/
theorem generator_runs (loaded : W.HasXml) {n : Nat} {c : Cell} {tag : CStr} {items : List Item}
    (some_ : items ≠ []) (known : s.cell (.ref n) = some c)
    (named : SymbolAt s (text "x::" ++ tag) c.invokedSym) (at_ : ItemsAt s items (.ref n))
    {L M : Ptr} {t : State}
    (loop : (runtime W).Runs (itemsLoop ctx (.ref n) .null .null)
      (s.allocated (.mkStr (tagName tag))) ([L, M], []) t)
    (collected : Collected names (s.allocated (.mkStr (tagName tag))) t (contentTexts items)
      (attributesOf items) L M) :
    ∃ v u, (runtime W).Runs (xmlGenOper ctx (.ref n)) s v u ∧
      StringAt u (Item.element tag items).render v ∧ Keeps names s u := by
  obtain ⟨made, tagged, keeps⟩ := mk_str_at (W := W) names s (tagName tag)
  have kept := keeps_trans keeps collected.keeps
  have tagged' := string_at_grows collected.keeps.grown tagged
  obtain ⟨k, length⟩ := items_len_runs (W := W) some_ (items_at_keeps items keeps at_)
  have start := start_runs loaded some_ (tagName tag) collected.texts collected.pairs
  have isEmpty : items.isEmpty = false := by
    cases items with
    | nil => exact absurd rfl some_
    | cons item items => rfl
  by_cases none_ : L = .null
  · have content := (content_texts_empty items).1 ((list_of_null collected.texts).1 none_)
    obtain ⟨run, string, keeps'⟩ := mk_str_at (W := W) names t
      (text "<" ++ tagName tag ++ attributeText (attributesOf items) ++ text ">")
    refine ⟨.ref t.fresh, _, generator_begins known named length ?_, ?_,
      keeps_trans kept keeps'⟩
    · rw [if_neg (by simp), runs_after loop]
      dsimp only
      rw [runs_after (str_of_runs tagged'), runs_after start, if_pos none_]
      exact run
    · simpa [Item.render, isEmpty, content] using string
  · have content : hasContent items = true := by
      cases held : hasContent items with
      | true => rfl
      | false =>
          exact absurd ((list_of_null collected.texts).2 ((content_texts_empty items).2 held)) none_
    have texts := content_loop_runs loaded collected.texts
      (text "<" ++ tagName tag ++ attributeText (attributesOf items) ++ text ">")
    rw [content_texts_flatten] at texts
    obtain ⟨run, string, keeps'⟩ := mk_str_at (W := W) names t
      (text "<" ++ tagName tag ++ attributeText (attributesOf items) ++ text ">" ++
        renderAll items ++ text "</" ++ tagName tag ++ text ">")
    refine ⟨.ref t.fresh, _, generator_begins known named length ?_, ?_,
      keeps_trans kept keeps'⟩
    · rw [if_neg (by simp), runs_after loop]
      dsimp only
      rw [runs_after (str_of_runs tagged'), runs_after start, if_neg none_, runs_after texts]
      dsimp only
      rw [runs_after (str_of_runs tagged')]
      exact run
    · simpa [Item.render, isEmpty, content] using string

end Generator

section Trees

variable {W : World} {ctx xml : Ptr} {names labels : List CStr}

mutual

/-- An expression that stands for a tree evaluates to the text of the tree. -/
theorem eval_item_runs (loaded : W.HasXml) : ∀ (item : Item) {s : State} {p : Ptr} (site : Site),
    item.isClause = false → Sound s → Setting names labels ctx xml s →
    (∀ n ∈ item.interns, n ∈ names) → (∀ n ∈ item.labels, n ∈ labels) → ItemAt s item p →
    ∃ v t, (runtime W).Runs (blEval site ctx p) s v t ∧ StringAt t item.render v ∧ Keeps names s t
  | .attr _ _, _, _, _, isClause, _, _, _, _, _ => nomatch isClause
  | .leaf _, s, p, site, _, _, _, _, _, at_ => ⟨p, s, eval_string_runs site at_, at_, keeps_refl s⟩
  | .element tag items, s, p, site, _, sound, setting, made, labelled, at_ => by
      have tagged : tag ∈ names := made tag (by simp [Item.interns])
      obtain ⟨n, c, head, u, reached, keeps, cell, marks, named, inner⟩ :=
        call_reaches_generator loaded site sound setting.scene tagged at_
      subst marks
      have soundU := reaches_sound sound reached
      have finish {v : Ptr} {t : State}
          (generated : (runtime W).Runs (xmlGenOper ctx (.ref n)) u v t)
          (string : StringAt t (Item.element tag items).render v) :
          (runtime W).Runs (blEval site ctx p) s v t := by
        have native : (runtime W).Runs (call (.native (.extension xmlGenOperNumber) ctx (.ref n)))
            u v t := by
          refine runs_call (c := .native (.extension xmlGenOperNumber) ctx (.ref n)) ?_
          change (runtime W).Runs (W.oper xmlGenOperNumber ctx (.ref n)) u v t
          rw [loaded.oper]
          exact generated
        obtain ⟨_, filled, _⟩ := string
        refine (reaches_runs_iff reached).2 ?_
        rw [runs_after native, orNull, if_neg (cell_ne_null filled)]
        exact runs_pure_self _ _
      rcases inner with ⟨rfl, type⟩ | ⟨some_, inner⟩
      · obtain ⟨v, t, generated, string, keeps'⟩ :=
          generator_empty_runs (W := W) names ctx cell type named
        exact ⟨v, t, finish generated string, string, keeps_trans keeps keeps'⟩
      · have made' : Keeps names u (u.allocated (.mkStr (tagName tag))) := keeps_allocated u _
        have start : Collected names (u.allocated (.mkStr (tagName tag)))
            (u.allocated (.mkStr (tagName tag))) [] [] .null .null :=
          ⟨keeps_refl _, runs_sound (W := W) soundU (runs_alloc (.mkStr (tagName tag)) u),
            rfl, rfl⟩
        obtain ⟨L, M, t, collected, loop⟩ := items_loop_runs loaded items
          (setting_keeps (keeps_trans keeps made') setting)
          (fun name mem => made name (by simp [Item.interns, mem])) labelled
          (items_at_keeps items made' inner) start
        obtain ⟨v, t', generated, string, keeps'⟩ :=
          generator_runs loaded some_ cell named inner loop collected
        exact ⟨v, t', finish generated string, string, keeps_trans keeps keeps'⟩

theorem items_loop_runs (loaded : W.HasXml) : ∀ (items : List Item) {s0 s : State} {i L M : Ptr}
    {texts : List CStr} {pairs : List (CStr × CStr)}, Setting names labels ctx xml s0 →
    (∀ n ∈ internsOf items, n ∈ names) → (∀ n ∈ labelsOf items, n ∈ labels) →
    ItemsAt s0 items i → Collected names s0 s texts pairs L M →
    ∃ L' M' t, Collected names s0 t (texts ++ contentTexts items) (pairs ++ attributesOf items)
        L' M' ∧ (runtime W).Runs (itemsLoop ctx i L M) s ([L', M'], []) t
  | [], s0, s, i, L, M, texts, pairs, _, _, _, at_, before => by
      have none_ : i = .null := at_
      refine ⟨L, M, s, by simpa [contentTexts, attributesOf] using before, ?_⟩
      rw [items_loop_unfolds loaded, xmlItemsLoop, if_pos none_]
      exact runs_pure_self _ _
  | .attr name value :: items, s0, s, i, L, M, texts, pairs, setting, made, labelled, at_, before => by
      obtain ⟨q, rest, cell, first, others⟩ := at_
      obtain ⟨M1, s1, before1, turn⟩ := items_turn_clause loaded setting
        (made name (by simp [internsOf, Item.interns]))
        (labelled name (by simp [labelsOf, Item.labels])) cell first before
      obtain ⟨L', M', t, after, run⟩ := items_loop_runs loaded items setting
        (fun n mem => made n (by simp [internsOf, mem]))
        (fun n mem => labelled n (by simp [labelsOf, mem])) others before1
      refine ⟨L', M', t, ?_, turn _ _ run⟩
      rwa [List.append_assoc] at after
  | .leaf str :: items, s0, s, i, L, M, texts, pairs, setting, made, labelled, at_, before => by
      obtain ⟨q, rest, cell, first, others⟩ := at_
      obtain ⟨v, m, evaluated, string, keeps⟩ := eval_item_runs loaded (.leaf str) .operand rfl
        before.sound (setting_keeps before.keeps setting)
        (fun n mem => made n (by simp [internsOf, mem]))
        (fun n mem => labelled n (by simp [labelsOf, mem])) (item_at_keeps _ before.keeps first)
      obtain ⟨L1, s1, before1, turn⟩ :=
        items_turn_value loaded rfl cell first before evaluated string keeps
      obtain ⟨L', M', t, after, run⟩ := items_loop_runs loaded items setting
        (fun n mem => made n (by simp [internsOf, mem]))
        (fun n mem => labelled n (by simp [labelsOf, mem])) others before1
      refine ⟨L', M', t, ?_, turn _ _ run⟩
      rwa [List.append_assoc] at after
  | .element tag inner :: items, s0, s, i, L, M, texts, pairs, setting, made, labelled, at_,
      before => by
      obtain ⟨q, rest, cell, first, others⟩ := at_
      obtain ⟨v, m, evaluated, string, keeps⟩ := eval_item_runs loaded (.element tag inner) .operand
        rfl before.sound (setting_keeps before.keeps setting)
        (fun n mem => made n (List.mem_append_left _ mem))
        (fun n mem => labelled n (List.mem_append_left _ mem)) (item_at_keeps _ before.keeps first)
      obtain ⟨L1, s1, before1, turn⟩ :=
        items_turn_value loaded rfl cell first before evaluated string keeps
      obtain ⟨L', M', t, after, run⟩ := items_loop_runs loaded items setting
        (fun n mem => made n (List.mem_append_right _ mem))
        (fun n mem => labelled n (List.mem_append_right _ mem)) others before1
      refine ⟨L', M', t, ?_, turn _ _ run⟩
      rwa [List.append_assoc] at after

end

/-- The generator returns a text, and it stands for the tree exactly when every
element with attributes has content, no element has two attributes of one name and
no tag has a colon. -/
theorem markup_read_back_iff (loaded : W.HasXml) (site : Site) {s : State} {tag : CStr}
    {items : List Item} {p : Ptr} (sound : Sound s) (scene : Scene s ctx xml)
    (at_ : ItemAt s (.element tag items) p) (neat : (Item.element tag items).Neat)
    (own : ∀ name ∈ (Item.element tag items).labels,
      NoKeyOf (Item.element tag items).interns name ∧ FindsOwn s name) :
    ∃ v t out, (runtime W).Runs (blEval site ctx p) s v t ∧ StringAt t out v ∧
      (ParsesTo byteKind out (.element tag (attributesOf items) (nodesOf items)) ↔
        (Item.element tag items).Every WellMade) := by
  have setting : Setting (Item.element tag items).interns (Item.element tag items).labels ctx xml s :=
    ⟨scene, own⟩
  obtain ⟨v, t, run, string, _⟩ := eval_item_runs loaded (.element tag items) site rfl sound setting
    (fun _ mem => mem) (fun _ mem => mem) at_
  exact ⟨v, t, _, run, string, parses_iff neat⟩

/-- `(x::p (@ 'id "v") "hi")` and `(x::br (@ 'id "v"))`. -/
def twoElements : State where
  cells := staticCells ++
    [{ type := .symbol, w0 := .str (text "x"), w1 := .ofNat 0 },
     .mkCtx { Ctx.new 8 .null with
       keys := [.ref 7, .null, .null, .null, .null, .null, .null, .null]
       vals := [.ref 9, .null, .null, .null, .null, .null, .null, .null] },
     .mkCtx { Ctx.new 8 (.ref 8) with ctxGet := some xGetNumber },
     { type := .symbol, w0 := .str (text "x::p"), w1 := .ofNat 1 },
     { type := .symbol, w0 := .str (text "x::br"), w1 := .ofNat 2 },
     { type := .symbol, w0 := .str (text "@"), w1 := .ofNat 3 },
     { type := .symbol, w0 := .str (text "'id"), w1 := .ofNat 4 },
     .mkStr (text "v"), .mkStr (text "hi"),
     .mkCons (.ref 14) .null, .mkCons (.ref 13) (.ref 16), .mkCons (.ref 12) (.ref 17),
     .mkCons (.ref 15) .null, .mkCons (.ref 18) (.ref 19), .mkCons (.ref 10) (.ref 20),
     .mkCons (.ref 18) .null, .mkCons (.ref 11) (.ref 22)]
  symbolTable := [⟨text "'id", 13⟩, ⟨text "@", 12⟩, ⟨text "x::br", 11⟩, ⟨text "x::p", 10⟩, ⟨text "x", 7⟩]
  lastSymId := 5

theorem sound_two_elements : Sound twoElements :=
  sound_of_names (statics_of_append _ _ _ _) (by decide) (by decide)

theorem scene_two_elements : Scene twoElements (.ref 8) (.ref 9) where
  plain := ⟨_, rfl, rfl⟩
  bound := ⟨.ref 7, 0, 8, ⟨_, rfl, rfl⟩, ⟨_, _, rfl, rfl, rfl, rfl, by decide, rfl⟩,
    .here rfl rfl (by decide) rfl (by decide)⟩
  module := ⟨_, rfl, rfl⟩

theorem clause_at_two_elements : ItemAt twoElements (.attr (text "id") (text "v")) (.ref 18) :=
  ⟨_, _, _, _, _, ⟨_, rfl, rfl, rfl, rfl⟩, ⟨_, rfl, rfl, rfl⟩, ⟨_, rfl, rfl, rfl, rfl⟩,
    ⟨_, rfl, rfl, rfl⟩, ⟨_, rfl, rfl, rfl, rfl⟩, ⟨_, rfl, rfl, rfl⟩⟩

theorem is_name_of_check {first : Byte} {rest : CStr} (start : byteKind first = .nameStart)
    (others : rest.all (fun c => byteKind c == .nameStart || byteKind c == .nameRest) = true) :
    IsName byteKind (first :: rest) := by
  refine ⟨fun c mem => ?_, first, rfl, start⟩
  rcases List.mem_cons.1 mem with rfl | mem
  · exact .inl start
  · simpa [IsNameChar] using List.all_eq_true.1 others c mem

theorem plain_of_check {str : CStr} (check : str.all (fun c => decide (Plain c)) = true) :
    ∀ c ∈ str, Plain c := fun c mem => of_decide_eq_true (List.all_eq_true.1 check c mem)

theorem clause_neat : (Item.attr (text "id") (text "v")).Neat :=
  ⟨is_name_of_check rfl rfl, plain_of_check (by decide)⟩

theorem label_found {tag : CStr} {items : List Item}
    (apart : NoKeyOf (Item.element tag items).interns (text "id")) : ∀ name ∈ [text "id"],
      NoKeyOf (Item.element tag items).interns name ∧ FindsOwn twoElements name := by
  intro name mem
  rw [List.mem_singleton.1 mem]
  exact ⟨apart, by unfold FindsOwn; decide⟩

/-- The text of `(x::p (@ 'id "v") "hi")`. -/
theorem markup_read_back_iff_paragraph : ∃ v t out,
    (runtime World.xml).Runs (blEval .operand (.ref 8) (.ref 21)) twoElements v t ∧
      StringAt t out v ∧
      (ParsesTo byteKind out (.element (text "p") [(text "id", text "v")] ((text "hi").map .char)) ↔
        (Item.element (text "p") [.attr (text "id") (text "v"), .leaf (text "hi")]).Every
          WellMade) := by
  have at_ : ItemAt twoElements
      (.element (text "p") [.attr (text "id") (text "v"), .leaf (text "hi")]) (.ref 21) :=
    ⟨_, _, ⟨_, rfl, rfl, rfl, rfl⟩, ⟨_, rfl, rfl, rfl⟩, .inr ⟨by simp,
      _, _, ⟨_, rfl, rfl, rfl, rfl⟩, clause_at_two_elements,
      _, _, ⟨_, rfl, rfl, rfl, rfl⟩, ⟨_, rfl, rfl, rfl⟩, rfl⟩⟩
  exact markup_read_back_iff xml_has_xml .operand sound_two_elements scene_two_elements at_
    ⟨is_name_of_check rfl rfl, clause_neat, plain_of_check (by decide), trivial⟩
    (label_found (by unfold NoKeyOf; decide))

/-- `(x::br (@ 'id "v"))` gives `<br id="v">`, and the element is not closed. -/
theorem attributes_alone_unclosed : ∃ v t out,
    (runtime World.xml).Runs (blEval .operand (.ref 8) (.ref 23)) twoElements v t ∧
      StringAt t out v ∧ (Item.element (text "br") [.attr (text "id") (text "v")]).Neat ∧
      ItemAt twoElements (.element (text "br") [.attr (text "id") (text "v")]) (.ref 23) ∧
      ¬ ParsesTo byteKind out (.element (text "br") [(text "id", text "v")] []) := by
  have at_ : ItemAt twoElements (.element (text "br") [.attr (text "id") (text "v")]) (.ref 23) :=
    ⟨_, _, ⟨_, rfl, rfl, rfl, rfl⟩, ⟨_, rfl, rfl, rfl⟩, .inr ⟨by simp,
      _, _, ⟨_, rfl, rfl, rfl, rfl⟩, clause_at_two_elements, rfl⟩⟩
  have neat : (Item.element (text "br") [.attr (text "id") (text "v")]).Neat :=
    ⟨is_name_of_check rfl rfl, clause_neat, trivial⟩
  have own : ∀ name ∈ [text "id"], NoKeyOf (Item.element (text "br")
      [.attr (text "id") (text "v")]).interns name ∧ FindsOwn twoElements name :=
    label_found (by unfold NoKeyOf; decide)
  obtain ⟨v, t, run, string, _⟩ := eval_item_runs xml_has_xml
    (.element (text "br") [.attr (text "id") (text "v")]) .operand rfl sound_two_elements
    ⟨scene_two_elements, own⟩ (fun _ mem => mem) (fun _ mem => mem) at_
  refine ⟨v, t, _, run, string, neat, at_, fun parsed => ?_⟩
  have filled := ((parses_iff neat).1 parsed).1.filled
  exact absurd (filled (by simp [attributesOf])) (by decide)

end Trees

end BearLang.XmlTrees
