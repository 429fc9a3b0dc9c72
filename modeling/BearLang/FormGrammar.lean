import BearLang.Reader
import BearLang.Trees

/-!
# Forms in a list of tokens

`Forms` follows `read_list`: it stops at the first closing parenthesis that it
has not opened, and at the end of the tokens. `Forest` is the grammar of
balanced input. A token becomes an atom, a symbol by way of the names that are
known.
-/

namespace BearLang

set_option autoImplicit false

def Token.atom (slash : Bool) (known : List CStr) (t : Token) : Option (Atom × List CStr) :=
  match t.type with
  | .lparen => none
  | .rparen => none
  | .string => some (.string (unescape slash t.text), known)
  | .integer => some (.integer (mpzSetStr t.text), known)
  | .symbol => some (.symbol (internName known t.text).1, (internName known t.text).2)
  | .ifToken => some (.ifOper, known)
  | .doToken => some (.doOper, known)
  | .whileToken => some (.whileOper, known)
  | .docstring => some (.docstring t.text, known)

/-- What `read_list` takes from the tokens, and what it leaves. -/
inductive Forms (slash : Bool) :
    List CStr → List Token → List Datum → List Token → List CStr → Prop where
  | stop (known : List CStr) : Forms slash known [] [] [] known
  | close (known : List CStr) {t : Token} (rest : List Token) (closes : t.type = .rparen) :
      Forms slash known (t :: rest) [] rest known
  | atom {known between after : List CStr} {t : Token} {a : Atom} {tokens rest : List Token}
      {items : List Datum} (value : t.atom slash known = some (a, between))
      (later : Forms slash between tokens items rest after) :
      Forms slash known (t :: tokens) (.atom a :: items) rest after
  | list {known between after : List CStr} {t : Token} {tokens middle rest : List Token}
      {inner items : List Datum} (opens : t.type = .lparen)
      (inside : Forms slash known tokens inner middle between)
      (later : Forms slash between middle items rest after) :
      Forms slash known (t :: tokens) (.list inner :: items) rest after

inductive Forest (slash : Bool) : List CStr → List Token → List Datum → List CStr → Prop where
  | nothing (known : List CStr) : Forest slash known [] [] known
  | atom {known between after : List CStr} {t : Token} {a : Atom} {tokens : List Token}
      {items : List Datum} (value : t.atom slash known = some (a, between))
      (later : Forest slash between tokens items after) :
      Forest slash known (t :: tokens) (.atom a :: items) after
  | list {known between after : List CStr} {t u : Token} {inside tokens : List Token}
      {inner items : List Datum} (opens : t.type = .lparen)
      (within : Forest slash known inside inner between) (closes : u.type = .rparen)
      (later : Forest slash between tokens items after) :
      Forest slash known (t :: (inside ++ u :: tokens)) (.list inner :: items) after

/-- No closing parenthesis without an opener, and at the end none left open. -/
@[grind =]
def balancedFrom : Nat → List Token → Bool
  | depth, [] => depth == 0
  | depth, t :: tokens =>
      match t.type, depth with
      | .lparen, depth => balancedFrom (depth + 1) tokens
      | .rparen, 0 => false
      | .rparen, depth + 1 => balancedFrom depth tokens
      | _, depth => balancedFrom depth tokens

def balanced (tokens : List Token) : Bool := balancedFrom 0 tokens

variable {slash : Bool}

section Parentheses

theorem atom_or_parenthesis (known : List CStr) (t : Token) :
    t.type = .lparen ∨ t.type = .rparen ∨ ∃ a between, t.atom slash known = some (a, between) := by
  unfold Token.atom
  cases t.type <;> simp

theorem balanced_from_atom {known between : List CStr} {t : Token} {a : Atom}
    (value : t.atom slash known = some (a, between)) (depth : Nat) (tokens : List Token) :
    balancedFrom depth (t :: tokens) = balancedFrom depth tokens := by
  unfold Token.atom at value
  cases type : t.type <;> simp [type] at value <;> simp [balancedFrom, type]

theorem balanced_from_open {t : Token} (opens : t.type = .lparen) (depth : Nat)
    (tokens : List Token) :
    balancedFrom depth (t :: tokens) = balancedFrom (depth + 1) tokens := by
  simp only [balancedFrom, opens]

theorem balanced_from_close {t : Token} (closes : t.type = .rparen) (depth : Nat)
    (tokens : List Token) :
    balancedFrom (depth + 1) (t :: tokens) = balancedFrom depth tokens := by
  simp only [balancedFrom, closes]

theorem not_balanced_close {t : Token} (closes : t.type = .rparen) (tokens : List Token) :
    balancedFrom 0 (t :: tokens) = false := by
  simp only [balancedFrom, closes]

/-- Balanced forms do not change the depth. -/
theorem balanced_from_forest {known after : List CStr} {tokens : List Token} {items : List Datum}
    (forest : Forest slash known tokens items after) (depth : Nat) (rest : List Token) :
    balancedFrom depth (tokens ++ rest) = balancedFrom depth rest := by
  induction forest generalizing depth rest with
  | nothing => rfl
  | atom value _ ih => rw [List.cons_append, balanced_from_atom value, ih]
  | list opens _ closes _ within later =>
      rw [List.cons_append, balanced_from_open opens, List.append_assoc, within,
        List.cons_append, balanced_from_close closes, later]

/-- At depth zero all tokens are balanced forms; deeper, they are up to the
parenthesis that closes the innermost list. -/
def Splits (slash : Bool) (known : List CStr) (tokens : List Token) : Nat → Prop
  | 0 => ∃ items after, Forest slash known tokens items after
  | depth + 1 => ∃ before items after t rest, tokens = before ++ t :: rest ∧ t.type = .rparen ∧
      Forest slash known before items after ∧ balancedFrom depth rest = true

theorem splits_atom {known between : List CStr} {t : Token} {a : Atom} {tokens : List Token}
    (value : t.atom slash known = some (a, between)) {depth : Nat}
    (splits : Splits slash between tokens depth) : Splits slash known (t :: tokens) depth := by
  cases depth with
  | zero =>
      obtain ⟨items, after, forest⟩ := splits
      exact ⟨_, after, .atom value forest⟩
  | succ depth =>
      obtain ⟨before, items, after, u, rest, rfl, closes, forest, left⟩ := splits
      exact ⟨t :: before, _, after, u, rest, rfl, closes, .atom value forest, left⟩

theorem splits_list {known between : List CStr} {t u : Token} {inside rest : List Token}
    {inner : List Datum} (opens : t.type = .lparen)
    (within : Forest slash known inside inner between) (closes : u.type = .rparen) {depth : Nat}
    (splits : Splits slash between rest depth) :
    Splits slash known (t :: (inside ++ u :: rest)) depth := by
  cases depth with
  | zero =>
      obtain ⟨items, after, forest⟩ := splits
      exact ⟨_, after, .list opens within closes forest⟩
  | succ depth =>
      obtain ⟨before, items, after, v, rest, rfl, closes', forest, left⟩ := splits
      exact ⟨t :: (inside ++ u :: before), _, after, v, rest, by simp, closes',
        .list opens within closes forest, left⟩

theorem splits_of_balanced (size : Nat) (known : List CStr) (tokens : List Token) (depth : Nat)
    (fits : tokens.length ≤ size) (even : balancedFrom depth tokens = true) :
    Splits slash known tokens depth := by
  -- a list inside is shorter than the tokens with its parentheses
  induction size generalizing known tokens depth with
  | zero =>
      rw [List.length_eq_zero_iff.1 (Nat.le_zero.1 fits)] at even ⊢
      cases depth with
      | zero => exact ⟨[], known, .nothing known⟩
      | succ depth => cases even
  | succ size ih =>
      cases tokens with
      | nil =>
          cases depth with
          | zero => exact ⟨[], known, .nothing known⟩
          | succ depth => cases even
      | cons t tokens =>
          simp only [List.length_cons, Nat.add_le_add_iff_right] at fits
          rcases atom_or_parenthesis known t with opens | closes | ⟨a, between, value⟩
          · rw [balanced_from_open opens] at even
            obtain ⟨inside, inner, between, u, rest, rfl, closes, within, left⟩ :=
              ih known tokens (depth + 1) fits even
            simp only [List.length_append, List.length_cons] at fits
            exact splits_list opens within closes (ih between rest depth (by omega) left)
          · cases depth with
            | zero => rw [not_balanced_close closes] at even; cases even
            | succ depth =>
                rw [balanced_from_close closes] at even
                exact ⟨[], [], known, t, tokens, rfl, closes, .nothing known, even⟩
          · rw [balanced_from_atom value] at even
            exact splits_atom value (ih between tokens depth fits even)

/-- The tokens are balanced exactly if they are forms one after the other. -/
theorem balanced_iff_forest (slash : Bool) (known : List CStr) (tokens : List Token) :
    balanced tokens = true ↔ ∃ items after, Forest slash known tokens items after := by
  constructor
  · exact fun even => splits_of_balanced tokens.length known tokens 0 le_rfl even
  · rintro ⟨items, after, forest⟩
    have depth := balanced_from_forest forest 0 []
    rw [List.append_nil] at depth
    exact depth

end Parentheses

section OpenLists

theorem no_atom_of_opens {t : Token} (opens : t.type = .lparen) (known : List CStr) :
    t.atom slash known = none := by
  simp only [Token.atom, opens]

theorem no_atom_of_closes {t : Token} (closes : t.type = .rparen) (known : List CStr) :
    t.atom slash known = none := by
  simp only [Token.atom, closes]

/-- The tokens decide what is read of them. -/
theorem forms_functional {known after after' : List CStr} {tokens rest rest' : List Token}
    {items items' : List Datum} (first : Forms slash known tokens items rest after)
    (second : Forms slash known tokens items' rest' after') :
    items = items' ∧ rest = rest' ∧ after = after' := by
  induction first generalizing items' rest' after' with
  | stop known =>
      cases second
      exact ⟨rfl, rfl, rfl⟩
  | close known rest closes =>
      cases second with
      | close => exact ⟨rfl, rfl, rfl⟩
      | atom value _ =>
          rw [no_atom_of_closes closes] at value
          cases value
      | list opens _ _ =>
          rw [closes] at opens
          cases opens
  | atom value _ ih =>
      cases second with
      | close _ _ closes =>
          rw [no_atom_of_closes closes] at value
          cases value
      | atom value' later =>
          rw [value] at value'
          cases value'
          obtain ⟨rfl, rfl, rfl⟩ := ih later
          exact ⟨rfl, rfl, rfl⟩
      | list opens _ _ =>
          rw [no_atom_of_opens opens] at value
          cases value
  | list opens _ _ within behind =>
      cases second with
      | close _ _ closes =>
          rw [opens] at closes
          cases closes
      | atom value _ =>
          rw [no_atom_of_opens opens] at value
          cases value
      | list _ inside later =>
          obtain ⟨rfl, rfl, rfl⟩ := within inside
          obtain ⟨rfl, rfl, rfl⟩ := behind later
          exact ⟨rfl, rfl, rfl⟩

/-- How many lists inside the file are open behind the tokens; none if a closing
parenthesis without an opener has ended the file. -/
@[grind =]
def openAfter : Nat → List Token → Option Nat
  | depth, [] => some depth
  | depth, t :: tokens =>
      match t.type, depth with
      | .lparen, depth => openAfter (depth + 1) tokens
      | .rparen, 0 => none
      | .rparen, depth + 1 => openAfter depth tokens
      | _, depth => openAfter depth tokens

theorem open_after_opens {t : Token} (opens : t.type = .lparen) (depth : Nat)
    (tokens : List Token) : openAfter depth (t :: tokens) = openAfter (depth + 1) tokens := by
  simp only [openAfter, opens]

theorem open_after_closes {t : Token} (closes : t.type = .rparen) (depth : Nat)
    (tokens : List Token) : openAfter (depth + 1) (t :: tokens) = openAfter depth tokens := by
  simp only [openAfter, closes]

theorem open_after_ended {t : Token} (closes : t.type = .rparen) (tokens : List Token) :
    openAfter 0 (t :: tokens) = none := by
  simp only [openAfter, closes]

theorem open_after_atom {known between : List CStr} {t : Token} {a : Atom}
    (value : t.atom slash known = some (a, between)) (depth : Nat) (tokens : List Token) :
    openAfter depth (t :: tokens) = openAfter depth tokens := by
  unfold Token.atom at value
  cases type : t.type <;> simp [type] at value <;> simp [openAfter, type]

/-- Deeper inside, one more list is open. -/
theorem open_after_succ {tokens : List Token} {depth left : Nat}
    (opened : openAfter depth tokens = some left) :
    openAfter (depth + 1) tokens = some (left + 1) := by
  induction tokens generalizing depth with
  | nil =>
      cases opened
      rfl
  | cons t tokens ih =>
      rcases @atom_or_parenthesis false [] t with opens | closes | ⟨a, between, value⟩
      · rw [open_after_opens opens] at opened ⊢
        exact ih opened
      · cases depth with
        | zero =>
            rw [open_after_ended closes] at opened
            cases opened
        | succ depth =>
            rw [open_after_closes closes] at opened ⊢
            exact ih opened
      · rw [open_after_atom value] at opened ⊢
        exact ih opened

/-- Where a part of the tokens ends: the list is open there, and what is left is behind
it; or the list ends in the part. -/
theorem forms_split {known after : List CStr} {tokens rest : List Token} {items : List Datum}
    (forms : Forms slash known tokens items rest after) (q r : List Token) (parts : tokens = q ++ r) :
    ((∃ d, openAfter 0 q = some d) ∧ rest <:+ r) ∨
      (openAfter 0 q = none ∧ ∃ left, rest = left ++ r ∧
        ∀ n, openAfter (n + 1) q = openAfter n left) := by
  induction forms generalizing q r with
  | stop known =>
      obtain ⟨rfl, rfl⟩ := List.append_eq_nil_iff.1 parts.symm
      exact .inl ⟨⟨0, rfl⟩, List.suffix_rfl⟩
  | @close known t rest closes =>
      cases q with
      | nil =>
          rw [List.nil_append] at parts
          subst parts
          exact .inl ⟨⟨0, rfl⟩, List.suffix_cons t rest⟩
      | cons u q =>
          obtain ⟨rfl, rfl⟩ := List.cons_eq_cons.1 parts
          exact .inr ⟨open_after_ended closes q, q, rfl, fun n => open_after_closes closes n q⟩
  | @atom known between after t a tokens rest items value later ih =>
      cases q with
      | nil =>
          rw [List.nil_append] at parts
          subst parts
          rcases ih [] tokens rfl with ⟨_, inside⟩ | ⟨ended, _⟩
          · exact .inl ⟨⟨0, rfl⟩, inside.trans (List.suffix_cons t tokens)⟩
          · cases ended
      | cons u q =>
          obtain ⟨rfl, rfl⟩ := List.cons_eq_cons.1 parts
          simp only [open_after_atom value]
          exact ih q r rfl
  | @list known between after t tokens middle rest inner items opens inside later within behind =>
      cases q with
      | nil =>
          rw [List.nil_append] at parts
          subst parts
          rcases within [] tokens rfl with ⟨_, first⟩ | ⟨ended, _⟩
          · rcases behind [] middle rfl with ⟨_, second⟩ | ⟨ended, _⟩
            · exact .inl ⟨⟨0, rfl⟩, (second.trans first).trans (List.suffix_cons t tokens)⟩
            · cases ended
          · cases ended
      | cons u q =>
          obtain ⟨rfl, rfl⟩ := List.cons_eq_cons.1 parts
          simp only [open_after_opens opens]
          rcases within q r rfl with ⟨⟨d, opened⟩, first⟩ | ⟨ended, left, rfl, depths⟩
          · left
            refine ⟨⟨d + 1, open_after_succ opened⟩, ?_⟩
            rcases behind [] middle rfl with ⟨_, second⟩ | ⟨ended, _⟩
            · exact second.trans first
            · cases ended
          · rcases behind left r rfl with ⟨⟨d, opened⟩, second⟩ | ⟨ended', left', rfl, depths'⟩
            · exact .inl ⟨⟨d, (depths 0).trans opened⟩, second⟩
            · refine .inr ⟨(depths 0).trans ended', left', rfl, fun n => ?_⟩
              rw [depths (n + 1), depths' n]

/-- More tokens behind the file: read or not, they add no form if the lists that are
open take nothing but closing parentheses from them. -/
theorem forms_append {known after : List CStr} {tokens rest : List Token} {items : List Datum}
    (forms : Forms slash known tokens items rest after) (more : List Token) :
    (openAfter 0 tokens = none → Forms slash known (tokens ++ more) items (rest ++ more) after) ∧
      ∀ d, openAfter 0 tokens = some d → (∀ t ∈ more.take (d + 1), t.type = .rparen) →
        Forms slash known (tokens ++ more) items (more.drop (d + 1)) after := by
  induction forms generalizing more with
  | stop known =>
      refine ⟨(fun ended => nomatch ended), fun d opened closing => ?_⟩
      cases opened
      cases more with
      | nil => exact .stop known
      | cons t more => exact .close known more (closing t List.mem_cons_self)
  | @close known t rest closes =>
      refine ⟨fun _ => .close known (rest ++ more) closes, fun d opened => ?_⟩
      rw [open_after_ended closes] at opened
      cases opened
  | @atom known between after t a tokens rest items value later ih =>
      simp only [open_after_atom value]
      obtain ⟨ended, opened⟩ := ih more
      exact ⟨fun none_ => .atom value (ended none_),
        fun d known closing => .atom value (opened d known closing)⟩
  | @list known between after t tokens middle rest inner items opens inside later within behind =>
      simp only [open_after_opens opens]
      rcases forms_split inside tokens [] (List.append_nil tokens).symm with
        ⟨⟨e, opened⟩, last⟩ | ⟨ended, left, same, depths⟩
      · -- the inner list is open at the end, so the outer one gets nothing
        obtain rfl := List.suffix_nil.1 last
        rw [open_after_succ opened]
        refine ⟨(fun none_ => nomatch none_), fun d same closing => ?_⟩
        cases same
        have inner' := (within more).2 e opened fun t mem =>
          closing t (List.take_subset_take_left more (Nat.le_succ _) mem)
        have outer := (behind (more.drop (e + 1))).2 0 rfl fun t mem => by
          rw [List.take_drop] at mem
          exact closing t (List.drop_subset _ _ mem)
        rw [List.nil_append, List.drop_drop] at outer
        exact .list opens inner' outer
      · rw [List.append_nil] at same
        subst same
        rw [depths 0]
        have inner' := (within more).1 ended
        exact ⟨fun none_ => .list opens inner' ((behind more).1 none_),
          fun d known closing => .list opens inner' ((behind more).2 d known closing)⟩

mutual

def Datum.nodes : Datum → Nat
  | .atom _ => 1
  | .list items => nodesOf items + 1

def nodesOf : List Datum → Nat
  | [] => 0
  | d :: items => d.nodes + nodesOf items

end

def Token.begins (t : Token) : Bool := decide (t.type ≠ .rparen)

/-- Every token that begins a form is read as one, or is left. -/
theorem forms_count {known after : List CStr} {tokens rest : List Token} {items : List Datum}
    (forms : Forms slash known tokens items rest after) :
    nodesOf items + rest.countP Token.begins = tokens.countP Token.begins := by
  induction forms with
  | stop => rfl
  | close known rest closes =>
      rw [nodesOf, Nat.zero_add, List.countP_cons_of_neg (by simp [Token.begins, closes])]
  | @atom known between after t a tokens rest items value later ih =>
      have begins : t.begins = true := by
        simp only [Token.begins, decide_eq_true_eq]
        intro closes
        rw [no_atom_of_closes closes] at value
        cases value
      rw [nodesOf, Datum.nodes, List.countP_cons_of_pos begins]
      omega
  | @list known between after t tokens middle rest inner items opens inside later within behind =>
      rw [nodesOf, Datum.nodes, List.countP_cons_of_pos (by simp [Token.begins, opens])]
      omega

theorem open_after_append (depth : Nat) (q r : List Token) :
    openAfter depth (q ++ r) = (openAfter depth q).bind fun d => openAfter d r := by
  induction q generalizing depth with
  | nil => rfl
  | cons t q ih =>
      rw [List.cons_append]
      rcases @atom_or_parenthesis false [] t with opens | closes | ⟨a, between, value⟩
      · rw [open_after_opens opens, open_after_opens opens, ih]
      · cases depth with
        | zero =>
            rw [open_after_ended closes, open_after_ended closes]
            rfl
        | succ depth => rw [open_after_closes closes, open_after_closes closes, ih]
      · rw [open_after_atom value, open_after_atom value, ih]

/-- A list is still open ahead of the parenthesis that closes it, and behind what is
no parenthesis that closes one. -/
theorem open_after_some {depth : Nat} {q : List Token} {t : Token} (begins : t.begins = true)
    (closing : ∀ u ∈ q, u.begins = false) (short : q.length ≤ depth) :
    ∃ d, openAfter depth (q ++ [t]) = some d := by
  induction q generalizing depth with
  | nil =>
      rw [List.nil_append]
      rcases @atom_or_parenthesis false [] t with opens | closes | ⟨a, between, value⟩
      · exact ⟨_, open_after_opens opens depth []⟩
      · simp [Token.begins, closes] at begins
      · exact ⟨_, open_after_atom value depth []⟩
  | cons u q ih =>
      obtain ⟨n, rfl⟩ : ∃ n, depth = n + 1 := ⟨depth - 1, by
        rw [List.length_cons] at short
        omega⟩
      have closes : u.type = .rparen := by
        simpa [Token.begins] using closing u List.mem_cons_self
      rw [List.cons_append, open_after_closes closes]
      exact ih (fun v mem => closing v (List.mem_cons_of_mem _ mem)) (Nat.le_of_succ_le_succ short)

/-- The lists that are open behind the tokens take no form from what follows. -/
def AddsNone (tokens more : List Token) : Prop :=
  ∀ d, openAfter 0 tokens = some d → ∀ t ∈ more.take (d + 1), t.type = .rparen

/-- More tokens leave the forms as they are exactly if none of them is read as a form. -/
theorem same_forms_iff {known after after' : List CStr} {tokens rest more rest' : List Token}
    {items items' : List Datum} (forms : Forms slash known tokens items rest after)
    (forms' : Forms slash known (tokens ++ more) items' rest' after') :
    items' = items ↔ AddsNone tokens more := by
  constructor
  · rintro rfl d opened
    cases found : (more.take (d + 1)).find? Token.begins with
    | none =>
        intro t mem
        simpa [Token.begins] using List.find?_eq_none.1 found t mem
    | some t =>
        -- the first token that begins a form is read, so there is a form more
        obtain ⟨begins, before, behind, part, closing⟩ := List.find?_eq_some_iff_append.1 found
        have whole : tokens ++ more =
            (tokens ++ (before ++ [t])) ++ (behind ++ more.drop (d + 1)) := by
          have parts := List.take_append_drop (d + 1) more
          rw [part] at parts
          conv_lhs => rw [← parts]
          simp
        have short : before.length ≤ d := by
          have size := congrArg List.length part
          have bound := List.length_take_le (d + 1) more
          simp only [List.length_append, List.length_cons] at size
          omega
        have still : ∃ e, openAfter 0 (tokens ++ (before ++ [t])) = some e := by
          rw [open_after_append, opened]
          exact open_after_some begins (fun u mem => by simpa using closing u mem) short
        obtain ⟨e, still⟩ := still
        have last : rest = [] := by
          rcases forms_split forms tokens [] (List.append_nil tokens).symm with
            ⟨_, inside⟩ | ⟨ended, _⟩
          · exact List.suffix_nil.1 inside
          · rw [opened] at ended
            cases ended
        have unread : rest' <:+ behind ++ more.drop (d + 1) := by
          rcases forms_split forms' _ _ whole with ⟨_, inside⟩ | ⟨ended, _⟩
          · exact inside
          · rw [still] at ended
            cases ended
        have count := forms_count forms
        have count' := forms_count forms'
        have fewer := unread.sublist.countP_le (p := Token.begins)
        rw [last, List.countP_nil] at count
        rw [whole] at count'
        simp only [List.countP_append, List.countP_cons_of_pos begins, List.countP_nil] at count'
        simp only [List.countP_append] at fewer
        omega
  · intro none_
    cases opened : openAfter 0 tokens with
    | none =>
        exact (forms_functional forms' ((forms_append forms more).1 opened)).1
    | some d =>
        exact (forms_functional forms'
          ((forms_append forms more).2 d opened (none_ d opened))).1

end OpenLists

section Reading

theorem forms_of_forest {known between after : List CStr} {tokens tail rest : List Token}
    {items more : List Datum} (forest : Forest slash known tokens items between)
    (forms : Forms slash between tail more rest after) :
    Forms slash known (tokens ++ tail) (items ++ more) rest after := by
  induction forest generalizing tail more rest after with
  | nothing => exact forms
  | atom value _ ih => exact .atom value (ih forms)
  | @list known between last t u inside tokens inner items opens _ closes _ within later =>
      have closed := within (.close between (tokens ++ tail) closes)
      rw [List.append_nil] at closed
      rw [List.cons_append, List.append_assoc]
      exact .list opens closed (later forms)

theorem forms_exist (slash : Bool) (size : Nat) (known : List CStr) (tokens : List Token)
    (fits : tokens.length ≤ size) : ∃ items rest after, Forms slash known tokens items rest after ∧
      rest.length ≤ tokens.length := by
  induction size generalizing known tokens with
  | zero =>
      rw [List.length_eq_zero_iff.1 (Nat.le_zero.1 fits)]
      exact ⟨[], [], known, .stop known, le_rfl⟩
  | succ size ih =>
      cases tokens with
      | nil => exact ⟨[], [], known, .stop known, le_rfl⟩
      | cons t tokens =>
          simp only [List.length_cons, Nat.add_le_add_iff_right] at fits ⊢
          rcases atom_or_parenthesis known t with opens | closes | ⟨a, between, value⟩
          · obtain ⟨inner, middle, between, inside, shorter⟩ := ih known tokens fits
            obtain ⟨items, rest, after, later, shorter'⟩ := ih between middle (by omega)
            exact ⟨_, rest, after, .list opens inside later, by omega⟩
          · exact ⟨[], tokens, known, .close known tokens closes, by omega⟩
          · obtain ⟨items, rest, after, later, shorter⟩ := ih between tokens fits
            exact ⟨_, rest, after, .atom value later, by omega⟩

end Reading

end BearLang
