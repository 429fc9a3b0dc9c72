import Mathlib.Data.List.Basic

/-!
# Texts with elements

The texts of elements with attributes and content: tags, names, quoted values and
characters, with blanks where they may stand. References, comments and
declarations are left out. What a character may be part of is a parameter.
-/

namespace BearLang.MarkupGrammar

set_option autoImplicit false

/-- What a character can be in a text; a name starts with `nameStart` and goes on
with `nameRest` too. -/
inductive Kind where
  | lt | gt | slash | eq | dquote | squote | amp | space | nameStart | nameRest | other
deriving DecidableEq, Repr

inductive Node (χ : Type) where
  | char (c : χ)
  | element (name : List χ) (attributes : List (List χ × List χ)) (content : List (Node χ))

variable {χ : Type} (kind : χ → Kind)

section Grammar

def IsNameChar (c : χ) : Prop := kind c = .nameStart ∨ kind c = .nameRest

def IsName (name : List χ) : Prop :=
  (∀ c ∈ name, IsNameChar kind c) ∧ ∃ c ∈ name.head?, kind c = .nameStart

def IsBlank (s : List χ) : Prop := ∀ c ∈ s, kind c = .space

def IsQuote (q : χ) : Prop := kind q = .dquote ∨ kind q = .squote

inductive Attribute : List χ → List χ → List χ → Prop
  | mk {name value before after : List χ} {e q q' : χ} (named : IsName kind name)
      (blank : IsBlank kind before) (equals : kind e = .eq) (blank' : IsBlank kind after)
      (quote : IsQuote kind q) (closed : kind q' = kind q)
      (plain : ∀ c ∈ value, kind c ≠ .lt ∧ kind c ≠ .amp ∧ kind c ≠ kind q) :
      Attribute (name ++ (before ++ e :: (after ++ q :: (value ++ [q'])))) name value

inductive Attributes : List χ → List (List χ × List χ) → Prop
  | nil : Attributes [] []
  | cons {s x rest name value : List χ} {others : List (List χ × List χ)}
      (blank : IsBlank kind s) (apart : s ≠ []) (first : Attribute kind x name value)
      (later : Attributes rest others) : Attributes (s ++ (x ++ rest)) ((name, value) :: others)

/-- The tag at the start of an element, up to its `>`; it may be the whole element. -/
inductive Opening : List χ → List χ → List (List χ × List χ) → Bool → Prop
  | start {name w s : List χ} {attributes : List (List χ × List χ)} {o c : χ}
      (opens : kind o = .lt) (named : IsName kind name) (listed : Attributes kind w attributes)
      (blank : IsBlank kind s) (closes : kind c = .gt) :
      Opening (o :: (name ++ (w ++ (s ++ [c])))) name attributes false
  | empty {name w s : List χ} {attributes : List (List χ × List χ)} {o e c : χ}
      (opens : kind o = .lt) (named : IsName kind name) (listed : Attributes kind w attributes)
      (blank : IsBlank kind s) (ends : kind e = .slash) (closes : kind c = .gt) :
      Opening (o :: (name ++ (w ++ (s ++ [e, c])))) name attributes true

inductive Closing : List χ → List χ → Prop
  | mk {name s : List χ} {o e c : χ} (opens : kind o = .lt) (ends : kind e = .slash)
      (named : IsName kind name) (blank : IsBlank kind s) (closes : kind c = .gt) :
      Closing (o :: e :: (name ++ (s ++ [c]))) name

/-- The texts that stand for these nodes, one after the other. -/
inductive Nodes : List χ → List (Node χ) → Prop
  | nil : Nodes [] []
  | char {c : χ} {x : List χ} {nodes : List (Node χ)} (plain : kind c ≠ .lt ∧ kind c ≠ .amp)
      (rest : Nodes x nodes) : Nodes (c :: x) (.char c :: nodes)
  | empty {tag name x : List χ} {attributes : List (List χ × List χ)} {nodes : List (Node χ)}
      (opening : Opening kind tag name attributes true)
      (distinct : (attributes.map Prod.fst).Nodup) (rest : Nodes x nodes) :
      Nodes (tag ++ x) (.element name attributes [] :: nodes)
  | full {tag body closing name x : List χ} {attributes : List (List χ × List χ)}
      {content nodes : List (Node χ)} (opening : Opening kind tag name attributes false)
      (distinct : (attributes.map Prod.fst).Nodup) (inner : Nodes body content)
      (closed : Closing kind closing name) (rest : Nodes x nodes) :
      Nodes (tag ++ (body ++ (closing ++ x))) (.element name attributes content :: nodes)

/-- The text is well formed and stands for this element and no other. -/
def ParsesTo (text : List χ) (node : Node χ) : Prop :=
  (∃ name attributes content, node = .element name attributes content) ∧
    Nodes kind text [node] ∧ ∀ other, Nodes kind text [other] → other = node

end Grammar

section Unique

variable {kind} {r r' : List χ}

/-- A longest run of characters of one sort is determined. -/
theorem span_unique {P : χ → Prop} {xs ys : List χ} (allX : ∀ c ∈ xs, P c) (allY : ∀ c ∈ ys, P c)
    (stop : ∀ c ∈ r.head?, ¬ P c) (stop' : ∀ c ∈ r'.head?, ¬ P c)
    (same : xs ++ r = ys ++ r') : xs = ys ∧ r = r' := by
  induction xs generalizing ys with
  | nil =>
      cases ys with
      | nil => exact ⟨rfl, same⟩
      | cons y ys =>
          rw [List.nil_append] at same
          exact absurd (allY y List.mem_cons_self) (stop y (by simp [same]))
  | cons x xs ih =>
      cases ys with
      | nil =>
          rw [List.nil_append] at same
          exact absurd (allX x List.mem_cons_self) (stop' x (by simp [← same]))
      | cons y ys =>
          obtain ⟨head, tail⟩ := List.cons.inj same
          obtain ⟨runs, rest⟩ := ih (fun c mem => allX c (List.mem_cons_of_mem _ mem))
            (fun c mem => allY c (List.mem_cons_of_mem _ mem)) tail
          exact ⟨by rw [head, runs], rest⟩

theorem head_after_blank {s : List χ} (blank : IsBlank kind s) (c : χ) (rest : List χ) :
    ∀ d ∈ (s ++ c :: rest).head?, kind d = .space ∨ d = c := by
  intro d head
  cases s with
  | nil => exact .inr (Option.some.inj head).symm
  | cons b s =>
      cases head
      exact .inl (blank d List.mem_cons_self)

theorem blank_unique {s s' : List χ} (blank : IsBlank kind s) (blank' : IsBlank kind s')
    (stop : ∀ c ∈ r.head?, kind c ≠ .space) (stop' : ∀ c ∈ r'.head?, kind c ≠ .space)
    (same : s ++ r = s' ++ r') : r = r' :=
  (span_unique (P := fun c => kind c = .space) blank blank' stop stop' same).2

theorem name_unique {name name' : List χ} (named : IsName kind name) (named' : IsName kind name')
    (stop : ∀ c ∈ r.head?, ¬ IsNameChar kind c) (stop' : ∀ c ∈ r'.head?, ¬ IsNameChar kind c)
    (same : name ++ r = name' ++ r') : name = name' ∧ r = r' :=
  span_unique named.1 named'.1 stop stop' same

theorem not_name_char {c : χ} {k : Kind} (is : kind c = k) (other : k ≠ .nameStart)
    (other' : k ≠ .nameRest) : ¬ IsNameChar kind c := by
  rintro (start | rest)
  · exact other (is.symm.trans start)
  · exact other' (is.symm.trans rest)

theorem stops_name {s : List χ} (blank : IsBlank kind s) {c : χ} (stop : ¬ IsNameChar kind c)
    (rest : List χ) : ∀ d ∈ (s ++ c :: rest).head?, ¬ IsNameChar kind d := by
  intro d head
  rcases head_after_blank blank c rest d head with space | rfl
  · exact not_name_char space (by decide) (by decide)
  · exact stop

theorem attribute_unique {x x' name name' value value' : List χ}
    (first : Attribute kind x name value) (second : Attribute kind x' name' value')
    (same : x ++ r = x' ++ r') : (name, value) = (name', value') ∧ r = r' := by
  obtain ⟨named, blank, equals, after, quote, closed, plain⟩ := first
  obtain ⟨named', blank', equals', after', quote', closed', plain'⟩ := second
  simp only [List.append_assoc, List.cons_append, List.nil_append] at same
  obtain ⟨rfl, behindName⟩ := name_unique named named'
    (stops_name blank (not_name_char equals (by decide) (by decide)) _)
    (stops_name blank' (not_name_char equals' (by decide) (by decide)) _) same
  have noBlank {c : χ} {rest : List χ} {k : Kind} (is : kind c = k) (other : k ≠ .space) :
      ∀ d ∈ (c :: rest).head?, kind d ≠ .space := by
    rintro d ⟨⟩ space
    exact other (is.symm.trans space)
  have signs := blank_unique blank blank' (noBlank equals (by decide)) (noBlank equals' (by decide))
    behindName
  have quoted {q : χ} (quote : IsQuote kind q) (rest : List χ) :
      ∀ d ∈ (q :: rest).head?, kind d ≠ .space := by
    rcases quote with double | single
    · exact noBlank double (by decide)
    · exact noBlank single (by decide)
  have quotes := blank_unique after after' (quoted quote _) (quoted quote' _) (List.cons.inj signs).2
  obtain ⟨rfl, values⟩ := List.cons.inj quotes
  have ends {q q' : χ} (closed : kind q' = kind q) (rest : List χ) :
      ∀ c ∈ (q' :: rest).head?, ¬ (kind c ≠ .lt ∧ kind c ≠ .amp ∧ kind c ≠ kind q) := by
    rintro c ⟨⟩ ⟨_, _, other⟩
    exact other closed
  obtain ⟨rfl, rest⟩ := span_unique plain plain' (ends closed r) (ends closed' r') values
  exact ⟨rfl, (List.cons.inj rest).2⟩

theorem attribute_starts {x name value : List χ} (attr : Attribute kind x name value)
    (rest : List χ) : ∃ c more, x ++ rest = c :: more ∧ kind c = .nameStart := by
  obtain ⟨⟨_, c, head, start⟩, _⟩ := attr
  rename_i before after e q q'
  cases name with
  | nil => cases head
  | cons d name =>
      cases head
      exact ⟨_, _, rfl, start⟩

def EndsTag (kind : χ → Kind) (r : List χ) : Prop :=
  ∀ c ∈ r.head?, kind c = .slash ∨ kind c = .gt

theorem attributes_unique {w w' s s' : List χ} {as as' : List (List χ × List χ)}
    (first : Attributes kind w as) (second : Attributes kind w' as') (blank : IsBlank kind s)
    (blank' : IsBlank kind s') (stop : EndsTag kind r) (stop' : EndsTag kind r')
    (same : w ++ (s ++ r) = w' ++ (s' ++ r')) : as = as' ∧ r = r' := by
  have noBlank {r : List χ} (stop : EndsTag kind r) : ∀ c ∈ r.head?, kind c ≠ .space := by
    intro c head space
    rcases stop c head with is | is <;> exact absurd (is.symm.trans space) (by decide)
  -- a further attr on one side only would start where the tag ends
  have further {s s' x rest r name value : List χ} (blank : IsBlank kind s)
      (blank' : IsBlank kind s') (stop : EndsTag kind r) (attr : Attribute kind x name value)
      (same : s ++ r = s' ++ (x ++ rest)) : False := by
    obtain ⟨c, more, split, start⟩ := attribute_starts attr rest
    rw [split] at same
    have rests := blank_unique blank blank' (noBlank stop) (by
      rintro d ⟨⟩ space
      exact absurd (start.symm.trans space) (by decide)) same
    rcases stop c (by simp [rests]) with is | is <;>
      exact absurd (is.symm.trans start) (by decide)
  induction first generalizing w' as' with
  | nil =>
      cases second with
      | nil =>
          exact ⟨rfl, blank_unique blank blank' (noBlank stop) (noBlank stop') same⟩
      | cons apart some_ attr later =>
          simp only [List.append_assoc, List.nil_append] at same
          exact (further blank apart stop attr same).elim
  | cons apart some_ attr later ih =>
      cases second with
      | nil =>
          simp only [List.append_assoc, List.nil_append] at same
          exact (further blank' apart stop' attr same.symm).elim
      | cons apart' some' attr' later' =>
          simp only [List.append_assoc] at same
          have starts {x name value : List χ} (attr : Attribute kind x name value)
              (rest : List χ) : ∀ c ∈ (x ++ rest).head?, kind c ≠ .space := by
            obtain ⟨c, more, split, start⟩ := attribute_starts attr rest
            rw [split]
            rintro d ⟨⟩ space
            exact absurd (start.symm.trans space) (by decide)
          have firsts := blank_unique apart apart' (starts attr _) (starts attr' _) same
          obtain ⟨pair, others⟩ := attribute_unique attr attr' firsts
          obtain ⟨rest, last⟩ := ih later' others
          exact ⟨by rw [pair, rest], last⟩

theorem attributes_stop {w s : List χ} {as : List (List χ × List χ)} (listed : Attributes kind w as)
    (blank : IsBlank kind s) {c : χ} (stop : ¬ IsNameChar kind c) (rest : List χ) :
    ∀ d ∈ (w ++ (s ++ c :: rest)).head?, ¬ IsNameChar kind d := by
  cases listed with
  | nil => exact stops_name blank stop rest
  | @cons s x rest _ _ _ apart some_ attr later =>
      intro d head
      cases s with
      | nil => exact absurd rfl some_
      | cons b s =>
          cases head
          exact not_name_char (apart d List.mem_cons_self) (by decide) (by decide)

def TagEnd (kind : χ → Kind) (closed : Bool) (x : List χ) : Prop :=
  match closed with
  | false => ∃ c, x = [c] ∧ kind c = .gt
  | true => ∃ e c, x = [e, c] ∧ kind e = .slash ∧ kind c = .gt

theorem opening_parts {tag name : List χ} {as : List (List χ × List χ)} {closed : Bool}
    (opening : Opening kind tag name as closed) :
    ∃ o w s ending, tag = o :: (name ++ (w ++ (s ++ ending))) ∧ kind o = .lt ∧ IsName kind name ∧
      Attributes kind w as ∧ IsBlank kind s ∧ TagEnd kind closed ending := by
  cases opening with
  | start opens named listed blank closes =>
      exact ⟨_, _, _, _, rfl, opens, named, listed, blank, _, rfl, closes⟩
  | empty opens named listed blank ends closes =>
      exact ⟨_, _, _, _, rfl, opens, named, listed, blank, _, _, rfl, ends, closes⟩

theorem tag_end_starts {closed : Bool} {x : List χ} (ending : TagEnd kind closed x) (r : List χ) :
    ∃ c more, x ++ r = c :: more ∧ (kind c = .slash ∨ kind c = .gt) := by
  cases closed with
  | false =>
      obtain ⟨c, rfl, closes⟩ := ending
      exact ⟨c, r, rfl, .inr closes⟩
  | true =>
      obtain ⟨e, c, rfl, ends, _⟩ := ending
      exact ⟨e, c :: r, rfl, .inl ends⟩

theorem tag_end_unique {closed closed' : Bool} {x x' : List χ} (first : TagEnd kind closed x)
    (second : TagEnd kind closed' x') (same : x ++ r = x' ++ r') : closed = closed' ∧ r = r' := by
  cases closed <;> cases closed'
  · obtain ⟨c, rfl, _⟩ := first
    obtain ⟨c', rfl, _⟩ := second
    exact ⟨rfl, (List.cons.inj same).2⟩
  · obtain ⟨c, rfl, closes⟩ := first
    obtain ⟨e, c', rfl, ends, _⟩ := second
    cases same
    exact absurd (closes.symm.trans ends) (by decide)
  · obtain ⟨e, c, rfl, ends, _⟩ := first
    obtain ⟨c', rfl, closes⟩ := second
    cases same
    exact absurd (closes.symm.trans ends) (by decide)
  · obtain ⟨e, c, rfl, _⟩ := first
    obtain ⟨e', c', rfl, _⟩ := second
    exact ⟨rfl, (List.cons.inj (List.cons.inj same).2).2⟩

theorem opening_unique {tag tag' name name' : List χ} {as as' : List (List χ × List χ)}
    {closed closed' : Bool} (first : Opening kind tag name as closed)
    (second : Opening kind tag' name' as' closed') (same : tag ++ r = tag' ++ r') :
    name = name' ∧ as = as' ∧ closed = closed' ∧ r = r' := by
  obtain ⟨o, w, s, ending, rfl, _, named, listed, blank, ends⟩ := opening_parts first
  obtain ⟨o', w', s', ending', rfl, _, named', listed', blank', ends'⟩ := opening_parts second
  simp only [List.append_assoc, List.cons_append] at same
  have names := (List.cons.inj same).2
  obtain ⟨c, more, split, kinds⟩ := tag_end_starts ends r
  obtain ⟨c', more', split', kinds'⟩ := tag_end_starts ends' r'
  have stop {c : χ} (kinds : kind c = .slash ∨ kind c = .gt) : ¬ IsNameChar kind c := by
    rcases kinds with is | is <;> exact not_name_char is (by decide) (by decide)
  have stops {r more : List χ} {c : χ} (split : r = c :: more)
      (kinds : kind c = .slash ∨ kind c = .gt) : EndsTag kind r := by
    rw [split]
    rintro d ⟨⟩
    exact kinds
  rw [split, split'] at names
  obtain ⟨sameName, lists⟩ := name_unique named named' (attributes_stop listed blank (stop kinds) _)
    (attributes_stop listed' blank' (stop kinds') _) names
  rw [← split, ← split'] at lists
  obtain ⟨sameList, rests⟩ := attributes_unique listed listed' blank blank' (stops split kinds)
    (stops split' kinds') lists
  exact ⟨sameName, sameList, tag_end_unique ends ends' rests⟩

theorem opening_starts {tag name : List χ} {as : List (List χ × List χ)} {closed : Bool}
    (opening : Opening kind tag name as closed) (r : List χ) :
    ∃ o c more, tag ++ r = o :: c :: more ∧ kind o = .lt ∧ kind c = .nameStart := by
  obtain ⟨o, w, s, ending, rfl, opens, ⟨_, c, head, start⟩, _⟩ := opening_parts opening
  cases name with
  | nil => cases head
  | cons d name =>
      cases head
      exact ⟨o, _, _, rfl, opens, start⟩

theorem closing_unique {x x' name : List χ} (first : Closing kind x name)
    (second : Closing kind x' name) (same : x ++ r = x' ++ r') : r = r' := by
  obtain ⟨_, _, named, blank, closes⟩ := first
  obtain ⟨_, _, named', blank', closes'⟩ := second
  simp only [List.append_assoc, List.cons_append, List.nil_append] at same
  have names := (List.cons.inj (List.cons.inj same).2).2
  have gt {c : χ} {rest : List χ} (closes : kind c = .gt) :
      ∀ d ∈ (c :: rest).head?, kind d ≠ .space := by
    rintro d ⟨⟩ space
    exact absurd (closes.symm.trans space) (by decide)
  have ends := blank_unique blank blank' (gt closes) (gt closes') (List.append_cancel_left names)
  exact (List.cons.inj ends).2

/-- The text behind some nodes: its end, or the end of the element they are in. -/
def EndsNodes (kind : χ → Kind) (r : List χ) : Prop :=
  r = [] ∨ ∃ o e rest, r = o :: e :: rest ∧ kind o = .lt ∧ kind e = .slash

theorem closing_ends {x name : List χ} (closing : Closing kind x name) (rest : List χ) :
    EndsNodes kind (x ++ rest) := by
  obtain ⟨opens, ends, _⟩ := closing
  exact .inr ⟨_, _, _, rfl, opens, ends⟩

theorem no_opening_at_end {tag name x : List χ} {as : List (List χ × List χ)} {closed : Bool}
    (opening : Opening kind tag name as closed) (stop : EndsNodes kind r) : r ≠ tag ++ x := by
  intro same
  obtain ⟨o, c, more, split, opens, start⟩ := opening_starts opening x
  rw [split] at same
  rcases stop with rfl | ⟨o', e, rest, rfl, _, ends⟩
  · cases same
  · cases same
    exact absurd (ends.symm.trans start) (by decide)

theorem no_char_at_end {c : χ} {x : List χ} (plain : kind c ≠ .lt) (stop : EndsNodes kind r) :
    r ≠ c :: x := by
  rintro rfl
  rcases stop with same | ⟨o, e, rest, same, opens, _⟩
  · cases same
  · cases same
    exact plain opens

theorem no_char_opening {tag name x rest : List χ} {as : List (List χ × List χ)} {closed : Bool}
    (opening : Opening kind tag name as closed) {c : χ} (plain : kind c ≠ .lt) :
    c :: rest ≠ tag ++ x := by
  intro same
  obtain ⟨o, d, more, split, opens, _⟩ := opening_starts opening x
  rw [split] at same
  cases same
  exact plain opens

/-- A text stands for one sequence of nodes only. -/
theorem nodes_unique {x x' : List χ} {nodes nodes' : List (Node χ)} (first : Nodes kind x nodes)
    (second : Nodes kind x' nodes') (stop : EndsNodes kind r) (stop' : EndsNodes kind r')
    (same : x ++ r = x' ++ r') : nodes = nodes' ∧ r = r' := by
  induction first generalizing x' nodes' r r' with
  | nil =>
      cases second with
      | nil => exact ⟨rfl, same⟩
      | char plain rest => exact absurd same (no_char_at_end plain.1 stop)
      | empty opening distinct rest =>
          rw [List.append_assoc] at same
          exact absurd same (no_opening_at_end opening stop)
      | full opening distinct inner closed rest =>
          rw [List.append_assoc] at same
          exact absurd same (no_opening_at_end opening stop)
  | char plain rest ih =>
      cases second with
      | nil => exact absurd same.symm (no_char_at_end plain.1 stop')
      | char plain' rest' =>
          obtain ⟨head, tail⟩ := List.cons.inj same
          obtain ⟨others, ends⟩ := ih rest' stop stop' tail
          exact ⟨by rw [head, others], ends⟩
      | empty opening distinct rest =>
          rw [List.append_assoc] at same
          exact absurd same (no_char_opening opening plain.1)
      | full opening distinct inner closed rest =>
          rw [List.append_assoc] at same
          exact absurd same (no_char_opening opening plain.1)
  | empty opening distinct rest ih =>
      rw [List.append_assoc] at same
      cases second with
      | nil => exact absurd same.symm (no_opening_at_end opening stop')
      | char plain' rest' => exact absurd same.symm (no_char_opening opening plain'.1)
      | empty opening' distinct' rest' =>
          rw [List.append_assoc] at same
          obtain ⟨rfl, rfl, _, tail⟩ := opening_unique opening opening' same
          obtain ⟨others, ends⟩ := ih rest' stop stop' tail
          exact ⟨by rw [others], ends⟩
      | full opening' distinct' inner' closed' rest' =>
          rw [List.append_assoc] at same
          exact absurd (opening_unique opening opening' same).2.2.1 (by decide)
  | full opening distinct inner closed rest ihInner ih =>
      simp only [List.append_assoc] at same
      cases second with
      | nil => exact absurd same.symm (no_opening_at_end opening stop')
      | char plain' rest' => exact absurd same.symm (no_char_opening opening plain'.1)
      | empty opening' distinct' rest' =>
          simp only [List.append_assoc] at same
          exact absurd (opening_unique opening opening' same).2.2.1 (by decide)
      | full opening' distinct' inner' closed' rest' =>
          simp only [List.append_assoc] at same
          obtain ⟨rfl, rfl, _, bodies⟩ := opening_unique opening opening' same
          obtain ⟨rfl, closings⟩ := ihInner inner' (closing_ends closed _) (closing_ends closed' _)
            bodies
          obtain ⟨others, ends⟩ := ih rest' stop stop' (closing_unique closed closed' closings)
          exact ⟨by rw [others], ends⟩

/-- Reading back: a text that stands for an element stands for no other node. -/
theorem parses_to_of_nodes {text name : List χ} {attributes : List (List χ × List χ)}
    {content : List (Node χ)} (nodes : Nodes kind text [.element name attributes content]) :
    ParsesTo kind text (.element name attributes content) := by
  refine ⟨⟨_, _, _, rfl⟩, nodes, fun other also => ?_⟩
  obtain ⟨same, _⟩ := nodes_unique also nodes (.inl rfl) (.inl rfl) rfl
  exact (List.cons.inj same).1

end Unique

section Balance

/-- Where a scan from the left is. -/
inductive Mode where
  | content | opened | closing | tag | ending | double | single
deriving DecidableEq, Repr

/-- Start tags count one; end tags, and tags that end their own element, take one
off. -/
@[grind =]
def scan : Mode → List χ → Int
  | _, [] => 0
  | .content, c :: rest => if kind c = .lt then scan .opened rest else scan .content rest
  | .opened, c :: rest => if kind c = .slash then scan .closing rest - 1 else scan .tag rest + 1
  | .closing, c :: rest => if kind c = .gt then scan .content rest else scan .closing rest
  | .tag, c :: rest =>
      if kind c = .gt then scan .content rest
      else if kind c = .slash then scan .ending rest
      else if kind c = .dquote then scan .double rest
      else if kind c = .squote then scan .single rest
      else scan .tag rest
  | .ending, c :: rest => if kind c = .gt then scan .content rest - 1 else scan .tag rest
  | .double, c :: rest => if kind c = .dquote then scan .tag rest else scan .double rest
  | .single, c :: rest => if kind c = .squote then scan .tag rest else scan .single rest

variable {kind} {r : List χ}

/-- A character that neither ends a tag nor starts a value in it. -/
def InTag (kind : χ → Kind) (c : χ) : Prop :=
  kind c = .space ∨ kind c = .eq ∨ kind c = .nameStart ∨ kind c = .nameRest

theorem scan_in_tag {xs : List χ} (inside : ∀ c ∈ xs, InTag kind c) :
    scan kind .tag (xs ++ r) = scan kind .tag r := by
  induction xs with
  | nil => rfl
  | cons c xs ih =>
      have step : scan kind .tag (c :: (xs ++ r)) = scan kind .tag (xs ++ r) := by
        rcases inside c List.mem_cons_self with is | is | is | is <;> simp [scan, is]
      exact step.trans (ih fun d mem => inside d (List.mem_cons_of_mem _ mem))

theorem scan_blank {s : List χ} (blank : IsBlank kind s) :
    scan kind .tag (s ++ r) = scan kind .tag r :=
  scan_in_tag fun c mem => .inl (blank c mem)

theorem scan_name {name : List χ} (named : IsName kind name) :
    scan kind .tag (name ++ r) = scan kind .tag r :=
  scan_in_tag fun c mem => .inr (.inr (named.1 c mem))

theorem scan_double {value : List χ} (plain : ∀ c ∈ value, kind c ≠ .dquote) {q : χ}
    (closes : kind q = .dquote) : scan kind .double (value ++ q :: r) = scan kind .tag r := by
  induction value with
  | nil => simp [scan, closes]
  | cons c value ih =>
      rw [List.cons_append, scan, if_neg (plain c List.mem_cons_self)]
      exact ih fun d mem => plain d (List.mem_cons_of_mem _ mem)

theorem scan_single {value : List χ} (plain : ∀ c ∈ value, kind c ≠ .squote) {q : χ}
    (closes : kind q = .squote) : scan kind .single (value ++ q :: r) = scan kind .tag r := by
  induction value with
  | nil => simp [scan, closes]
  | cons c value ih =>
      rw [List.cons_append, scan, if_neg (plain c List.mem_cons_self)]
      exact ih fun d mem => plain d (List.mem_cons_of_mem _ mem)

theorem scan_attribute {x name value : List χ} (attr : Attribute kind x name value) :
    scan kind .tag (x ++ r) = scan kind .tag r := by
  obtain ⟨named, blank, equals, after, quote, closed, plain⟩ := attr
  simp only [List.append_assoc, List.cons_append, List.nil_append]
  rw [scan_name named, scan_blank blank, ← List.singleton_append,
    scan_in_tag (fun c mem => .inr (.inl (List.mem_singleton.1 mem ▸ equals))), scan_blank after]
  rcases quote with double | single
  · have value := fun c mem => double ▸ (plain c mem).2.2
    simp only [scan, double]
    exact scan_double value (closed.trans double)
  · have value := fun c mem => single ▸ (plain c mem).2.2
    simp only [scan, single]
    exact scan_single value (closed.trans single)

theorem scan_attributes {w : List χ} {as : List (List χ × List χ)} (listed : Attributes kind w as) :
    scan kind .tag (w ++ r) = scan kind .tag r := by
  induction listed with
  | nil => rfl
  | cons blank apart first later ih =>
      rw [List.append_assoc, List.append_assoc, scan_blank blank, scan_attribute first, ih]

theorem scan_tag_end {closed : Bool} {x : List χ} (ending : TagEnd kind closed x) :
    scan kind .tag (x ++ r) = scan kind .content r - if closed then 1 else 0 := by
  cases closed with
  | false =>
      obtain ⟨c, rfl, closes⟩ := ending
      simp [scan, closes]
  | true =>
      obtain ⟨e, c, rfl, ends, closes⟩ := ending
      simp [scan, ends, closes]

theorem scan_opening {tag name : List χ} {as : List (List χ × List χ)} {closed : Bool}
    (opening : Opening kind tag name as closed) :
    scan kind .content (tag ++ r) = scan kind .content r + if closed then 0 else 1 := by
  obtain ⟨o, w, s, ending, rfl, opens, named, listed, blank, ends⟩ := opening_parts opening
  obtain ⟨chars, c, head, start⟩ := named
  cases name with
  | nil => cases head
  | cons d name =>
      cases head
      have later : ∀ x ∈ name, InTag kind x := fun x mem =>
        .inr (.inr (chars x (List.mem_cons_of_mem _ mem)))
      have notEnd : kind c ≠ .slash := by
        rw [start]
        decide
      simp only [List.append_assoc, List.cons_append]
      rw [scan, if_pos opens, scan, if_neg notEnd, scan_in_tag later, scan_attributes listed,
        scan_blank blank, scan_tag_end ends]
      cases closed <;> simp

theorem scan_closing {x name : List χ} (closing : Closing kind x name) :
    scan kind .content (x ++ r) = scan kind .content r - 1 := by
  obtain ⟨opens, ends, named, blank, closes⟩ := closing
  have skip {xs : List χ} (inside : ∀ c ∈ xs, kind c ≠ .gt) (r : List χ) :
      scan kind .closing (xs ++ r) = scan kind .closing r := by
    induction xs with
    | nil => rfl
    | cons c xs ih =>
        rw [List.cons_append, scan, if_neg (inside c List.mem_cons_self)]
        exact ih fun d mem => inside d (List.mem_cons_of_mem _ mem)
  have inName : ∀ c ∈ _, kind c ≠ .gt := fun c mem is => by
    rcases named.1 c mem with start | rest
    · exact absurd (is.symm.trans start) (by decide)
    · exact absurd (is.symm.trans rest) (by decide)
  have inBlank : ∀ c ∈ _, kind c ≠ .gt := fun c mem is =>
    absurd (is.symm.trans (blank c mem)) (by decide)
  simp only [List.append_assoc, List.cons_append, List.nil_append]
  rw [scan, if_pos opens, scan, if_pos ends, skip inName, skip inBlank, scan, if_pos closes]

/-- In the text of whole nodes every start tag is matched. -/
theorem scan_nodes {x : List χ} {nodes : List (Node χ)} (text : Nodes kind x nodes) :
    scan kind .content (x ++ r) = scan kind .content r := by
  induction text generalizing r with
  | nil => rfl
  | char plain rest ih =>
      rw [List.cons_append, scan, if_neg plain.1]
      exact ih
  | empty opening distinct rest ih =>
      rw [List.append_assoc, scan_opening opening, ih]
      simp
  | full opening distinct inner closed rest ihInner ih =>
      simp only [List.append_assoc]
      rw [scan_opening opening, ihInner, scan_closing closed, ih]
      simp

/-- A text with a start tag too many stands for no nodes. -/
theorem no_nodes_of_scan {x : List χ} (unbalanced : scan kind .content x ≠ 0)
    (nodes : List (Node χ)) : ¬ Nodes kind x nodes := by
  intro text
  have balanced := scan_nodes (r := []) text
  rw [List.append_nil] at balanced
  exact unbalanced balanced

end Balance

section Contents

mutual

def Node.Distinct : Node χ → Prop
  | .char _ => True
  | .element _ attributes content => (attributes.map Prod.fst).Nodup ∧ DistinctIn content

def DistinctIn : List (Node χ) → Prop
  | [] => True
  | node :: nodes => node.Distinct ∧ DistinctIn nodes

end

def attributesWeight (P : χ → Bool) : List (List χ × List χ) → Nat
  | [] => 0
  | (name, value) :: others => name.countP P + value.countP P + attributesWeight P others

mutual

/-- How many characters of the names, values and content have the property. -/
def Node.weight (P : χ → Bool) : Node χ → Nat
  | .char c => if P c then 1 else 0
  | .element name attributes content =>
      name.countP P + attributesWeight P attributes + weightOf P content

def weightOf (P : χ → Bool) : List (Node χ) → Nat
  | [] => 0
  | node :: nodes => node.weight P + weightOf P nodes

end

variable {kind} {P : χ → Bool}

theorem distinct_append {nodes more : List (Node χ)} :
    DistinctIn (nodes ++ more) ↔ DistinctIn nodes ∧ DistinctIn more := by
  induction nodes with
  | nil => simp [DistinctIn]
  | cons node nodes ih => simp only [List.cons_append, DistinctIn, ih, and_assoc]

theorem weight_append (nodes more : List (Node χ)) :
    weightOf P (nodes ++ more) = weightOf P nodes + weightOf P more := by
  induction nodes with
  | nil => simp [weightOf]
  | cons node nodes ih => simp only [List.cons_append, weightOf, ih, Nat.add_assoc]

theorem nodes_distinct {x : List χ} {nodes : List (Node χ)} (text : Nodes kind x nodes) :
    DistinctIn nodes := by
  induction text with
  | nil => trivial
  | char plain rest ih => exact ⟨trivial, ih⟩
  | empty opening distinct rest ih => exact ⟨⟨distinct, trivial⟩, ih⟩
  | full opening distinct inner closed rest ihInner ih => exact ⟨⟨distinct, ihInner⟩, ih⟩

theorem attributes_weight {w : List χ} {as : List (List χ × List χ)} (listed : Attributes kind w as) :
    attributesWeight P as ≤ w.countP P := by
  induction listed with
  | nil => exact Nat.le_refl _
  | cons blank apart first later ih =>
      obtain ⟨_⟩ := first
      simp only [attributesWeight, List.countP_append, List.countP_cons]
      omega

theorem opening_weight {tag name : List χ} {as : List (List χ × List χ)} {closed : Bool}
    (opening : Opening kind tag name as closed) :
    name.countP P + attributesWeight P as ≤ tag.countP P := by
  obtain ⟨o, w, s, ending, rfl, _, _, listed, _⟩ := opening_parts opening
  have attrs := attributes_weight (P := P) listed
  simp only [List.countP_append, List.countP_cons]
  omega

theorem nodes_weight {x : List χ} {nodes : List (Node χ)} (text : Nodes kind x nodes) :
    weightOf P nodes ≤ x.countP P := by
  induction text with
  | nil => exact Nat.le_refl _
  | char plain rest ih =>
      simp only [weightOf, Node.weight, List.countP_cons]
      omega
  | empty opening distinct rest ih =>
      have tag := opening_weight (P := P) opening
      simp only [weightOf, Node.weight, List.countP_append]
      omega
  | full opening distinct inner closed rest ihInner ih =>
      have tag := opening_weight (P := P) opening
      simp only [weightOf, Node.weight, List.countP_append]
      omega

end Contents

end BearLang.MarkupGrammar
