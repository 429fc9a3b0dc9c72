import BearLang.Machine
import BearLang.MarkupGrammar
import Mathlib.Data.List.DropRight

/-!
# Trees of markup and their text

What the calls of the `xml` module describe: elements with attribute clauses,
strings and further elements in any order. `render` is the text that the module
makes of them.
-/

namespace BearLang.XmlTrees

open MarkupGrammar

set_option autoImplicit false

inductive Item where
  | attr (name value : CStr)
  | leaf (s : CStr)
  | element (tag : CStr) (items : List Item)

section Characters

def byteKind (c : Byte) : Kind :=
  if c = chr '<' then .lt
  else if c = chr '>' then .gt
  else if c = chr '/' then .slash
  else if c = chr '=' then .eq
  else if c = chr '"' then .dquote
  else if c = chr '\'' then .squote
  else if c = chr '&' then .amp
  else if c = 32 ∨ c = 9 ∨ c = 10 ∨ c = 13 then .space
  else if (65 ≤ c ∧ c ≤ 90) ∨ (97 ≤ c ∧ c ≤ 122) ∨ c = chr '_' ∨ c = chr ':' ∨ 128 ≤ c then
    .nameStart
  else if (48 ≤ c ∧ c ≤ 57) ∨ c = chr '-' ∨ c = chr '.' then .nameRest
  else .other

/-- No markup character. -/
def Plain (c : Byte) : Prop :=
  byteKind c ≠ .lt ∧ byteKind c ≠ .gt ∧ byteKind c ≠ .amp ∧ byteKind c ≠ .dquote

instance (c : Byte) : Decidable (Plain c) := by
  unfold Plain
  infer_instance

end Characters

section Trees

def attributesOf : List Item → List (CStr × CStr)
  | [] => []
  | .attr name value :: items => (name, value) :: attributesOf items
  | _ :: items => attributesOf items

def hasContent : List Item → Bool
  | [] => false
  | .attr _ _ :: items => hasContent items
  | _ :: _ => true

mutual

/-- The property of tag and items holds at every element. -/
def Item.Every (P : CStr → List Item → Prop) : Item → Prop
  | .attr _ _ => True
  | .leaf _ => True
  | .element tag items => P tag items ∧ EveryOf P items

def EveryOf (P : CStr → List Item → Prop) : List Item → Prop
  | [] => True
  | item :: items => item.Every P ∧ EveryOf P items

end

mutual

/-- Names are names of the grammar, and strings are free of markup characters. -/
def Item.Neat : Item → Prop
  | .attr name value => IsName byteKind name ∧ ∀ c ∈ value, Plain c
  | .leaf s => ∀ c ∈ s, Plain c
  | .element tag items => IsName byteKind tag ∧ NeatAll items

def NeatAll : List Item → Prop
  | [] => True
  | item :: items => item.Neat ∧ NeatAll items

end

mutual

/-- What the tree is as markup; a string is its characters. -/
def Item.nodes : Item → List (Node Byte)
  | .attr _ _ => []
  | .leaf s => s.map .char
  | .element tag items => [.element tag (attributesOf items) (nodesOf items)]

def nodesOf : List Item → List (Node Byte)
  | [] => []
  | item :: items => item.nodes ++ nodesOf items

end

end Trees

section Text

def tagName (s : CStr) : CStr := s.rtakeWhile (· != chr ':')

def attributeText : List (CStr × CStr) → CStr
  | [] => []
  | (name, value) :: others =>
      text " " ++ name ++ text "=\"" ++ value ++ text "\"" ++ attributeText others

mutual

def Item.render : Item → CStr
  | .attr _ _ => []
  | .leaf s => s
  | .element tag items =>
      if items.isEmpty then text "<" ++ tagName tag ++ text "/>"
      else
        text "<" ++ tagName tag ++ attributeText (attributesOf items) ++ text ">" ++
          if hasContent items then renderAll items ++ text "</" ++ tagName tag ++ text ">" else []

def renderAll : List Item → CStr
  | [] => []
  | item :: items => item.render ++ renderAll items

end

end Text

section Conditions

def Filled (_ : CStr) (items : List Item) : Prop :=
  attributesOf items ≠ [] → hasContent items = true

def Distinct (_ : CStr) (items : List Item) : Prop := ((attributesOf items).map Prod.fst).Nodup

def Uncoloned (tag : CStr) (_ : List Item) : Prop := chr ':' ∉ tag

/-- What it takes for the text of an element to be read back. -/
structure WellMade (tag : CStr) (items : List Item) : Prop where
  filled : Filled tag items
  distinct : Distinct tag items
  uncoloned : Uncoloned tag items

end Conditions

section ReadBack

theorem tag_name_uncoloned {s : CStr} (uncoloned : chr ':' ∉ s) : tagName s = s := by
  refine List.rtakeWhile_eq_self_iff.2 fun c mem => ?_
  have other : c ≠ chr ':' := fun same => uncoloned (same ▸ mem)
  simpa using other

theorem neat_attributes {items : List Item} (neat : NeatAll items) :
    ∀ a ∈ attributesOf items, IsName byteKind a.1 ∧ ∀ c ∈ a.2, Plain c := by
  induction items with
  | nil => exact fun _ mem => absurd mem List.not_mem_nil
  | cons item items ih =>
      obtain ⟨first, rest⟩ := neat
      cases item with
      | attr name value =>
          intro a mem
          rcases List.mem_cons.1 mem with rfl | mem
          · exact first
          · exact ih rest a mem
      | leaf s => exact ih rest
      | element tag inner => exact ih rest

theorem attributes_text {as : List (CStr × CStr)}
    (neat : ∀ a ∈ as, IsName byteKind a.1 ∧ ∀ c ∈ a.2, Plain c) :
    Attributes byteKind (attributeText as) as := by
  induction as with
  | nil => exact .nil
  | cons a as ih =>
      obtain ⟨name, value⟩ := a
      obtain ⟨named, plain⟩ := neat (name, value) List.mem_cons_self
      have attr : Attribute byteKind
          (name ++ ([] ++ chr '=' :: ([] ++ chr '"' :: (value ++ [chr '"'])))) name value :=
        .mk named (fun _ mem => absurd mem List.not_mem_nil) (by decide)
          (fun _ mem => absurd mem List.not_mem_nil) (.inl (by decide)) rfl
          fun c mem => ⟨(plain c mem).1, (plain c mem).2.2.1, (plain c mem).2.2.2⟩
      have blank : IsBlank byteKind (text " ") := by
        intro c mem
        have only : c = chr ' ' := List.mem_singleton.1 mem
        rw [only]
        rfl
      have listed := Attributes.cons blank (by decide) attr
        (ih fun b mem => neat b (List.mem_cons_of_mem _ mem))
      simpa [attributeText, text] using listed

theorem start_text {name : CStr} {as : List (CStr × CStr)} (named : IsName byteKind name)
    (neat : ∀ a ∈ as, IsName byteKind a.1 ∧ ∀ c ∈ a.2, Plain c) :
    Opening byteKind (text "<" ++ name ++ attributeText as ++ text ">") name as false := by
  have tag := Opening.start (o := chr '<') (s := []) (c := chr '>') (by decide) named
    (attributes_text neat) (fun _ mem => absurd mem List.not_mem_nil) (by decide)
  simpa [text] using tag

theorem empty_text {name : CStr} (named : IsName byteKind name) :
    Opening byteKind (text "<" ++ name ++ text "/>") name [] true := by
  have tag := Opening.empty (o := chr '<') (s := []) (e := chr '/') (c := chr '>') (by decide) named
    .nil (fun _ mem => absurd mem List.not_mem_nil) (by decide) (by decide)
  simpa [text] using tag

theorem end_text {name : CStr} (named : IsName byteKind name) :
    Closing byteKind (text "</" ++ name ++ text ">") name := by
  have tag := Closing.mk (o := chr '<') (e := chr '/') (s := []) (c := chr '>') (by decide)
    (by decide) named (fun _ mem => absurd mem List.not_mem_nil) (by decide)
  simpa [text] using tag

theorem leaf_text {s y : CStr} {nodes : List (Node Byte)} (plain : ∀ c ∈ s, Plain c)
    (rest : Nodes byteKind y nodes) : Nodes byteKind (s ++ y) (s.map .char ++ nodes) := by
  induction s with
  | nil => exact rest
  | cons c s ih =>
      obtain ⟨lt, _, amp, _⟩ := plain c List.mem_cons_self
      exact .char ⟨lt, amp⟩ (ih fun d mem => plain d (List.mem_cons_of_mem _ mem))

theorem has_content_of_no_attributes {items : List Item} (some_ : items ≠ [])
    (none_ : attributesOf items = []) : hasContent items = true := by
  cases items with
  | nil => exact absurd rfl some_
  | cons item items =>
      cases item with
      | attr name value => cases none_
      | leaf s => rfl
      | element tag inner => rfl

theorem render_full {tag : CStr} {items : List Item} (uncoloned : chr ':' ∉ tag)
    (content : hasContent items = true) : (Item.element tag items).render =
      (text "<" ++ tag ++ attributeText (attributesOf items) ++ text ">") ++
        (renderAll items ++ (text "</" ++ tag ++ text ">")) := by
  have some_ : items.isEmpty = false := by
    cases items with
    | nil => cases content
    | cons item items => rfl
  simp [Item.render, tag_name_uncoloned uncoloned, content, some_]

theorem render_unclosed {tag : CStr} {items : List Item} (uncoloned : chr ':' ∉ tag)
    (some_ : items ≠ []) (none_ : hasContent items = false) : (Item.element tag items).render =
      text "<" ++ tag ++ attributeText (attributesOf items) ++ text ">" := by
  simp [Item.render, tag_name_uncoloned uncoloned, none_, some_]

mutual

theorem item_text : ∀ (item : Item), item.Neat → item.Every WellMade →
    ∀ {y : CStr} {nodes : List (Node Byte)}, Nodes byteKind y nodes →
      Nodes byteKind (item.render ++ y) (item.nodes ++ nodes)
  | .attr _ _, _, _ => fun rest => rest
  | .leaf _, neat, _ => fun rest => leaf_text neat rest
  | .element tag items, ⟨named, neat⟩, ⟨⟨filled, distinct, uncoloned⟩, made⟩ => by
      intro rest
      by_cases empty : items = []
      · subst empty
        have whole := Nodes.empty (empty_text named) List.nodup_nil rest
        simpa [Item.render, tag_name_uncoloned uncoloned, Item.nodes, attributesOf, nodesOf]
          using whole
      · have content : hasContent items = true := by
          by_cases none_ : attributesOf items = []
          · exact has_content_of_no_attributes empty none_
          · exact filled none_
        have inner := items_text items neat made .nil
        have whole := Nodes.full (start_text named (neat_attributes neat)) distinct inner
          (end_text named) rest
        rw [render_full uncoloned content]
        simpa [Item.nodes] using whole

theorem items_text : ∀ (items : List Item), NeatAll items → EveryOf WellMade items →
    ∀ {y : CStr} {nodes : List (Node Byte)}, Nodes byteKind y nodes →
      Nodes byteKind (renderAll items ++ y) (nodesOf items ++ nodes)
  | [], _, _ => fun rest => rest
  | item :: items, ⟨neat, neats⟩, ⟨made, others⟩ => by
      intro rest
      have whole := item_text item neat made (items_text items neats others rest)
      simpa [renderAll, nodesOf] using whole

end

end ReadBack

section Defects

mutual

/-- How many start tags the text leaves open. -/
def Item.unclosed : Item → Nat
  | .attr _ _ => 0
  | .leaf _ => 0
  | .element _ items =>
      (if attributesOf items ≠ [] ∧ hasContent items = false then 1 else 0) + unclosedIn items

def unclosedIn : List Item → Nat
  | [] => 0
  | item :: items => item.unclosed + unclosedIn items

end

mutual

/-- How many colons the tags have. -/
def Item.colons : Item → Nat
  | .attr _ _ => 0
  | .leaf _ => 0
  | .element tag items => tag.countP (· == chr ':') + colonsIn items

def colonsIn : List Item → Nat
  | [] => 0
  | item :: items => item.colons + colonsIn items

end

theorem no_content_unclosed {items : List Item} (none_ : hasContent items = false) :
    unclosedIn items = 0 ∧ colonsIn items = 0 := by
  induction items with
  | nil => exact ⟨rfl, rfl⟩
  | cons item items ih =>
      cases item with
      | attr name value =>
          obtain ⟨first, second⟩ := ih none_
          exact ⟨by rw [unclosedIn, first]; rfl, by rw [colonsIn, second]; rfl⟩
      | leaf s => cases none_
      | element tag inner => cases none_

theorem scan_leaf {s r : CStr} (plain : ∀ c ∈ s, Plain c) :
    scan byteKind .content (s ++ r) = scan byteKind .content r := by
  induction s with
  | nil => rfl
  | cons c s ih =>
      rw [List.cons_append, scan, if_neg (plain c List.mem_cons_self).1]
      exact ih fun d mem => plain d (List.mem_cons_of_mem _ mem)

mutual

/-- Every start tag left open counts in the text. -/
theorem item_scan : ∀ (item : Item), item.Neat → item.Every Uncoloned → ∀ r : CStr,
    scan byteKind .content (item.render ++ r) = scan byteKind .content r + item.unclosed
  | .attr _ _, _, _, r => by simp [Item.render, Item.unclosed]
  | .leaf _, neat, _, r => by simp [Item.render, Item.unclosed, scan_leaf neat]
  | .element tag items, ⟨named, neat⟩, ⟨uncoloned, others⟩, r => by
      have start := start_text named (neat_attributes neat)
      have opened (r' : CStr) := scan_opening (r := r') start
      simp only [Bool.false_eq_true, if_false] at opened
      by_cases empty : items = []
      · subst empty
        have tagScan := scan_opening (r := r) (empty_text named)
        simpa [Item.render, tag_name_uncoloned uncoloned, Item.unclosed, attributesOf, unclosedIn]
          using tagScan
      · by_cases content : hasContent items = true
        · have zero : (if attributesOf items ≠ [] ∧ hasContent items = false then 1 else 0) = 0 :=
            if_neg fun both => by simp [content] at both
          rw [render_full uncoloned content, List.append_assoc, opened, List.append_assoc,
            items_scan items neat others, scan_closing (end_text named), Item.unclosed, zero]
          omega
        · have none_ : hasContent items = false := by simpa using content
          have some_ : attributesOf items ≠ [] := fun none' =>
            content (has_content_of_no_attributes empty none')
          have one : (if attributesOf items ≠ [] ∧ hasContent items = false then 1 else 0) = 1 :=
            if_pos ⟨some_, none_⟩
          rw [render_unclosed uncoloned empty none_, opened, Item.unclosed, one,
            (no_content_unclosed none_).1]
          simp

theorem items_scan : ∀ (items : List Item), NeatAll items → EveryOf Uncoloned items →
    ∀ r : CStr, scan byteKind .content (renderAll items ++ r) =
      scan byteKind .content r + unclosedIn items
  | [], _, _, r => by simp [renderAll, unclosedIn]
  | item :: items, ⟨neat, neats⟩, ⟨made, others⟩, r => by
      rw [renderAll, List.append_assoc, item_scan item neat made, items_scan items neats others,
        unclosedIn]
      omega

end

mutual

theorem item_filled : ∀ (item : Item), item.unclosed = 0 → item.Every Filled
  | .attr _ _, _ => trivial
  | .leaf _, _ => trivial
  | .element _ items, closed => by
      rw [Item.unclosed, Nat.add_eq_zero_iff] at closed
      refine ⟨fun some_ => ?_, items_filled items closed.2⟩
      by_contra none_
      have open_ : attributesOf items ≠ [] ∧ hasContent items = false := ⟨some_, by simpa using none_⟩
      simp [open_] at closed

theorem items_filled : ∀ (items : List Item), unclosedIn items = 0 → EveryOf Filled items
  | [], _ => trivial
  | item :: items, closed => by
      rw [unclosedIn, Nat.add_eq_zero_iff] at closed
      exact ⟨item_filled item closed.1, items_filled items closed.2⟩

end

mutual

theorem item_uncoloned : ∀ (item : Item), item.colons = 0 → item.Every Uncoloned
  | .attr _ _, _ => trivial
  | .leaf _, _ => trivial
  | .element tag items, none_ => by
      rw [Item.colons, Nat.add_eq_zero_iff, List.countP_eq_zero] at none_
      exact ⟨fun mem => none_.1 _ mem (by simp), items_uncoloned items none_.2⟩

theorem items_uncoloned : ∀ (items : List Item), colonsIn items = 0 → EveryOf Uncoloned items
  | [], _ => trivial
  | item :: items, none_ => by
      rw [colonsIn, Nat.add_eq_zero_iff] at none_
      exact ⟨item_uncoloned item none_.1, items_uncoloned items none_.2⟩

end

mutual

theorem item_distinct : ∀ (item : Item), DistinctIn item.nodes → item.Every Distinct
  | .attr _ _, _ => trivial
  | .leaf _, _ => trivial
  | .element _ items, ⟨⟨distinct, inner⟩, _⟩ => ⟨distinct, items_distinct items inner⟩

theorem items_distinct : ∀ (items : List Item), DistinctIn (nodesOf items) → EveryOf Distinct items
  | [], _ => trivial
  | item :: items, distinct => by
      obtain ⟨first, rest⟩ := distinct_append.1 distinct
      exact ⟨item_distinct item first, items_distinct items rest⟩

end

theorem tag_name_weight (tag : CStr) : (tagName tag).countP (· == chr ':') = 0 := by
  refine List.countP_eq_zero.2 fun c mem isColon => ?_
  have other := List.mem_rtakeWhile_imp mem
  simp only [beq_iff_eq] at isColon
  simp [isColon] at other

theorem attribute_text_weight (as : List (CStr × CStr)) :
    (attributeText as).countP (· == chr ':') = attributesWeight (· == chr ':') as := by
  induction as with
  | nil => rfl
  | cons a as ih =>
      obtain ⟨name, value⟩ := a
      have blank : (text " ").countP (· == chr ':') = 0 := by decide
      have open_ : (text "=\"").countP (· == chr ':') = 0 := by decide
      have close : (text "\"").countP (· == chr ':') = 0 := by decide
      simp only [attributeText, List.countP_append, attributesWeight, ih, blank, open_, close]
      omega

mutual

/-- The text lacks the colons of the tags. -/
theorem item_weight : ∀ item : Item, item.render.countP (· == chr ':') + item.colons ≤
    weightOf (· == chr ':') item.nodes
  | .attr _ _ => Nat.le_refl _
  | .leaf s => by
      simp only [Item.render, Item.colons, Item.nodes]
      induction s with
      | nil => exact Nat.le_refl _
      | cons c s ih =>
          rw [List.map_cons, weightOf, Node.weight, List.countP_cons]
          omega
  | .element tag items => by
      have name := tag_name_weight tag
      have attrs := attribute_text_weight (attributesOf items)
      have inner := items_weight items
      have lt : (text "<").countP (· == chr ':') = 0 := by decide
      have gt : (text ">").countP (· == chr ':') = 0 := by decide
      have self : (text "/>").countP (· == chr ':') = 0 := by decide
      have close : (text "</").countP (· == chr ':') = 0 := by decide
      simp only [Item.render, Item.colons, Item.nodes, weightOf, Node.weight]
      split
      · simp only [List.countP_append, name, lt, self]
        omega
      · split
        · simp only [List.countP_append, name, attrs, lt, gt, close]
          omega
        · rename_i none_
          simp only [List.countP_append, name, attrs, lt, gt, List.countP_nil,
            (no_content_unclosed (by simpa using none_)).2]
          omega

theorem items_weight : ∀ items : List Item, (renderAll items).countP (· == chr ':') +
    colonsIn items ≤ weightOf (· == chr ':') (nodesOf items)
  | [] => Nat.le_refl _
  | item :: items => by
      have first := item_weight item
      have rest := items_weight items
      rw [renderAll, List.countP_append, colonsIn, nodesOf, weight_append]
      omega

end

mutual

theorem every_well_made : ∀ item : Item, item.Every Filled → item.Every Distinct →
    item.Every Uncoloned → item.Every WellMade
  | .attr _ _, _, _, _ => trivial
  | .leaf _, _, _, _ => trivial
  | .element _ items, ⟨filled, first⟩, ⟨distinct, second⟩, ⟨uncoloned, third⟩ =>
      ⟨⟨filled, distinct, uncoloned⟩, every_of_well_made items first second third⟩

theorem every_of_well_made : ∀ items : List Item, EveryOf Filled items → EveryOf Distinct items →
    EveryOf Uncoloned items → EveryOf WellMade items
  | [], _, _, _ => trivial
  | item :: items, ⟨filled, first⟩, ⟨distinct, second⟩, ⟨uncoloned, third⟩ =>
      ⟨every_well_made item filled distinct uncoloned, every_of_well_made items first second third⟩

end

/-- The text of an element is well formed and read back as the element exactly
when every element in it is well made. -/
theorem parses_iff {tag : CStr} {items : List Item} (neat : (Item.element tag items).Neat) :
    ParsesTo byteKind (Item.element tag items).render
        (.element tag (attributesOf items) (nodesOf items)) ↔
      (Item.element tag items).Every WellMade := by
  constructor
  · rintro ⟨_, nodes, _⟩
    have weight := nodes_weight (P := (· == chr ':')) nodes
    have lacking := item_weight (.element tag items)
    have noColons : (Item.element tag items).colons = 0 := by
      rw [Item.nodes] at lacking
      omega
    have uncoloned := item_uncoloned _ noColons
    have balanced := item_scan _ neat uncoloned []
    have closed : (Item.element tag items).unclosed = 0 := by
      by_contra open_
      refine no_nodes_of_scan ?_ _ nodes
      rw [← List.append_nil (Item.render _), balanced]
      simpa [scan] using open_
    exact every_well_made _ (item_filled _ closed) (item_distinct _ (nodes_distinct nodes)) uncoloned
  · intro made
    have whole := item_text _ neat made (y := []) .nil
    rw [List.append_nil, List.append_nil] at whole
    exact parses_to_of_nodes whole

end Defects

end BearLang.XmlTrees
