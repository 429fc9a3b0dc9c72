import Mathlib.Logic.Relation
import Mathlib.Order.WellFoundedSet

/-!
# Relations without cycles

A relation over any type, changed by one edge or by one new source. Where only
finitely many elements have successors, a relation without cycles is well
founded.
-/

namespace BearLang.AcyclicRelations

open Relation

set_option autoImplicit false

variable {α : Type*} {r r' : α → α → Prop} {a b n x y : α}

def Acyclic (r : α → α → Prop) : Prop := ∀ x, ¬ TransGen r x x

/-- What a new edge adds are the chains through it. -/
theorem chain_through_edge (edge : ∀ x y, r' x y → r x y ∨ (x = a ∧ y = b))
    (chain : TransGen r' x y) :
    TransGen r x y ∨ (ReflTransGen r x a ∧ ReflTransGen r b y) := by
  induction chain with
  | single first =>
      rcases edge _ _ first with old | ⟨rfl, rfl⟩
      · exact .inl (.single old)
      · exact .inr ⟨.refl, .refl⟩
  | tail _ last ih =>
      rcases edge _ _ last with old | ⟨rfl, rfl⟩
      · rcases ih with before | ⟨before, after⟩
        · exact .inl (before.tail old)
        · exact .inr ⟨before, after.tail old⟩
      · rcases ih with before | ⟨before, _⟩
        · exact .inr ⟨before.to_reflTransGen, .refl⟩
        · exact .inr ⟨before, .refl⟩

/-- An edge closes no cycle if its end does not lead back to its start. -/
theorem acyclic_add_edge (edge : ∀ x y, r' x y → r x y ∨ (x = a ∧ y = b))
    (apart : ¬ ReflTransGen r b a) (acyclic : Acyclic r) : Acyclic r' := by
  intro x cycle
  rcases chain_through_edge edge cycle with old | ⟨before, after⟩
  · exact acyclic x old
  · exact apart (after.trans before)

theorem cycle_of_edge (kept : ∀ x y, x ≠ a → r x y → r' x y) (edge : r' a b)
    (back : ReflTransGen r b a) : ¬ Acyclic r' := by
  have chain : ∀ z, ReflTransGen r z a → ReflTransGen r' z a := by
    intro z back
    induction back using ReflTransGen.head_induction_on with
    | refl => exact .refl
    | @head c d first _ ih =>
        by_cases there : c = a
        · rw [there]
        · exact .head (kept c d there first) ih
  intro acyclic
  exact acyclic a (TransGen.head' edge (chain b back))

/-- Edges out of an element that has none into it. -/
theorem acyclic_add_source (old : ∀ x y, x ≠ n → r' x y → r x y) (source : ∀ x, ¬ r' x n)
    (acyclic : Acyclic r) : Acyclic r' := by
  have reached : ∀ x y, TransGen r' x y → y ≠ n := by
    intro x y chain same
    obtain ⟨z, _, last⟩ := TransGen.tail'_iff.1 chain
    exact source z (same ▸ last)
  have chain : ∀ x y, x ≠ n → TransGen r' x y → TransGen r x y := by
    intro x y start chain
    induction chain with
    | single first => exact .single (old _ _ start first)
    | tail before last ih => exact ih.tail (old _ _ (reached _ _ before) last)
  intro x cycle
  exact acyclic x (chain x x (reached x x cycle) cycle)

theorem acyclic_of_descending (rank : α → Nat) (descends : ∀ x y, r x y → rank y < rank x) :
    Acyclic r := by
  have chain : ∀ x y, TransGen r x y → rank y < rank x := by
    intro x y chain
    induction chain with
    | single first => exact descends _ _ first
    | tail _ last ih => exact Nat.lt_trans (descends _ _ last) ih
  intro x cycle
  exact Nat.lt_irrefl _ (chain x x cycle)

/-- An element is accessible once all its successors are; those without
successors are at once. -/
theorem accessible_of_acyclic {inside : Set α} (finite : inside.Finite)
    (sources : ∀ x y, r x y → x ∈ inside) (acyclic : Acyclic r) (x : α) :
    Acc (fun y x => r x y) x := by
  have outside : ∀ x, x ∉ inside → Acc (fun y x => r x y) x := fun x none_ =>
    ⟨_, fun y edge => absurd (sources x y edge) none_⟩
  let later : α → α → Prop := fun y x => TransGen r x y
  have order : IsStrictOrder α later :=
    { irrefl := fun x cycle => acyclic x cycle
      trans := fun _ _ _ first second => TransGen.trans second first }
  have founded : inside.WellFoundedOn later := Set.Finite.wellFoundedOn finite
  by_cases here : x ∈ inside
  · refine founded.induction here fun y mem ih => ⟨_, fun z edge => ?_⟩
    by_cases there : z ∈ inside
    · exact ih z there (.single edge)
    · exact outside z there
  · exact outside x here

end BearLang.AcyclicRelations
