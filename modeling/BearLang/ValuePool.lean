import Mathlib.Data.List.Basic

/-!
# The pool of values

`bl_alloc_vals` of `utils.c`. Values are taken out of one array after the other;
`last_alloc` is moved on before the block is taken at it, and the test for a new
array looks at where it was.
-/

namespace BearLang.ValuePool

set_option autoImplicit false

def poolDefaultSize : Nat := 100000

/-- `val_pool`, as the number of its array, and `last_alloc`. The size of a pool
never changes. -/
structure Pool where
  valPool : Nat
  lastAlloc : Nat
  /-- the number `GC_MALLOC` gives to the next array -/
  arrays : Nat
deriving DecidableEq, Repr

/-- Slots of an array, from a first one on. -/
structure Block where
  array : Nat
  first : Nat
  count : Nat
deriving DecidableEq, Repr

def Pool.initial : Pool := ⟨0, 0, 1⟩

def Pool.refilled (p : Pool) : Pool :=
  if poolDefaultSize ≤ p.lastAlloc then ⟨p.arrays, 0, p.arrays + 1⟩ else p

def blAllocVals (count : Nat) (p : Pool) : Block × Pool :=
  if poolDefaultSize < count then (⟨p.arrays, 0, count⟩, { p with arrays := p.arrays + 1 })
  else
    let p := p.refilled
    let p := { p with lastAlloc := p.lastAlloc + count }
    (⟨p.valPool, p.lastAlloc, count⟩, p)

def blocks : Pool → List Nat → List Block
  | _, [] => []
  | p, count :: counts => (blAllocVals count p).1 :: blocks (blAllocVals count p).2 counts

def Block.Inside (b : Block) : Prop := b.first + b.count ≤ poolDefaultSize

instance (b : Block) : Decidable b.Inside :=
  inferInstanceAs (Decidable (b.first + b.count ≤ poolDefaultSize))

def Block.Disjoint (a b : Block) : Prop :=
  a.array ≠ b.array ∨ a.first + a.count ≤ b.first ∨ b.first + b.count ≤ a.first

/-- In one array no request is smaller than the one before it, and each fits
twice behind `last_alloc`. -/
def Fits : Nat → Nat → List Nat → Prop
  | _, _, [] => True
  | lastAlloc, previous, count :: counts =>
      if poolDefaultSize ≤ lastAlloc then
        2 * count ≤ poolDefaultSize ∧ Fits count count counts
      else
        previous ≤ count ∧ lastAlloc + 2 * count ≤ poolDefaultSize ∧
          Fits (lastAlloc + count) count counts

def Served (counts : List Nat) : Prop := ∀ count ∈ counts, 1 ≤ count ∧ count ≤ poolDefaultSize

section Blocks

variable {count : Nat} {counts : List Nat} {p : Pool}

def Pool.advanced (p : Pool) (count : Nat) : Pool := ⟨p.valPool, p.lastAlloc + count, p.arrays⟩

theorem blocks_in_place (served : count ≤ poolDefaultSize) (room : p.lastAlloc < poolDefaultSize) :
    blocks p (count :: counts) =
      ⟨p.valPool, p.lastAlloc + count, count⟩ :: blocks (p.advanced count) counts := by
  rw [blocks, blAllocVals, if_neg (Nat.not_lt.2 served), Pool.refilled, if_neg (Nat.not_le.2 room)]
  rfl

theorem blocks_refilled (served : count ≤ poolDefaultSize) (full : poolDefaultSize ≤ p.lastAlloc) :
    blocks p (count :: counts) =
      ⟨p.arrays, count, count⟩ :: blocks ⟨p.arrays, count, p.arrays + 1⟩ counts := by
  rw [blocks, blAllocVals, if_neg (Nat.not_lt.2 served), Pool.refilled, if_pos full]
  simp

/-- A later block lies behind `last_alloc`, or in an array yet to be made. -/
theorem later_blocks (served : Served counts) (made : p.valPool < p.arrays) :
    ∀ b ∈ blocks p counts,
      (b.array = p.valPool ∧ p.lastAlloc < b.first) ∨ p.arrays ≤ b.array := by
  induction counts generalizing p with
  | nil => exact fun _ mem => absurd mem List.not_mem_nil
  | cons count counts ih =>
      have here := served count List.mem_cons_self
      have rest : Served counts := fun other mem => served other (List.mem_cons_of_mem _ mem)
      intro b mem
      by_cases full : poolDefaultSize ≤ p.lastAlloc
      · rw [blocks_refilled here.2 full] at mem
        rcases List.mem_cons.1 mem with rfl | later
        · exact .inr (Nat.le_refl _)
        · rcases ih rest (Nat.lt_succ_self _) b later with ⟨same, _⟩ | new
          · exact .inr (Nat.le_of_eq same.symm)
          · exact .inr (Nat.le_of_succ_le new)
      · have room : p.lastAlloc < poolDefaultSize := Nat.not_le.1 full
        rw [blocks_in_place here.2 room] at mem
        rcases List.mem_cons.1 mem with rfl | later
        · refine .inl ⟨rfl, ?_⟩
          simp only
          omega
        · rcases ih (p := p.advanced count) rest made b later with ⟨same, behind⟩ | new
          · refine .inl ⟨same, ?_⟩
            simp only [Pool.advanced] at behind
            omega
          · exact .inr new

/-- The blocks are well placed, and those of the present array are behind the
block given out last. -/
def WellPlaced (p : Pool) (previous : Nat) (bs : List Block) : Prop :=
  (∀ b ∈ bs, b.Inside ∧ (b.array = p.valPool → p.lastAlloc + previous ≤ b.first)) ∧
    bs.Pairwise Block.Disjoint

theorem disjoint_later {b later : Block} (behind : later.array = b.array → b.first < later.first) :
    b.Disjoint later ↔ (later.array = b.array → b.first + b.count ≤ later.first) := by
  unfold Block.Disjoint
  constructor
  · rintro apart same
    have := behind same
    rcases apart with other | before | after
    · exact absurd same.symm other
    · exact before
    · omega
  · intro before
    by_cases same : later.array = b.array
    · exact .inr (.inl (before same))
    · exact .inl fun h => same h.symm

/-- One request: its own block, and those behind it. -/
theorem well_placed_cons {previous : Nat} {b : Block} {bs : List Block} {q : Pool}
    (own : q.valPool = b.array ∧ q.lastAlloc = b.first)
    (behind : ∀ later ∈ bs, later.array = b.array → b.first < later.first)
    (before : ∀ later ∈ bs, later.array = p.valPool →
      b.array = p.valPool ∧ p.lastAlloc + previous ≤ b.first → p.lastAlloc + previous ≤ later.first)
    (others : ∀ later ∈ bs, b.array ≠ p.valPool → later.array ≠ p.valPool) :
    WellPlaced p previous (b :: bs) ↔
      b.Inside ∧ (b.array = p.valPool → p.lastAlloc + previous ≤ b.first) ∧
        WellPlaced q b.count bs := by
  simp only [WellPlaced, List.forall_mem_cons, List.pairwise_cons, own.1, own.2]
  constructor
  · rintro ⟨⟨⟨inside, first⟩, rest⟩, apart, pairs⟩
    refine ⟨inside, first, fun later mem => ⟨(rest later mem).1, ?_⟩, pairs⟩
    exact (disjoint_later (behind later mem)).1 (apart later mem)
  · rintro ⟨inside, first, rest, pairs⟩
    refine ⟨⟨⟨inside, first⟩, fun later mem => ⟨(rest later mem).1, fun same => ?_⟩⟩,
      fun later mem => (disjoint_later (behind later mem)).2 (rest later mem).2, pairs⟩
    by_cases here : b.array = p.valPool
    · exact before later mem same ⟨here, first here⟩
    · exact absurd same (others later mem here)

theorem well_placed_iff (served : Served counts) (made : p.valPool < p.arrays) (previous : Nat) :
    WellPlaced p previous (blocks p counts) ↔ Fits p.lastAlloc previous counts := by
  induction counts generalizing p previous with
  | nil => simp [blocks, WellPlaced, Fits]
  | cons count counts ih =>
      have here := served count List.mem_cons_self
      have rest : Served counts := fun other mem => served other (List.mem_cons_of_mem _ mem)
      by_cases full : poolDefaultSize ≤ p.lastAlloc
      · have later := later_blocks (p := ⟨p.arrays, count, p.arrays + 1⟩) rest (Nat.lt_succ_self _)
        have new : ∀ b ∈ blocks ⟨p.arrays, count, p.arrays + 1⟩ counts, b.array ≠ p.valPool := by
          intro b mem same
          rcases later b mem with ⟨array, _⟩ | array
          · simp only at array
            omega
          · simp only at array
            omega
        rw [blocks_refilled here.2 full, Fits, if_pos full,
          well_placed_cons (q := ⟨p.arrays, count, p.arrays + 1⟩) ⟨rfl, rfl⟩ ?behind
            (fun b mem same => absurd same (new b mem)) (fun b mem _ => new b mem),
          ih rest (Nat.lt_succ_self _) count]
        case behind =>
          intro b mem same
          rcases later b mem with ⟨_, behind⟩ | array
          · exact behind
          · simp only at array same
            omega
        have other : p.arrays ≠ p.valPool := by omega
        have twice : count + count ≤ poolDefaultSize ↔ 2 * count ≤ poolDefaultSize := by omega
        simp only [Block.Inside, twice, other, false_implies, true_and]
      · have room : p.lastAlloc < poolDefaultSize := Nat.not_le.1 full
        have later := later_blocks (p := p.advanced count) rest made
        have behind : ∀ b ∈ blocks (p.advanced count) counts,
            b.array = p.valPool → p.lastAlloc + count < b.first := by
          intro b mem same
          rcases later b mem with ⟨_, behind⟩ | array
          · exact behind
          · simp only [Pool.advanced] at array
            omega
        have before : ∀ b ∈ blocks (p.advanced count) counts, b.array = p.valPool →
            p.valPool = p.valPool ∧ p.lastAlloc + previous ≤ p.lastAlloc + count →
              p.lastAlloc + previous ≤ b.first := by
          intro b mem same first
          have := behind b mem same
          omega
        rw [blocks_in_place here.2 room, Fits, if_neg full,
          well_placed_cons (q := p.advanced count) ⟨rfl, rfl⟩ behind before
            (fun _ _ other => absurd rfl other), ih (p := p.advanced count) rest made count]
        have fits : p.lastAlloc + count + count ≤ poolDefaultSize ↔
            p.lastAlloc + 2 * count ≤ poolDefaultSize := by omega
        have order : p.lastAlloc + previous ≤ p.lastAlloc + count ↔ previous ≤ count := by omega
        simp only [Block.Inside, fits, order, true_implies]
        exact ⟨fun ⟨a, b, c⟩ => ⟨b, a, c⟩, fun ⟨a, b, c⟩ => ⟨b, a, c⟩⟩

/-- One slot after the other, up to the end of the array. -/
theorem single_slots (n : Nat) (room : p.lastAlloc + n < poolDefaultSize) :
    ⟨p.valPool, p.lastAlloc + (n + 1), 1⟩ ∈ blocks p (List.replicate (n + 1) 1) := by
  induction n generalizing p with
  | zero =>
      rw [List.replicate_succ, blocks_in_place (by decide) room]
      exact List.mem_cons_self
  | succ n ih =>
      rw [List.replicate_succ, blocks_in_place (by decide) (by omega)]
      have later := ih (p := p.advanced 1) (by simp only [Pool.advanced]; omega)
      simp only [Pool.advanced] at later ⊢
      rw [Nat.add_assoc, Nat.add_comm 1] at later
      exact List.mem_cons_of_mem _ later

end Blocks

/-- All blocks lie in their arrays and apart from each other exactly if no
request is smaller than the one before it in the array, and none comes near the
end of an array. -/
theorem blocks_valid_iff (counts : List Nat) (served : Served counts) :
    ((∀ b ∈ blocks .initial counts, b.Inside) ∧
      (blocks .initial counts).Pairwise Block.Disjoint) ↔ Fits 0 0 counts := by
  have placed := well_placed_iff (p := .initial) served (by decide) 0
  simpa [WellPlaced, Pool.initial] using placed

/-- Three blocks of growing size. -/
theorem blocks_valid_growing :
    (∀ b ∈ blocks .initial [1, 1, 3], b.Inside) ∧
      (blocks .initial [1, 1, 3]).Pairwise Block.Disjoint := by
  have served : Served [1, 1, 3] := by
    intro count mem
    simp only [List.mem_cons, List.not_mem_nil, or_false] at mem
    rcases mem with rfl | rfl | rfl <;> decide
  exact (blocks_valid_iff [1, 1, 3] served).2 (by simp [Fits, poolDefaultSize])

/-- The last of a hundred thousand values lies behind the end of the array. -/
theorem last_value_outside :
    Served (List.replicate 100000 1) ∧
      ∃ b ∈ blocks .initial (List.replicate 100000 1), ¬ b.Inside := by
  refine ⟨fun count mem => ?_, ⟨0, 100000, 1⟩, ?_, by decide⟩
  · rw [(List.mem_replicate.1 mem).2]
    decide
  · exact single_slots (p := .initial) 99999 (by decide)

end BearLang.ValuePool
