import Mathlib.Data.List.Basic

/-!
# Doubly linked chains

Chains of nodes in a store that knows the two links of each node. A node is put
in front of a chain by three stores; what they leave as it is, is said once for
all chains that have no node in common with it.
-/

namespace BearLang.LinkedChains

set_option autoImplicit false

structure Links where
  prev : Option Nat
  next : Option Nat
deriving DecidableEq, Repr

abbrev Store := Nat → Option Links

variable {h h' : Store} {start prev head : Option Nat} {l l' : List Nat} {a b c : Nat}

/-- Following `next` from `start` meets these nodes and comes to an end. -/
def Forward (h : Store) : Option Nat → List Nat → Prop
  | start, [] => start = none
  | start, a :: l => start = some a ∧ ∃ x, h a = some x ∧ Forward h x.next l

/-- And each of them knows the node before it. -/
def Chain (h : Store) : Option Nat → Option Nat → List Nat → Prop
  | _, start, [] => start = none
  | prev, start, a :: l =>
      start = some a ∧ ∃ x, h a = some x ∧ x.prev = prev ∧ Chain h (some a) x.next l

theorem forward_of_chain (chain : Chain h prev start l) : Forward h start l := by
  induction l generalizing prev start with
  | nil => exact chain
  | cons a l ih =>
      obtain ⟨starts, x, known, _, rest⟩ := chain
      exact ⟨starts, x, known, ih rest⟩

theorem forward_congr (same : ∀ a ∈ l, (h' a).map Links.next = (h a).map Links.next)
    (forward : Forward h start l) : Forward h' start l := by
  induction l generalizing start with
  | nil => exact forward
  | cons a l ih =>
      obtain ⟨starts, x, known, rest⟩ := forward
      have here := same a List.mem_cons_self
      rw [known, Option.map_some] at here
      obtain ⟨y, known', next⟩ := Option.map_eq_some_iff.1 here
      have later := ih (fun b mem => same b (List.mem_cons_of_mem a mem)) rest
      rw [← next] at later
      exact ⟨starts, y, known', later⟩

theorem chain_congr (same : ∀ a ∈ l, h' a = h a) (chain : Chain h prev start l) :
    Chain h' prev start l := by
  induction l generalizing prev start with
  | nil => exact chain
  | cons a l ih =>
      obtain ⟨starts, x, known, back, rest⟩ := chain
      have here := same a List.mem_cons_self
      rw [known] at here
      exact ⟨starts, x, here, back, ih (fun b mem => same b (List.mem_cons_of_mem a mem)) rest⟩

theorem start_of_chain (chain : Chain h prev start l) : start = l.head? := by
  cases l with
  | nil => exact chain
  | cons a l => exact chain.1

section Pushing

/-- The node `a` in front of what starts at `head`. -/
def push (h : Store) (head : Option Nat) (a : Nat) : Store := fun c =>
  if c = a then some ⟨none, head⟩
  else if head = some c then (h c).map fun x => { x with prev := some a }
  else h c

theorem push_elsewhere (other : c ≠ a) (notHead : head ≠ some c) : push h head a c = h c := by
  rw [push, if_neg other, if_neg notHead]

theorem push_next (other : c ≠ a) :
    (push h head a c).map Links.next = (h c).map Links.next := by
  unfold push
  rw [if_neg other]
  by_cases isHead : head = some c
  · rw [if_pos isHead, Option.map_map]
    rfl
  · rw [if_neg isHead]

theorem chain_push (chain : Chain h none head l) (new : a ∉ l) (apart : l.Nodup) :
    Chain (push h head a) none (some a) (a :: l) := by
  refine ⟨rfl, ⟨none, head⟩, ?_, rfl, ?_⟩
  · rw [push, if_pos rfl]
  cases l with
  | nil => exact chain
  | cons b l =>
      obtain ⟨starts, x, known, _, rest⟩ := chain
      have other : b ≠ a := fun same => new (same ▸ List.mem_cons_self)
      refine ⟨starts, { x with prev := some a }, ?_, rfl, ?_⟩
      · rw [push, if_neg other, if_pos starts, known]
        rfl
      apply chain_congr _ rest
      intro c mem
      apply push_elsewhere
      · exact fun same => new (same ▸ List.mem_cons_of_mem b mem)
      · intro isHead
        have same : b = c := Option.some.inj (starts.symm.trans isHead)
        exact (List.nodup_cons.1 apart).1 (same ▸ mem)

/-- A chain that the node and the chain behind it have no part in stays. -/
theorem chain_push_apart (chain : Chain h prev start l) (new : a ∉ l)
    (apart : ∀ b, head = some b → b ∉ l) : Chain (push h head a) prev start l := by
  apply chain_congr _ chain
  intro c mem
  apply push_elsewhere
  · exact fun same => new (same ▸ mem)
  · exact fun isHead => apart c isHead mem

end Pushing

section Ends

/-- The node `a` behind the last node of a chain. -/
def link (h : Store) (last a : Nat) : Store := fun c =>
  if c = a then some ⟨some last, none⟩
  else if c = last then (h c).map fun x => { x with next := some a }
  else h c

theorem chain_link {last : Nat} (chain : Chain h prev start l) (ends : l.getLast? = some last)
    (new : a ∉ l) (apart : l.Nodup) : Chain (link h last a) prev start (l ++ [a]) := by
  induction l generalizing prev start with
  | nil => cases ends
  | cons b l ih =>
      obtain ⟨starts, x, known, back, rest⟩ := chain
      have other : b ≠ a := fun same => new (same ▸ List.mem_cons_self)
      have later : a ∉ l := fun mem => new (List.mem_cons_of_mem b mem)
      cases l with
      | nil =>
          have isLast : b = last := Option.some.inj ends
          refine ⟨starts, { x with next := some a }, ?_, back, rfl, ⟨some last, none⟩, ?_, ?_, rfl⟩
          · rw [link, if_neg other, if_pos isLast, known]
            rfl
          · rw [link, if_pos rfl]
          · rw [isLast]
      | cons d l =>
          rw [List.getLast?_cons_cons] at ends
          have notLast : b ≠ last := by
            intro same
            have mem : last ∈ d :: l := List.mem_of_getLast? ends
            exact (List.nodup_cons.1 apart).1 (same ▸ mem)
          refine ⟨starts, x, ?_, back, ih rest ends later (List.nodup_cons.1 apart).2⟩
          rw [link, if_neg other, if_neg notLast, known]

end Ends

end BearLang.LinkedChains
