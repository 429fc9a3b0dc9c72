import BearLang.ListFrames
import BearLang.QualifiedNames

/-!
# Imports out of other modules

`(import a::b::c)` takes the module `c` out of the module `b` of the module `a`. It does so
by importing `b::c` in the context of `a`, so the name is bound there too, and what the
inner import gives is bound without a look at it.
-/

namespace BearLang.NestedImports

open CallPrograms ContextRefinement OperatorCalls EqualValues Assignments Handlers Occurrences
  SplitStrings QualifiedNames

set_option autoImplicit false

section Lists

variable {W : World} {s : State} {x p : Ptr} {xs : List Ptr} {c : Cell} {str : CStr}

theorem runs_str_of (known : s.cell p = some c) (sVal : c.sVal = some str) :
    (runtime W).Runs (strOf p) s str s := by
  rw [strOf, runs_after (runs_load known)]
  exact runs_member sVal s

theorem last_cell_of_list (list : ListAt s (xs ++ [x]) p) :
    ∃ q c, (runtime W).Runs (call (.lastCell p)) s q s ∧ s.cell q = some c ∧ c.car = x := by
  induction xs generalizing p with
  | nil =>
      obtain ⟨a, c, rfl, known, _, car, ended⟩ := list
      exact ⟨_, c, ListFrames.last_cell_here known ended, known, car⟩
  | cons y ys ih =>
      obtain ⟨a, c, rfl, known, _, _, rest⟩ := list
      obtain ⟨q, d, walked, found, car⟩ := ih rest
      exact ⟨q, d, ListFrames.last_cell_further known walked, found, car⟩

theorem list_last_runs (list : ListAt s (xs ++ [x]) p) :
    (runtime W).Runs (blListLast p) s x s := by
  obtain ⟨q, c, walked, known, car⟩ := last_cell_of_list (W := W) list
  have filled : p ≠ .null := by
    cases xs with
    | nil =>
        obtain ⟨a, _, rfl, _⟩ := list
        simp
    | cons y ys =>
        obtain ⟨a, _, rfl, _⟩ := list
        simp
  rw [blListLast, if_neg filled, runs_after walked, runs_after (runs_load known), car]
  exact runs_pure_self _ _

end Lists

section Pieces

variable {names : List CStr}

end Pieces

section Stores

variable {W : World} {s t u : State} {p q key v L : Ptr} {qs xs : List Ptr} {id : Nat}
  {strs : List CStr}

def StoredIn (q : Ptr) (id : Nat) (v : Ptr) (s t : State) : Prop :=
  ∃ b cell old new key, q = .ref b ∧ s.cell q = some cell ∧ cell.tail = .ctx old ∧
    Stored old new id key v ∧ t = s.put b { cell with tail := .ctx new }

/-- The value is stored in all these contexts, in the last of them first. -/
inductive Stores (id : Nat) (v : Ptr) (s : State) : List Ptr → State → Prop
  | nothing : Stores id v s [] s
  | store {t u : State} {q : Ptr} {qs : List Ptr} (before : Stores id v s qs t)
      (stored : StoredIn q id v t u) : Stores id v s (q :: qs) u

/-- Cells differ in what is behind their first two words at most. -/
def SameFronts (s t : State) : Prop :=
  ∀ p c, s.cell p = some c → ∃ tail, t.cell p = some { c with tail := tail }

theorem stored_fronts (stored : StoredIn q id v s t) : SameFronts s t := by
  obtain ⟨b, cell, old, new, key, rfl, found, _, _, rfl⟩ := stored
  intro p c known
  by_cases same : p = .ref b
  · subst same
    obtain rfl := Option.some.inj (known.symm.trans found)
    exact ⟨_, State.cell_put_same (State.ref_lt_fresh known) _⟩
  · exact ⟨c.tail, (State.cell_put_other same _).trans known⟩

theorem stored_bound (stored : StoredIn q id v s t) (p : Ptr) (i : Nat) :
    boundTo t p i = if p = q ∧ i = id then v else boundTo s p i := by
  obtain ⟨b, cell, old, new, key, rfl, found, tail, spec, rfl⟩ := stored
  exact bound_to_stored found tail spec p i

end Stores

section Steps

variable {W : World} {s t u : State} {p q m v L ctx : Ptr} {c : Cell} {names strs : List CStr}
  {name last str : CStr} {id : Nat}

theorem bound_to_adds (adds : Adds s t) (p : Ptr) (i : Nat) : boundTo t p i = boundTo s p i := by
  have extended := adds_extends adds
  obtain ⟨cells, rfl, plain⟩ := adds
  cases before : s.cell p with
  | some c => rw [boundTo, boundTo, ctxAt, ctxAt, extended p c before, before]
  | none =>
      have unbound : boundTo s p i = .null := by
        rw [boundTo, ctxAt, before]
        rfl
      rw [unbound, boundTo, ctxAt]
      cases after : State.cell { s with cells := s.cells ++ cells } p with
      | none => rfl
      | some c =>
          obtain ⟨a, rfl⟩ := State.ref_of_cell after
          have outside : s.cells.length ≤ a := List.getElem?_eq_none_iff.1 before
          have new : cells[a - s.cells.length]? = some c := by
            rw [← after]
            exact (List.getElem?_append_right outside).symm
          have noSlots := plain c (List.mem_of_getElem? new)
          rw [Option.bind_some, Cell.asCtx]
          cases tail : c.tail with
          | ctx x => exact absurd tail (noSlots x)
          | zeros => rfl
          | closure lexical inner sym => rfl
          | err e =>
              dsimp only
              split <;> rfl

theorem later_of_adds (sound : Sound u) (ids : SymbolsMade t) (adds : Adds t u) : Later t u := by
  have extended := adds_extends adds
  have bound := bound_to_adds adds
  obtain ⟨cells, rfl, _⟩ := adds
  refine ⟨extended, sound, fun entry mem => ?_, Nat.le_refl _, fun _ _ found => found,
    fun name entry missed found => ?_, bound⟩
  · obtain ⟨id, named⟩ := ids entry mem
    exact ⟨id, sym_id_extends extended named⟩
  · rw [missed] at found
    cases found

theorem later_of_run {α : Type} {program : Prog α} {r : α} (later : Later s t)
    (run : (runtime W).Runs program t r u) (adds : Adds t u) : Later t u :=
  later_of_adds (runs_sound later.sound run) later.ids adds

theorem strings_last_runs (strings : StringsAt s (strs ++ [last]) L) :
    ∃ q c, (runtime W).Runs (blListLast L) s q s ∧ s.cell q = some c ∧ c.sVal = some last := by
  obtain ⟨ps, list, held⟩ := strings
  have ends : ∃ init q, ps = init ++ [q] ∧ Holds s (.string last) q := by
    clear list
    induction strs generalizing ps with
    | nil =>
        cases held with
        | cons first rest =>
            cases rest
            exact ⟨[], _, rfl, first⟩
    | cons str strs ih =>
        cases held with
        | cons first rest =>
            obtain ⟨init, q, rfl, final⟩ := ih _ rest
            exact ⟨_ :: init, q, rfl, final⟩
  obtain ⟨init, q, rfl, c, known, _, sVal, _⟩ := ends
  exact ⟨q, c, list_last_runs list, known, sVal⟩

end Steps

section Levels

variable {W : World} {s t u : State} {p q m v L ctx : Ptr} {c : Cell} {names strs : List CStr}
  {name last : CStr} {id : Nat} {qs : List Ptr} {found : Option Ptr}

def NotFound (s : State) (e : Ptr) : Prop :=
  ∃ name, s.cell e = some (.mkErr .moduleNotFound 0 { symbolName := some name })

/-- An import gives the module, or a new error. -/
def Gives (s t : State) : Option Ptr → Ptr → Prop
  | some v, r => r = v ∧ v ≠ .null
  | none, r => NotFound t r ∧ s.cell r = none

end Levels

section Frames

variable {W : World} {s s' t u : State} {p q r v ctx expr sym : Ptr} {names before after : List CStr}
  {last missing : CStr} {id n : Nat} {qs more : List Ptr} {symCell : Cell}

end Frames

end BearLang.NestedImports
