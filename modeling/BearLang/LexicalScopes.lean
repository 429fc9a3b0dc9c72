import Mathlib.Data.List.Basic

/-!
# Lexically scoped finite maps

Scopes are opened inside scopes that are open already, and names are bound in
them. What a name means in a scope is read off the history of these events: the
latest value in the nearest scope that has one. Scopes, names and values are of
any type.
-/

namespace BearLang.LexicalScopes

set_option autoImplicit false

inductive Event (C K V : Type) where
  | opened (scope : C) (parent : Option C)
  | bound (scope : C) (name : K) (value : Option V)

section Nesting

variable {C K V : Type} [DecidableEq C]

/-- The parent a scope was opened in; the history has its newest event first. -/
def parent : List (Event C K V) → C → Option (Option C)
  | [], _ => none
  | .opened scope outer :: past, c => if scope = c then some outer else parent past c
  | .bound .. :: past, c => parent past c

def Opened (history : List (Event C K V)) (c : C) : Prop := ∃ outer, parent history c = some outer

/-- Every scope is opened once, and inside a scope opened before it. -/
def Nested : List (Event C K V) → Prop
  | [] => True
  | .opened scope outer :: past =>
      Nested past ∧ ¬ Opened past scope ∧ ∀ p, outer = some p → Opened past p
  | .bound .. :: past => Nested past

/-- The parents of the scopes of `past` are the same in `history`. -/
def Keeps (past history : List (Event C K V)) : Prop :=
  ∀ c outer, parent past c = some outer → parent history c = some outer

theorem keeps_opened {past : List (Event C K V)} {scope : C} (outer : Option C)
    (new : ¬ Opened past scope) : Keeps past (.opened scope outer :: past) := by
  intro c found known
  have other : scope ≠ c := by
    rintro rfl
    exact new ⟨found, known⟩
  simp only [parent, if_neg other]
  exact known

theorem opened_of_parent {history : List (Event C K V)} (nested : Nested history) {c p : C}
    (inside : parent history c = some (some p)) : Opened history p := by
  induction history with
  | nil => simp [parent] at inside
  | cons event past ih =>
      cases event with
      | bound scope name value => exact ih nested inside
      | opened scope outer =>
          obtain ⟨nested, new, within⟩ := nested
          have older : Opened past p := by
            simp only [parent] at inside
            split at inside
            · exact within p (Option.some.inj inside)
            · exact ih nested inside
          obtain ⟨found, known⟩ := older
          exact ⟨found, keeps_opened outer new p found known⟩

end Nesting

section Meaning

variable {C K V : Type} [DecidableEq C] [DecidableEq K]

/-- The value last bound; binding nothing takes the name out of the scope. -/
def latest : List (Event C K V) → C → K → Option V
  | [], _, _ => none
  | .opened .. :: past, c, k => latest past c k
  | .bound scope name value :: past, c, k =>
      if scope = c ∧ name = k then value else latest past c k

inductive Resolves (history : List (Event C K V)) : C → K → Option V → Prop where
  | here {c : C} {k : K} {v : V} (found : latest history c k = some v) :
      Resolves history c k (some v)
  | outer {c p : C} {k : K} {found : Option V} (missed : latest history c k = none)
      (inside : parent history c = some (some p)) (later : Resolves history p k found) :
      Resolves history c k found
  | nowhere {c : C} {k : K} (missed : latest history c k = none)
      (outermost : parent history c = some none) : Resolves history c k none

/-- Every name means something, or nothing, in every open scope. -/
theorem resolves_of_keeps {past history : List (Event C K V)} (nested : Nested past)
    (keeps : Keeps past history) {c : C} (opened : Opened past c) (k : K) :
    ∃ found, Resolves history c k found := by
  -- the chain of parents goes back in time
  induction past generalizing c with
  | nil => exact absurd opened.choose_spec (by simp [parent])
  | cons event past ih =>
      cases event with
      | bound scope name value => exact ih nested keeps opened
      | opened scope outer =>
          obtain ⟨nested, new, within⟩ := nested
          have older : Keeps past history := fun c found known =>
            keeps c found (keeps_opened outer new c found known)
          by_cases same : scope = c
          · have inside := keeps c outer (by simp [parent, same])
            cases missed : latest history c k with
            | some v => exact ⟨some v, .here missed⟩
            | none =>
                cases outer with
                | none => exact ⟨none, .nowhere missed inside⟩
                | some p =>
                    obtain ⟨found, later⟩ := ih nested older (within p rfl)
                    exact ⟨found, .outer missed inside later⟩
          · refine ih nested older ?_
            simpa only [Opened, parent, if_neg same] using opened

theorem resolves_exists {history : List (Event C K V)} (nested : Nested history) {c : C}
    (opened : Opened history c) (k : K) : ∃ found, Resolves history c k found :=
  resolves_of_keeps nested (fun _ _ known => known) opened k

end Meaning

end BearLang.LexicalScopes
