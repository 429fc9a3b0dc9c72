import BearLang.ProgramReachability

/-!
# One machine in the place of another

Two machines with the same procedures, where a state of the first stands for a
state of the second. The steps agree as long as the operations meet a guard, or
the first machine gives up. Then every point that a run of the first machine
reaches is a point of the run of the second, and the other way round up to the
point where the first gives up.
-/

namespace BearLang.CallPrograms

open Program

set_option autoImplicit false

section Refinement

variable {S : Signature} {σ τ α : Type}

/-- A step of `M` is the step of `N` that `stands` shows, unless `M` gives up. -/
structure Machine.Refines (M : Machine S σ) (N : Machine S τ) (stands : σ → τ)
    (invariant : σ → Prop) (guard : S.Op → τ → Prop) (givesUp : S.Op → σ → Prop) : Prop where
  bodies : M.body = N.body
  answered : ∀ {op : S.Op} {s t : σ} {answer : S.OpAnswer op}, invariant s → guard op (stands s) →
    M.step op s = some (answer, t) → N.step op (stands s) = some (answer, stands t) ∧ invariant t
  faulted : ∀ {op : S.Op} {s : σ}, invariant s → guard op (stands s) →
    M.step op s = none → N.step op (stands s) = none ∨ givesUp op s

variable {M : Machine S σ} {N : Machine S τ} {stands : σ → τ} {invariant : σ → Prop}
  {guard : S.Op → τ → Prop} {givesUp : S.Op → σ → Prop} {p q : Program S α}

/-- Every point that `M` reaches, `N` reaches. -/
theorem reaches_refined (refines : M.Refines N stands invariant guard givesUp) {s t : σ}
    (reached : M.Reaches p s q t) (start : invariant s)
    (guarded : ∀ op before, N.Performs p (stands s) op before → guard op before) :
    N.Reaches p (stands s) q (stands t) ∧ invariant t := by
  induction reached with
  | refl program state => exact ⟨.refl _ _, start⟩
  | @perform op next state middle final answer rest stepped later ih =>
      have here := guarded op (stands state) ⟨next, .refl _ _⟩
      obtain ⟨matched, kept⟩ := refines.answered start here stepped
      have behind : ∀ op before, N.Performs (next answer) (stands middle) op before →
          guard op before := by
        intro op before performed
        apply guarded op before
        exact performs_later (.perform matched (.refl _ _)) performed
      obtain ⟨reached, kept'⟩ := ih kept behind
      exact ⟨.perform matched reached, kept'⟩
  | @invoke call next state final rest later ih =>
      have behind : ∀ op before, N.Performs (M.body call >>= next) (stands state) op before →
          guard op before := by
        intro op before performed
        apply guarded op before
        rw [refines.bodies] at performed
        exact performs_later (.invoke (.refl _ _)) performed
      obtain ⟨reached, kept⟩ := ih start behind
      rw [refines.bodies] at reached
      exact ⟨.invoke reached, kept⟩

/-- Every point that `N` reaches, `M` reaches, or it has given up before. -/
theorem reaches_matched (refines : M.Refines N stands invariant guard givesUp) {s : σ} {before t : τ}
    (reached : N.Reaches p before q t) (stood : stands s = before) (start : invariant s)
    (guarded : ∀ op now, N.Performs p before op now → guard op now) :
    (∃ u, M.Reaches p s q u ∧ stands u = t) ∨
    ∃ op next u, M.Reaches p s (.perform op next) u ∧ givesUp op u := by
  induction reached generalizing s with
  | refl program state => exact .inl ⟨s, .refl _ _, stood⟩
  | @perform op next state middle final answer rest stepped later ih =>
      subst stood
      have here := guarded op (stands s) ⟨next, .refl _ _⟩
      cases ran : M.step op s with
      | none =>
          rcases refines.faulted start here ran with fault | refused
          · rw [fault] at stepped
            cases stepped
          · exact .inr ⟨op, next, s, .refl _ _, refused⟩
      | some pair =>
          obtain ⟨matched, kept⟩ := refines.answered start here ran
          rw [stepped] at matched
          cases matched
          have behind : ∀ op now, N.Performs (next pair.1) (stands pair.2) op now →
              guard op now := by
            intro op now performed
            apply guarded op now
            exact performs_later (.perform stepped (.refl _ _)) performed
          rcases ih rfl kept behind with ⟨u, reached, same⟩ | ⟨op', next', u, reached, refused⟩
          · exact .inl ⟨u, .perform ran reached, same⟩
          · exact .inr ⟨op', next', u, .perform ran reached, refused⟩
  | @invoke call next state final rest later ih =>
      have behind : ∀ op now, N.Performs (N.body call >>= next) state op now → guard op now := by
        intro op now performed
        apply guarded op now
        exact performs_later (.invoke (.refl _ _)) performed
      rcases ih stood start behind with ⟨u, reached, same⟩ | ⟨op', next', u, reached, refused⟩
      · rw [← refines.bodies] at reached
        exact .inl ⟨u, .invoke reached, same⟩
      · rw [← refines.bodies] at reached
        exact .inr ⟨op', next', u, .invoke reached, refused⟩

end Refinement

end BearLang.CallPrograms
