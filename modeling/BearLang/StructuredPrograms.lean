import Mathlib.Logic.Basic

/-!
# Structured programs

Commands over states of any kind: a basic command is a partial function, and
commands are put together one behind the other, by a choice and by a loop. The
meaning says where a run ends and what it gives; a run that meets a basic command
or a test without a value sticks. A command that does neither goes on for ever.
The rules at the end are those of total correctness.
-/

namespace BearLang.StructuredPrograms

set_option autoImplicit false

inductive Command (σ β : Type) : Type where
  | act (meaning : σ → Option (β × σ))
  | next (first rest : Command σ β)
  | choose (test : σ → Option Bool) (yes no : Command σ β)
  | loop (test : σ → Option Bool) (body : Command σ β) (value : β)

section Meaning

variable {σ β : Type}

/-- `EndsIn c s v t`: started in `s`, the command ends in `t` and gives `v`. -/
inductive EndsIn : Command σ β → σ → β → σ → Prop
  | act {meaning : σ → Option (β × σ)} {s t : σ} {v : β} (made : meaning s = some (v, t)) :
      EndsIn (.act meaning) s v t
  | next {first rest : Command σ β} {s m t : σ} {v w : β} (one : EndsIn first s v m)
      (two : EndsIn rest m w t) : EndsIn (.next first rest) s w t
  | yes {test : σ → Option Bool} {yes no : Command σ β} {s t : σ} {v : β}
      (holds : test s = some true) (run : EndsIn yes s v t) : EndsIn (.choose test yes no) s v t
  | no {test : σ → Option Bool} {yes no : Command σ β} {s t : σ} {v : β}
      (fails : test s = some false) (run : EndsIn no s v t) : EndsIn (.choose test yes no) s v t
  | done {test : σ → Option Bool} {body : Command σ β} {value : β} {s : σ}
      (fails : test s = some false) : EndsIn (.loop test body value) s value s
  | again {test : σ → Option Bool} {body : Command σ β} {value v w : β} {s m t : σ}
      (holds : test s = some true) (turn : EndsIn body s v m)
      (later : EndsIn (.loop test body value) m w t) : EndsIn (.loop test body value) s w t

/-- Started in `s`, the command comes to something without a value. -/
inductive Sticks : Command σ β → σ → Prop
  | act {meaning : σ → Option (β × σ)} {s : σ} (none_ : meaning s = none) : Sticks (.act meaning) s
  | first {first rest : Command σ β} {s : σ} (one : Sticks first s) : Sticks (.next first rest) s
  | rest {first rest : Command σ β} {s m : σ} {v : β} (one : EndsIn first s v m)
      (two : Sticks rest m) : Sticks (.next first rest) s
  | test {test : σ → Option Bool} {yes no : Command σ β} {s : σ} (none_ : test s = none) :
      Sticks (.choose test yes no) s
  | yes {test : σ → Option Bool} {yes no : Command σ β} {s : σ} (holds : test s = some true)
      (run : Sticks yes s) : Sticks (.choose test yes no) s
  | no {test : σ → Option Bool} {yes no : Command σ β} {s : σ} (fails : test s = some false)
      (run : Sticks no s) : Sticks (.choose test yes no) s
  | loopTest {test : σ → Option Bool} {body : Command σ β} {value : β} {s : σ}
      (none_ : test s = none) : Sticks (.loop test body value) s
  | turn {test : σ → Option Bool} {body : Command σ β} {value : β} {s : σ}
      (holds : test s = some true) (run : Sticks body s) : Sticks (.loop test body value) s
  | again {test : σ → Option Bool} {body : Command σ β} {value v : β} {s m : σ}
      (holds : test s = some true) (turn : EndsIn body s v m)
      (later : Sticks (.loop test body value) m) : Sticks (.loop test body value) s

variable {c : Command σ β} {s t u : σ} {v w : β}

theorem ends_functional (one : EndsIn c s v t) (other : EndsIn c s w u) : v = w ∧ t = u := by
  induction one generalizing w u with
  | act made =>
      cases other with
      | act made' =>
          rw [made] at made'
          cases made'
          exact ⟨rfl, rfl⟩
  | next _ _ ih ih' =>
      cases other with
      | next first rest =>
          obtain ⟨rfl, rfl⟩ := ih first
          exact ih' rest
  | yes holds _ ih =>
      cases other with
      | yes _ run => exact ih run
      | no fails _ =>
          rw [holds] at fails
          cases fails
  | no fails _ ih =>
      cases other with
      | yes holds _ =>
          rw [fails] at holds
          cases holds
      | no _ run => exact ih run
  | done fails =>
      cases other with
      | done _ => exact ⟨rfl, rfl⟩
      | again holds _ _ =>
          rw [fails] at holds
          cases holds
  | again holds _ _ ih ih' =>
      cases other with
      | done fails =>
          rw [holds] at fails
          cases fails
      | again _ turn later =>
          obtain ⟨rfl, rfl⟩ := ih turn
          exact ih' later

theorem not_sticks_of_ends (ends : EndsIn c s v t) : ¬ Sticks c s := by
  intro sticks
  induction sticks generalizing v t with
  | act none_ =>
      cases ends with
      | act made =>
          rw [none_] at made
          cases made
  | first _ ih =>
      cases ends with
      | next one _ => exact ih one
  | rest one _ ih =>
      cases ends with
      | next one' two =>
          obtain ⟨rfl, rfl⟩ := ends_functional one one'
          exact ih two
  | test none_ =>
      cases ends <;> simp_all
  | yes holds _ ih =>
      cases ends with
      | yes _ run => exact ih run
      | no fails _ =>
          rw [holds] at fails
          cases fails
  | no fails _ ih =>
      cases ends with
      | yes holds _ =>
          rw [fails] at holds
          cases holds
      | no _ run => exact ih run
  | loopTest none_ =>
      cases ends <;> simp_all
  | turn holds _ ih =>
      cases ends with
      | done fails =>
          rw [holds] at fails
          cases fails
      | again _ turn _ => exact ih turn
  | again holds one _ ih =>
      cases ends with
      | done fails =>
          rw [holds] at fails
          cases fails
      | again _ turn later =>
          obtain ⟨rfl, rfl⟩ := ends_functional one turn
          exact ih later

end Meaning

section Correctness

variable {σ β : Type} {P : σ → Prop} {Q : β → σ → Prop}

/-- Total correctness: started where `P` holds, the command ends where `Q` holds. -/
def Correct (P : σ → Prop) (c : Command σ β) (Q : β → σ → Prop) : Prop :=
  ∀ s, P s → ∃ v t, EndsIn c s v t ∧ Q v t

theorem correct_act {meaning : σ → Option (β × σ)}
    (makes : ∀ s, P s → ∃ v t, meaning s = some (v, t) ∧ Q v t) : Correct P (.act meaning) Q := by
  intro s held
  obtain ⟨v, t, made, holds⟩ := makes s held
  exact ⟨v, t, .act made, holds⟩

theorem correct_next {first rest : Command σ β} {M : σ → Prop}
    (one : Correct P first fun _ m => M m) (two : Correct M rest Q) :
    Correct P (.next first rest) Q := by
  intro s held
  obtain ⟨v, m, run, between⟩ := one s held
  obtain ⟨w, t, run', holds⟩ := two m between
  exact ⟨w, t, .next run run', holds⟩

/-- The rule of the loop, with an invariant and a number that every turn makes
smaller. -/
theorem correct_loop {test : σ → Option Bool} {body : Command σ β} {value : β}
    (invariant : σ → Prop) (left : σ → Nat)
    (tested : ∀ s, invariant s → ∃ b, test s = some b)
    (turn : ∀ n, Correct (fun s => invariant s ∧ test s = some true ∧ left s = n) body
      fun _ t => invariant t ∧ left t < n) :
    Correct invariant (.loop test body value)
      fun v t => v = value ∧ invariant t ∧ test t = some false := by
  have each : ∀ n s, left s = n → invariant s → ∃ v t, EndsIn (.loop test body value) s v t ∧
      v = value ∧ invariant t ∧ test t = some false := by
    intro n
    induction n using Nat.strongRecOn with
    | ind n ih =>
        intro s size held
        obtain ⟨b, known⟩ := tested s held
        cases b with
        | false => exact ⟨value, s, .done known, rfl, held, known⟩
        | true =>
            obtain ⟨w, m, run, held', less⟩ := turn n s ⟨held, known, size⟩
            obtain ⟨v, t, later, holds⟩ := ih (left m) less m rfl held'
            exact ⟨v, t, .again known run later, holds⟩
  intro s held
  exact each (left s) s rfl held

theorem correct_weaken {c : Command σ β} {P' : σ → Prop} {Q' : β → σ → Prop}
    (correct : Correct P c Q) (stronger : ∀ s, P' s → P s) (weaker : ∀ v t, Q v t → Q' v t) :
    Correct P' c Q' := by
  intro s held
  obtain ⟨v, t, run, holds⟩ := correct s (stronger s held)
  exact ⟨v, t, run, weaker v t holds⟩

end Correctness

end BearLang.StructuredPrograms
