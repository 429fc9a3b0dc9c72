import Mathlib.Data.List.Basic

/-!
# Longest match, first rule on ties

The rule a generated scanner applies at the start of its input: the one with
the longest match, and among those the one listed first. What a rule matches is
a parameter.
-/

namespace BearLang.MaximalMunch

set_option autoImplicit false

variable {R β : Type}

/-- One more rule is compared with the best match so far; only a longer match
replaces it. -/
def better (matched : R → List β → Option Nat) (input : List β) (best : Option (R × Nat))
    (rule : R) : Option (R × Nat) :=
  match matched rule input, best with
  | none, best => best
  | some n, none => some (rule, n)
  | some n, some (found, m) => if m < n then some (rule, n) else some (found, m)

def longest (matched : R → List β → Option Nat) (rules : List R) (input : List β) :
    Option (R × Nat) :=
  rules.foldl (better matched input) none

variable {matched : R → List β → Option Nat} {input : List β}

/-- Rules that match at most `n` bytes leave a match of `n` bytes in place. -/
theorem fold_keeps (rules : List R) (rule : R) (n : Nat)
    (shorter : ∀ other ∈ rules, ∀ m, matched other input = some m → m ≤ n) :
    rules.foldl (better matched input) (some (rule, n)) = some (rule, n) := by
  induction rules with
  | nil => rfl
  | cons other rules ih =>
      have step : better matched input (some (rule, n)) other = some (rule, n) := by
        unfold better
        cases found : matched other input with
        | none => rfl
        | some m =>
            have bound := shorter other (by simp) m found
            simp only [if_neg (Nat.not_lt.2 bound)]
      rw [List.foldl_cons, step]
      exact ih fun other member => shorter other (by simp [member])

/-- Before a match of `n` bytes comes along, the best one is shorter. -/
theorem fold_shorter (rules : List R) (n : Nat) (best : Option (R × Nat))
    (bestShorter : ∀ rule m, best = some (rule, m) → m < n)
    (shorter : ∀ other ∈ rules, ∀ m, matched other input = some m → m < n) :
    ∀ rule m, rules.foldl (better matched input) best = some (rule, m) → m < n := by
  induction rules generalizing best with
  | nil => exact bestShorter
  | cons other rules ih =>
      rw [List.foldl_cons]
      refine ih _ ?_ fun other member => shorter other (by simp [member])
      intro rule m same
      unfold better at same
      cases found : matched other input with
      | none =>
          rw [found] at same
          exact bestShorter rule m same
      | some k =>
          have bound := shorter other (by simp) k found
          rw [found] at same
          cases best with
          | none =>
              simp only [Option.some.injEq, Prod.mk.injEq] at same
              omega
          | some pair =>
              have old := bestShorter pair.1 pair.2 rfl
              simp only at same
              split at same <;> simp only [Option.some.injEq, Prod.mk.injEq] at same <;> omega

/-- A rule wins with `n` bytes if the rules before it match fewer and those
behind it no more. -/
theorem longest_eq {rules : List R} (before after : List R) (rule : R) (n : Nat)
    (order : rules = before ++ rule :: after) (hit : matched rule input = some n)
    (fewer : ∀ other ∈ before, ∀ m, matched other input = some m → m < n)
    (noMore : ∀ other ∈ after, ∀ m, matched other input = some m → m ≤ n) :
    longest matched rules input = some (rule, n) := by
  have shorter := fold_shorter before n none (by simp) fewer
  have wins : better matched input (before.foldl (better matched input) none) rule =
      some (rule, n) := by
    cases found : before.foldl (better matched input) none with
    | none => simp only [better, hit]
    | some pair =>
        have bound := shorter pair.1 pair.2 found
        simp only [better, hit, if_pos bound]
  rw [longest, order, List.foldl_append, List.foldl_cons, wins]
  exact fold_keeps after rule n noMore

/-- What wins is one of the rules, with its own match. -/
theorem longest_matched {rules : List R} {rule : R} {n : Nat}
    (found : longest matched rules input = some (rule, n)) :
    rule ∈ rules ∧ matched rule input = some n := by
  have held : ∀ (rest : List R) (best : Option (R × Nat)), (∀ other ∈ rest, other ∈ rules) →
      (∀ other m, best = some (other, m) → other ∈ rules ∧ matched other input = some m) →
      ∀ other m, rest.foldl (better matched input) best = some (other, m) →
        other ∈ rules ∧ matched other input = some m := by
    intro rest
    induction rest with
    | nil => exact fun best _ known => known
    | cons first rest ih =>
        intro best members known
        refine ih _ (fun other mem => members other (List.mem_cons_of_mem _ mem)) ?_
        intro other m same
        unfold better at same
        split at same
        · exact known other m same
        · cases same
          exact ⟨members _ List.mem_cons_self, by assumption⟩
        · split at same <;> cases same
          · exact ⟨members _ List.mem_cons_self, by assumption⟩
          · exact known _ _ rfl
  exact held rules none (fun _ mem => mem) (by simp) rule n found

theorem longest_none {rules : List R} (misses : ∀ rule ∈ rules, matched rule input = none) :
    longest matched rules input = none := by
  unfold longest
  induction rules with
  | nil => rfl
  | cons rule rules ih =>
      have step : better matched input none rule = none := by
        simp only [better, misses rule (by simp)]
      rw [List.foldl_cons, step]
      exact ih fun other member => misses other (by simp [member])

theorem longest_congr {rules : List R} {input' : List β}
    (same : ∀ rule ∈ rules, matched rule input' = matched rule input) :
    longest matched rules input' = longest matched rules input := by
  unfold longest
  generalize (none : Option (R × Nat)) = best
  induction rules generalizing best with
  | nil => rfl
  | cons rule rules ih =>
      have step : better matched input' best rule = better matched input best rule := by
        simp only [better, same rule List.mem_cons_self]
      rw [List.foldl_cons, List.foldl_cons, step]
      exact ih (fun other mem => same other (List.mem_cons_of_mem _ mem)) _

/-- The best match so far and every rule that is compared are no longer than what is
found in the end. -/
theorem fold_bounds (rules : List R) (best : Option (R × Nat)) {m : Nat}
    (mentioned : (∃ rule, best = some (rule, m)) ∨ ∃ rule ∈ rules, matched rule input = some m) :
    ∃ rule n, rules.foldl (better matched input) best = some (rule, n) ∧ m ≤ n := by
  induction rules generalizing best m with
  | nil =>
      rcases mentioned with ⟨rule, rfl⟩ | ⟨rule, mem, _⟩
      · exact ⟨rule, m, rfl, Nat.le_refl m⟩
      · cases mem
  | cons first rules ih =>
      rw [List.foldl_cons]
      rcases mentioned with ⟨rule, rfl⟩ | ⟨rule, mem, found⟩
      · -- the best match stays, or a longer one takes its place
        unfold better
        cases hit : matched first input with
        | none => exact ih _ (.inl ⟨rule, rfl⟩)
        | some k =>
            dsimp only
            split
            · rename_i longer
              obtain ⟨rule', n, same, le⟩ := ih _ (.inl ⟨first, rfl⟩)
              exact ⟨rule', n, same, Nat.le_trans (Nat.le_of_lt longer) le⟩
            · exact ih _ (.inl ⟨rule, rfl⟩)
      · rcases List.mem_cons.1 mem with rfl | later
        · unfold better
          rw [found]
          cases best with
          | none => exact ih _ (.inl ⟨rule, rfl⟩)
          | some pair =>
              dsimp only
              split
              · exact ih _ (.inl ⟨rule, rfl⟩)
              · rename_i shorter
                obtain ⟨rule', n, same, le⟩ := ih _ (.inl ⟨pair.1, rfl⟩)
                exact ⟨rule', n, same, Nat.le_trans (Nat.not_lt.1 shorter) le⟩
        · exact ih _ (.inr ⟨rule, later, found⟩)

/-- No rule matches more than the one that is chosen. -/
theorem longest_bound {rules : List R} {rule other : R} {n m : Nat}
    (found : longest matched rules input = some (rule, n)) (mem : other ∈ rules)
    (hit : matched other input = some m) : m ≤ n := by
  obtain ⟨rule', n', same, le⟩ := fold_bounds rules none (.inr ⟨other, mem, hit⟩)
  rw [longest, same] at found
  cases found
  exact le

theorem misses_of_longest {rules : List R} (missed : longest matched rules input = none)
    {rule : R} (mem : rule ∈ rules) : matched rule input = none := by
  cases hit : matched rule input with
  | none => rfl
  | some m =>
      obtain ⟨rule', n', same, _⟩ := fold_bounds rules none (.inr ⟨rule, mem, hit⟩)
      rw [longest, same] at missed
      cases missed

end BearLang.MaximalMunch
