import Mathlib.Data.List.GetD
import Mathlib.Data.Nat.Digits.Lemmas

/-!
# Numbers that read the same from both ends

`Symmetric w x` says it of the digits of `x`, written with `w` places. The digit
at each end can be taken off, which leaves a number with two places less.
-/

namespace BearLang.DecimalDigits

set_option autoImplicit false

def Symmetric (w x : Nat) : Prop := ∀ i j, i + j + 1 = w → x / 10 ^ i % 10 = x / 10 ^ j % 10

theorem symmetric_zero (w : Nat) : Symmetric w 0 := by
  intro i j _
  rw [Nat.zero_div, Nat.zero_div]

theorem symmetric_single {w : Nat} (le : w ≤ 1) (x : Nat) : Symmetric w x := by
  intro i j total
  have same : i = j := by omega
  rw [same]

theorem inner_digit {w x i : Nat} (inside : i < w) :
    x % 10 ^ (w + 1) / 10 / 10 ^ i % 10 = x / 10 ^ (i + 1) % 10 := by
  obtain ⟨k, rfl⟩ := Nat.exists_eq_add_of_lt inside
  have split : 10 ^ (i + k + 1 + 1) = 10 ^ (i + 1) * (10 ^ k * 10) := by
    rw [← Nat.pow_succ, ← Nat.pow_add]
    congr 1
    omega
  rw [Nat.div_div_eq_div_mul, ← Nat.pow_succ', split, Nat.mod_mul_right_div_self,
    Nat.mod_mod_of_dvd _ (Nat.dvd_mul_left 10 (10 ^ k))]

theorem symmetric_ends (w x : Nat) :
    Symmetric (w + 2) x ↔ x / 10 ^ (w + 1) % 10 = x % 10 ∧ Symmetric w (x % 10 ^ (w + 1) / 10) := by
  constructor
  · intro symmetric
    refine ⟨?_, ?_⟩
    · have ends := symmetric (w + 1) 0 rfl
      rw [Nat.pow_zero, Nat.div_one] at ends
      exact ends
    · intro i j total
      rw [inner_digit (by omega), inner_digit (by omega)]
      exact symmetric (i + 1) (j + 1) (by omega)
  · intro given i j total
    obtain ⟨ends, inner⟩ := given
    cases i with
    | zero =>
        have last : j = w + 1 := by omega
        rw [last, Nat.pow_zero, Nat.div_one]
        exact ends.symm
    | succ i =>
        cases j with
        | zero =>
            have last : i = w := by omega
            rw [last, Nat.pow_zero, Nat.div_one]
            exact ends
        | succ j =>
            have between := inner i j (by omega)
            rw [inner_digit (by omega), inner_digit (by omega)] at between
            exact between

/-- Read from both ends, the digits of a number are those of the number written
with as many places as it needs. -/
theorem palindrome_iff {k x : Nat} (less : x < 10 ^ (k + 1)) (enough : x ≠ 0 → 10 ^ k ≤ x) :
    (Nat.digits 10 x).reverse = Nat.digits 10 x ↔ Symmetric (k + 1) x := by
  by_cases zero : x = 0
  · subst zero
    rw [Nat.digits_zero]
    exact ⟨fun _ => symmetric_zero _, fun _ => rfl⟩
  have length : (Nat.digits 10 x).length = k + 1 := by
    rw [Nat.length_digits 10 x (by decide) zero, Nat.log_eq_of_pow_le_of_lt_pow (enough zero) less]
  have digit (i : Nat) : (Nat.digits 10 x).getD i 0 = x / 10 ^ i % 10 := Nat.getD_digits x i (by decide)
  have reversed (i : Nat) (inside : i < k + 1) :
      (Nat.digits 10 x).reverse.getD i 0 = x / 10 ^ (k - i) % 10 := by
    rw [List.getD_reverse i (by omega), digit, length]
    congr 3
  constructor
  · intro same i j total
    have ends := reversed i (by omega)
    rw [same, digit] at ends
    have other : k - i = j := by omega
    rw [ends, other]
  · intro symmetric
    apply List.ext_getElem
    · rw [List.length_reverse]
    · intro i inside inside'
      rw [← List.getD_eq_getElem _ 0 inside, ← List.getD_eq_getElem _ 0 inside', digit,
        reversed i (by omega)]
      exact symmetric (k - i) i (by omega)

end BearLang.DecimalDigits
