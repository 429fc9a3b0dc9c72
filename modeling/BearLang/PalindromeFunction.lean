import BearLang.CoreFunctions
import BearLang.DecimalDigits

/-!
# The function `is-palindrome`

`examples/euler/problem04.bl` takes a digit from each end of a number, for as
long as both are the same. The power of ten that belongs to the first digit is
sought by a loop that stops too early where the first two digits are 10: there
it takes both of them for the first.
-/

namespace BearLang.PalindromeFunction

open CallPrograms CoreLanguage DecimalDigits EqualValues OperandEvaluation StructuredPrograms

set_option autoImplicit false

section Function

/-- The variables of the function, and the names of the truth values. -/
structure Variables where
  x : Nat
  div : Nat
  retval : Nat
  l : Nat
  r : Nat
  yes : Nat
  no : Nat
  distinct : [x, div, retval, l, r, yes, no].Nodup

variable (names : Variables)

def number (i : Int) : Expr := .const (.number i)

/-- `(while (gt (/ x div) 10) (= div (* div 10)))` -/
def seekTest : Expr := .call .gt (.call .div (.var names.x) (.var names.div)) (number 10)

def seekBody : Body :=
  .last (.assign names.div (.call .mult (.var names.div) (number 10)))

/-- `(not (eq x 0))` -/
def checkTest : Expr := .negate (.call .eq (.var names.x) (number 0))

/-- `(if (not (eq l r)) (do (= retval False) (= x 0)) ...)` -/
def compareEnds : Form :=
  .branch (.negate (.call .eq (.var names.l) (.var names.r)))
    (.block (.next (.assign names.retval (.var names.no)) (.last (.assign names.x (number 0)))))
    (.block (.next
      (.assign names.x (.call .div (.call .mod (.var names.x) (.var names.div)) (number 10)))
      (.last (.assign names.div (.call .div (.var names.div) (number 100))))))

def checkBody : Body :=
  .next (.assign names.l (.call .div (.var names.x) (.var names.div)))
    (.next (.assign names.r (.call .mod (.var names.x) (number 10))) (.last (compareEnds names)))

def isPalindrome : Body :=
  .next (.assign names.div (number 1))
    (.next (.loop (seekTest names) (seekBody names))
      (.next (.assign names.retval (.var names.yes))
        (.next (.loop (checkTest names) (checkBody names)) (.last (.value (.var names.retval))))))

end Function

section Stores

variable {names : Variables} {σ : Store} {X X' D D' : Int} {R R' : Bool}

structure Holding (names : Variables) (X D : Int) (σ : Store) : Prop where
  x : σ names.x = some (.number X)
  div : σ names.div = some (.number D)
  yes : σ names.yes = some (.bool true)
  no : σ names.no = some (.bool false)

theorem set_same (σ : Store) (y : Nat) (v : Simple) : σ.set y v y = some v := if_pos rfl

theorem set_other (σ : Store) {y z : Nat} (other : z ≠ y) (v : Simple) : σ.set y v z = σ z :=
  if_neg other

theorem names_apart (names : Variables) : names.x ≠ names.div ∧ names.x ≠ names.retval ∧
    names.x ≠ names.l ∧ names.x ≠ names.r ∧ names.x ≠ names.yes ∧ names.x ≠ names.no ∧
    names.div ≠ names.retval ∧ names.div ≠ names.l ∧ names.div ≠ names.r ∧ names.div ≠ names.yes ∧
    names.div ≠ names.no ∧ names.retval ≠ names.l ∧ names.retval ≠ names.r ∧
    names.retval ≠ names.yes ∧ names.retval ≠ names.no ∧ names.l ≠ names.r ∧ names.l ≠ names.yes ∧
    names.l ≠ names.no ∧ names.r ≠ names.yes ∧ names.r ≠ names.no := by
  have distinct := names.distinct
  simp only [List.nodup_cons, List.mem_cons, List.not_mem_nil, or_false, not_or] at distinct
  tauto

theorem holding_other (held : Holding names X D σ) {y : Nat} (notX : names.x ≠ y)
    (notDiv : names.div ≠ y) (notYes : names.yes ≠ y) (notNo : names.no ≠ y) (v : Simple) :
    Holding names X D (σ.set y v) where
  x := (set_other σ notX v).trans held.x
  div := (set_other σ notDiv v).trans held.div
  yes := (set_other σ notYes v).trans held.yes
  no := (set_other σ notNo v).trans held.no

theorem holding_x (held : Holding names X D σ) (X' : Int) :
    Holding names X' D (σ.set names.x (.number X')) := by
  obtain ⟨apart, _, _, _, yes, no, _⟩ := names_apart names
  exact ⟨set_same _ _ _, (set_other σ apart.symm _).trans held.div,
    (set_other σ yes.symm _).trans held.yes, (set_other σ no.symm _).trans held.no⟩

theorem holding_div (held : Holding names X D σ) (D' : Int) :
    Holding names X D' (σ.set names.div (.number D')) := by
  obtain ⟨apart, _, _, _, _, _, _, _, _, yes, no, _⟩ := names_apart names
  exact ⟨(set_other σ apart _).trans held.x, set_same _ _ _,
    (set_other σ yes.symm _).trans held.yes, (set_other σ no.symm _).trans held.no⟩

theorem eval_call {op : Operator} {e e' : Expr} {v w : Simple} (first : e.eval σ = some v)
    (second : e'.eval σ = some w) : (Expr.call op e e').eval σ = op.apply v w := by
  rw [Expr.eval, first, second]
  rfl

theorem eval_quotient (held : Holding names X D σ) (nonzero : D ≠ 0) :
    (Expr.call .div (.var names.x) (.var names.div)).eval σ = some (.number (X.tdiv D)) := by
  have first : (Expr.var names.x).eval σ = some (.number X) := held.x
  have second : (Expr.var names.div).eval σ = some (.number D) := held.div
  rw [eval_call first second]
  exact if_neg nonzero

end Stores

section Seeking

variable {names : Variables} {σ : Store} {n D : Int}

/-- The powers of ten up to `D` go more than ten times into the number. -/
def Sought (n D : Int) : Prop := ∃ k : Nat, D = 10 ^ k ∧ (k = 0 ∨ 10 < n.tdiv (10 ^ (k - 1)))

/-- How often the divisor goes into the number. -/
def quotient (names : Variables) (σ : Store) : Nat :=
  match σ names.x, σ names.div with
  | some (.number X), some (.number D) => (X.tdiv D).toNat
  | _, _ => 0

theorem quotient_held (held : Holding names n D σ) : quotient names σ = (n.tdiv D).toNat := by
  unfold quotient
  rw [held.x, held.div]

theorem sought_nonzero (sought : Sought n D) : 0 < D := by
  obtain ⟨k, rfl, _⟩ := sought
  positivity

theorem nonneg_of_quotient (positive : 0 < D) (more : 10 < n.tdiv D) : 0 ≤ n := by
  by_contra negative
  have opposite : (-n).tdiv D = -(n.tdiv D) := Int.neg_tdiv n D
  have nonneg := Int.tdiv_nonneg (a := -n) (b := D) (by omega) positive.le
  omega

theorem tenth_quotient (positive : 0 < D) (more : 10 < n.tdiv D) :
    n.tdiv (D * 10) = n.tdiv D / 10 := by
  have nonneg := nonneg_of_quotient positive more
  rw [Int.tdiv_eq_ediv_of_nonneg nonneg, Int.tdiv_eq_ediv_of_nonneg nonneg,
    Int.ediv_ediv_of_nonneg positive.le]

theorem seek_test (held : Holding names n D σ) (sought : Sought n D) :
    (seekTest names).test σ = some (decide (10 < n.tdiv D)) := by
  apply test_eval.2
  have nonzero := (sought_nonzero sought).ne'
  have ten : (number 10).eval σ = some (.number 10) := rfl
  rw [seekTest, eval_call (eval_quotient held nonzero) ten]
  rfl

/-- The first loop ends at a power of ten that goes at most ten times into the
number. -/
theorem seek_correct : Correct (fun σ => Holding names n 1 σ)
    (.loop (seekTest names).test (seekBody names).command .none)
    fun _ σ => ∃ D, Holding names n D σ ∧ Sought n D ∧ n.tdiv D ≤ 10 := by
  have tested : ∀ σ, (∃ D, Holding names n D σ ∧ Sought n D) →
      ∃ b, (seekTest names).test σ = some b := by
    intro σ going
    obtain ⟨D, held, sought⟩ := going
    exact ⟨_, seek_test held sought⟩
  have turn : ∀ size, Correct (fun σ => (∃ D, Holding names n D σ ∧ Sought n D) ∧
      (seekTest names).test σ = some true ∧ quotient names σ = size) (seekBody names).command
      fun _ τ => (∃ D, Holding names n D τ ∧ Sought n D) ∧ quotient names τ < size := by
    intro size σ going
    obtain ⟨⟨D, held, sought⟩, goes, measure⟩ := going
    rw [seek_test held sought] at goes
    have more := of_decide_eq_true (Option.some.inj goes)
    rw [quotient_held held] at measure
    have value : (Expr.call .mult (.var names.div) (number 10)).eval σ = some (.number (D * 10)) := by
      have first : (Expr.var names.div).eval σ = some (.number D) := held.div
      have ten : (number 10).eval σ = some (.number 10) := rfl
      rw [eval_call first ten]
      rfl
    have held' := holding_div held (D * 10)
    refine ⟨.number (D * 10), _, ?_, ⟨D * 10, held', ?_⟩, ?_⟩
    · unfold seekBody Body.command Form.command
      exact .act (by rw [value]; rfl)
    · obtain ⟨k, rfl, _⟩ := sought
      refine ⟨k + 1, (pow_succ _ _).symm, .inr ?_⟩
      rw [Nat.add_sub_cancel]
      exact more
    · rw [quotient_held held', ← measure, tenth_quotient (sought_nonzero sought) more]
      omega
  have loop : Correct _ (.loop (seekTest names).test (seekBody names).command Simple.none) _ :=
    correct_loop (fun σ => ∃ D, Holding names n D σ ∧ Sought n D) (quotient names) tested turn
  apply correct_weaken loop
  · intro σ held
    exact ⟨1, held, 0, rfl, .inl rfl⟩
  · intro v σ ended
    obtain ⟨_, ⟨D, held, sought⟩, stopped⟩ := ended
    rw [seek_test held sought] at stopped
    have atMost := of_decide_eq_false (Option.some.inj stopped)
    exact ⟨D, held, sought, not_lt.1 atMost⟩

end Seeking

section Checking

variable {names : Variables} {σ : Store} {goal : Prop} {X D : Int}

/-- The state of the second loop: the number left is symmetric exactly if the
whole one is to be recognised, or the next turn finds a difference, or one was
found. -/
inductive Checking (names : Variables) (goal : Prop) (σ : Store) : Prop
  | going {X D w : Nat} (held : Holding names X D σ) (true_ : σ names.retval = some (.bool true))
      (less : X < 10 ^ w) (power : 0 < w → D = 10 ^ (w - 1)) (same : goal ↔ Symmetric w X)
  | differing {X D : Int} (held : Holding names X D σ) (true_ : σ names.retval = some (.bool true))
      (not_ : ¬ goal) (nonzero : X ≠ 0) (positive : 0 < D) (apart : X.tdiv D ≠ X % 10)
  | settled {D : Int} (held : Holding names 0 D σ) (false_ : σ names.retval = some (.bool false))
      (not_ : ¬ goal)

def magnitude (names : Variables) (σ : Store) : Nat :=
  match σ names.x with
  | some (.number X) => X.natAbs
  | _ => 0

theorem magnitude_held (held : Holding names X D σ) : magnitude names σ = X.natAbs := by
  unfold magnitude
  rw [held.x]

theorem eval_unequal {e e' : Expr} {a b : Int} (first : e.eval σ = some (.number a))
    (second : e'.eval σ = some (.number b)) :
    (Expr.negate (.call .eq e e')).test σ = some (!(a == b)) := by
  apply test_eval.2
  rw [Expr.eval, eval_call first second]
  rfl

theorem check_test (held : Holding names X D σ) : (checkTest names).test σ = some (!(X == 0)) := by
  have first : (Expr.var names.x).eval σ = some (.number X) := held.x
  exact eval_unequal first rfl

theorem assign_ends {y : Nat} {e : Expr} {v : Simple} (value : e.eval σ = some v) :
    EndsIn (Form.assign y e).command σ v (σ.set y v) := by
  unfold Form.command
  exact .act (by rw [value]; rfl)

/-- Both ends of the number are taken, and compared. -/
theorem check_turn (held : Holding names X D σ) (nonzero : D ≠ 0) :
    (X.tdiv D ≠ X % 10 → ∃ v τ, EndsIn (checkBody names).command σ v τ ∧ Holding names 0 D τ ∧
      τ names.retval = some (.bool false)) ∧
    (X.tdiv D = X % 10 → ∃ v τ, EndsIn (checkBody names).command σ v τ ∧
      Holding names ((X % D).tdiv 10) (D.tdiv 100) τ ∧ τ names.retval = σ names.retval) := by
  obtain ⟨xDiv, xRetval, xL, xR, _, _, divRetval, divL, divR, _, _, retL, retR, retYes, retNo, lr, lYes,
    lNo, rYes, rNo⟩ := names_apart names
  have first := assign_ends (y := names.l) (eval_quotient held nonzero)
  have held₁ := holding_other held xL divL lYes.symm lNo.symm (.number (X.tdiv D))
  have second : EndsIn (Form.assign names.r (.call .mod (.var names.x) (number 10))).command
      (σ.set names.l (.number (X.tdiv D))) (.number (X % 10))
      ((σ.set names.l (.number (X.tdiv D))).set names.r (.number (X % 10))) := by
    apply assign_ends
    have value : (Expr.var names.x).eval (σ.set names.l (.number (X.tdiv D))) = some (.number X) :=
      held₁.x
    rw [eval_call value rfl]
    rfl
  have held₂ := holding_other held₁ xR divR rYes.symm rNo.symm (.number (X % 10))
  have retval : ((σ.set names.l (.number (X.tdiv D))).set names.r (.number (X % 10))) names.retval =
      σ names.retval := by
    rw [set_other _ retR, set_other _ retL]
  have left : (Expr.var names.l).eval ((σ.set names.l (.number (X.tdiv D))).set names.r
      (.number (X % 10))) = some (.number (X.tdiv D)) :=
    (set_other _ lr _).trans (set_same _ _ _)
  have right : (Expr.var names.r).eval ((σ.set names.l (.number (X.tdiv D))).set names.r
      (.number (X % 10))) = some (.number (X % 10)) := set_same _ _ _
  have compared := eval_unequal left right
  generalize (σ.set names.l (.number (X.tdiv D))).set names.r (.number (X % 10)) = τ at *
  have run {v : Simple} {u : Store} (ends : EndsIn (compareEnds names).command τ v u) :
      EndsIn (checkBody names).command σ v u := by
    unfold checkBody Body.command Body.command Body.command
    exact .next first (.next second ends)
  constructor
  · intro apart
    have isFalse : (Expr.var names.no).eval τ = some (.bool false) := held₂.no
    have differ : (!(X.tdiv D == X % 10)) = true := by simpa using apart
    rw [differ] at compared
    refine ⟨.number 0, _, run ?_, holding_x (holding_other held₂ xRetval divRetval retYes.symm
      retNo.symm (.bool false)) 0, ?_⟩
    · unfold compareEnds Form.command Form.command Body.command Body.command
      exact .yes compared (.next (assign_ends isFalse) (assign_ends rfl))
    · rw [set_other _ xRetval.symm, set_same]
  · intro same
    have agree : (!(X.tdiv D == X % 10)) = false := by simpa using same
    rw [agree] at compared
    have inner : (Expr.call .div (.call .mod (.var names.x) (.var names.div)) (number 10)).eval τ =
        some (.number ((X % D).tdiv 10)) := by
      have x : (Expr.var names.x).eval τ = some (.number X) := held₂.x
      have d : (Expr.var names.div).eval τ = some (.number D) := held₂.div
      have modulo : (Expr.call .mod (.var names.x) (.var names.div)).eval τ = some (.number (X % D)) := by
        rw [eval_call x d]
        exact if_neg nonzero
      rw [eval_call modulo rfl]
      rfl
    have held₃ := holding_x held₂ ((X % D).tdiv 10)
    have hundredth : (Expr.call .div (.var names.div) (number 100)).eval
        (τ.set names.x (.number ((X % D).tdiv 10))) = some (.number (D.tdiv 100)) := by
      have d : (Expr.var names.div).eval (τ.set names.x (.number ((X % D).tdiv 10))) =
        some (.number D) := held₃.div
      rw [eval_call d rfl]
      rfl
    refine ⟨.number (D.tdiv 100), _, run ?_, holding_div held₃ (D.tdiv 100), ?_⟩
    · unfold compareEnds Form.command Form.command Body.command Body.command
      exact .no compared (.next (assign_ends inner) (assign_ends hundredth))
    · rw [set_other _ divRetval.symm, set_other _ xRetval.symm]
      exact retval

/-- One digit less at each end. -/
theorem inner_number (X w : Nat) :
    ((X : Int) % ((10 ^ (w + 1) : Nat) : Int)).tdiv 10 = ((X % 10 ^ (w + 1) / 10 : Nat) : Int) ∧
      X % 10 ^ (w + 1) / 10 < 10 ^ w ∧
      (((10 ^ (w + 1) : Nat) : Int)).tdiv 100 = ((10 ^ (w + 1) / 100 : Nat) : Int) := by
  have bound : X % 10 ^ (w + 1) < 10 ^ w * 10 := by
    rw [← Nat.pow_succ]
    exact Nat.mod_lt _ (by positivity)
  refine ⟨by norm_cast, ?_, by norm_cast⟩
  exact Nat.div_lt_of_lt_mul (by rwa [Nat.mul_comm])

theorem inner_smaller {X : Nat} (nonzero : X ≠ 0) (d : Nat) : X % d / 10 < X := by
  have le := Nat.mod_le X d
  omega

theorem checking_turn (checking : Checking names goal σ) (goes : (checkTest names).test σ = some true) :
    ∃ v τ, EndsIn (checkBody names).command σ v τ ∧ Checking names goal τ ∧
      magnitude names τ < magnitude names σ := by
  cases checking with
  | differing held true_ not_ nonzero positive apart =>
      obtain ⟨v, τ, ends, after, false_⟩ := (check_turn held positive.ne').1 apart
      refine ⟨v, τ, ends, .settled after false_ not_, ?_⟩
      rw [magnitude_held held, magnitude_held after]
      omega
  | settled held false_ not_ =>
      rw [check_test held] at goes
      cases goes
  | @going X D w held true_ less power same =>
      have nonzero : X ≠ 0 := by
        intro zero
        rw [check_test held, zero] at goes
        cases goes
      have wide : 0 < w := by
        by_contra none_
        have zero : w = 0 := by omega
        rw [zero, Nat.pow_zero] at less
        omega
      have isPower := power wide
      have positive : (D : Int) ≠ 0 := by
        rw [isPower]
        positivity
      obtain ⟨differ, agree⟩ := check_turn held positive
      -- a single digit is both ends
      by_cases single : w = 1
      · subst single
        have isOne : D = 1 := isPower
        subst isOne
        have ends : (X : Int).tdiv ((1 : Nat) : Int) = X % 10 := by
          rw [Nat.cast_one, Int.tdiv_one]
          omega
        obtain ⟨v, τ, run, after, retval⟩ := agree ends
        have zero : ((X : Int) % ((1 : Nat) : Int)).tdiv 10 = ((0 : Nat) : Int) := by
          rw [Nat.cast_one, Int.emod_one]
          rfl
        have zero' : ((1 : Nat) : Int).tdiv 100 = ((0 : Nat) : Int) := rfl
        rw [zero, zero'] at after
        refine ⟨v, τ, run, .going after (retval.trans true_) (w := 0) (by decide) (by decide) ?_, ?_⟩
        · rw [same]
          exact iff_of_true (symmetric_single le_rfl X) (symmetric_zero 0)
        · rw [magnitude_held held, magnitude_held after]
          omega
      · obtain ⟨m, rfl⟩ : ∃ m, w = m + 2 := ⟨w - 2, by omega⟩
        have power' : D = 10 ^ (m + 1) := isPower
        subst power'
        obtain ⟨inner, below, hundredth⟩ := inner_number X m
        have first : ((X : Int)).tdiv ((10 ^ (m + 1) : Nat) : Int) = ((X / 10 ^ (m + 1) : Nat) : Int) := by
          norm_cast
        have firstDigit : X / 10 ^ (m + 1) % 10 = X / 10 ^ (m + 1) := by
          apply Nat.mod_eq_of_lt
          exact Nat.div_lt_of_lt_mul (by rw [← Nat.pow_succ]; exact less)
        by_cases ends : X / 10 ^ (m + 1) = X % 10
        · have equal : ((X : Int)).tdiv ((10 ^ (m + 1) : Nat) : Int) = X % 10 := by
            rw [first, ends]
            norm_cast
          obtain ⟨v, τ, run, after, retval⟩ := agree equal
          rw [inner, hundredth] at after
          refine ⟨v, τ, run, .going after (retval.trans true_) below ?_ ?_, ?_⟩
          · intro some_
            obtain ⟨k, rfl⟩ : ∃ k, m = k + 1 := ⟨m - 1, by omega⟩
            rw [Nat.add_sub_cancel, show 10 ^ (k + 1 + 1) = 10 ^ k * 100 by ring]
            exact Nat.mul_div_cancel _ (by decide)
          · rw [same, symmetric_ends, firstDigit]
            exact and_iff_right ends
          · rw [magnitude_held held, magnitude_held after]
            have smaller := inner_smaller nonzero (10 ^ (m + 1))
            omega
        · have unequal : ((X : Int)).tdiv ((10 ^ (m + 1) : Nat) : Int) ≠ X % 10 := by
            rw [first]
            norm_cast
          obtain ⟨v, τ, run, after, false_⟩ := differ unequal
          refine ⟨v, τ, run, .settled after false_ ?_, ?_⟩
          · rw [same, symmetric_ends, firstDigit]
            exact fun both => ends both.1
          · rw [magnitude_held held, magnitude_held after]
            omega

theorem check_correct : Correct (fun σ => Checking names goal σ)
    (.loop (checkTest names).test (checkBody names).command .none)
    fun _ σ => ∃ b, σ names.retval = some (.bool b) ∧ (b = true ↔ goal) := by
  have tested : ∀ σ, Checking names goal σ → ∃ b, (checkTest names).test σ = some b := by
    intro σ checking
    cases checking with
    | going held => exact ⟨_, check_test held⟩
    | differing held => exact ⟨_, check_test held⟩
    | settled held => exact ⟨_, check_test held⟩
  have turn : ∀ size, Correct (fun σ => Checking names goal σ ∧ (checkTest names).test σ = some true ∧
      magnitude names σ = size) (checkBody names).command
      fun _ τ => Checking names goal τ ∧ magnitude names τ < size := by
    intro size σ going
    obtain ⟨checking, goes, measure⟩ := going
    obtain ⟨v, τ, ends, after, less⟩ := checking_turn checking goes
    exact ⟨v, τ, ends, after, measure ▸ less⟩
  have loop : Correct _ (.loop (checkTest names).test (checkBody names).command Simple.none) _ :=
    correct_loop (fun σ => Checking names goal σ) (magnitude names) tested turn
  apply correct_weaken loop (fun _ held => held)
  intro v σ ended
  obtain ⟨_, checking, stopped⟩ := ended
  cases checking with
  | @going X D w held true_ less power same =>
      rw [check_test held] at stopped
      have zero : X = 0 := by simpa using stopped
      subst zero
      exact ⟨true, true_, iff_of_true rfl (same.2 (symmetric_zero w))⟩
  | differing held true_ not_ nonzero =>
      rw [check_test held] at stopped
      exact absurd (by simpa using stopped) nonzero
  | settled held false_ not_ => exact ⟨false, false_, iff_of_false Bool.false_ne_true not_⟩

end Checking

section Result

variable {names : Variables} {σ : Store} {n D : Int}

/-- The numbers for which the function gives `True`: not negative, with decimal
digits that read the same from both ends, of which the first two are not 10. -/
def Recognised (n : Int) : Prop :=
  0 ≤ n ∧ (Nat.digits 10 n.toNat).reverse = Nat.digits 10 n.toNat ∧ ∀ k, n.toNat / 10 ^ k ≠ 10

theorem checking_start (held : Holding names n D σ) (true_ : σ names.retval = some (.bool true))
    (sought : Sought n D) (atMost : n.tdiv D ≤ 10) : Checking names (Recognised n) σ := by
  have positive := sought_nonzero sought
  obtain ⟨k, rfl, first⟩ := sought
  by_cases negative : n < 0
  · have start : k = 0 := by
      rcases first with zero | more
      · exact zero
      · have nonneg := nonneg_of_quotient (by positivity) more
        omega
    subst start
    refine .differing held true_ (fun recognised => ?_) negative.ne positive ?_
    · exact not_le.2 negative recognised.1
    · rw [pow_zero, Int.tdiv_one]
      omega
  obtain ⟨N, rfl⟩ : ∃ N : Nat, n = N := ⟨n.toNat, by omega⟩
  have whole (j : Nat) : (N : Int).tdiv (10 ^ j) = ((N / 10 ^ j : Nat) : Int) := by
    norm_cast
  rw [whole] at atMost
  by_cases ten : N / 10 ^ k = 10
  · refine .differing held true_ (fun recognised => recognised.2.2 k ten) ?_ positive ?_
    · intro zero
      have none_ : N = 0 := by omega
      rw [none_, Nat.zero_div] at ten
      cases ten
    · rw [whole, ten]
      omega
  · have digit : N / 10 ^ k < 10 := by omega
    have less : N < 10 ^ (k + 1) := by
      rw [Nat.pow_succ, Nat.mul_comm]
      exact (Nat.div_lt_iff_lt_mul (by positivity)).1 (by omega)
    have before (j : Nat) (lower : j < k) : 10 < N / 10 ^ j := by
      rcases first with zero | more
      · omega
      · rw [whole] at more
        have more' : 10 < N / 10 ^ (k - 1) := by omega
        have powers : 10 ^ j ≤ 10 ^ (k - 1) := Nat.pow_le_pow_right (by decide) (by omega)
        exact Nat.lt_of_lt_of_le more' (Nat.div_le_div_left powers (by positivity))
    have held' : Holding names (N : Int) ((10 ^ k : Nat) : Int) σ := by
      have cast : ((10 ^ k : Nat) : Int) = 10 ^ k := by norm_cast
      rw [cast]
      exact held
    refine .going held' true_ less (fun _ => by rw [Nat.add_sub_cancel]) ?_
    have enough : N ≠ 0 → 10 ^ k ≤ N := by
      intro nonzero
      cases k with
      | zero => omega
      | succ k =>
          have above := before k (by omega)
          have factor := (Nat.le_div_iff_mul_le (by positivity)).1 above.le
          rw [Nat.pow_succ, Nat.mul_comm]
          exact factor
    rw [← palindrome_iff less enough]
    unfold Recognised
    rw [Int.toNat_natCast]
    constructor
    · intro recognised
      exact recognised.2.1
    · intro same
      refine ⟨by omega, same, ?_⟩
      intro j isTen
      by_cases lower : j < k
      · have above := before j lower
        omega
      · have powers : 10 ^ k ≤ 10 ^ j := Nat.pow_le_pow_right (by decide) (by omega)
        have smaller : N / 10 ^ j ≤ N / 10 ^ k := Nat.div_le_div_left powers (by positivity)
        omega

theorem is_palindrome_correct : Correct
    (fun σ => σ names.x = some (.number n) ∧ σ names.yes = some (.bool true) ∧
      σ names.no = some (.bool false)) (isPalindrome names).command
    fun v _ => ∃ b, v = .bool b ∧ (b = true ↔ Recognised n) := by
  obtain ⟨xDiv, xRetval, _, _, _, _, divRetval, _, _, divYes, divNo, _, _, retYes, retNo, _⟩ :=
    names_apart names
  unfold isPalindrome Body.command Body.command Body.command Body.command Body.command
  refine correct_next (M := fun σ => Holding names n 1 σ) ?_ ?_
  · intro σ given
    obtain ⟨x, yes, no⟩ := given
    refine ⟨.number 1, _, assign_ends rfl, ?_⟩
    exact ⟨(set_other σ xDiv _).trans x, set_same _ _ _, (set_other σ divYes.symm _).trans yes,
      (set_other σ divNo.symm _).trans no⟩
  refine correct_next (M := fun σ => ∃ D, Holding names n D σ ∧ Sought n D ∧ n.tdiv D ≤ 10) ?_ ?_
  · unfold Form.command
    exact seek_correct
  refine correct_next (M := fun σ => Checking names (Recognised n) σ) ?_ ?_
  · intro σ found
    obtain ⟨D, held, sought, atMost⟩ := found
    have value : (Expr.var names.yes).eval σ = some (.bool true) := held.yes
    refine ⟨.bool true, _, assign_ends value, ?_⟩
    exact checking_start (holding_other held xRetval divRetval retYes.symm retNo.symm _)
      (set_same _ _ _) sought atMost
  refine correct_next (M := fun σ => ∃ b, σ names.retval = some (.bool b) ∧ (b = true ↔ Recognised n))
    ?_ ?_
  · unfold Form.command
    exact check_correct
  · unfold Form.command
    apply correct_act
    intro σ ended
    obtain ⟨b, retval, told⟩ := ended
    have value : (Expr.var names.retval).eval σ = some (.bool b) := retval
    exact ⟨.bool b, σ, by rw [value]; rfl, b, rfl, told⟩

theorem is_palindrome_direct : (isPalindrome names).Direct := ⟨trivial, trivial, trivial, trivial, trivial⟩

/-- A call of the function, on any integer. -/
theorem is_palindrome_recognises {W : World} (disciplined : ∀ D, W.Disciplined D) {s : State}
    {ctx func inner p q : Ptr} {vars vars' : Nat → Prop} {σ ρ : Store} {e : Expr}
    (stands : Stands ctx vars σ s) (standsInner : Stands inner vars' ρ s)
    (function : FunctionAt s func inner [names.x] q)
    (code : BodyAt s inner vars' (isPalindrome names) q) (call_ : AppliesAt s ctx vars func [e] p)
    (value : e.eval σ = some (.number n)) (inside : vars' names.x)
    (yes : ρ names.yes = some (.bool true)) (no : ρ names.no = some (.bool false)) (site : Site) :
    ∃ b r t, (runtime W).Runs (blEval site ctx p) s r t ∧ Holds t (.bool b) r ∧
      (b = true ↔ Recognised n) := by
  obtain ⟨_, _, _, _, xYes, xNo, _⟩ := names_apart names
  obtain ⟨v, τ, ends, b, rfl, told⟩ := is_palindrome_correct (n := n) (ρ.set names.x (.number n))
    ⟨set_same _ _ _, (set_other ρ xYes.symm _).trans yes, (set_other ρ xNo.symm _).trans no⟩
  have parameters : ∀ id ∈ [names.x], vars' id := by
    intro id mem
    rw [List.mem_singleton.1 mem]
    exact inside
  have values : List.Forall₂ (fun e x => e.eval σ = some x) [e] [.number n] := .cons value .nil
  obtain ⟨r, t, run, held, _⟩ := call_evaluates disciplined stands standsInner function
    is_palindrome_direct code call_ values (List.cons_ne_nil _ _) rfl parameters ends site
  exact ⟨b, r, t, run, held, told⟩

/-- The function of the example, and a call of it with 101. -/
def palindromes : State where
  cells := staticCells ++
    ([text "=", text "gt", text "/", text "*", text "not", text "eq", text "%", text "x", text "div",
      text "retval", text "l", text "r", text "True", text "False", text "is-palindrome"].mapIdx
        fun i name => { type := .symbol, w0 := .str name, w1 := .ofNat i }) ++
    ([.set, .gt, .div, .mult, .not, .eq, .mod].map
      fun b => { type := .operNative, w0 := .code (.builtin b) }) ++
    [.mkNumber 1, .mkNumber 10, .mkNumber 0, .mkNumber 100, .mkNumber 101,
     .mkCtx { Ctx.new 16 .null with
       vals := [.ref 22, .ref 23, .ref 24, .ref 25, .ref 26, .ref 27, .ref 28, .null, .null, .null,
         .null, .null, trueVal, falseVal, .ref 121, .null] },
     .mkCtx (.new 16 (.ref 34)),
     .mkCons (.ref 29) .null, .mkCons (.ref 15) (.ref 36), .mkCons (.ref 7) (.ref 37),
     .mkCons (.ref 15) .null, .mkCons (.ref 14) (.ref 39), .mkCons (.ref 9) (.ref 40),
     .mkCons (.ref 30) .null, .mkCons (.ref 41) (.ref 42), .mkCons (.ref 8) (.ref 43),
     .mkCons (.ref 30) .null, .mkCons (.ref 15) (.ref 45), .mkCons (.ref 10) (.ref 46),
     .mkCons (.ref 47) .null, .mkCons (.ref 15) (.ref 48), .mkCons (.ref 7) (.ref 49),
     .mkCons (.ref 50) .null, .mkCons (.ref 44) (.ref 51), .mkCons (.ref 6) (.ref 52),
     .mkCons (.ref 19) .null, .mkCons (.ref 16) (.ref 54), .mkCons (.ref 7) (.ref 55),
     .mkCons (.ref 31) .null, .mkCons (.ref 14) (.ref 57), .mkCons (.ref 12) (.ref 58),
     .mkCons (.ref 59) .null, .mkCons (.ref 11) (.ref 60), .mkCons (.ref 15) .null,
     .mkCons (.ref 14) (.ref 62), .mkCons (.ref 9) (.ref 63), .mkCons (.ref 64) .null,
     .mkCons (.ref 17) (.ref 65), .mkCons (.ref 7) (.ref 66), .mkCons (.ref 30) .null,
     .mkCons (.ref 14) (.ref 68), .mkCons (.ref 13) (.ref 69), .mkCons (.ref 70) .null,
     .mkCons (.ref 18) (.ref 71), .mkCons (.ref 7) (.ref 72), .mkCons (.ref 18) .null,
     .mkCons (.ref 17) (.ref 74), .mkCons (.ref 12) (.ref 75), .mkCons (.ref 76) .null,
     .mkCons (.ref 11) (.ref 77), .mkCons (.ref 20) .null, .mkCons (.ref 16) (.ref 79),
     .mkCons (.ref 7) (.ref 80), .mkCons (.ref 31) .null, .mkCons (.ref 14) (.ref 82),
     .mkCons (.ref 7) (.ref 83), .mkCons (.ref 84) .null, .mkCons (.ref 81) (.ref 85),
     .mkCons (.ref 4) (.ref 86), .mkCons (.ref 15) .null, .mkCons (.ref 14) (.ref 88),
     .mkCons (.ref 13) (.ref 89), .mkCons (.ref 30) .null, .mkCons (.ref 90) (.ref 91),
     .mkCons (.ref 9) (.ref 92), .mkCons (.ref 93) .null, .mkCons (.ref 14) (.ref 94),
     .mkCons (.ref 7) (.ref 95), .mkCons (.ref 32) .null, .mkCons (.ref 15) (.ref 97),
     .mkCons (.ref 9) (.ref 98), .mkCons (.ref 99) .null, .mkCons (.ref 15) (.ref 100),
     .mkCons (.ref 7) (.ref 101), .mkCons (.ref 102) .null, .mkCons (.ref 96) (.ref 103),
     .mkCons (.ref 4) (.ref 104), .mkCons (.ref 105) .null, .mkCons (.ref 87) (.ref 106),
     .mkCons (.ref 78) (.ref 107), .mkCons (.ref 3) (.ref 108), .mkCons (.ref 109) .null,
     .mkCons (.ref 73) (.ref 110), .mkCons (.ref 67) (.ref 111), .mkCons (.ref 61) (.ref 112),
     .mkCons (.ref 6) (.ref 113), .mkCons (.ref 16) .null, .mkCons (.ref 114) (.ref 115),
     .mkCons (.ref 56) (.ref 116), .mkCons (.ref 53) (.ref 117), .mkCons (.ref 38) (.ref 118),
     .mkCons (.ref 14) .null,
     .mkClosure .funcBl (.ref 119) (.ref 120) (.ref 34) (.ref 35) (.ref 21) .null,
     .mkCons (.ref 33) .null, .mkCons (.ref 21) (.ref 122)]

def palindromeVariables : Variables where
  x := 7
  div := 8
  retval := 9
  l := 10
  r := 11
  yes := 12
  no := 13
  distinct := by decide

def truthStore : Store := fun x =>
  if x = 12 then some (.bool true) else if x = 13 then some (.bool false) else none

def isVariable (x : Nat) : Prop := 7 ≤ x ∧ x < 14

theorem palindromes_finds {ctx : Ptr} (is : ctx = .ref 34 ∨ ctx = .ref 35) {id : Nat} {v : Ptr}
    (inside : id < 16) (slot : ([Ptr.ref 22, .ref 23, .ref 24, .ref 25, .ref 26, .ref 27, .ref 28, .null,
      .null, .null, .null, .null, trueVal, falseVal, .ref 121, .null] : List Ptr)[id]? = some v)
    (filled : v ≠ .null) : Finds palindromes id ctx 34 v := by
  have above : Finds palindromes id (.ref 34) 34 v := .here rfl rfl inside slot filled
  rcases is with rfl | rfl
  · exact above
  · refine .above rfl rfl (fun _ => ?_) above
    exact List.getElem?_replicate_of_lt inside

theorem palindromes_stands {ctx : Ptr} (is : ctx = .ref 34 ∨ ctx = .ref 35) :
    Stands ctx isVariable truthStore palindromes where
  closed := closed_of_check (by decide +kernel) (by decide +kernel) (by decide +kernel)
  context := by
    rcases is with rfl | rfl
    · exact ⟨_, ⟨_, rfl, rfl, ⟨rfl, rfl⟩, rfl⟩, rfl⟩
    · exact ⟨_, ⟨_, rfl, rfl, ⟨rfl, rfl⟩, rfl⟩, rfl⟩
  none_ := ⟨_, rfl, rfl, rfl, rfl⟩
  true_ := ⟨_, rfl, rfl, rfl, rfl⟩
  false_ := ⟨_, rfl, rfl, rfl, rfl⟩
  bound x v value := by
    unfold truthStore at value
    split at value
    · next isTrue =>
        subst isTrue
        cases value
        exact ⟨⟨by decide, by decide⟩, 34, trueVal, palindromes_finds is (by decide) rfl (by decide),
          _, rfl, rfl, rfl, rfl⟩
    · split at value
      · next isFalse =>
          subst isFalse
          cases value
          exact ⟨⟨by decide, by decide⟩, 34, falseVal, palindromes_finds is (by decide) rfl (by decide),
            _, rfl, rfl, rfl, rfl⟩
      · cases value

/-- A list cell, by what the constructor of the source puts in it. -/
theorem head_at {s : State} {head : Ptr → Prop} {a n : Nat} {key : Ptr}
    (cell : s.cell (.ref a) = some (.mkCons key (.ref n))) (is : head key) :
    CallAt s head (.ref a) n :=
  ⟨_, cell, rfl, Cell.mk_cons_cdr _ _, (Cell.mk_cons_car key (.ref n)).symm ▸ is⟩

theorem operands_at {s : State} {n k : Nat} {q r : Ptr}
    (first : s.cell (.ref n) = some (.mkCons q (.ref k)))
    (second : s.cell (.ref k) = some (.mkCons r .null)) : CellsAt s [(n, q), (k, r)] (.ref n) :=
  ⟨rfl, _, first, rfl, Cell.mk_cons_car _ _, Cell.mk_cons_cdr _ _, _, second, rfl,
    Cell.mk_cons_car _ _, Cell.mk_cons_cdr _ _⟩

theorem call_at {s : State} {ctx : Ptr} {vars : Nat → Prop} {op : Operator} {left right : Expr}
    {a n k : Nat} {key q r : Ptr} (cell : s.cell (.ref a) = some (.mkCons key (.ref n)))
    (first : s.cell (.ref n) = some (.mkCons q (.ref k)))
    (second : s.cell (.ref k) = some (.mkCons r .null)) (head : OperatorHead s ctx vars op.builtin key)
    (leftAt : ExprAt s ctx vars left q) (rightAt : ExprAt s ctx vars right r) :
    ExprAt s ctx vars (.call op left right) (.ref a) :=
  ⟨n, k, q, r, head_at cell head, operands_at first second, leftAt, rightAt⟩

theorem negation_at {s : State} {ctx : Ptr} {vars : Nat → Prop} {e : Expr} {a n : Nat} {key q : Ptr}
    (cell : s.cell (.ref a) = some (.mkCons key (.ref n)))
    (first : s.cell (.ref n) = some (.mkCons q .null)) (head : OperatorHead s ctx vars .not key)
    (code : ExprAt s ctx vars e q) : ExprAt s ctx vars (.negate e) (.ref a) :=
  ⟨n, q, head_at cell head, ⟨rfl, _, first, rfl, Cell.mk_cons_car _ _, Cell.mk_cons_cdr _ _⟩, code⟩

theorem assign_at {s : State} {ctx : Ptr} {vars : Nat → Prop} {x : Nat} {e : Expr} {a n k : Nat}
    {key q r : Ptr} (cell : s.cell (.ref a) = some (.mkCons key (.ref n)))
    (first : s.cell (.ref n) = some (.mkCons q (.ref k)))
    (second : s.cell (.ref k) = some (.mkCons r .null)) (head : OperatorHead s ctx vars .set key)
    (variable_ : VarAt s vars x q) (code : ExprAt s ctx vars e r) :
    FormAt s ctx vars (.assign x e) (.ref a) := by
  unfold FormAt
  exact ⟨n, k, q, r, head_at cell head, operands_at first second, variable_, code⟩

theorem last_at {s : State} {ctx : Ptr} {vars : Nat → Prop} {f : Form} {a : Nat} {p : Ptr}
    (cell : s.cell (.ref a) = some (.mkCons p .null)) (code : FormAt s ctx vars f p) :
    BodyAt s ctx vars (.last f) (.ref a) := by
  unfold BodyAt
  refine ⟨_, cell, rfl, Cell.mk_cons_cdr _ _, ?_⟩
  rw [Cell.mk_cons_car]
  exact code

theorem next_at {s : State} {ctx : Ptr} {vars : Nat → Prop} {f : Form} {b : Body} {a : Nat} {p q : Ptr}
    (cell : s.cell (.ref a) = some (.mkCons p q)) (code : FormAt s ctx vars f p)
    (rest : BodyAt s ctx vars b q) : BodyAt s ctx vars (.next f b) (.ref a) := by
  unfold BodyAt
  refine ⟨_, cell, rfl, ?_⟩
  rw [Cell.mk_cons_car, Cell.mk_cons_cdr]
  exact ⟨code, rest⟩

theorem loop_at {s : State} {ctx : Ptr} {vars : Nat → Prop} {e : Expr} {b : Body} {a n : Nat}
    {key p q : Ptr} (cell : s.cell (.ref a) = some (.mkCons key (.ref n)))
    (head : FormHead s .operWhile key) (rest : s.cell (.ref n) = some (.mkCons p q))
    (test : ExprAt s ctx vars e p) (body : BodyAt s ctx vars b q) :
    FormAt s ctx vars (.loop e b) (.ref a) := by
  unfold FormAt
  refine ⟨n, _, head_at cell head, rest, rfl, ?_⟩
  rw [Cell.mk_cons_car, Cell.mk_cons_cdr]
  exact ⟨test, body⟩

theorem block_at {s : State} {ctx : Ptr} {vars : Nat → Prop} {b : Body} {a n : Nat} {key : Ptr}
    (cell : s.cell (.ref a) = some (.mkCons key (.ref n))) (head : FormHead s .operDo key)
    (body : BodyAt s ctx vars b (.ref n)) : FormAt s ctx vars (.block b) (.ref a) := by
  unfold FormAt
  exact ⟨n, head_at cell head, body⟩

theorem branch_at {s : State} {ctx : Ptr} {vars : Nat → Prop} {e : Expr} {yes no : Form}
    {a n k m : Nat} {key p q r : Ptr} (cell : s.cell (.ref a) = some (.mkCons key (.ref n)))
    (head : FormHead s .operIf key) (first : s.cell (.ref n) = some (.mkCons p (.ref k)))
    (second : s.cell (.ref k) = some (.mkCons q (.ref m)))
    (third : s.cell (.ref m) = some (.mkCons r .null)) (test : ExprAt s ctx vars e p)
    (yesAt : FormAt s ctx vars yes q) (noAt : FormAt s ctx vars no r) :
    FormAt s ctx vars (.branch e yes no) (.ref a) := by
  have listed : CellsAt s [(n, p), (k, q), (m, r)] (.ref n) :=
    ⟨rfl, _, first, rfl, Cell.mk_cons_car _ _, Cell.mk_cons_cdr _ _, _, second, rfl,
      Cell.mk_cons_car _ _, Cell.mk_cons_cdr _ _, _, third, rfl, Cell.mk_cons_car _ _,
      Cell.mk_cons_cdr _ _⟩
  unfold FormAt
  exact ⟨n, p, q, r, head_at cell head, .inl (list_at_cells listed), test, yesAt, noAt⟩

theorem palindromes_symbol {id : Nat} (less : id < 14) : PlainSymbol palindromes (.ref (7 + id)) id := by
  have each : ∀ i < 14, (do
      let c ← palindromes.cell (.ref (7 + i))
      let name ← c.sVal
      let id ← c.symId
      some (c.type == .symbol && name.head? != some (chr '\'') && (strstr (text "::") name).isNone &&
        id == i)) = some true := by
    decide +kernel
  have this := each id less
  simp only [Option.bind_eq_bind, Option.bind_eq_some_iff] at this
  obtain ⟨c, known, name, named, i, numbered, checked⟩ := this
  simp only [Option.some.injEq, Bool.and_eq_true, beq_iff_eq, bne_iff_ne, Option.isNone_iff_eq_none]
    at checked
  obtain ⟨⟨⟨type, quote⟩, path⟩, same⟩ := checked
  exact ⟨c, name, known, type, named, same ▸ numbered, quote, path⟩

theorem palindromes_operator {b : Builtin} (i : Nat) (less : i < 7)
    (is : palindromes.cell (.ref (22 + i)) = some { type := .operNative, w0 := .code (.builtin b) }) :
    OperatorHead palindromes (.ref 35) isVariable b (.ref (7 + i)) := by
  have slots : ∀ i < 7, ([Ptr.ref 22, .ref 23, .ref 24, .ref 25, .ref 26, .ref 27, .ref 28, .null,
      .null, .null, .null, .null, trueVal, falseVal, .ref 121, .null] : List Ptr)[i]? =
        some (.ref (22 + i)) := by decide
  refine ⟨i, 34, .ref (22 + i), _, palindromes_symbol (Nat.lt_trans less (by decide)), ?_,
    palindromes_finds (.inr rfl) (Nat.lt_trans less (by decide)) (slots i less) (by simp), is, rfl,
    rfl⟩
  exact fun variable_ => Nat.not_le.2 less variable_.1

theorem palindromes_variable (x : Nat) (inside : isVariable x) :
    VarAt palindromes isVariable x (.ref (7 + x)) := ⟨palindromes_symbol inside.2, inside⟩

theorem palindromes_code : BodyAt palindromes (.ref 35) isVariable (isPalindrome palindromeVariables)
    (.ref 119) := by
  have sets := palindromes_operator (b := .set) 0 (by decide) rfl
  have above := palindromes_operator (b := .gt) 1 (by decide) rfl
  have quotient := palindromes_operator (b := .div) 2 (by decide) rfl
  have product := palindromes_operator (b := .mult) 3 (by decide) rfl
  have negates := palindromes_operator (b := .not) 4 (by decide) rfl
  have equals := palindromes_operator (b := .eq) 5 (by decide) rfl
  have remainder := palindromes_operator (b := .mod) 6 (by decide) rfl
  have x := palindromes_variable 7 (by unfold isVariable; decide)
  have div := palindromes_variable 8 (by unfold isVariable; decide)
  have retval := palindromes_variable 9 (by unfold isVariable; decide)
  have l := palindromes_variable 10 (by unfold isVariable; decide)
  have r := palindromes_variable 11 (by unfold isVariable; decide)
  have yes := palindromes_variable 12 (by unfold isVariable; decide)
  have no := palindromes_variable 13 (by unfold isVariable; decide)
  have constant {a : Nat} {i : Int} (known : palindromes.cell (.ref a) = some (.mkNumber i)) :
      ExprAt palindromes (.ref 35) isVariable (number i) (.ref a) := ⟨_, known, rfl, rfl⟩
  have one : ExprAt palindromes (.ref 35) isVariable (number 1) (.ref 29) := constant rfl
  have ten : ExprAt palindromes (.ref 35) isVariable (number 10) (.ref 30) := constant rfl
  have zero : ExprAt palindromes (.ref 35) isVariable (number 0) (.ref 31) := constant rfl
  have hundred : ExprAt palindromes (.ref 35) isVariable (number 100) (.ref 32) := constant rfl
  have begins : FormAt palindromes (.ref 35) isVariable (.assign 8 (number 1)) (.ref 38) :=
    assign_at rfl rfl rfl sets div one
  have seeks : FormAt palindromes (.ref 35) isVariable
      (.loop (seekTest palindromeVariables) (seekBody palindromeVariables)) (.ref 53) :=
    loop_at rfl rfl rfl (call_at rfl rfl rfl above (call_at rfl rfl rfl quotient x div) ten)
      (last_at rfl (assign_at rfl rfl rfl sets div (call_at rfl rfl rfl product div ten)))
  have assumes : FormAt palindromes (.ref 35) isVariable (.assign 9 (.var 12)) (.ref 56) :=
    assign_at rfl rfl rfl sets retval yes
  have differ : FormAt palindromes (.ref 35) isVariable
      (.block (.next (.assign 9 (.var 13)) (.last (.assign 7 (number 0))))) (.ref 87) :=
    block_at rfl rfl (next_at rfl (assign_at rfl rfl rfl sets retval no)
      (last_at rfl (assign_at rfl rfl rfl sets x zero)))
  have agree : FormAt palindromes (.ref 35) isVariable (.block (.next
      (.assign 7 (.call .div (.call .mod (.var 7) (.var 8)) (number 10)))
      (.last (.assign 8 (.call .div (.var 8) (number 100)))))) (.ref 105) :=
    block_at rfl rfl (next_at rfl (assign_at rfl rfl rfl sets x
        (call_at rfl rfl rfl quotient (call_at rfl rfl rfl remainder x div) ten))
      (last_at rfl (assign_at rfl rfl rfl sets div (call_at rfl rfl rfl quotient div hundred))))
  have compares : FormAt palindromes (.ref 35) isVariable (compareEnds palindromeVariables) (.ref 109) :=
    branch_at rfl rfl rfl rfl rfl
      (negation_at rfl rfl negates (call_at rfl rfl rfl equals l r)) differ agree
  have checks : FormAt palindromes (.ref 35) isVariable
      (.loop (checkTest palindromeVariables) (checkBody palindromeVariables)) (.ref 114) :=
    loop_at rfl rfl rfl (negation_at rfl rfl negates (call_at rfl rfl rfl equals x zero))
      (next_at rfl (assign_at rfl rfl rfl sets l (call_at rfl rfl rfl quotient x div))
        (next_at rfl (assign_at rfl rfl rfl sets r (call_at rfl rfl rfl remainder x ten))
          (last_at rfl compares)))
  have result : FormAt palindromes (.ref 35) isVariable (.value (.var 9)) (.ref 16) := by
    unfold FormAt
    exact retval
  exact next_at rfl begins (next_at rfl seeks (next_at rfl assumes (next_at rfl checks
    (last_at rfl result))))

theorem palindromes_function :
    FunctionAt palindromes (.ref 121) (.ref 35) [palindromeVariables.x] (.ref 119) := by
  refine ⟨⟨[.ref 14], ⟨_, rfl, rfl, ⟨120, _, rfl, rfl, rfl, rfl, rfl⟩, rfl⟩, rfl, ?_⟩, _, rfl, rfl⟩
  exact ⟨_, _, rfl, rfl, rfl, ⟨rfl, rfl⟩, rfl⟩

/-- `(is-palindrome 101)` -/
theorem palindromes_call :
    AppliesAt palindromes (.ref 34) isVariable (.ref 121) [number 101] (.ref 123) := by
  have named : PlainSymbol palindromes (.ref 21) 14 :=
    ⟨_, _, rfl, rfl, rfl, rfl, by decide, by decide⟩
  have found : Finds palindromes 14 (.ref 34) 34 (.ref 121) :=
    palindromes_finds (.inl rfl) (by decide) rfl (by decide)
  exact ⟨122, [(122, .ref 33)], 14, 34, _, rfl, rfl, rfl, named, found, ⟨rfl, _, rfl, rfl, rfl, rfl⟩,
    .cons ⟨_, rfl, rfl, rfl⟩ .nil⟩

/-- The number 101 begins with 10. -/
theorem is_palindrome_recognises_101 : ∃ r t,
    (runtime World.bare).Runs (blEval .operand (.ref 34) (.ref 123)) palindromes r t ∧
      Holds t (.bool false) r := by
  obtain ⟨b, r, t, run, held, told⟩ := is_palindrome_recognises (n := 101) bare_disciplined
    (palindromes_stands (.inl rfl)) (palindromes_stands (.inr rfl)) palindromes_function
    palindromes_code palindromes_call rfl ⟨by decide, by decide⟩ rfl rfl .operand
  have unrecognised : ¬ Recognised 101 := fun recognised => recognised.2.2 1 rfl
  cases b with
  | false => exact ⟨r, t, run, held⟩
  | true => exact absurd (told.1 rfl) unrecognised

end Result

end BearLang.PalindromeFunction
