import Mathlib.Algebra.BigOperators.Field
import Mathlib.Algebra.BigOperators.Fin
import Mathlib.Algebra.CharZero.Defs
import Mathlib.Algebra.Order.BigOperators.Ring.Finset
import Mathlib.Algebra.Order.Field.Basic
import Mathlib.Tactic.FieldSimp
import Mathlib.Tactic.Ring

/-!
# Samples and their sums of squares

The mean, the sum of squared deviations and the variance of a finite sample, and the two sums of
squares of an analysis of variance: that within two groups, and that between them, which is one
multiple of the squared difference of their means.
-/

namespace GnuRQi.Statistics

variable {α : Type*} [Field α] {n m : ℕ}

/-- The mean of a sample. -/
def mean (x : Fin n → α) : α := (∑ i, x i) / n

/-- The sum of squared deviations from the mean. -/
def sumSq (x : Fin n → α) : α := ∑ i, (x i - mean x) ^ 2

/-- The sample variance, with divisor `n - 1`. -/
def variance (x : Fin n → α) : α := sumSq x / (n - 1)

/-- The grand mean of two groups: the mean of the pooled sample. -/
def grandMean (x : Fin n → α) (y : Fin m → α) : α := mean (Fin.append x y)

/-- The sum of squares between two groups. -/
def between (x : Fin n → α) (y : Fin m → α) : α :=
  n * (mean x - grandMean x y) ^ 2 + m * (mean y - grandMean x y) ^ 2

/-- The sum of squares within two groups. -/
def within (x : Fin n → α) (y : Fin m → α) : α := sumSq x + sumSq y

section CharZero

variable [CharZero α]

/-- The values of a sample add up to `n` times the mean. -/
theorem sum_eq_mul_mean (x : Fin n → α) (hn : 0 < n) : ∑ i, x i = n * mean x := by
  have hne : (n : α) ≠ 0 := Nat.cast_ne_zero.mpr hn.ne'
  rw [mean, mul_div_cancel₀ _ hne]

/-- The deviations from the mean add up to zero. -/
theorem sum_deviation (x : Fin n → α) (hn : 0 < n) : ∑ i, (x i - mean x) = 0 := by
  rw [Finset.sum_sub_distrib, sum_eq_mul_mean x hn]
  simp

theorem sum_deviation_mul (x : Fin n → α) (hn : 0 < n) :
    ∑ i, (x i - mean x) * x i = sumSq x := by
  have hsplit : ∀ i, (x i - mean x) * x i = (x i - mean x) ^ 2 + mean x * (x i - mean x) :=
    fun i => by ring
  simp only [hsplit, Finset.sum_add_distrib, ← Finset.mul_sum, sum_deviation x hn, mul_zero,
    add_zero, sumSq]

/-- The squares of the values by those of the deviations. -/
theorem sum_sq_eq (x : Fin n → α) (hn : 0 < n) :
    ∑ i, x i ^ 2 = sumSq x + n * mean x ^ 2 := by
  have hsplit : ∀ i, x i ^ 2 = (x i - mean x) ^ 2 + 2 * mean x * (x i - mean x) + mean x ^ 2 :=
    fun i => by ring
  simp only [hsplit, Finset.sum_add_distrib, ← Finset.mul_sum, sum_deviation x hn, mul_zero,
    add_zero, sumSq, Finset.sum_const, Finset.card_univ, Fintype.card_fin, nsmul_eq_mul]

/-- The weighted variance is the sum of squares. -/
theorem mul_variance (x : Fin n → α) (hn : 2 ≤ n) : (n - 1) * variance x = sumSq x := by
  have hne : (n - 1 : α) ≠ 0 := by
    rw [sub_ne_zero]
    exact_mod_cast (show n ≠ 1 by omega)
  rw [variance, mul_div_cancel₀ _ hne]

/-- The grand mean weighs the means of the groups by their sizes. -/
theorem grandMean_eq (x : Fin n → α) (y : Fin m → α) (hn : 0 < n) (hm : 0 < m) :
    grandMean x y = (n * mean x + m * mean y) / (n + m) := by
  rw [grandMean, mean, Fin.sum_univ_add]
  simp [sum_eq_mul_mean x hn, sum_eq_mul_mean y hm]

/-- The sum of squares between two groups depends on the difference of their means alone. -/
theorem between_eq (x : Fin n → α) (y : Fin m → α) (hn : 0 < n) (hm : 0 < m) :
    between x y = n * m / (n + m) * (mean x - mean y) ^ 2 := by
  have hne : (n + m : α) ≠ 0 := by exact_mod_cast (show n + m ≠ 0 by omega)
  rw [between, grandMean_eq x y hn hm]
  field_simp
  ring

end CharZero

/-- Values that differ have a positive sum of squares. -/
theorem sumSq_pos [LinearOrder α] [IsStrictOrderedRing α] {x : Fin n → α} {i j : Fin n}
    (h : x i ≠ x j) : 0 < sumSq x := by
  refine (Finset.sum_nonneg fun i _ => sq_nonneg _).lt_of_ne' fun hzero => h ?_
  have hdev : ∀ i, x i = mean x := by
    simpa [sq, Finset.sum_mul_self_eq_zero_iff, sub_eq_zero] using hzero
  rw [hdev i, hdev j]

end GnuRQi.Statistics
