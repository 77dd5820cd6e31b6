import Mathlib.Analysis.SpecialFunctions.Log.Basic
import Mathlib.RingTheory.Polynomial.Bernstein

/-!
# The binomial distribution

The probability of `k` successes in `n` trials, as the value of a Bernstein polynomial at the
probability of success. Mathlib's identities for these polynomials give the sums over `k`.
-/

namespace GnuRQi.Statistics

/-- The probability of `k` successes in `n` independent trials. -/
def binomial {R : Type*} [CommRing R] (n k : ℕ) (π : R) : R :=
  n.choose k * π ^ k * (1 - π) ^ (n - k)

section CommRing

variable {R : Type*} [CommRing R]

/-- A binomial probability is the value of a Bernstein polynomial. -/
theorem binomial_eq_eval (n k : ℕ) (π : R) :
    binomial n k π = (bernsteinPolynomial R n k).eval π := by
  simp [binomial, bernsteinPolynomial]

/-- Some number of successes occurs. -/
theorem sum_binomial (n : ℕ) (π : R) : ∑ k ∈ Finset.range (n + 1), binomial n k π = 1 := by
  simp only [binomial_eq_eval]
  rw [← Polynomial.eval_finsetSum, bernsteinPolynomial.sum, Polynomial.eval_one]

/-- The mean number of successes. -/
theorem sum_natCast_mul_binomial (n : ℕ) (π : R) :
    ∑ k ∈ Finset.range (n + 1), k * binomial n k π = n * π := by
  have h := congrArg (Polynomial.eval π) (bernsteinPolynomial.sum_smul R n)
  simpa [Polynomial.eval_finsetSum, binomial_eq_eval] using h

/-- The mean squared deviation of the number of successes from its mean. -/
theorem sum_sq_sub_mul_binomial (n : ℕ) (π : R) :
    ∑ k ∈ Finset.range (n + 1), (k - n * π) ^ 2 * binomial n k π = n * π * (1 - π) := by
  have h := congrArg (Polynomial.eval π) (bernsteinPolynomial.variance R n)
  have hsq : ∀ k : ℕ, (k - n * π) ^ 2 = (n * π - k) ^ 2 := fun k => by ring
  simpa [Polynomial.eval_finsetSum, binomial_eq_eval, hsq] using h

end CommRing

section Ordered

variable {R : Type*} [CommRing R] [LinearOrder R] [IsStrictOrderedRing R] {n k : ℕ} {π : R}

/-- Binomial probabilities are nonnegative. -/
theorem binomial_nonneg (h0 : 0 ≤ π) (h1 : π ≤ 1) : 0 ≤ binomial n k π := by
  have hfail : 0 ≤ 1 - π := sub_nonneg.mpr h1
  unfold binomial
  positivity

/-- A binomial probability is at most one, being a term of a sum equal to one. -/
theorem binomial_le_one (hk : k ≤ n) (h0 : 0 ≤ π) (h1 : π ≤ 1) : binomial n k π ≤ 1 := by
  have hmem : k ∈ Finset.range (n + 1) := Finset.mem_range_succ_iff.mpr hk
  have hnonneg : ∀ j ∈ Finset.range (n + 1), 0 ≤ binomial n j π := by
    intro j _
    exact binomial_nonneg h0 h1
  calc
    binomial n k π ≤ ∑ j ∈ Finset.range (n + 1), binomial n j π :=
      Finset.single_le_sum hnonneg hmem
    _ = 1 := sum_binomial n π

end Ordered

/-- The logarithm of a binomial probability. -/
theorem log_binomial {n k : ℕ} {π : ℝ} (hk : k ≤ n) (h0 : 0 < π) (h1 : π < 1) :
    Real.log (binomial n k π) =
      Real.log (n.choose k) + k * Real.log π + (n - k) * Real.log (1 - π) := by
  have hfail : 1 - π ≠ 0 := (sub_pos.mpr h1).ne'
  have hchoose : (n.choose k : ℝ) ≠ 0 := Nat.cast_ne_zero.mpr (Nat.choose_pos hk).ne'
  have hsuccess : π ^ k ≠ 0 := pow_ne_zero _ h0.ne'
  unfold binomial
  rw [Real.log_mul (mul_ne_zero hchoose hsuccess) (pow_ne_zero _ hfail),
    Real.log_mul hchoose hsuccess, Real.log_pow, Real.log_pow, Nat.cast_sub hk]

end GnuRQi.Statistics
