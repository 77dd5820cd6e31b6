import Mathlib.Probability.HasLaw
import Mathlib.Probability.Moments.Variance
import GnuRQi.Statistics.Sample

/-!
# Standardised random variables

A random variable less its mean and divided by its standard deviation has mean 0 and second
moment 1. The mean of uncorrelated variables with a common mean and variance has the same mean and
a variance that is smaller by the size of the sample, since of the products of two deviations only
those with themselves remain.
-/

namespace GnuRQi.Statistics

open MeasureTheory ProbabilityTheory

variable {Ω : Type*} [MeasurableSpace Ω] {μ : Measure Ω}

/-- A random variable with mean 0 and second moment 1. -/
structure IsStandard (X : Ω → ℝ) (μ : Measure Ω) : Prop where
  memLp : MemLp X 2 μ
  mean : ∫ s, X s ∂μ = 0
  secondMoment : ∫ s, X s ^ 2 ∂μ = 1

/-- A variable less its mean and divided by its standard deviation. -/
theorem isStandard_of_variance [IsProbabilityMeasure μ] {X : Ω → ℝ} {m v : ℝ} (hX : MemLp X 2 μ)
    (hmean : ∫ s, X s ∂μ = m) (hvar : Var[X; μ] = v) (hv : 0 < v) :
    IsStandard (fun s => (X s - m) / √v) μ := by
  have hcentred : MemLp (fun s => X s - m) 2 μ := hX.sub (memLp_const m)
  have hmemLp : MemLp (fun s => (X s - m) / √v) 2 μ := by
    simp only [div_eq_mul_inv]
    exact hcentred.mul_const _
  have hzero : ∫ s, (X s - m) / √v ∂μ = 0 := by
    rw [integral_div, integral_sub (hX.integrable one_le_two) (integrable_const m), hmean]
    simp
  refine ⟨hmemLp, hzero, ?_⟩
  have hone : Var[fun s => (X s - m) / √v; μ] = 1 := by
    simp only [div_eq_mul_inv]
    rw [variance_mul_const, variance_sub_const hX.aestronglyMeasurable, hvar, inv_pow,
      Real.sq_sqrt hv.le, mul_inv_cancel₀ hv.ne']
  rw [← variance_of_integral_eq_zero hmemLp.aemeasurable hzero]
  exact hone

variable {n : ℕ}

/-- Pairwise uncorrelated variables with a common mean and variance. -/
structure Uncorrelated (X : Fin n → Ω → ℝ) (m v : ℝ) (μ : Measure Ω) : Prop where
  memLp : ∀ i, MemLp (X i) 2 μ
  mean : ∀ i, ∫ s, X i s ∂μ = m
  variance : ∀ i, Var[X i; μ] = v
  covariance : Pairwise fun i j => cov[X i, X j; μ] = 0

namespace Uncorrelated

/-- Independent draws from one distribution. -/
theorem of_pi (ν : Measure ℝ) [IsProbabilityMeasure ν] (hν : MemLp id 2 ν) :
    Uncorrelated (fun i (s : Fin n → ℝ) => s i) (∫ x, x ∂ν) Var[id; ν]
      (Measure.pi fun _ => ν) := by
  have heval := fun i : Fin n => measurePreserving_eval (fun _ : Fin n => ν) i
  have hmemLp : ∀ i : Fin n, MemLp (fun s : Fin n → ℝ => s i) 2 (Measure.pi fun _ => ν) := by
    intro i
    exact hν.comp_measurePreserving (heval i)
  refine ⟨hmemLp, ?_, ?_, ?_⟩
  · intro i
    exact (heval i).hasLaw.integral_eq
  · intro i
    exact (heval i).hasLaw.variance_eq
  · intro i j hij
    have hindep : iIndepFun (fun (i : Fin n) (s : Fin n → ℝ) => s i) (Measure.pi fun _ => ν) :=
      iIndepFun_pi (X := fun _ => id) fun _ => aemeasurable_id
    exact (hindep.indepFun hij).covariance_eq_zero (hmemLp i) (hmemLp j)

variable [IsProbabilityMeasure μ] {X : Fin n → Ω → ℝ} {m v : ℝ}

/-- The variances are the second moments less the squared mean. -/
theorem of_secondMoment {q : ℝ} (hmemLp : ∀ i, MemLp (X i) 2 μ) (hmean : ∀ i, ∫ s, X i s ∂μ = m)
    (hsecond : ∀ i, ∫ s, X i s ^ 2 ∂μ = q)
    (hcovariance : Pairwise fun i j => cov[X i, X j; μ] = 0) :
    Uncorrelated X m (q - m ^ 2) μ where
  memLp := hmemLp
  mean := hmean
  variance := by
    intro i
    rw [variance_eq_sub (hmemLp i), hmean, ← hsecond i]
    rfl
  covariance := hcovariance

/-- A change of origin and unit. -/
theorem affine (hX : Uncorrelated X m v μ) (a c : ℝ) :
    Uncorrelated (fun i s => a + c * X i s) (a + c * m) (c ^ 2 * v) μ where
  memLp := fun i => (memLp_const a).add ((hX.memLp i).const_mul c)
  mean := by
    intro i
    have hint := (hX.memLp i).integrable one_le_two
    rw [integral_add (integrable_const a) (hint.const_mul c), integral_const_mul, hX.mean]
    simp
  variance := by
    intro i
    have hmeas := ((hX.memLp i).const_mul c).aestronglyMeasurable
    rw [variance_const_add hmeas, variance_const_mul, hX.variance]
  covariance := by
    intro i j hij
    have hint := fun k => ((hX.memLp k).integrable one_le_two).const_mul c
    show cov[fun s => a + c * X i s, fun s => a + c * X j s; μ] = 0
    rw [covariance_const_add_left (hint i), covariance_const_add_right (hint j),
      covariance_const_mul_left, covariance_const_mul_right, hX.covariance hij]
    simp

/-- The variance of the sum: the covariances of different variables vanish. -/
theorem variance_sum (hX : Uncorrelated X m v μ) : Var[fun s => ∑ i, X i s; μ] = n * v := by
  have hrow : ∀ i, ∑ j, cov[X i, X j; μ] = v := by
    intro i
    rw [Finset.sum_eq_single i (fun j _ hji => hX.covariance hji.symm) (by simp),
      covariance_self (hX.memLp i).aemeasurable, hX.variance]
  rw [variance_fun_sum hX.memLp]
  simp [hrow]

/-- The sample mean has the same mean. -/
theorem mean_mean (hX : Uncorrelated X m v μ) (hn : 0 < n) :
    ∫ s, Statistics.mean (fun i => X i s) ∂μ = m := by
  have hne : (n : ℝ) ≠ 0 := Nat.cast_ne_zero.mpr hn.ne'
  simp only [Statistics.mean]
  rw [integral_div, integral_finsetSum _ fun i _ => (hX.memLp i).integrable one_le_two]
  simp [hX.mean, hne]

/-- The sample mean has a variance that is smaller by the size of the sample. -/
theorem variance_mean (hX : Uncorrelated X m v μ) (hn : 0 < n) :
    Var[fun s => Statistics.mean (fun i => X i s); μ] = v / n := by
  have hne : (n : ℝ) ≠ 0 := Nat.cast_ne_zero.mpr hn.ne'
  simp only [Statistics.mean, div_eq_mul_inv]
  rw [variance_mul_const, hX.variance_sum]
  field_simp

/-- The standardised sample mean. -/
theorem isStandard_mean {sigma : ℝ} (hX : Uncorrelated X m (sigma ^ 2) μ) (hn : 0 < n)
    (hsigma : 0 < sigma) :
    IsStandard (fun s => (Statistics.mean (fun i => X i s) - m) / (sigma / √n)) μ := by
  have hn' : (0 : ℝ) < n := Nat.cast_pos.mpr hn
  have hmemLp : MemLp (fun s => Statistics.mean fun i => X i s) 2 μ := by
    simp only [Statistics.mean, div_eq_mul_inv]
    exact (memLp_finsetSum _ fun i _ => hX.memLp i).mul_const _
  have hscale : sigma / √n = √(sigma ^ 2 / n) := by
    rw [Real.sqrt_div (sq_nonneg sigma), Real.sqrt_sq hsigma.le]
  rw [hscale]
  exact isStandard_of_variance hmemLp (hX.mean_mean hn) (hX.variance_mean hn) (by positivity)

/-! ### Weighted sums -/

omit [IsProbabilityMeasure μ] in
theorem memLp_weighted (hX : Uncorrelated X m v μ) (w : Fin n → ℝ) :
    MemLp (fun s => ∑ i, w i * X i s) 2 μ :=
  memLp_finsetSum _ fun i _ => (hX.memLp i).const_mul (w i)

theorem mean_weighted (hX : Uncorrelated X m v μ) (w : Fin n → ℝ) :
    ∫ s, ∑ i, w i * X i s ∂μ = (∑ i, w i) * m := by
  rw [integral_finsetSum _ fun i _ => ((hX.memLp i).integrable one_le_two).const_mul (w i),
    Finset.sum_mul]
  refine Finset.sum_congr rfl fun i _ => ?_
  rw [integral_const_mul, hX.mean]

/-- Of the products of two terms only those of a term with itself remain. -/
theorem variance_weighted (hX : Uncorrelated X m v μ) (w : Fin n → ℝ) :
    Var[fun s => ∑ i, w i * X i s; μ] = (∑ i, w i ^ 2) * v := by
  have hrow : ∀ i, ∑ j, cov[fun s => w i * X i s, fun s => w j * X j s; μ] = w i ^ 2 * v := by
    intro i
    simp only [covariance_const_mul_left, covariance_const_mul_right]
    rw [Finset.sum_eq_single i (fun j _ hji => by rw [hX.covariance hji.symm, mul_zero, mul_zero])
      (by simp), covariance_self (hX.memLp i).aemeasurable, hX.variance, ← mul_assoc, sq]
  rw [variance_fun_sum fun i => (hX.memLp i).const_mul (w i), Finset.sum_mul]
  exact Finset.sum_congr rfl fun i _ => hrow i

/-- The standardised weighted sum of variables with mean 0. -/
theorem isStandard_weighted {sigma : ℝ} (hX : Uncorrelated X 0 (sigma ^ 2) μ) (hsigma : 0 < sigma)
    {w : Fin n → ℝ} (hw : 0 < ∑ i, w i ^ 2) :
    IsStandard (fun s => (∑ i, w i * X i s) / (sigma * √(∑ i, w i ^ 2))) μ := by
  have hscale : sigma * √(∑ i, w i ^ 2) = √((∑ i, w i ^ 2) * sigma ^ 2) := by
    rw [mul_comm, Real.sqrt_mul hw.le, Real.sqrt_sq hsigma.le]
  have hmean := hX.mean_weighted w
  rw [mul_zero] at hmean
  have h := isStandard_of_variance (hX.memLp_weighted w) hmean (hX.variance_weighted w)
    (mul_pos hw (pow_pos hsigma 2))
  simpa only [hscale, sub_zero] using h

end Uncorrelated

end GnuRQi.Statistics
