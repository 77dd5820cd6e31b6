import Mathlib.Analysis.SpecialFunctions.Integrals.Basic
import Mathlib.Probability.Distributions.Gaussian.Real
import GnuRQi.R.Random
import GnuRQi.R.Statistics
import GnuRQi.Statistics.BinomialLaw

/-!
# The standardisers of `burnout/call.R`

The script defines `f` three times: for a binomial count, for the mean of a normal sample and for
the mean of a uniform one. Each subtracts the mean of what it draws and divides by its standard
deviation, so that the result has mean 0 and second moment 1 over the random states of the
generator.
-/

namespace GnuRQi.Call

open R Statistics MeasureTheory ProbabilityTheory

variable {σ : Type}

/-- `(S- n*p)/sqrt(n*p*(1-p))`, for a count `S` of successes. -/
noncomputable def standardCount (n p S : Num ℝ) : Num ℝ := (S - n * p) / Num.sqrt (n * p * (1 - p))

/-- `(mean(nos)-mu)/(sigma/sqrt(n))`, for a sample `nos`. -/
noncomputable def standardMean (nos : Vec ℝ) (mu sigma : Num ℝ) (n : ℕ) : Num ℝ :=
  (nos.mean - mu) / (sigma / Num.sqrt (n : Num ℝ))

/-- The first definition of `f`. -/
noncomputable def fBinomial (rbinom : CountSampler σ) (n : Num ℝ := 100) (p : Num ℝ := .num 0.5) :
    StateM σ (Num ℝ) := do
  let S ← rbinom n p
  return standardCount n p S

/-- The second definition of `f`. -/
noncomputable def fNormal (rnorm : Sampler σ) (n : ℕ := 100) (mu : Num ℝ := 0)
    (sigma : Num ℝ := 1) : StateM σ (Num ℝ) := do
  let nos ← rnorm n mu sigma
  return standardMean nos mu sigma n

/-- The third definition of `f`. -/
noncomputable def fUniform (runif : Sampler σ) (n : ℕ) (a : Num ℝ := 0) (b : Num ℝ := 1) :
    StateM σ (Num ℝ) := do
  let mu := (b + a) / 2
  let sigma := (b - a) / Num.sqrt 12
  let nos ← runif n a b
  return standardMean nos mu sigma n

/-- The standardised count on numbers. -/
theorem standardCount_num {n : ℕ} {p : ℝ} (hn : 0 < n) (hp0 : 0 < p) (hp1 : p < 1) (k : ℝ) :
    standardCount n (.num p) (.num k) = .num ((k - n * p) / √(n * p * (1 - p))) := by
  have hn' : (0 : ℝ) < n := Nat.cast_pos.mpr hn
  have hfail : 0 < 1 - p := sub_pos.mpr hp1
  have hvariance : 0 < n * p * (1 - p) := by positivity
  have hroot : √(n * p * (1 - p)) ≠ 0 := (Real.sqrt_pos.mpr hvariance).ne'
  simp only [standardCount, Num.natCast_eq, Num.one_eq, Num.num_mul, Num.num_sub,
    Num.sqrt_num hvariance.le, Num.num_div _ hroot]

/-- The standardised mean of a data set. -/
theorem standardMean_of {n : ℕ} (hn : 0 < n) (x : Fin n → ℝ) (mu : ℝ) {sigma : ℝ}
    (hsigma : 0 < sigma) :
    standardMean (.of x) (.num mu) (.num sigma) n = .num ((mean x - mu) / (sigma / √n)) := by
  have hn' : (0 : ℝ) < n := Nat.cast_pos.mpr hn
  have hroot : √(n : ℝ) ≠ 0 := (Real.sqrt_pos.mpr hn').ne'
  have hscale : sigma / √n ≠ 0 := div_ne_zero hsigma.ne' hroot
  simp only [standardMean, Vec.mean_of x hn, Num.natCast_eq, Num.sqrt_num hn'.le, Num.num_sub,
    Num.num_div _ hroot, Num.num_div _ hscale]

/-! ## Moments over the random states -/

variable [MeasurableSpace σ] {μ : Measure σ}

/-- A value computed from the random state of the generator is always a number, and its mean is 0
and its second moment 1. -/
def StandardValue (value : σ → Vec ℝ) (μ : Measure σ) : Prop :=
  ∃ X : σ → ℝ, (∀ s, value s = .single (.num (X s))) ∧ IsStandard X μ

/-- The count that is drawn is `k` with probability `choose(n, k) * p^k * (1-p)^(n-k)`. -/
def DrawsBinomial (draw : σ → Num ℝ) (n : ℕ) (p : ℝ) (μ : Measure σ) : Prop :=
  ∃ S : σ → ℕ, (∀ s, draw s = .num (S s)) ∧ IsBinomial S n p μ

variable [IsProbabilityMeasure μ] {n : ℕ}

/-- A standardised count. -/
theorem standardValue_count {draw : σ → Num ℝ} {p : ℝ} (hdraw : DrawsBinomial draw n p μ)
    (hn : 0 < n) (hp0 : 0 < p) (hp1 : p < 1) :
    StandardValue (fun s => standardCount n (.num p) (draw s)) μ := by
  obtain ⟨S, hS, hbinomial⟩ := hdraw
  refine ⟨_, ?_, hbinomial.isStandard hn hp0 hp1⟩
  intro s
  show Vec.single (standardCount n (.num p) (draw s)) = _
  rw [hS, standardCount_num hn hp0 hp1]

/-- A standardised mean of uncorrelated draws. -/
theorem standardValue_mean {draw : σ → Vec ℝ} {X : Fin n → σ → ℝ} {mu sigma : ℝ}
    (hdraw : ∀ s, draw s = .of fun i => X i s) (hX : Uncorrelated X mu (sigma ^ 2) μ)
    (hn : 0 < n) (hsigma : 0 < sigma) :
    StandardValue (fun s => standardMean (draw s) (.num mu) (.num sigma) n) μ := by
  refine ⟨_, ?_, hX.isStandard_mean hn hsigma⟩
  intro s
  show Vec.single (standardMean (draw s) (.num mu) (.num sigma) n) = _
  rw [hdraw, standardMean_of hn _ mu hsigma]

/-- The mean and the deviation that `fUniform` computes are those of draws between `a` and `b`. -/
theorem uncorrelated_uniform {U : Fin n → σ → ℝ} (a b : ℝ) (hmemLp : ∀ i, MemLp (U i) 2 μ)
    (hfirst : ∀ i, ∫ s, U i s ∂μ = 1 / 2) (hsecond : ∀ i, ∫ s, U i s ^ 2 ∂μ = 1 / 3)
    (hcovariance : Pairwise fun i j => cov[U i, U j; μ] = 0) :
    Uncorrelated (fun i s => a + (b - a) * U i s) ((b + a) / 2) (((b - a) / √12) ^ 2) μ := by
  have h := (Uncorrelated.of_secondMoment hmemLp hfirst hsecond hcovariance).affine a (b - a)
  have hmean : a + (b - a) * (1 / 2) = (b + a) / 2 := by ring
  have hvariance : (b - a) ^ 2 * (1 / 3 - (1 / 2) ^ 2) = ((b - a) / √12) ^ 2 := by
    have hroot : √(12 : ℝ) ^ 2 = 12 := Real.sq_sqrt (by norm_num)
    rw [div_pow (b - a), hroot]
    ring
  rwa [hmean, hvariance] at h

/-- The results of `f` for the means have mean 0 and second moment 1: with `rnorm` drawing
uncorrelated values of mean `mu` and variance `sigma^2`, and with `runif` drawing `a + (b-a)*U[i]`
with uncorrelated `U[i]` of first moment 1/2 and second moment 1/3. -/
theorem means_standardised (hn : 1 ≤ n) :
    (∀ (rnorm : Sampler σ) (mu sigma : ℝ) (X : Fin n → σ → ℝ), 0 < sigma →
      (∀ s, ((rnorm n (.num mu) (.num sigma)).run s).1 = .of fun i => X i s) →
      Uncorrelated X mu (sigma ^ 2) μ →
      StandardValue (fun s => ((fNormal rnorm n (.num mu) (.num sigma)).run s).1) μ) ∧
    ∀ (runif : Sampler σ) (a b : ℝ) (U : Fin n → σ → ℝ), a < b →
      (∀ s, ((runif n (.num a) (.num b)).run s).1 = .of fun i => a + (b - a) * U i s) →
      (∀ i, MemLp (U i) 2 μ) → (∀ i, ∫ s, U i s ∂μ = 1 / 2) → (∀ i, ∫ s, U i s ^ 2 ∂μ = 1 / 3) →
      (Pairwise fun i j => cov[U i, U j; μ] = 0) →
      StandardValue (fun s => ((fUniform runif n (.num a) (.num b)).run s).1) μ := by
  constructor
  · intro rnorm mu sigma X hsigma hdraw hX
    exact standardValue_mean hdraw hX hn hsigma
  · intro runif a b U hab hdraw hmemLp hfirst hsecond hcovariance
    have hU := uncorrelated_uniform a b hmemLp hfirst hsecond hcovariance
    have hroot : 0 < √(12 : ℝ) := Real.sqrt_pos.mpr (by norm_num)
    have hsigma : 0 < (b - a) / √12 := div_pos (sub_pos.mpr hab) hroot
    have hmu : ((.num b + .num a) / 2 : Num ℝ) = .num ((b + a) / 2) := by
      rw [Num.num_add, Num.ofNat_eq, Num.num_div _ two_ne_zero]
    have hscale : (.num b - .num a : Num ℝ) / Num.sqrt 12 = .num ((b - a) / √12) := by
      rw [Num.num_sub, Num.ofNat_eq, Num.sqrt_num (by norm_num), Num.num_div _ hroot.ne']
    have h := standardValue_mean hdraw hU hn hsigma
    rw [← hmu, ← hscale] at h
    exact h

/-- The generator whose state is a sample, which it moves and scales. -/
noncomputable def rescaled (origin unit : Num ℝ) : StateM (Fin n → ℝ) (Vec ℝ) := fun s =>
  (.single origin + .single unit * .of s, s)

theorem run_rescaled (origin unit : ℝ) (s : Fin n → ℝ) :
    ((rescaled (.num origin) (.num unit)).run s).1 = .of fun i => origin + unit * s i := by
  show Vec.single (.num origin) + Vec.single (.num unit) * .of s = _
  rw [Vec.single_mul_of, Vec.single_add_of]

/-- The uniform distribution between 0 and 1. -/
noncomputable def unitUniform : Measure ℝ := volume.restrict (Set.Icc 0 1)

instance : IsProbabilityMeasure unitUniform := ⟨by simp [unitUniform]⟩

theorem memLp_unitUniform : MemLp id 2 unitUniform := by
  refine MemLp.of_bound aestronglyMeasurable_id 1 ?_
  refine (ae_restrict_mem measurableSet_Icc).mono ?_
  intro x hx
  rw [id, Real.norm_of_nonneg hx.1]
  exact hx.2

theorem moment_unitUniform (k : ℕ) : ∫ x, x ^ k ∂unitUniform = 1 / (k + 1) := by
  rw [unitUniform, integral_Icc_eq_integral_Ioc, ← intervalIntegral.integral_of_le zero_le_one,
    integral_pow]
  simp

/-- Two independent draws from a normal and from a uniform distribution. -/
theorem means_standardised_pair :
    StandardValue
      (fun s => ((fNormal (fun _ mean sd => rescaled mean sd) 2 (.num 10) (.num 5)).run s).1)
      (Measure.pi fun _ : Fin 2 => gaussianReal 0 1) ∧
    StandardValue
      (fun s => ((fUniform (fun _ a b => rescaled a (b - a)) 2 (.num 3) (.num 7)).run s).1)
      (Measure.pi fun _ : Fin 2 => unitUniform) := by
  constructor
  · have hZ := Uncorrelated.of_pi (n := 2) (gaussianReal 0 1) (memLp_id_gaussianReal 2)
    rw [integral_id_gaussianReal, variance_id_gaussianReal] at hZ
    have hX := hZ.affine 10 5
    rw [mul_zero, add_zero, NNReal.coe_one, mul_one] at hX
    exact (means_standardised one_le_two).1 (fun _ mean sd => rescaled mean sd) 10 5 _
      (by norm_num) (run_rescaled 10 5) hX
  · have hU := Uncorrelated.of_pi (n := 2) unitUniform memLp_unitUniform
    refine (means_standardised one_le_two).2 (fun _ a b => rescaled a (b - a)) 3 7 (fun i s => s i)
      (by norm_num) (run_rescaled 3 (7 - 3)) hU.memLp ?_ ?_ hU.covariance
    · intro i
      have hfirst := moment_unitUniform 1
      simp only [pow_one] at hfirst
      rw [hU.mean, hfirst]
      norm_num
    · intro i
      have hlaw := (measurePreserving_eval (fun _ : Fin 2 => unitUniform) i).hasLaw
      have hsecond := hlaw.integral_comp (f := fun x => x ^ 2) (by fun_prop)
      rw [moment_unitUniform] at hsecond
      exact hsecond.trans (by norm_num)

end GnuRQi.Call
