import Mathlib.Probability.CDF
import Mathlib.Probability.Distributions.Gaussian.Real
import Mathlib.Probability.HasLaw
import Mathlib.Topology.Order.LeftRightLim
import GnuRQi.Statistics.Sample

/-!
# Quantiles and means of normal samples

Without atoms a quantile of a distribution is reached with its probability. `hasLaw_mean` gives the
distribution of the mean of independent normal variables, and `measureReal_within` the probability
that it is within some standard errors.
-/

namespace GnuRQi.Statistics

open MeasureTheory ProbabilityTheory Set Filter
open scoped NNReal

/-! ## Quantiles -/

section Quantile

variable {ν : Measure ℝ} {p : ℝ}

/-- The least number below which a value stays with the probability `p`. -/
noncomputable def quantile (ν : Measure ℝ) (p : ℝ) : ℝ := sInf {x | p ≤ cdf ν x}

variable [IsProbabilityMeasure ν] [NullSingletonClass ν]

/-- A distribution function without atoms has no jumps. -/
theorem continuous_cdf : Continuous (cdf ν) := by
  refine continuous_iff_continuousAt.mpr fun x => ?_
  have hatom : (cdf ν).measure {x} = 0 := by
    rw [measure_cdf]
    exact measure_singleton x
  rw [StieltjesFunction.measure_singleton, ENNReal.ofReal_eq_zero, sub_nonpos] at hatom
  have hleft : Function.leftLim (cdf ν) x = cdf ν x :=
    le_antisymm ((monotone_cdf ν).leftLim_le le_rfl) hatom
  rw [(monotone_cdf ν).continuousAt_iff_leftLim_eq_rightLim, hleft,
    (cdf ν).rightLim_eq]

/-- Up to the quantile there is just the probability. -/
theorem cdf_quantile (hp0 : 0 < p) (hp1 : p < 1) : cdf ν (quantile ν p) = p := by
  obtain ⟨low, hlow⟩ := ((tendsto_cdf_atBot ν).eventually_lt_const hp0).exists
  obtain ⟨high, hhigh⟩ := ((tendsto_cdf_atTop ν).eventually_const_lt hp1).exists
  obtain ⟨x, hx⟩ := mem_range_of_exists_le_of_exists_ge continuous_cdf ⟨low, hlow.le⟩
    ⟨high, hhigh.le⟩
  have hbelow : BddBelow {x | p ≤ cdf ν x} := by
    refine ⟨low, fun y hy => le_of_not_gt fun hlt => ?_⟩
    exact absurd ((monotone_cdf ν) hlt.le) (not_le.mpr (hlow.trans_le hy))
  have hclosed : IsClosed {x | p ≤ cdf ν x} := isClosed_le continuous_const continuous_cdf
  have hmem := hclosed.csInf_mem ⟨x, hx.ge⟩ hbelow
  refine le_antisymm ?_ hmem
  calc cdf ν (quantile ν p) ≤ cdf ν x := (monotone_cdf ν) (csInf_le hbelow hx.ge)
    _ = p := hx

variable (hsymm : ν.map (fun x => -x) = ν)
include hsymm

/-- The distribution function of a symmetric distribution. -/
theorem cdf_neg (x : ℝ) : cdf ν (-x) = 1 - cdf ν x := by
  have hmap : ν.real (Iic (-x)) = ν.real (Ici x) := by
    nth_rewrite 1 [← hsymm]
    rw [map_measureReal_apply measurable_neg measurableSet_Iic]
    congr 1
    ext y
    simp
  have hcompl : ν.real (Ici x) = 1 - ν.real (Iio x) := by
    rw [← compl_Iio, probReal_compl_eq_one_sub measurableSet_Iio]
  rw [cdf_eq_real, cdf_eq_real, hmap, hcompl, measureReal_congr Iio_ae_eq_Iic]

theorem measureReal_Ioc_neg {z : ℝ} (hz : 0 ≤ z) : ν.real (Ioc (-z) z) = 2 * cdf ν z - 1 := by
  have hsplit := measureReal_union (μ := ν) (Iic_disjoint_Ioc (le_refl (-z)))
    (measurableSet_Ioc (b := z))
  rw [Iic_union_Ioc_eq_Iic (neg_le_self hz), ← cdf_eq_real, ← cdf_eq_real, cdf_neg hsymm] at hsplit
  linarith

/-- The probability of the values between two opposite numbers. -/
theorem measureReal_abs_le {z : ℝ} (hz : 0 ≤ z) : ν.real {x | |x| ≤ z} = 2 * cdf ν z - 1 := by
  have hset : {x : ℝ | |x| ≤ z} = Icc (-z) z := by
    ext x
    simp [abs_le]
  rw [hset, ← measureReal_congr Ioc_ae_eq_Icc, measureReal_Ioc_neg hsymm hz]

/-- The probability is the same without the two numbers. -/
theorem measureReal_abs_lt {z : ℝ} (hz : 0 ≤ z) : ν.real {x | |x| < z} = 2 * cdf ν z - 1 := by
  have hset : {x : ℝ | |x| < z} = Ioo (-z) z := by
    ext x
    simp [abs_lt]
  rw [hset, measureReal_congr Ioo_ae_eq_Ioc, measureReal_Ioc_neg hsymm hz]

theorem cdf_zero : cdf ν 0 = 1 / 2 := by
  have h := cdf_neg hsymm 0
  rw [neg_zero] at h
  linarith

/-- The quantiles of more than one half are positive. -/
theorem quantile_pos (hp : 1 / 2 < p) (hp1 : p < 1) : 0 < quantile ν p := by
  by_contra hle
  have hmono := (monotone_cdf ν) (not_lt.mp hle)
  rw [cdf_quantile (by linarith) hp1, cdf_zero hsymm] at hmono
  linarith

end Quantile

/-! ## The mean of a normal sample -/

section Mean

variable {Ω : Type*} [MeasurableSpace Ω] {μ : Measure Ω} {n : ℕ} {X : Fin n → Ω → ℝ} {m : ℝ}
  {v : ℝ≥0}

/-- Sums of independent normal variables. -/
theorem hasLaw_sum [IsProbabilityMeasure μ] (hindep : iIndepFun X μ)
    (hlaw : ∀ i, HasLaw (X i) (gaussianReal m v) μ) (s : Finset (Fin n)) :
    HasLaw (∑ i ∈ s, X i) (gaussianReal (s.card * m) (s.card * v)) μ := by
  induction s using Finset.induction_on with
  | empty =>
      simpa [gaussianReal_zero_var] using
        hasLaw_dirac_of_ae_eq (P := μ) (Filter.EventuallyEq.refl _ 0)
  | insert i s hi ih =>
      have hmeas : ∀ i, AEMeasurable (X i) μ := fun i => (hlaw i).aemeasurable
      have hpair := (hindep.indepFun_finsetSum_of_notMem₀ hmeas hi).symm
      rw [Finset.sum_insert hi, Finset.card_insert_of_notMem hi]
      refine ⟨(hmeas i).add ih.aemeasurable, ?_⟩
      rw [gaussianReal_add_gaussianReal_of_indepFun hpair (hlaw i).map_eq ih.map_eq]
      push_cast
      congr 1 <;> ring

/-- The standardised mean of a normal sample. -/
theorem hasLaw_mean [IsProbabilityMeasure μ] (hn : 0 < n) (hindep : iIndepFun X μ) {sigma : ℝ}
    (hsigma : 0 < sigma)
    (hlaw : ∀ i, HasLaw (X i) (gaussianReal m (.mk (sigma ^ 2) (sq_nonneg _))) μ) :
    HasLaw (fun s => (mean (fun i => X i s) - m) / (sigma / √n)) (gaussianReal 0 1) μ := by
  have hn' : (0 : ℝ) < n := Nat.cast_pos.mpr hn
  have hroot : √(n : ℝ) ^ 2 = n := Real.sq_sqrt hn'.le
  have hsum := gaussianReal_div_const (gaussianReal_sub_const
    (gaussianReal_div_const (hasLaw_sum hindep hlaw Finset.univ) n) m) (sigma / √n)
  have hmean : (fun s => (mean (fun i => X i s) - m) / (sigma / √n)) =
      fun s => ((∑ i, X i) s / n - m) / (sigma / √n) := by
    funext s
    rw [mean, Finset.sum_apply]
  have hzero : ((Finset.univ : Finset (Fin n)).card * m / n - m) / (sigma / √n) = 0 := by
    rw [Finset.card_univ, Fintype.card_fin, mul_div_cancel_left₀ m hn'.ne', sub_self, zero_div]
  have hone : (((Finset.univ : Finset (Fin n)).card : ℝ≥0) * .mk (sigma ^ 2) (sq_nonneg _) /
      .mk ((n : ℝ) ^ 2) (sq_nonneg _) / .mk ((sigma / √n) ^ 2) (sq_nonneg _) : ℝ≥0) = 1 := by
    rw [← NNReal.coe_inj, Finset.card_univ, Fintype.card_fin]
    push_cast
    rw [div_pow, hroot]
    field_simp
  rwa [hmean, ← hzero, ← hone]

/-- The mean is within some standard errors of the mean of the distribution, with or without the
bounds. -/
theorem measureReal_within [IsProbabilityMeasure μ] (hn : 0 < n) (hindep : iIndepFun X μ)
    {sigma z : ℝ} (hsigma : 0 < sigma) (hz : 0 ≤ z)
    (hlaw : ∀ i, HasLaw (X i) (gaussianReal m (.mk (sigma ^ 2) (sq_nonneg _))) μ) :
    μ.real {s | |mean (fun i => X i s) - m| ≤ z * (sigma / √n)} =
        2 * cdf (gaussianReal 0 1) z - 1 ∧
      μ.real {s | |mean (fun i => X i s) - m| < z * (sigma / √n)} =
        2 * cdf (gaussianReal 0 1) z - 1 := by
  have hscale : 0 < sigma / √n := div_pos hsigma (Real.sqrt_pos.mpr (Nat.cast_pos.mpr hn))
  have hle : ∀ x : ℝ, |x| ≤ z * (sigma / √n) ↔ |x / (sigma / √n)| ≤ z := by
    intro x
    rw [abs_div, abs_of_pos hscale, div_le_iff₀ hscale]
  have hlt : ∀ x : ℝ, |x| < z * (sigma / √n) ↔ |x / (sigma / √n)| < z := by
    intro x
    rw [abs_div, abs_of_pos hscale, div_lt_iff₀ hscale]
  have hone : NullSingletonClass (gaussianReal 0 1) := nullSingletonClass_gaussianReal one_ne_zero
  have hsymm : (gaussianReal 0 1).map (fun x => -x) = gaussianReal 0 1 := by
    rw [gaussianReal_map_neg, neg_zero]
  have hmean := hasLaw_mean hn hindep hsigma hlaw
  simp only [hle, hlt]
  constructor
  · rw [hmean.measureReal_eq (p := fun x => |x| ≤ z)
      (isClosed_le continuous_abs continuous_const).measurableSet, measureReal_abs_le hsymm hz]
  · rw [hmean.measureReal_eq (p := fun x => |x| < z)
      (isOpen_lt continuous_abs continuous_const).measurableSet, measureReal_abs_lt hsymm hz]

end Mean

/-! ## How many events occur -/

section Count

variable {Ω : Type*} [MeasurableSpace Ω] {μ : Measure Ω} [IsFiniteMeasure μ] {k : ℕ}
  {A : Fin k → Set Ω}

/-- The expected number of events is the sum of their probabilities, whether they are independent
or not. -/
theorem integral_card [∀ s, DecidablePred fun j => s ∈ A j]
    (hA : ∀ j, NullMeasurableSet (A j) μ) :
    ∫ s, ((Finset.univ.filter fun j => s ∈ A j).card : ℝ) ∂μ = ∑ j, μ.real (A j) := by
  classical
  have hcount : ∀ s, ((Finset.univ.filter fun j => s ∈ A j).card : ℝ) =
      ∑ j, (A j).indicator 1 s := by
    intro s
    simp only [indicator_apply, Pi.one_apply, Finset.sum_boole]
  have hone : ∀ j, ∫ s, (A j).indicator (1 : Ω → ℝ) s ∂μ = μ.real (A j) := by
    intro j
    rw [integral_indicator₀ (hA j)]
    simp
  have hint : ∀ j, Integrable ((A j).indicator (1 : Ω → ℝ)) μ :=
    fun j => (integrable_const (1 : ℝ)).indicator₀ (hA j)
  simp only [hcount]
  rw [integral_finsetSum _ fun j _ => hint j]
  exact Finset.sum_congr rfl fun j _ => hone j

end Count

end GnuRQi.Statistics
