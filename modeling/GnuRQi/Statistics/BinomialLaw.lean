import Mathlib.Probability.Distributions.Binomial
import GnuRQi.Statistics.Binomial
import GnuRQi.Statistics.Standard

/-!
# Random numbers of successes

A random number of successes in `n` trials has the mean `n * π` and the variance
`n * π * (1 - π)`. Its law is Mathlib's binomial measure, so that the expectation of a function of
it is a sum weighted by the binomial probabilities.
-/

namespace GnuRQi.Statistics

open MeasureTheory ProbabilityTheory

variable {Ω : Type*} [MeasurableSpace Ω] {μ : Measure Ω}

/-- A random number of successes in `n` trials: `k` of them occur with the probability
`binomial n k π`, for `k` from 0 to `n`. -/
structure IsBinomial (S : Ω → ℕ) (n : ℕ) (π : ℝ) (μ : Measure Ω) : Prop where
  measurable : Measurable S
  prob : ∀ k ≤ n, μ.real {s | S s = k} = binomial n k π

namespace IsBinomial

variable {S : Ω → ℕ} {n : ℕ}

/-- A variable with Mathlib's binomial law. -/
theorem of_hasLaw {π : unitInterval} (hmeasurable : Measurable S)
    (hS : HasLaw S (ProbabilityTheory.binomial n π) μ) : IsBinomial S n π μ where
  measurable := hmeasurable
  prob := by
    intro k _
    rw [hS.measureReal_eq (p := (· = k)) (measurableSet_singleton k)]
    exact binomial_real_singleton n k π

variable {π : ℝ} [IsProbabilityMeasure μ]

/-- No other number occurs, since the probabilities add up to one. -/
theorem ae_le (hS : IsBinomial S n π μ) : ∀ᵐ s ∂μ, S s ≤ n := by
  have hmeasurable : MeasurableSet {s | S s ≤ n} := hS.measurable (measurableSet_Iic (a := n))
  have hset : {s | S s ≤ n} = Set.preimage S (Finset.range (n + 1)) := by
    ext s
    simp
  have hprob : μ.real {s | S s ≤ n} = 1 := by
    rw [hset, ← sum_measureReal_preimage_singleton (Finset.range (n + 1))
      fun k _ => hS.measurable (measurableSet_singleton k), ← sum_binomial n π]
    refine Finset.sum_congr rfl ?_
    intro k hk
    exact hS.prob k (Finset.mem_range_succ_iff.mp hk)
  have hone : μ {s | S s ≤ n} = 1 := (ENNReal.toReal_eq_one_iff _).mp hprob
  exact (mem_ae_iff_prob_eq_one hmeasurable).mpr hone

/-- The law of the number of successes. -/
theorem hasLaw (hS : IsBinomial S n π μ) (hπ : π ∈ Set.Icc 0 1) :
    HasLaw S (ProbabilityTheory.binomial n ⟨π, hπ⟩) μ := by
  have hmeasurable : AEMeasurable S μ := hS.measurable.aemeasurable
  have : IsProbabilityMeasure (μ.map S) := Measure.isProbabilityMeasure_map hmeasurable
  refine ⟨hmeasurable, Measure.ext_of_measureReal_singleton ?_⟩
  intro k
  rw [map_measureReal_apply hS.measurable (measurableSet_singleton k), binomial_real_singleton]
  rcases le_or_gt k n with hk | hk
  · exact hS.prob k hk
  · have hzero : μ (Set.preimage S {k}) = 0 := by
      refine measure_mono_null ?_ (ae_iff.mp hS.ae_le)
      rintro s rfl
      exact hk.not_ge
    rw [measureReal_def, hzero, Nat.choose_eq_zero_of_lt hk]
    simp

/-- The expectation of a function of the number of successes. -/
theorem integral_comp (hS : IsBinomial S n π μ) (hπ : π ∈ Set.Icc 0 1) (g : ℕ → ℝ) :
    ∫ s, g (S s) ∂μ = ∑ k ∈ Finset.range (n + 1), g k * binomial n k π := by
  calc
    ∫ s, g (S s) ∂μ = ∫ k, g k ∂ProbabilityTheory.binomial n ⟨π, hπ⟩ :=
      (hS.hasLaw hπ).integral_comp (integrable_binomial g).aestronglyMeasurable
    _ = ∑ k ∈ Finset.Iic n, binomial n k π * g k := integral_binomial g
    _ = ∑ k ∈ Finset.range (n + 1), g k * binomial n k π := by
      simp only [Nat.range_succ_eq_Iic, mul_comm]

theorem memLp (hS : IsBinomial S n π μ) : MemLp (fun s => (S s : ℝ)) 2 μ := by
  have hmeasurable : Measurable fun s => (S s : ℝ) := measurable_from_nat.comp hS.measurable
  refine MemLp.of_bound hmeasurable.aestronglyMeasurable n ?_
  filter_upwards [hS.ae_le] with s hs
  simpa using hs

theorem integral_eq (hS : IsBinomial S n π μ) (hπ : π ∈ Set.Icc 0 1) :
    ∫ s, (S s : ℝ) ∂μ = n * π := by
  rw [hS.integral_comp hπ fun k => (k : ℝ), sum_natCast_mul_binomial]

theorem variance_eq (hS : IsBinomial S n π μ) (hπ : π ∈ Set.Icc 0 1) :
    Var[fun s => (S s : ℝ); μ] = n * π * (1 - π) := by
  rw [variance_eq_integral hS.memLp.aemeasurable, hS.integral_eq hπ,
    hS.integral_comp hπ fun k => ((k : ℝ) - n * π) ^ 2, sum_sq_sub_mul_binomial]

/-- The standardised number of successes. -/
theorem isStandard (hS : IsBinomial S n π μ) (hn : 0 < n) (h0 : 0 < π) (h1 : π < 1) :
    IsStandard (fun s => (S s - n * π) / √(n * π * (1 - π))) μ := by
  have hπ : π ∈ Set.Icc 0 1 := ⟨h0.le, h1.le⟩
  have hn' : (0 : ℝ) < n := Nat.cast_pos.mpr hn
  have hfail : 0 < 1 - π := sub_pos.mpr h1
  exact isStandard_of_variance hS.memLp (hS.integral_eq hπ) (hS.variance_eq hπ) (by positivity)

end IsBinomial

end GnuRQi.Statistics
