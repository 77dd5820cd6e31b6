import Mathlib.Probability.ProductMeasure
import GnuRQi.Burnout.CallStandard

/-!
# The simulations of `burnout/restores.R`

Two loops draw again and again and store what they compute from each draw: a standardised count
and a standardised mean. Every value that is stored has mean 0 and second moment 1 over the random
states of the generator at the start of its loop, and so has the result of `f`.
-/

namespace GnuRQi.Restores

open R Statistics MeasureTheory ProbabilityTheory

variable {σ : Type}

/-- `results` after the first loop, which draws 100 counts. -/
noncomputable def results (rbinom : CountSampler σ) (n p : Num ℝ) : StateM σ (Vec ℝ) := do
  let mut results := ⟨[]⟩
  for i in colon 1 100 do
    let S ← rbinom n p
    results := results.assign i (Call.standardCount n p S)
  return results

/-- `results` after the second loop, which draws 200 samples of size 100. -/
noncomputable def resultsMean (rnorm : Sampler σ) : StateM σ (Vec ℝ) := do
  let mu := 0
  let sigma := 1
  let mut results := ⟨[]⟩
  for i in colon 1 200 do
    let X ← rnorm 100 mu sigma
    results := results.assign i (Call.standardMean X mu sigma 100)
  return results

/-- `f()`. -/
noncomputable def f (rbinom : CountSampler σ) (n p : Num ℝ) : StateM σ (Num ℝ) := do
  let S ← rbinom n p
  return Call.standardCount n p S

/-- The first loop stores the standardised count of each draw. -/
theorem results_run (rbinom : CountSampler σ) (n p : Num ℝ) (s : σ) :
    (results rbinom n p).run s =
      (⟨List.ofFn fun i : Fin 100 => Call.standardCount n p (resultAfter (rbinom n p) i s)⟩,
        stateAfter (rbinom n p) 100 s) := by
  rw [results, colon_one (by norm_num), bind_pure]
  exact run_store (rbinom n p) (Call.standardCount n p) 100 s

/-- The second loop stores the standardised mean of each sample. -/
theorem resultsMean_run (rnorm : Sampler σ) (s : σ) :
    (resultsMean rnorm).run s =
      (⟨List.ofFn fun i : Fin 200 =>
        Call.standardMean (resultAfter (rnorm 100 0 1) i s) 0 1 100⟩,
        stateAfter (rnorm 100 0 1) 200 s) := by
  rw [resultsMean, colon_one (by norm_num), bind_pure]
  exact run_store (rnorm 100 0 1) (fun X => Call.standardMean X 0 1 100) 200 s

section Moments

variable [MeasurableSpace σ] {μ : Measure σ} [IsProbabilityMeasure μ]

/-- Every mean that the second loop stores is standardised when every sample has uncorrelated
values of mean 0 and variance 1. -/
theorem resultsMean_standardised {rnorm : Sampler σ} {X : ℕ → Fin 100 → σ → ℝ}
    (hdraws : ∀ i s, resultAfter (rnorm 100 0 1) i s = .of fun j => X i j s)
    (hX : ∀ i, Uncorrelated (X i) 0 1 μ) (i : Fin 200) :
    Call.StandardValue (fun s => ((resultsMean rnorm).run s).1.elt (i + 1)) μ := by
  have hvariance : Uncorrelated (X i) 0 (1 ^ 2) μ := by
    rw [one_pow]
    exact hX i
  have h := Call.standardValue_mean (hdraws i) hvariance (by norm_num) one_pos
  simp only [resultsMean_run, Vec.elt_ofFn]
  simpa only [Num.zero_eq, Num.one_eq] using h

/-- The standardised counts have mean 0 and second moment 1: the results of both functions `f` and
each of the 100 values that the first loop stores. The generator draws every count with its
binomial probability. -/
theorem counts_standardised {n : ℕ} {p : ℝ} (hn : 1 ≤ n) (hp0 : 0 < p) (hp1 : p < 1)
    {rbinom : CountSampler σ}
    (hdraws : ∀ i, Call.DrawsBinomial (resultAfter (rbinom n (.num p)) i) n p μ) :
    Call.StandardValue (fun s => ((Call.fBinomial rbinom n (.num p)).run s).1) μ ∧
    Call.StandardValue (fun s => ((f rbinom n (.num p)).run s).1) μ ∧
    (∀ s, ((results rbinom n (.num p)).run s).1.length = 100) ∧
    ∀ i : Fin 100,
      Call.StandardValue (fun s => ((results rbinom n (.num p)).run s).1.elt (i + 1)) μ := by
  have hcount := fun i => Call.standardValue_count (hdraws i) hn hp0 hp1
  refine ⟨hcount 0, hcount 0, ?_, ?_⟩
  · intro s
    rw [results_run]
    exact List.length_ofFn
  · intro i
    simp only [results_run, Vec.elt_ofFn]
    exact hcount i

end Moments

/-- A generator of counts whose state is the sequence of all counts to come. -/
def replayCounts : CountSampler (ℕ → ℕ) := fun _ _ => do
  let S ← replay
  return (S : Num ℝ)

/-- Independent counts in the state give binomial draws one after another. -/
theorem drawsBinomial_replayCounts (size prob : Num ℝ) (n : ℕ) (p : unitInterval) (i : ℕ) :
    Call.DrawsBinomial (resultAfter (replayCounts size prob) i) n p
      (Measure.infinitePi fun _ : ℕ => ProbabilityTheory.binomial n p) := by
  have hlaw := measurePreserving_eval_infinitePi
    (fun _ : ℕ => ProbabilityTheory.binomial n p) i
  refine ⟨fun s => s i, ?_, .of_hasLaw (measurable_pi_apply i) hlaw.hasLaw⟩
  intro s
  show Num.num ((resultAfter replay i s : ℕ) : ℝ) = _
  rw [resultAfter_replay]

/-- Counts of three trials with a probability of success of 1/4. -/
theorem counts_standardised_quarter :
    Call.StandardValue (fun s => ((f replayCounts (3 : ℕ) (.num (1 / 4))).run s).1)
      (Measure.infinitePi fun _ : ℕ => ProbabilityTheory.binomial 3 ⟨1 / 4, by norm_num⟩) := by
  have hdraws := drawsBinomial_replayCounts (3 : ℕ) (.num (1 / 4)) 3 ⟨1 / 4, by norm_num⟩
  exact (counts_standardised (by norm_num) (by norm_num) (by norm_num) hdraws).2.1

end GnuRQi.Restores
