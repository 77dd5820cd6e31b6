import Mathlib.Analysis.Convex.Deriv
import Mathlib.Analysis.SpecialFunctions.Log.Deriv
import Mathlib.Analysis.SpecialFunctions.Sigmoid
import GnuRQi.Statistics.Binomial

/-!
# Binomial regression with the logistic link

The success probability of an observation is `sigmoid` of a predictor that is linear in the
parameters. Each term of the negative log-likelihood is then a multiple of `softplus` of the
predictor, which is strictly convex, less an affine function of it. Two distinct values of the
covariate make the predictor injective in the parameters, so that the whole sum is strictly
convex and has at most one minimiser.
-/

namespace GnuRQi.Statistics

/-! ## The link function -/

/-- The primitive of the logistic function. -/
noncomputable def softplus (η : ℝ) : ℝ := Real.log (1 + Real.exp η)

/-- The logistic function without the reciprocal. -/
theorem sigmoid_eq_div (η : ℝ) : Real.sigmoid η = Real.exp η / (1 + Real.exp η) := by
  rw [Real.sigmoid_def, Real.exp_neg]
  field_simp
  ring

/-- The derivative of `softplus` is the logistic function. -/
theorem hasDerivAt_softplus (η : ℝ) : HasDerivAt softplus (Real.sigmoid η) η := by
  have hne : 1 + Real.exp η ≠ 0 := by positivity
  have h : HasDerivAt softplus (Real.exp η / (1 + Real.exp η)) η :=
    ((Real.hasDerivAt_exp η).const_add 1).log hne
  exact h.congr_deriv (sigmoid_eq_div η).symm

/-- `softplus` is strictly convex, because the logistic function is strictly monotone. -/
theorem strictConvexOn_softplus : StrictConvexOn ℝ Set.univ softplus := by
  have hderiv : deriv softplus = Real.sigmoid :=
    funext fun η => (hasDerivAt_softplus η).deriv
  have hcont : Continuous softplus :=
    continuous_iff_continuousAt.mpr fun η => (hasDerivAt_softplus η).continuousAt
  refine StrictMono.strictConvexOn_univ_of_deriv hcont ?_
  rw [hderiv]
  exact Real.sigmoid_strictMono

/-- The logarithm of the probability of success. -/
theorem log_sigmoid (η : ℝ) : Real.log (Real.sigmoid η) = η - softplus η := by
  have hexp : Real.exp η ≠ 0 := Real.exp_ne_zero η
  have hne : 1 + Real.exp η ≠ 0 := by positivity
  rw [sigmoid_eq_div, Real.log_div hexp hne, Real.log_exp, softplus]

/-- The logarithm of the probability of failure. -/
theorem log_one_sub_sigmoid (η : ℝ) : Real.log (1 - Real.sigmoid η) = -softplus η := by
  rw [← Real.sigmoid_neg, Real.sigmoid_def, neg_neg, Real.log_inv, softplus]

/-! ## The linear predictor -/

variable {ι : Type*}

/-- The linear predictor with intercept `p.1` and slope `p.2`. -/
def predictor (x : ι → ℝ) : ℝ × ℝ →ₗ[ℝ] ι → ℝ where
  toFun p i := p.1 + p.2 * x i
  map_add' p q := by
    funext i
    simp only [Prod.fst_add, Prod.snd_add, Pi.add_apply]
    ring
  map_smul' s p := by
    funext i
    simp only [Prod.smul_fst, Prod.smul_snd, Pi.smul_apply, smul_eq_mul, RingHom.id_apply]
    ring

theorem predictor_apply (x : ι → ℝ) (p : ℝ × ℝ) (i : ι) :
    predictor x p i = p.1 + p.2 * x i := rfl

/-- Two distinct values of the covariate determine the parameters. -/
theorem predictor_injective {x : ι → ℝ} (hx : ∃ i j, x i ≠ x j) :
    Function.Injective (predictor x) := by
  intro p q hpq
  obtain ⟨i, j, hij⟩ := hx
  have hi : p.1 + p.2 * x i = q.1 + q.2 * x i := congrFun hpq i
  have hj : p.1 + p.2 * x j = q.1 + q.2 * x j := congrFun hpq j
  have hproduct : (p.2 - q.2) * (x i - x j) = 0 := by linear_combination hi - hj
  have hslope : p.2 = q.2 :=
    sub_eq_zero.mp ((mul_eq_zero.mp hproduct).resolve_right (sub_ne_zero.mpr hij))
  have hintercept : p.1 = q.1 := by
    rw [hslope] at hi
    exact add_right_cancel hi
  exact Prod.ext hintercept hslope

/-! ## The negative log-likelihood -/

variable [Fintype ι] (x : ι → ℝ) (y n : ι → ℕ)

/-- Minus the log-likelihood of `y i` successes in `n i` trials at covariate `x i`. -/
noncomputable def negLogLik (p : ℝ × ℝ) : ℝ :=
  -∑ i, Real.log (binomial (n i) (y i) (Real.sigmoid (predictor x p i)))

variable {x y n}

/-- The negative log-likelihood without the probabilities. -/
theorem negLogLik_eq (hy : ∀ i, y i ≤ n i) (p : ℝ × ℝ) :
    negLogLik x y n p =
      ∑ i, (n i * softplus (predictor x p i) -
        (y i * predictor x p i + Real.log ((n i).choose (y i)))) := by
  rw [negLogLik, ← Finset.sum_neg_distrib]
  refine Finset.sum_congr rfl ?_
  intro i _
  rw [log_binomial (hy i) (Real.sigmoid_pos _) (Real.sigmoid_lt_one _), log_sigmoid,
    log_one_sub_sigmoid]
  ring

/-- Probabilities are at most one, so that no term of the negative log-likelihood is negative. -/
theorem negLogLik_nonneg (hy : ∀ i, y i ≤ n i) (p : ℝ × ℝ) : 0 ≤ negLogLik x y n p := by
  rw [negLogLik, neg_nonneg]
  refine Finset.sum_nonpos fun i _ => Real.log_nonpos ?_ ?_
  · exact binomial_nonneg (Real.sigmoid_nonneg _) (Real.sigmoid_le_one _)
  · exact binomial_le_one (hy i) (Real.sigmoid_nonneg _) (Real.sigmoid_le_one _)

/-- A positively weighted sum of a strictly convex function of linear predictors is strictly
convex when the predictors determine the point. -/
theorem strictConvexOn_sum {E : Type*} [AddCommGroup E] [Module ℝ E] {f : ℝ → ℝ}
    (hf : StrictConvexOn ℝ Set.univ f) {w : ι → ℝ} (hw : ∀ i, 0 < w i) {g : E →ₗ[ℝ] ι → ℝ}
    (hg : Function.Injective g) :
    StrictConvexOn ℝ Set.univ fun u => ∑ i, w i * f (g u i) := by
  refine ⟨convex_univ, ?_⟩
  intro u _ v _ huv s t hs ht hst
  have hlinear : ∀ i, g (s • u + t • v) i = s * g u i + t * g v i := by
    intro i
    simp
  have hterm : ∀ i, f (g (s • u + t • v) i) ≤ s * f (g u i) + t * f (g v i) := by
    intro i
    rw [hlinear i]
    exact hf.convexOn.2 trivial trivial hs.le ht.le hst
  -- Distinct points differ in some predictor, and there the inequality is strict.
  obtain ⟨j, hj⟩ : ∃ j, g u j ≠ g v j := Function.ne_iff.mp (hg.ne huv)
  have hstrict : f (g (s • u + t • v) j) < s * f (g u j) + t * f (g v j) := by
    rw [hlinear j]
    exact hf.2 trivial trivial hj hs ht hst
  calc
    ∑ i, w i * f (g (s • u + t • v) i) < ∑ i, w i * (s * f (g u i) + t * f (g v i)) :=
      Finset.sum_lt_sum (fun i _ => mul_le_mul_of_nonneg_left (hterm i) (hw i).le)
        ⟨j, Finset.mem_univ j, mul_lt_mul_of_pos_left hstrict (hw j)⟩
    _ = s • ∑ i, w i * f (g u i) + t • ∑ i, w i * f (g v i) := by
      simp only [smul_eq_mul, Finset.mul_sum, ← Finset.sum_add_distrib]
      exact Finset.sum_congr rfl fun i _ => by ring

/-- The negative log-likelihood is strictly convex when the covariate takes two values. -/
theorem strictConvexOn_negLogLik (hy : ∀ i, y i ≤ n i) (hn : ∀ i, 0 < n i)
    (hx : ∃ i j, x i ≠ x j) : StrictConvexOn ℝ Set.univ (negLogLik x y n) := by
  have hweight : ∀ i, (0 : ℝ) < n i := fun i => Nat.cast_pos.mpr (hn i)
  have hconvex := strictConvexOn_sum strictConvexOn_softplus hweight (predictor_injective hx)
  refine ⟨convex_univ, ?_⟩
  intro p hp q hq hpq s t hs ht hst
  have hlt := hconvex.2 hp hq hpq hs ht hst
  -- What is subtracted from the convex part is affine, so it meets its bound with equality.
  have haffine : ∑ i, (y i * predictor x (s • p + t • q) i + Real.log ((n i).choose (y i))) =
      s * ∑ i, (y i * predictor x p i + Real.log ((n i).choose (y i))) +
        t * ∑ i, (y i * predictor x q i + Real.log ((n i).choose (y i))) := by
    rw [Finset.mul_sum, Finset.mul_sum, ← Finset.sum_add_distrib]
    refine Finset.sum_congr rfl ?_
    intro i _
    simp only [map_add, map_smul, Pi.add_apply, Pi.smul_apply, smul_eq_mul]
    linear_combination -Real.log ((n i).choose (y i)) * hst
  simp only [smul_eq_mul, negLogLik_eq hy, Finset.sum_sub_distrib] at hlt ⊢
  rw [haffine]
  linarith

end GnuRQi.Statistics
