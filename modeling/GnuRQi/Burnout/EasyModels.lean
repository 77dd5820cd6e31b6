import Mathlib.Probability.Distributions.Gaussian.Real
import GnuRQi.R.LinearModel
import GnuRQi.R.Statistics
import GnuRQi.Statistics.Standard

/-!
# The linear models of `burnout/easy.R`

Without an error term `lm(z ~ x+y)` finds the coefficients 0, 1 and 1 of `z = x+y`, as the script
expects, unless the draw `y` is a linear function of `x`.
-/

namespace GnuRQi.Easy

open R Statistics

section Noiseless

variable {α : Type} [Field α] {n : ℕ}

/-- The design of `lm(z ~ x+y)`. -/
def regressors (x y : Fin n → α) : Fin 3 → Fin n → α := ![1, x, y]

/-- Only a constant function has a multiple and a shift that add up to zero. -/
theorem eq_zero_of_affine {x : Fin n → α} {i j : Fin n} (hx : x i ≠ x j) {c d : α}
    (h : ∀ i, c + d * x i = 0) : c = 0 ∧ d = 0 := by
  have hd : d * (x i - x j) = 0 := by
    rw [mul_sub, sub_eq_zero]
    exact add_left_cancel ((h i).trans (h j).symm)
  have hzero : d = 0 := (mul_eq_zero.mp hd).resolve_right (sub_ne_zero.mpr hx)
  have hi := h i
  rw [hzero, zero_mul, add_zero] at hi
  exact ⟨hi, hzero⟩

variable {x y : Fin n → α}

theorem not_aliased_zero (hn : 0 < n) : ¬Aliased (regressors x y) 0 := by
  intro h
  have hempty : {i : Fin 3 | i < 0} = ∅ := by
    ext i
    simp
  rw [Aliased, hempty, Set.image_empty, Submodule.span_empty, Submodule.mem_bot] at h
  exact one_ne_zero (congrFun h ⟨0, hn⟩)

theorem not_aliased_one {i j : Fin n} (hx : x i ≠ x j) : ¬Aliased (regressors x y) 1 := by
  intro h
  have hone : {i : Fin 3 | i < 1} = {0} := by
    ext i
    fin_cases i <;> simp
  rw [Aliased, hone, Set.image_singleton] at h
  obtain ⟨c, hc⟩ := Submodule.mem_span_singleton.mp h
  exact hx ((congrFun hc i).symm.trans (congrFun hc j))

/-- The last column has no coefficient if it is a linear function of `x`. -/
theorem aliased_two_iff : Aliased (regressors x y) 2 ↔ ∃ a b, ∀ i, y i = a + b * x i := by
  have htwo : {i : Fin 3 | i < 2} = {0, 1} := by
    ext i
    fin_cases i <;> simp
  rw [Aliased, htwo, Set.image_pair]
  show y ∈ Submodule.span α {1, x} ↔ _
  simp only [Submodule.mem_span_pair, funext_iff, Pi.add_apply, Pi.smul_apply, Pi.one_apply,
    smul_eq_mul, mul_one, eq_comm]

variable [LinearOrder α] [IsStrictOrderedRing α]

/-- The coefficients give back the data. -/
theorem fit_noiseless {b : Fin 3 → α}
    (h : Fitted (regressors x y) (x + y) (∑ j, b j • regressors x y j)) (i : Fin n) :
    b 0 + b 1 * x i + b 2 * y i = x i + y i := by
  have hmem : x + y ∈ Submodule.span α (Set.range (regressors x y)) :=
    Submodule.add_mem _ (Submodule.subset_span ⟨1, rfl⟩) (Submodule.subset_span ⟨2, rfl⟩)
  have hfit := congrFun (h.eq_of_mem hmem) i
  rw [Fin.sum_univ_three] at hfit
  simpa [regressors] using hfit

/-- For `y = x` there are the coefficients 0, 2 and `NA`. -/
theorem coefficients_double {i j : Fin n} (hx : x i ≠ x j) :
    Coefficients (regressors x x) (x + x) ![.num 0, .num 2, .na] := by
  have hfit : ∑ j, (![0, 2, 0] : Fin 3 → α) j • regressors x x j = x + x := by
    rw [Fin.sum_univ_three]
    simp [regressors, two_smul]
  have hmem : x + x ∈ Submodule.span α (Set.range (regressors x x)) :=
    Submodule.add_mem _ (Submodule.subset_span ⟨1, rfl⟩) (Submodule.subset_span ⟨2, rfl⟩)
  refine ⟨![0, 2, 0], ?_, fun j => ?_⟩
  · rw [hfit]
    exact IsFit.self hmem
  · fin_cases j
    · exact Or.inr ⟨not_aliased_zero i.pos, rfl⟩
    · exact Or.inr ⟨not_aliased_one hx, rfl⟩
    · exact Or.inl ⟨aliased_two_iff.mpr ⟨0, 1, fun i => by rw [one_mul, zero_add]⟩, rfl, rfl⟩

/-- Where `y` is no linear function of `x` there are the coefficients 0, 1 and 1. -/
theorem coefficients_sum {i j : Fin n} (hx : x i ≠ x j) (hy : ¬∃ a b, ∀ i, y i = a + b * x i) :
    Coefficients (regressors x y) (x + y) ![.num 0, .num 1, .num 1] := by
  have hfit : ∑ j, (![0, 1, 1] : Fin 3 → α) j • regressors x y j = x + y := by
    rw [Fin.sum_univ_three]
    simp [regressors]
  have hmem : x + y ∈ Submodule.span α (Set.range (regressors x y)) :=
    Submodule.add_mem _ (Submodule.subset_span ⟨1, rfl⟩) (Submodule.subset_span ⟨2, rfl⟩)
  refine ⟨![0, 1, 1], ?_, fun j => Or.inr ?_⟩
  · rw [hfit]
    exact IsFit.self hmem
  · fin_cases j
    · exact ⟨not_aliased_zero i.pos, rfl⟩
    · exact ⟨not_aliased_one hx, rfl⟩
    · exact ⟨mt aliased_two_iff.mp hy, rfl⟩

end Noiseless

/-! ## The standard error of the intercept -/

section Intercept

/-- `SE`, by `s`, `x` and `n`. -/
noncomputable def interceptSE (s : Num ℝ) (x : Vec ℝ) (n : Num ℝ) : Num ℝ :=
  s * Num.sqrt ((x ^ 2).sum / (n * ((x - x.mean) ^ 2).sum))

/-- `t`, by the intercept and its value under the hypothesis. -/
noncomputable def interceptT (b0 beta0 SE : Num ℝ) : Num ℝ := (b0 - beta0) / SE

/-- The design of `lm(y ~ x)`. -/
def line {n : ℕ} (x : Fin n → ℝ) : Fin 2 → Fin n → ℝ := ![1, x]

variable {n : ℕ} (x : Fin n → ℝ)

/-- The weights of the data in the intercept. -/
noncomputable def interceptWeight (i : Fin n) : ℝ :=
  1 / n - mean x * (x i - mean x) / sumSq x

variable {x} {i j : Fin n}

theorem sum_interceptWeight (hn : 0 < n) : ∑ i, interceptWeight x i = 1 := by
  have hne : (n : ℝ) ≠ 0 := Nat.cast_ne_zero.mpr hn.ne'
  simp only [interceptWeight, Finset.sum_sub_distrib, ← Finset.sum_div, ← Finset.mul_sum,
    sum_deviation x hn]
  simp [hne]

theorem sum_interceptWeight_mul (hx : x i ≠ x j) : ∑ i, interceptWeight x i * x i = 0 := by
  have hSxx : sumSq x ≠ 0 := (sumSq_pos hx).ne'
  have hterm : ∀ i, interceptWeight x i * x i =
      x i / n - mean x / sumSq x * ((x i - mean x) * x i) := by
    intro i
    rw [interceptWeight]
    ring
  simp only [hterm, Finset.sum_sub_distrib, ← Finset.sum_div, ← Finset.mul_sum,
    sum_deviation_mul x i.pos]
  rw [div_mul_cancel₀ _ hSxx]
  exact sub_self (mean x)

theorem sum_interceptWeight_sq (hx : x i ≠ x j) :
    ∑ i, interceptWeight x i ^ 2 = (∑ i, x i ^ 2) / (n * sumSq x) := by
  have hn : (n : ℝ) ≠ 0 := Nat.cast_ne_zero.mpr i.pos.ne'
  have hSxx : sumSq x ≠ 0 := (sumSq_pos hx).ne'
  have hterm : ∀ i, interceptWeight x i ^ 2 = 1 / n ^ 2 -
      2 * mean x / (n * sumSq x) * (x i - mean x) +
        (mean x / sumSq x) ^ 2 * (x i - mean x) ^ 2 := by
    intro i
    rw [interceptWeight]
    field_simp
    ring
  have hsumSq : ∑ i, (x i - mean x) ^ 2 = sumSq x := rfl
  simp only [hterm, Finset.sum_add_distrib, Finset.sum_sub_distrib, ← Finset.mul_sum,
    sum_deviation x i.pos, sum_sq_eq x i.pos, hsumSq, Finset.sum_const, Finset.card_univ,
    Fintype.card_fin, nsmul_eq_mul]
  field_simp
  ring

theorem line_independent (hx : x i ≠ x j) : LinearIndependent ℝ (line x) := by
  refine LinearIndependent.pair_iff.mpr fun c d h => eq_zero_of_affine hx fun i => ?_
  simpa using congrFun h i

/-- The intercept of the fitted line is the weighted sum of the data. -/
theorem intercept_eq (hx : x i ≠ x j) {y : Fin n → ℝ} {coef : Fin 2 → Num ℝ}
    (h : Coefficients (line x) y coef) : coef 0 = .num (∑ i, interceptWeight x i * y i) := by
  obtain ⟨b, rfl, hnormal⟩ := coefficients_num h (line_independent hx)
  have hone := hnormal 0
  have hslope := hnormal 1
  simp only [Fin.sum_univ_two, line, Matrix.cons_val_zero, Matrix.cons_val_one, Pi.one_apply,
    mul_one] at hone hslope
  -- The weights are a combination of the two columns, to which the residuals are orthogonal.
  have hresidual : ∑ i, interceptWeight x i * (y i - (b 0 + b 1 * x i)) = 0 := by
    have hterm : ∀ i, interceptWeight x i * (y i - (b 0 + b 1 * x i)) =
        (1 / n + mean x * mean x / sumSq x) * (y i - (b 0 + b 1 * x i)) -
          mean x / sumSq x * ((y i - (b 0 + b 1 * x i)) * x i) := by
      intro i
      rw [interceptWeight]
      ring
    simp only [hterm, Finset.sum_sub_distrib, ← Finset.mul_sum, hone, hslope, mul_zero, sub_zero]
  have hline : ∑ i, interceptWeight x i * (b 0 + b 1 * x i) = b 0 := by
    have hterm : ∀ i, interceptWeight x i * (b 0 + b 1 * x i) =
        b 0 * interceptWeight x i + b 1 * (interceptWeight x i * x i) := fun i => by ring
    simp only [hterm, Finset.sum_add_distrib, ← Finset.mul_sum, sum_interceptWeight i.pos,
      sum_interceptWeight_mul hx, mul_one, mul_zero, add_zero]
  simp only [mul_sub, Finset.sum_sub_distrib, hline, sub_eq_zero] at hresidual
  rw [hresidual]

theorem interceptSE_of (hx : x i ≠ x j) (s : ℝ) :
    interceptSE (.num s) (.of x) (n : Num ℝ) =
      .num (s * √(∑ i, interceptWeight x i ^ 2)) := by
  have hn : (n : ℝ) ≠ 0 := Nat.cast_ne_zero.mpr i.pos.ne'
  have hSxx : ∑ i, (x i - mean x) ^ 2 = sumSq x := rfl
  have hne : n * sumSq x ≠ 0 := mul_ne_zero hn (sumSq_pos hx).ne'
  have hnonneg : 0 ≤ (∑ i, x i ^ 2) / (n * sumSq x) := by
    rw [← sum_interceptWeight_sq hx]
    exact Finset.sum_nonneg fun i _ => sq_nonneg _
  simp only [interceptSE, Vec.mean_of x i.pos, Vec.of_sub_single, Vec.of_sq, Vec.sum_of, hSxx,
    Num.natCast_eq, Num.num_mul, Num.num_div _ hne, Num.sqrt_num hnonneg,
    sum_interceptWeight_sq hx]

open MeasureTheory ProbabilityTheory

/-- The line through two points. -/
theorem coefficients_pair (beta0 beta1 : ℝ) (e : Fin 2 → ℝ) :
    Coefficients (line ![1, 2]) (fun i => beta0 + beta1 * ![1, 2] i + e i)
      ![.num (beta0 + (2 * e 0 - e 1)), .num (beta1 + (e 1 - e 0))] := by
  have hx : (![1, 2] : Fin 2 → ℝ) 0 ≠ ![1, 2] 1 := by norm_num
  have hfit : ∑ j, (![beta0 + (2 * e 0 - e 1), beta1 + (e 1 - e 0)] : Fin 2 → ℝ) j •
      line ![1, 2] j = fun i => beta0 + beta1 * ![1, 2] i + e i := by
    rw [Fin.sum_univ_two]
    funext i
    fin_cases i <;> simp [line] <;> ring
  refine ⟨![beta0 + (2 * e 0 - e 1), beta1 + (e 1 - e 0)], ?_, fun j => Or.inr ?_⟩
  · have hself : Fitted (line ![1, 2]) (fun i => beta0 + beta1 * ![1, 2] i + e i)
        (fun i => beta0 + beta1 * ![1, 2] i + e i) := by
      refine IsFit.self ?_
      rw [← hfit]
      exact Submodule.sum_mem _ fun j _ =>
        Submodule.smul_mem _ _ (Submodule.subset_span ⟨j, rfl⟩)
    rwa [hfit]
  · refine ⟨not_aliased (line_independent hx) j, ?_⟩
    fin_cases j <;> rfl

end Intercept

end GnuRQi.Easy
