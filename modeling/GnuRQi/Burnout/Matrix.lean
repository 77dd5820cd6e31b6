import GnuRQi.Burnout.Chill

/-!
# The t statistic of `burnout/matrix.R`

`f` computes the t statistic of a draw from a mixture of normals. On one sample it is the
statistic `make.t` of `burnout/chill.R`; `sim.t` of that script is not.
-/

namespace GnuRQi.Matrix

open R

/-- `rbinom(n, size, prob)`, by the counts that are drawn. -/
abbrev Rbinom := ℕ → Vec ℝ → Vec ℝ → Vec ℝ

/-- `f(n, p)`: the t statistic of a draw in which each value has deviation 10 with probability
`1 - p` and 1 otherwise. -/
noncomputable def f (rnorm : Chill.Rnorm) (rbinom : Rbinom) (n : ℕ) (p : Num ℝ) : Num ℝ :=
  let y := rnorm n 0 (1 + 9 * rbinom n 1 (Vec.single (1 - p)))
  let t := (y.mean - 0) / (Num.sqrt y.var / Num.sqrt (n : Num ℝ))
  t

variable {n : ℕ} (X : Fin n → ℝ)

/-- `f` takes the root of the variance and of `n` apart. -/
theorem f_of (rnorm : Chill.Rnorm) (rbinom : Rbinom) (p : Num ℝ)
    (hdraw : ∀ sd, rnorm n 0 sd = .of X) (hn : 2 ≤ n) (hvar : 0 < Statistics.variance X) :
    f rnorm rbinom n p = .num (Statistics.mean X / (√(Statistics.variance X) / √n)) := by
  have hn' : (0 : ℝ) < n := by positivity
  have hroot : √(n : ℝ) ≠ 0 := by positivity
  have hsd : √(Statistics.variance X) / √(n : ℝ) ≠ 0 := by positivity
  have hmean := Vec.mean_of X (by omega)
  simp only [f, hdraw, hmean, Vec.var_of X hn, Num.natCast_eq, Num.zero_eq, Num.num_sub, sub_zero,
    Num.sqrt_num hvar.le, Num.sqrt_num hn'.le, Num.num_div _ hroot, Num.num_div _ hsd]

/-- The statistics of the scripts agree on a sample: `sim.t` in both definitions equals `make.t`,
and for `mu = 0` both equal the statistic of `f`. The sample is what the generator draws. -/
def StatisticsAgree (X : Fin n → ℝ) (mu : ℝ) : Prop :=
  ∀ (rnorm : Chill.Rnorm) (rbinom : Rbinom), (∀ mean sd, rnorm n mean sd = .of X) →
    (∀ sigma, Chill.simT rnorm n (.num mu) sigma = Chill.makeT (.of X) (.num mu)) ∧
    (.num mu = (10 : Num ℝ) → Chill.simTFixed rnorm n = Chill.makeT (.of X) (.num mu)) ∧
    (mu = 0 → ∀ p sigma, Chill.simT rnorm n (.num mu) sigma = f rnorm rbinom n p ∧
      Chill.makeT (.of X) (.num mu) = f rnorm rbinom n p)

/-- The standard errors of `make.t` and `sim.t` differ by a factor that is 1 for one number only. -/
theorem simT_eq_makeT_iff (mu : ℝ) (rnorm : Chill.Rnorm) (sigma : Num ℝ)
    (hdraw : ∀ mean sd, rnorm n mean sd = .of X) (hn : 2 ≤ n) (hvar : 0 < Statistics.variance X) :
    Chill.simT rnorm n (.num mu) sigma = Chill.makeT (.of X) (.num mu) ↔
      Statistics.mean X = mu := by
  have hn' : (2 : ℝ) ≤ n := by exact_mod_cast hn
  rw [Chill.simT_of X mu rnorm sigma (hdraw _ _) hn hvar, Chill.makeT_of X mu hn hvar,
    Num.num.injEq]
  constructor
  · intro h
    by_contra hne
    have hdeviation : Statistics.mean X - mu ≠ 0 := sub_ne_zero.mpr hne
    have hsd : √(Statistics.variance X) ≠ 0 := (Real.sqrt_pos.mpr hvar).ne'
    rw [Real.sqrt_div hvar.le] at h
    simp only [div_eq_mul_inv, mul_right_inj' hdeviation, inv_inj, mul_right_inj' hsd] at h
    -- Equal standard errors would make `n` equal to its root.
    have hsq : (n : ℝ) * n = n := by
      nth_rewrite 1 2 [h]
      exact Real.mul_self_sqrt (by positivity)
    nlinarith
  · rintro rfl
    simp

/-- On the sample 0, 2 and `mu = 0` the statistic of `sim.t` is not that of `make.t`. -/
theorem statistics_disagree : ¬ StatisticsAgree (![0, 2] : Fin 2 → ℝ) 0 := by
  intro h
  obtain ⟨hsim, -⟩ := h (fun _ _ _ => .of ![0, 2]) (fun _ _ _ => .of ![0, 2]) fun _ _ => rfl
  have hvar : 0 < Statistics.variance (![0, 2] : Fin 2 → ℝ) := by
    norm_num [Statistics.variance, Statistics.sumSq, Statistics.mean, Fin.sum_univ_two]
  have hmean := (simT_eq_makeT_iff ![0, 2] 0 _ 5 (fun _ _ => rfl) le_rfl hvar).mp (hsim 5)
  norm_num [Statistics.mean, Fin.sum_univ_two] at hmean

/-- On a sample with `mean(X) = mu` all statistics are zero, and on no other one do they agree. -/
theorem statistics_agree_iff (X : Fin n → ℝ) (mu : ℝ) (hn : 2 ≤ n)
    (hvar : 0 < Statistics.variance X) : StatisticsAgree X mu ↔ Statistics.mean X = mu := by
  constructor
  · intro h
    obtain ⟨hsim, -⟩ := h (fun _ _ _ => .of X) (fun _ _ _ => .of X) fun _ _ => rfl
    exact (simT_eq_makeT_iff X mu _ 0 (fun _ _ => rfl) hn hvar).mp (hsim 0)
  · intro hmean rnorm rbinom hdraw
    have hsim := fun sigma => (simT_eq_makeT_iff X mu rnorm sigma hdraw hn hvar).mpr hmean
    have hmake : mu = 0 → ∀ p, Chill.makeT (.of X) (.num mu) = f rnorm rbinom n p := by
      rintro rfl p
      rw [Chill.makeT_of X 0 hn hvar, f_of X rnorm rbinom p (hdraw _) hn hvar,
        Real.sqrt_div hvar.le, sub_zero]
    refine ⟨hsim, ?_, ?_⟩
    · intro hten
      rw [hten] at hsim ⊢
      exact hsim 5
    · intro hzero p sigma
      exact ⟨(hsim sigma).trans (hmake hzero p), hmake hzero p⟩

theorem statistics_agree_at_mean : StatisticsAgree (![0, 2] : Fin 2 → ℝ) 1 := by
  refine (statistics_agree_iff ![0, 2] 1 le_rfl ?_).mpr ?_ <;>
    norm_num [Statistics.variance, Statistics.sumSq, Statistics.mean, Fin.sum_univ_two]

end GnuRQi.Matrix
