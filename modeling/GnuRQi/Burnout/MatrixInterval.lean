import GnuRQi.R.Statistics
import GnuRQi.Statistics.Normal

/-!
# The confidence interval of `burnout/matrix.R`

`simple.z.test` gives an interval for the mean of a sample with a known deviation. For a normal
sample it contains the mean of the distribution with the probability `conf.level`, and this is also
what the script counts for the means of many samples.
-/

namespace GnuRQi.Matrix

open R Statistics MeasureTheory ProbabilityTheory

/-- `qnorm(p)`. -/
noncomputable def qnorm : Num ℝ → Num ℝ
  | .num p =>
      if p < 0 ∨ 1 < p then .nan
      else if p = 0 then .negInf
      else if p = 1 then .inf
      else .num (quantile (gaussianReal 0 1) p)
  | .na => .na
  | _ => .nan

/-- `abs(x)`. -/
def abs : Num ℝ → Num ℝ
  | .num x => .num |x|
  | .inf | .negInf => .inf
  | .nan => .nan
  | .na => .na

/-- `simple.z.test(x, sigma, conf.level)`. -/
noncomputable def simpleZTest (x : Vec ℝ) (sigma : Num ℝ) (confLevel : Num ℝ := .num 0.95) :
    Vec ℝ :=
  let n := x.length
  let xbar := x.mean
  let alpha := 1 - confLevel
  let zstar := qnorm (1 - alpha / 2)
  let SE := sigma / Num.sqrt (n : Num ℝ)
  .single xbar + ⟨[-zstar * SE, zstar * SE]⟩

/-- `sum(abs(xbar-mu) < zstar*SE)` with `zstar = qnorm(1-alpha/2)`, or `none` for `NA`. -/
noncomputable def hits (xbar : Vec ℝ) (mu alpha SE : Num ℝ) : Option ℕ :=
  let zstar := qnorm (1 - alpha / 2)
  (xbar.elems.mapM fun x => (abs (x - mu)).lt (zstar * SE)).map (List.count true)

/-- An interval that contains a number. -/
def Covers (interval : Vec ℝ) (mu : ℝ) : Prop :=
  ∃ lower upper, interval = .of ![lower, upper] ∧ lower ≤ mu ∧ mu ≤ upper

variable {n : ℕ}

theorem qnorm_num {p : ℝ} (hp0 : 0 < p) (hp1 : p < 1) :
    qnorm (.num p) = .num (quantile (gaussianReal 0 1) p) := by
  have hrange : ¬(p < 0 ∨ 1 < p) := by
    rintro (h | h) <;> linarith
  rw [qnorm, if_neg hrange, if_neg hp0.ne', if_neg hp1.ne]

/-- The quantile of the script for a level. -/
noncomputable def zstar (conf : ℝ) : ℝ :=
  quantile (gaussianReal 0 1) (1 - (1 - conf) / (2 : ℕ))

theorem qnorm_alpha {alpha : ℝ} (h0 : 0 < alpha) (h1 : alpha < 1) :
    qnorm (1 - .num alpha / 2) = .num (zstar (1 - alpha)) := by
  have hp : 1 - alpha / 2 = 1 - (1 - (1 - alpha)) / 2 := by ring
  rw [Num.one_eq, Num.ofNat_eq, Num.num_div _ two_ne_zero, Num.num_sub,
    qnorm_num (by linarith) (by linarith), zstar, hp, Nat.cast_ofNat]

/-- The bounds of the interval. -/
theorem simpleZTest_of (hn : 0 < n) (x : Fin n → ℝ) (sigma : ℝ) {conf : ℝ} (h0 : 0 < conf)
    (h1 : conf < 1) :
    simpleZTest (.of x) (.num sigma) (.num conf) =
      .of ![mean x - zstar conf * (sigma / √n), mean x + zstar conf * (sigma / √n)] := by
  have hn' : (0 : ℝ) < n := Nat.cast_pos.mpr hn
  have hroot : √(n : ℝ) ≠ 0 := (Real.sqrt_pos.mpr hn').ne'
  have hpos : 0 < 1 - conf := sub_pos.mpr h1
  have hlt : 1 - conf < 1 := sub_lt_self 1 h0
  have halpha := qnorm_alpha hpos hlt
  rw [sub_sub_cancel, Num.one_eq] at halpha
  have hpair : (⟨[.num (-zstar conf * (sigma / √n)), .num (zstar conf * (sigma / √n))]⟩ : Vec ℝ) =
      .of ![-zstar conf * (sigma / √n), zstar conf * (sigma / √n)] := by
    simp [Vec.of]
  simp only [simpleZTest, Vec.mean_of x hn, Vec.length_of, Num.one_eq, Num.num_sub, halpha,
    Num.natCast_eq, Num.sqrt_num hn'.le, Num.num_div _ hroot, Num.num_neg, Num.num_mul, hpair,
    Vec.single_add_of]
  congr 1
  funext i
  fin_cases i
  · simp [sub_eq_add_neg]
  · simp

theorem covers_iff (hn : 0 < n) (x : Fin n → ℝ) (sigma mu : ℝ) {conf : ℝ} (h0 : 0 < conf)
    (h1 : conf < 1) :
    Covers (simpleZTest (.of x) (.num sigma) (.num conf)) mu ↔
      |mean x - mu| ≤ zstar conf * (sigma / √n) := by
  rw [simpleZTest_of hn x sigma h0 h1, abs_le]
  constructor
  · rintro ⟨lower, upper, hinterval, hlower, hupper⟩
    have helems := congrArg Vec.elems hinterval
    simp only [Vec.of, List.ofFn_succ, List.ofFn_zero, List.cons.injEq, Num.num.injEq] at helems
    obtain ⟨hfirst, hsecond, -⟩ := helems
    simp only [Matrix.cons_val_zero, Matrix.cons_val_succ] at hfirst hsecond
    constructor <;> linarith
  · rintro ⟨hlower, hupper⟩
    exact ⟨_, _, rfl, by linarith, by linarith⟩

/-! ## The probability of the interval -/

variable {σ : Type} [MeasurableSpace σ] {μ : Measure σ} [IsProbabilityMeasure μ] {mu sigma : ℝ}

/-- The probability that the quantile of the script is made for. -/
theorem cdf_zstar {conf : ℝ} (h0 : 0 < conf) (h1 : conf < 1) :
    0 ≤ zstar conf ∧ 2 * cdf (gaussianReal 0 1) (zstar conf) - 1 = conf := by
  have hone : NullSingletonClass (gaussianReal 0 1) := nullSingletonClass_gaussianReal one_ne_zero
  have hsymm : (gaussianReal 0 1).map (fun x => -x) = gaussianReal 0 1 := by
    rw [gaussianReal_map_neg, neg_zero]
  have hpos : 0 < zstar conf := quantile_pos hsymm (by linarith) (by linarith)
  have hcdf : cdf (gaussianReal 0 1) (zstar conf) = 1 - (1 - conf) / 2 := by
    rw [zstar, Nat.cast_ofNat]
    exact cdf_quantile (by linarith) (by linarith)
  exact ⟨hpos.le, by linarith⟩

/-- For a sample of independent normal values with the deviation `sigma` the interval contains their
mean with the probability `conf.level`. -/
theorem simpleZTest_coverage {X : Fin n → σ → ℝ} {conf : ℝ} (hn : 0 < n) (hsigma : 0 < sigma)
    (h0 : 0 < conf) (h1 : conf < 1) (hindep : iIndepFun X μ)
    (hlaw : ∀ i, HasLaw (X i) (gaussianReal mu (.mk (sigma ^ 2) (sq_nonneg _))) μ) :
    μ.real {s | Covers (simpleZTest (.of fun i => X i s) (.num sigma) (.num conf)) mu} = conf := by
  obtain ⟨hz, hcdf⟩ := cdf_zstar h0 h1
  simp only [covers_iff hn _ sigma mu h0 h1]
  rw [(measureReal_within hn hindep hsigma hz hlaw).1, hcdf]

/-- Two standard normal values are independent under their product measure. -/
theorem sample_pair :
    iIndepFun (fun (i : Fin 2) (s : Fin 2 → ℝ) => s i) (Measure.pi fun _ => gaussianReal 0 1) ∧
    ∀ i : Fin 2, HasLaw (fun s : Fin 2 → ℝ => s i)
      (gaussianReal 0 (.mk ((1 : ℝ) ^ 2) (sq_nonneg _)))
      (Measure.pi fun _ => gaussianReal 0 1) := by
  have hone : (.mk ((1 : ℝ) ^ 2) (sq_nonneg _) : NNReal) = 1 := by
    rw [← NNReal.coe_inj]
    simp
  refine ⟨iIndepFun_pi (X := fun _ => id) fun _ => aemeasurable_id, fun i => ?_⟩
  rw [hone]
  exact (measurePreserving_eval (fun _ : Fin 2 => gaussianReal 0 1) i).hasLaw

/-- The interval of 95 % for two standard normal values. -/
theorem simpleZTest_coverage_pair :
    (Measure.pi fun _ : Fin 2 => gaussianReal 0 1).real
      {s | Covers (simpleZTest (.of s) (.num 1) (.num 0.95)) 0} = 0.95 :=
  simpleZTest_coverage two_pos one_pos (by norm_num) (by norm_num) sample_pair.1 sample_pair.2

/-! ## How many means are near -/

theorem hits_of {m : ℕ} (xbar : Fin m → ℝ) (mu SE : ℝ) {alpha : ℝ} (h0 : 0 < alpha)
    (h1 : alpha < 1) :
    hits (.of xbar) (.num mu) (.num alpha) (.num SE) =
      some (Finset.univ.filter fun j => |xbar j - mu| < zstar (1 - alpha) * SE).card := by
  have hlist : ∀ values : List ℝ, ((values.map Num.num).mapM fun x =>
      (abs (x - .num mu)).lt (.num (zstar (1 - alpha)) * .num SE)) =
        some (values.map fun x => decide (|x - mu| < zstar (1 - alpha) * SE)) := by
    intro values
    induction values with
    | nil => rfl
    | cons x rest ih =>
        rw [List.map_cons, List.mapM_cons, ih]
        rfl
  have halpha := qnorm_alpha h0 h1
  rw [Num.one_eq] at halpha
  simp only [hits, Num.one_eq, halpha, Vec.elems_of, hlist, Option.map_some]
  rw [List.map_ofFn, List.count, countP_ofFn]
  simp only [Function.comp_apply, beq_true, decide_eq_true_eq]

/-- The means of `m` samples: on average `m * (1-alpha)` of them are within `zstar` standard errors
of the mean of the distribution. -/
theorem hits_expected {m : ℕ} {X : Fin m → Fin n → σ → ℝ} {alpha : ℝ} (hn : 0 < n)
    (hsigma : 0 < sigma) (h0 : 0 < alpha) (h1 : alpha < 1) (hindep : ∀ j, iIndepFun (X j) μ)
    (hlaw : ∀ j i, HasLaw (X j i) (gaussianReal mu (.mk (sigma ^ 2) (sq_nonneg _))) μ) :
    ∃ N : σ → ℕ, (∀ s, hits ⟨List.ofFn fun j => (Vec.of fun i => X j i s).mean⟩ (.num mu)
        (.num alpha) (.num sigma / Num.sqrt (n : Num ℝ)) = some (N s)) ∧
      ∫ s, (N s : ℝ) ∂μ = m * (1 - alpha) := by
  have hn' : (0 : ℝ) < n := Nat.cast_pos.mpr hn
  have hroot : √(n : ℝ) ≠ 0 := (Real.sqrt_pos.mpr hn').ne'
  have hSE : (.num sigma / Num.sqrt (n : Num ℝ) : Num ℝ) = .num (sigma / √n) := by
    rw [Num.natCast_eq, Num.sqrt_num hn'.le, Num.num_div _ hroot]
  have hmeans : ∀ s, (⟨List.ofFn fun j => (Vec.of fun i => X j i s).mean⟩ : Vec ℝ) =
      .of fun j => mean fun i => X j i s := by
    intro s
    simp only [Vec.mean_of _ hn]
    rfl
  have hpos : 0 < 1 - alpha := sub_pos.mpr h1
  have hlt : 1 - alpha < 1 := sub_lt_self 1 h0
  obtain ⟨hz, hcdf⟩ := cdf_zstar hpos hlt
  have hmeas : ∀ j, NullMeasurableSet
      {s | |mean (fun i => X j i s) - mu| < zstar (1 - alpha) * (sigma / √n)} μ := by
    intro j
    have hsum : AEMeasurable (fun s => ∑ i, X j i s) μ :=
      Finset.aemeasurable_fun_sum _ fun i _ => (hlaw j i).aemeasurable
    exact nullMeasurableSet_lt (continuous_abs.measurable.comp_aemeasurable
      ((hsum.div_const _).sub_const _)) aemeasurable_const
  refine ⟨fun s => (Finset.univ.filter fun j =>
    |mean (fun i => X j i s) - mu| < zstar (1 - alpha) * (sigma / √n)).card, fun s => ?_, ?_⟩
  · rw [hmeans, hSE, hits_of _ mu _ h0 h1]
  -- A mean on the boundary does not count, but it has probability zero.
  · have hprob : ∀ j, μ.real
        {s | |mean (fun i => X j i s) - mu| < zstar (1 - alpha) * (sigma / √n)} = 1 - alpha := by
      intro j
      rw [(measureReal_within hn (hindep j) hsigma hz (hlaw j)).2, hcdf]
    refine (integral_card hmeas).trans ?_
    rw [Finset.sum_congr rfl fun j _ => hprob j, Finset.sum_const, Finset.card_univ,
      Fintype.card_fin, nsmul_eq_mul]

/-- Half of the means of two such samples are expected within the quartiles. -/
theorem hits_expected_pair :
    ∃ N : (Fin 2 → ℝ) → ℕ, (∀ s, hits ⟨List.ofFn fun _ : Fin 2 => (Vec.of s).mean⟩ (.num 0)
        (.num 0.5) (.num 1 / Num.sqrt ((2 : ℕ) : Num ℝ)) = some (N s)) ∧
      ∫ s, (N s : ℝ) ∂(Measure.pi fun _ : Fin 2 => gaussianReal 0 1) = 1 := by
  obtain ⟨N, hN, hexpected⟩ := hits_expected (X := fun (_ i : Fin 2) (s : Fin 2 → ℝ) => s i)
    two_pos one_pos (by norm_num : (0 : ℝ) < 0.5) (by norm_num) (fun _ => sample_pair.1) fun _ =>
      sample_pair.2
  exact ⟨N, hN, hexpected.trans (by norm_num)⟩

end GnuRQi.Matrix
