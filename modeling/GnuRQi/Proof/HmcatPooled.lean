import Mathlib.Data.Sign.Basic
import GnuRQi.R.Statistics

/-!
# The two-sample statistic of `proof/hmcat.R`

`rapjoy` divides the difference of two sample means by a pooled standard error. It is the
signed root of the one-way analysis of variance of the two samples. The variance of a sample of
one value is missing, and so is the statistic then.
-/

namespace GnuRQi.Hmcat

open R Statistics

/-- `rapjoy(y1, y2)`. -/
noncomputable def rapjoy (y1 y2 : Vec ℝ) : Num ℝ :=
  let n1 : Num ℝ := y1.length
  let n2 : Num ℝ := y2.length
  let yb1 := y1.mean
  let yb2 := y2.mean
  let s1 := y1.var
  let s2 := y2.var
  let s := ((n1 - 1) * s1 + (n2 - 1) * s2) / (n1 + n2 - 2)
  let tst := (yb1 - yb2) / Num.sqrt (s * (1 / n1 + 1 / n2))
  tst

/-- The standard error of `rapjoy`, the divisor of its last line. -/
noncomputable def standardError (y1 y2 : Vec ℝ) : Num ℝ :=
  let n1 : Num ℝ := y1.length
  let n2 : Num ℝ := y2.length
  Num.sqrt (((n1 - 1) * y1.var + (n2 - 1) * y2.var) / (n1 + n2 - 2) * (1 / n1 + 1 / n2))

theorem rapjoy_eq_div (y1 y2 : Vec ℝ) :
    rapjoy y1 y2 = (y1.mean - y2.mean) / standardError y1 y2 := rfl

variable {n m : ℕ} (y1 : Fin n → ℝ) (y2 : Fin m → ℝ)

/-- The squared standard error of `rapjoy`: the pooled variance times `1 / n1 + 1 / n2`. -/
noncomputable def pooled : ℝ := within y1 y2 / (n - 1 + (m - 1)) * (1 / n + 1 / m)

theorem pooled_eq : pooled y1 y2 = within y1 y2 / (n + m - 2) * (1 / n + 1 / m) := by
  have hdegrees : (n - 1 + (m - 1) : ℝ) = n + m - 2 := by ring
  rw [pooled, hdegrees]

theorem pooled_pos (hn : 2 ≤ n) (hm : 2 ≤ m) (hwithin : 0 < within y1 y2) :
    0 < pooled y1 y2 := by
  have hn' : (2 : ℝ) ≤ n := by exact_mod_cast hn
  have hm' : (2 : ℝ) ≤ m := by exact_mod_cast hm
  have hdegrees : (0 : ℝ) < n + m - 2 := by linarith
  rw [pooled_eq]
  positivity

theorem pooled_swap : pooled y2 y1 = pooled y1 y2 := by
  simp only [pooled, within]
  ring_nf

/-- The degrees of freedom of two samples of two or more numbers. -/
theorem degrees_ne_zero (hn : 2 ≤ n) (hm : 2 ≤ m) : (n + m - 2 : ℝ) ≠ 0 := by
  have : (4 : ℝ) ≤ n + m := by exact_mod_cast (show 4 ≤ n + m by omega)
  linarith

/-- The standard error of samples of two or more numbers. -/
theorem standardError_of (hn : 2 ≤ n) (hm : 2 ≤ m) (hwithin : 0 < within y1 y2) :
    standardError (.of y1) (.of y2) = .num √(pooled y1 y2) := by
  have hn' : (n : ℝ) ≠ 0 := by positivity
  have hm' : (m : ℝ) ≠ 0 := by positivity
  have hpooled := pooled_pos y1 y2 hn hm hwithin
  have hs : ((n - 1 : ℝ) * variance y1 + (m - 1) * variance y2) / (n + m - 2) *
      (1 / n + 1 / m) = pooled y1 y2 := by
    rw [mul_variance y1 hn, mul_variance y2 hm, pooled_eq, within]
  simp only [standardError, Vec.length_of, Num.natCast_eq, Num.one_eq, Num.ofNat_eq,
    Vec.var_of y1 hn, Vec.var_of y2 hm, Num.num_sub, Num.num_add, Num.num_mul,
    Num.num_div _ (degrees_ne_zero hn hm), Num.num_div _ hn', Num.num_div _ hm', hs,
    Num.sqrt_num hpooled.le]

/-- On samples of two or more numbers `rapjoy` is the studentised difference of the means. -/
theorem rapjoy_of (hn : 2 ≤ n) (hm : 2 ≤ m) (hwithin : 0 < within y1 y2) :
    rapjoy (.of y1) (.of y2) = .num ((mean y1 - mean y2) / √(pooled y1 y2)) := by
  have hroot : √(pooled y1 y2) ≠ 0 :=
    (Real.sqrt_pos.mpr (pooled_pos y1 y2 hn hm hwithin)).ne'
  rw [rapjoy_eq_div, standardError_of y1 y2 hn hm hwithin, Vec.mean_of y1 (by omega),
    Vec.mean_of y2 (by omega), Num.num_sub, Num.num_div _ hroot]

/-! ## Where the statistic is defined -/

/-- The divisors in the body of `rapjoy`, in the order of their divisions. -/
noncomputable def divisors (y1 y2 : Vec ℝ) : List (Num ℝ) :=
  [(y1.length : Num ℝ) + (y2.length : Num ℝ) - 2, (y1.length : Num ℝ), (y2.length : Num ℝ),
    standardError y1 y2]

/-- The result of `rapjoy` is a number, and none of its divisions is by zero. -/
def Defined (y1 y2 : Vec ℝ) : Prop :=
  (∃ t : ℝ, rapjoy y1 y2 = .num t) ∧ ∀ d ∈ divisors y1 y2, d ≠ 0

/-- No divisor is zero when both samples have two or more numbers. -/
theorem divisors_ne_zero (hn : 2 ≤ n) (hm : 2 ≤ m) (hwithin : 0 < within y1 y2) :
    ∀ d ∈ divisors (.of y1) (.of y2), d ≠ 0 := by
  have hroot : √(pooled y1 y2) ≠ 0 :=
    (Real.sqrt_pos.mpr (pooled_pos y1 y2 hn hm hwithin)).ne'
  have hdegrees := degrees_ne_zero hn hm
  intro d hd
  simp only [divisors, standardError_of y1 y2 hn hm hwithin, Vec.length_of, Num.natCast_eq,
    Num.ofNat_eq, Num.num_add, Num.num_sub, List.mem_cons, List.not_mem_nil, or_false] at hd
  rw [Num.zero_eq]
  rcases hd with rfl | rfl | rfl | rfl
  · simpa using hdegrees
  · simp
    omega
  · simp
    omega
  · simpa using hroot

/-- A sample of one value has no variance, which the weight zero does not remove. -/
theorem rapjoy_na {y1 y2 : Vec ℝ} (h : y1.length < 2 ∨ y2.length < 2) : rapjoy y1 y2 = .na := by
  have hsum : ((y1.length : Num ℝ) - 1) * y1.var + ((y2.length : Num ℝ) - 1) * y2.var = .na := by
    rcases h with h | h
    · rw [Vec.var_na h, Num.mul_na, Num.na_add]
    · rw [Vec.var_na h, Num.mul_na, Num.add_na]
  rw [rapjoy_eq_div, standardError, hsum, Num.na_div, Num.na_mul, Num.sqrt_na, Num.div_na]

/-- The statistic of the samples 1 and 0, 2 is missing, although their pooled variance is 2. -/
theorem rapjoy_single_undefined :
    0 < within (![1] : Fin 1 → ℝ) ![0, 2] ∧ ¬ Defined (.of ![1]) (.of ![0, 2]) := by
  constructor
  · norm_num [within, sumSq, mean, Fin.sum_univ_two]
  · rintro ⟨⟨t, ht⟩, -⟩
    rw [rapjoy_na (.inl (by simp))] at ht
    contradiction

/-- On samples with a spread within them `rapjoy` is defined if and only if both have two elements
or more. -/
theorem rapjoy_defined_iff (hwithin : 0 < within y1 y2) :
    Defined (.of y1) (.of y2) ↔ 2 ≤ n ∧ 2 ≤ m := by
  constructor
  · rintro ⟨⟨t, ht⟩, -⟩
    by_contra hsingle
    have hna : rapjoy (.of y1) (.of y2) = .na := by
      refine rapjoy_na ?_
      simp only [Vec.length_of]
      omega
    rw [hna] at ht
    contradiction
  · rintro ⟨hn2, hm2⟩
    refine ⟨⟨_, rapjoy_of y1 y2 hn2 hm2 hwithin⟩, ?_⟩
    intro d hd
    exact divisors_ne_zero y1 y2 hn2 hm2 hwithin d hd

/-- The samples 0, 2 and 1, 5 have two elements each. -/
theorem rapjoy_defined_pairs : Defined (.of ![0, 2]) (.of ![1, 5]) := by
  refine (rapjoy_defined_iff ![0, 2] ![1, 5] ?_).mpr ⟨le_rfl, le_rfl⟩
  norm_num [within, sumSq, mean, Fin.sum_univ_two]

/-- `rapjoy` is the signed root of the one-way analysis of variance: its square is the mean square
between the groups over the mean square within them, it has the sign of the difference of the
means, and it changes sign when the samples are swapped. -/
theorem rapjoy_signed_root (hn : 2 ≤ n) (hm : 2 ≤ m) (hwithin : 0 < within y1 y2) :
    ∃ t : ℝ, rapjoy (.of y1) (.of y2) = .num t ∧
      t ^ 2 = between y1 y2 / (within y1 y2 / (n + m - 2)) ∧
      SignType.sign t = SignType.sign (mean y1 - mean y2) ∧
      rapjoy (.of y2) (.of y1) = .num (-t) := by
  have hpooled := pooled_pos y1 y2 hn hm hwithin
  have hroot : 0 < √(pooled y1 y2) := Real.sqrt_pos.mpr hpooled
  refine ⟨_, rapjoy_of y1 y2 hn hm hwithin, ?_, ?_, ?_⟩
  · -- The square: both sides are the squared difference of the means over `pooled`.
    have hn' : (0 : ℝ) < n := by positivity
    have hm' : (0 : ℝ) < m := by positivity
    have hdegrees : (n + m - 2 : ℝ) ≠ 0 := degrees_ne_zero hn hm
    rw [div_pow, Real.sq_sqrt hpooled.le, between_eq y1 y2 (by omega) (by omega), pooled_eq]
    field_simp
    ring
  · -- The sign: the root is positive.
    rw [div_eq_mul_inv, sign_mul, sign_pos (inv_pos.mpr hroot), mul_one]
  · -- The swap: `pooled` is symmetric.
    have hswap : 0 < within y2 y1 := by rwa [within, add_comm, ← within]
    rw [rapjoy_of y2 y1 hm hn hswap, pooled_swap, ← neg_sub, neg_div]

/-- Groups of two and three values, with the means 1 and 3. -/
theorem rapjoy_signed_root_example :
    ∃ t : ℝ, rapjoy (.of ![0, 2]) (.of ![1, 2, 6]) = .num t ∧ t ^ 2 = 9 / 10 := by
  have hmean1 : mean (![0, 2] : Fin 2 → ℝ) = 1 := by norm_num [mean, Fin.sum_univ_succ]
  have hmean2 : mean (![1, 2, 6] : Fin 3 → ℝ) = 3 := by norm_num [mean, Fin.sum_univ_succ]
  have hwithin : within (![0, 2] : Fin 2 → ℝ) ![1, 2, 6] = 16 := by
    norm_num [within, sumSq, hmean1, hmean2, Fin.sum_univ_succ]
  obtain ⟨t, ht, hsq, -⟩ := rapjoy_signed_root ![0, 2] ![1, 2, 6] le_rfl (by decide)
    (hwithin ▸ by norm_num)
  refine ⟨t, ht, hsq.trans ?_⟩
  rw [between_eq _ _ two_pos three_pos, hwithin, hmean1, hmean2]
  norm_num

end GnuRQi.Hmcat
