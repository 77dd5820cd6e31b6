import GnuRQi.R.Vector
import GnuRQi.Statistics.Logistic

/-!
# The dose-response fit of `coldcall/temp.R`

`fn` is what the script hands to `nlm`: the negative log-likelihood of the binomial model with a
logistic link, written without the probabilities.
-/

namespace GnuRQi.Temp

open R Statistics

/-- `fn(p)`, over the script's doses `x` and its counts of successes `y` and of trials `n`. -/
noncomputable def fn (x y n p : Vec ℝ) : Num ℝ :=
  (-(y * (p.elt 1 + p.elt 2 * x) - n * (1 + (p.elt 1 + p.elt 2 * x).exp).log +
    (Vec.choose n y).log)).sum

variable {k : ℕ} (x : Fin k → ℝ)

/-- On counts `fn` is the negative log-likelihood. -/
theorem fn_of {y n : Fin k → ℕ} (hy : ∀ i, y i ≤ n i) (p : ℝ × ℝ) :
    fn (.of x) (.of fun i => (y i : ℝ)) (.of fun i => (n i : ℝ)) (.pair p) =
      .num (negLogLik x y n p) := by
  have hexp : ∀ i, 0 < 1 + Real.exp (p.1 + p.2 * x i) := fun i => by positivity
  have hchoose : ∀ i, 0 < ((n i).choose (y i) : ℝ) :=
    fun i => Nat.cast_pos.mpr (Nat.choose_pos (hy i))
  simp only [fn, Vec.one_eq, Vec.elt_one_pair, Vec.elt_two_pair, Vec.single_mul_of,
    Vec.single_add_of, Vec.exp_of, Vec.log_of hexp, Vec.choose_of, Vec.log_of hchoose, Vec.of_mul,
    Vec.of_sub, Vec.of_add, Vec.neg_of, Vec.sum_of, negLogLik_eq hy, predictor_apply, softplus]
  congr 1
  exact Finset.sum_congr rfl fun i _ => by ring

/-- Nonnegative integers as counts. -/
theorem natCast_toNat {y : Fin k → ℤ} (hy : ∀ i, 0 ≤ y i) :
    (fun i => (y i : ℝ)) = fun i => ((y i).toNat : ℝ) := by
  funext i
  exact_mod_cast (Int.toNat_of_nonneg (hy i)).symm

section Integers

variable {x} {y n : Fin k → ℤ}

variable (x y n) in
/-- `fn` on a data set: real doses and integer numbers of successes and of trials. -/
noncomputable def objective (p : Vec ℝ) : Num ℝ :=
  fn (.of x) (.of fun i => (y i : ℝ)) (.of fun i => (n i : ℝ)) p

/-- On integers with `0 ≤ y ≤ n` the objective is the negative log-likelihood of the counts. -/
theorem objective_of (hy : ∀ i, 0 ≤ y i ∧ y i ≤ n i) (p : ℝ × ℝ) :
    objective x y n (.pair p) =
      .num (negLogLik x (fun i => (y i).toNat) (fun i => (n i).toNat) p) := by
  have hn : ∀ i, 0 ≤ n i := fun i => (hy i).1.trans (hy i).2
  unfold objective
  rw [natCast_toNat fun i => (hy i).1, natCast_toNat hn]
  exact fn_of x (fun i => Int.toNat_le_toNat (hy i).2) p

/-- The point between two parameter pairs, as R computes it. -/
theorem combination_of (p q : ℝ × ℝ) (t : ℝ) :
    Vec.single (.num t) * Vec.pair p + Vec.single (.num (1 - t)) * Vec.pair q =
      Vec.pair (t • p + (1 - t) • q) := by
  simp only [Vec.pair_eq_of, Vec.single_mul_of, Vec.of_add]
  congr 1
  funext i
  fin_cases i <;> rfl

/-- The objective is strictly convex, and so it has at most one minimiser. -/
theorem fn_strictly_convex (hy : ∀ i, 0 ≤ y i ∧ y i ≤ n i) (hn : ∀ i, 1 ≤ n i)
    (hx : ∃ i j, x i ≠ x j) :
    (∀ p q : ℝ × ℝ, p ≠ q → ∀ t : ℝ, 0 < t → t < 1 →
      (objective x y n (Vec.single (.num t) * .pair p + Vec.single (.num (1 - t)) * .pair q)).lt
        (.num t * objective x y n (.pair p) + .num (1 - t) * objective x y n (.pair q)) =
          some true) ∧
    ∀ p q : ℝ × ℝ,
      (∀ r : ℝ × ℝ, (objective x y n (.pair r)).lt (objective x y n (.pair p)) = some false) →
      (∀ r : ℝ × ℝ, (objective x y n (.pair r)).lt (objective x y n (.pair q)) = some false) →
      p = q := by
  have hconvex := strictConvexOn_negLogLik (fun i => Int.toNat_le_toNat (hy i).2)
    (fun i => Int.pos_iff_toNat_pos.mp (hn i)) hx
  simp only [combination_of, objective_of hy]
  constructor
  · intro p q hpq t ht0 ht1
    have hlt := hconvex.2 trivial trivial hpq ht0 (sub_pos.mpr ht1) (by ring)
    simpa using hlt
  · intro p q hp hq
    simp only [Num.num_lt, Option.some.injEq, decide_eq_false_iff_not, not_lt] at hp hq
    exact hconvex.eq_of_isMinOn (fun r _ => hp r) (fun r _ => hq r) trivial trivial

theorem fn_convex_at_midpoint :
    (objective ![0, 1] ![1, 0] ![1, 2] (Vec.single (.num (1 / 2)) * .pair (0, 0) +
        Vec.single (.num (1 - 1 / 2)) * .pair (1, 1))).lt
      (.num (1 / 2) * objective ![0, 1] ![1, 0] ![1, 2] (.pair (0, 0)) +
        .num (1 - 1 / 2) * objective ![0, 1] ![1, 0] ![1, 2] (.pair (1, 1))) = some true := by
  have hx : ∃ i j, (![0, 1] : Fin 2 → ℝ) i ≠ ![0, 1] j := ⟨0, 1, by simp⟩
  have hpq : ((0, 0) : ℝ × ℝ) ≠ (1, 1) := by simp
  exact (fn_strictly_convex (by decide) (by decide) hx).1 (0, 0) (1, 1) hpq (1 / 2)
    (by norm_num) (by norm_num)

variable (x y n) in
/-- The log-likelihood of the binomial logistic model, from its success probabilities. -/
noncomputable def logLik (p : ℝ × ℝ) : ℝ :=
  let π := fun i => 1 / (1 + Real.exp (-(p.1 + p.2 * x i)))
  ∑ i, Real.log ((n i).toNat.choose (y i).toNat * π i ^ y i * (1 - π i) ^ (n i - y i))

/-- It is the log-likelihood of the counts. -/
theorem negLogLik_eq_neg_logLik (hy : ∀ i, 0 ≤ y i ∧ y i ≤ n i) (p : ℝ × ℝ) :
    negLogLik x (fun i => (y i).toNat) (fun i => (n i).toNat) p = -logLik x y n p := by
  refine congrArg _ (Finset.sum_congr rfl fun i _ => congrArg Real.log ?_)
  have hπ : Real.sigmoid (predictor x p i) = 1 / (1 + Real.exp (-(p.1 + p.2 * x i))) := by
    rw [Real.sigmoid_def, predictor_apply, ← one_div]
  have hfail : n i - y i = ((n i).toNat - (y i).toNat : ℕ) := by
    have := hy i
    omega
  have hsuccess : y i = (y i).toNat := (Int.toNat_of_nonneg (hy i).1).symm
  rw [binomial, hπ, hfail, zpow_natCast, ← zpow_natCast _ (y i).toNat, ← hsuccess]

/-- The objective is the negative log-likelihood of the binomial logistic model, and so it is
nonnegative. -/
theorem fn_eq_negLogLik (hy : ∀ i, 0 ≤ y i ∧ y i ≤ n i) (p : ℝ × ℝ) :
    objective x y n (.pair p) = .num (-logLik x y n p) ∧ 0 ≤ -logLik x y n p := by
  rw [← negLogLik_eq_neg_logLik hy]
  exact ⟨objective_of hy p, negLogLik_nonneg (fun i => Int.toNat_le_toNat (hy i).2) p⟩

/-- Three doses, with no, some and all successes. -/
theorem fn_nonneg_three_doses :
    ∃ value, objective ![0, 3, 4] ![0, 1, 5] ![2, 3, 5] (.pair (-50, 20)) = .num value ∧
      0 ≤ value :=
  ⟨_, fn_eq_negLogLik (by decide) (-50, 20)⟩

end Integers

end GnuRQi.Temp
