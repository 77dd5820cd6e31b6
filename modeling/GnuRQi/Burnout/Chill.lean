import GnuRQi.R.Statistics

/-!
# The t statistics of `burnout/chill.R`

`make.t` is the t statistic of a given sample, and `sim.t` draws a sample first. The script
defines `sim.t` twice; the second definition takes the mean and the deviation of the draw as
arguments. The random generator is a parameter.
-/

namespace GnuRQi.Chill

open R

/-- `rnorm(n, mean, sd)`, by the sample that is drawn. -/
abbrev Rnorm := ℕ → Vec ℝ → Vec ℝ → Vec ℝ

/-- `make.t(x, mu)`. -/
noncomputable def makeT (x : Vec ℝ) (mu : Num ℝ) : Num ℝ :=
  (x.mean - mu) / Num.sqrt (x.var / (x.length : Num ℝ))

/-- The first definition of `sim.t(n)`, with mean and deviation fixed in its body. -/
noncomputable def simTFixed (rnorm : Rnorm) (n : ℕ) : Num ℝ :=
  let mu : Num ℝ := 10
  let sigma : Num ℝ := 5
  let X := rnorm n mu sigma
  (X.mean - mu) / (X.sd / (n : Num ℝ))

/-- The second definition of `sim.t(n, mu, sigma)`. Its defaults are `mu = 10` and `sigma = 5`. -/
noncomputable def simT (rnorm : Rnorm) (n : ℕ) (mu sigma : Num ℝ) : Num ℝ :=
  let X := rnorm n mu sigma
  (X.mean - mu) / (X.sd / (n : Num ℝ))

/-- With its defaults the second definition is the first. -/
theorem simT_default (rnorm : Rnorm) (n : ℕ) : simT rnorm n 10 5 = simTFixed rnorm n := rfl

section Sample

variable {n : ℕ} (X : Fin n → ℝ) (mu : ℝ)

/-- The t statistic with the standard error `sqrt(var / n)`. -/
theorem makeT_of (hn : 2 ≤ n) (hvar : 0 < Statistics.variance X) :
    makeT (.of X) (.num mu) =
      .num ((Statistics.mean X - mu) / √(Statistics.variance X / n)) := by
  have hn' : (n : ℝ) ≠ 0 := by positivity
  have hroot : √(Statistics.variance X / n) ≠ 0 := by positivity
  have hmean := Vec.mean_of X (by omega)
  simp only [makeT, hmean, Vec.var_of X hn, Vec.length_of, Num.natCast_eq, Num.num_sub,
    Num.num_div _ hn', Num.sqrt_num (by positivity : 0 ≤ Statistics.variance X / n),
    Num.num_div _ hroot]

/-- `sim.t` divides the deviation by `n`, not by its root. -/
theorem simT_of (rnorm : Rnorm) (sigma : Num ℝ) (hdraw : rnorm n (.single (.num mu)) sigma = .of X)
    (hn : 2 ≤ n) (hvar : 0 < Statistics.variance X) :
    simT rnorm n (.num mu) sigma =
      .num ((Statistics.mean X - mu) / (√(Statistics.variance X) / n)) := by
  have hn' : (n : ℝ) ≠ 0 := by positivity
  have hsd : √(Statistics.variance X) / n ≠ 0 := by positivity
  have hmean := Vec.mean_of X (by omega)
  simp only [simT, hdraw, hmean, Vec.sd, Vec.var_of X hn, Num.natCast_eq, Num.num_sub,
    Num.sqrt_num hvar.le, Num.num_div _ hn', Num.num_div _ hsd]

end Sample

/-! ## The index loop of `silly.sum` -/

section SillySum

variable {α : Type} [Field α]

/-- `silly.sum(x)`. -/
def sillySum (x : Vec α) : Vec α :=
  (colon 1 x.length).foldl (fun ret i => ret + x.elt i) 0

/-- One pass adds the element it reads. -/
theorem sillySum_step (x : Vec α) {i : ℕ} (hi : i < x.elems.length) :
    .single (Vec.sum ⟨x.elems.take i⟩) + x.elt (i + 1) =
      .single (Vec.sum ⟨x.elems.take (i + 1)⟩) := by
  rw [x.elt_succ hi, Vec.single_add_single, Vec.sum, Vec.sum, List.take_succ_eq_append_getElem hi,
    List.foldl_concat]

/-- After `k` passes upward the loop holds the sum of the first `k` elements. -/
theorem sillySum_run (x : Vec α) {k : ℕ} (hk : k ≤ x.elems.length) :
    (List.range' 1 k).foldl (fun ret i => ret + x.elt i) 0 =
      .single (Vec.sum ⟨x.elems.take k⟩) := by
  induction k with
  | zero => rfl
  | succ k ih =>
      rw [List.range'_concat, List.foldl_concat, ih (by omega), one_mul, add_comm 1 k]
      exact sillySum_step x hk

/-- On a vector that is not empty `silly.sum` is `sum`. -/
theorem sillySum_eq (x : Vec α) (hx : 0 < x.length) : sillySum x = .single x.sum := by
  have h := sillySum_run x (le_refl x.elems.length)
  rw [List.take_length] at h
  rw [sillySum, colon_one hx]
  exact h

/-- On the empty vector the loop runs over 1 and 0. The element 1 is missing, and reading the
element 0 leaves a vector of length zero. -/
theorem sillySum_empty {x : Vec α} (hx : x.length = 0) : sillySum x = ⟨[]⟩ := by
  rw [sillySum, hx, colon_one_zero]
  exact Vec.add_empty _

variable {n m : ℕ} (x : Fin n → α) (y : Fin m → α)

theorem sillySum_of (hn : 0 < n) : sillySum (.of x) = .single (.num (∑ i, x i)) := by
  rw [sillySum_eq _ (by rwa [Vec.length_of]), Vec.sum_of]

/-- The sum of no values is zero, but `silly.sum(numeric(0))` is not. -/
theorem sillySum_empty_ne_zero :
    sillySum (.of ![] : Vec ℚ) ≠ .single (.num (∑ i, (![] : Fin 0 → ℚ) i)) := by
  rw [sillySum_empty rfl]
  rintro ⟨⟩

/-- `silly.sum` returns the sum of the vectors that are not empty, and it is additive if both
vectors are empty or none is. -/
theorem sillySum_iff :
    (sillySum (.of x) = .single (.num (∑ i, x i)) ↔ 0 < n) ∧
    (sillySum ((Vec.of x).append (.of y)) = sillySum (.of x) + sillySum (.of y) ↔
      (0 < n ↔ 0 < m)) := by
  have hempty : ∀ a : Num α, (⟨[]⟩ : Vec α) ≠ .single a := by
    rintro a ⟨⟩
  constructor
  · refine ⟨?_, sillySum_of x⟩
    intro h
    by_contra hn
    rw [sillySum_empty (by rw [Vec.length_of]; omega)] at h
    exact hempty _ h
  · rw [Vec.append_of]
    rcases Nat.eq_zero_or_pos n with rfl | hn <;> rcases Nat.eq_zero_or_pos m with rfl | hm
    · simp [sillySum_empty]
    · rw [sillySum_of _ (by omega), sillySum_empty (x := .of x) (by simp), Vec.empty_add]
      simp [hm, (hempty _).symm]
    · rw [sillySum_of _ (by omega), sillySum_empty (x := .of y) (by simp), Vec.add_empty]
      simp [hn, (hempty _).symm]
    · rw [sillySum_of _ (by omega), sillySum_of x hn, sillySum_of y hm, Fin.sum_univ_add]
      simp [hn, hm]

end SillySum

end GnuRQi.Chill
