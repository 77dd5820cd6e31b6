import GnuRQi.R.Vector

/-!
# The curve fit of `coldcall/args.R`

`fn` is what the script hands to `nlm`. The curves it draws, and the model that
`coldcall/temp.R` fits to the same data with `nls`, have the response `hot` and the predictor
`cold`; in `fn` the two have changed places.
-/

namespace GnuRQi.Args

open R

variable {α : Type} [Field α] [LinearOrder α]

/-- `fn(p)`, over the script's `cold` and `hot`. -/
def fn (cold hot p : Vec α) : Num α :=
  ((cold - p.elt 1 * hot / (p.elt 2 + cold)) ^ 2).sum

/-- `SSmicmen(x, Vm, K)`, the model of the `nls` fit in `coldcall/temp.R`. -/
def micmen (x Vm K : Vec α) : Vec α := Vm * x / (K + x)

/-- `hotfit`, the curve drawn before the fit. -/
def hotfit (coldfit : Vec α) : Vec α := 200 * coldfit / (Vec.single (.num 0.1) + coldfit)

/-- `yfit`, the curve drawn after the fit. -/
def yfit (xfit : Vec α) : Vec α :=
  Vec.single (.num 212.68384222) * xfit / (Vec.single (.num 0.06412146) + xfit)

/-- Both curves are the model at parameters of their own. -/
theorem hotfit_eq_micmen (x : Vec α) : hotfit x = micmen x 200 (Vec.single (.num 0.1)) := rfl

theorem yfit_eq_micmen (x : Vec α) :
    yfit x = micmen x (Vec.single (.num 212.68384222))
      (Vec.single (.num 0.06412146)) := rfl

/-- The sum of squares that `nls(y ~ SSmicmen(x, Vm, K))` minimises, for `y = hot` and
`x = cold`. -/
def leastSquares (cold hot p : Vec α) : Num α :=
  ((hot - micmen cold (p.elt 1) (p.elt 2)) ^ 2).sum

section DataSets

variable {n : ℕ} (cold hot : Fin n → α) (p : α × α)

/-- The objective on a data set. -/
theorem fn_of (hp : ∀ i, p.2 + cold i ≠ 0) :
    fn (.of cold) (.of hot) (.pair p) =
      .num (∑ i, (cold i - p.1 * hot i / (p.2 + cold i)) ^ 2) := by
  simp [fn, hp]

/-- The sum of squares of the `nls` fit on a data set. -/
theorem leastSquares_of (hp : ∀ i, p.2 + cold i ≠ 0) :
    leastSquares (.of cold) (.of hot) (.pair p) =
      .num (∑ i, (hot i - p.1 * cold i / (p.2 + cold i)) ^ 2) := by
  simp [leastSquares, micmen, hp]

/-- The curve over a data set. -/
theorem micmen_of (hp : ∀ i, p.2 + cold i ≠ 0) :
    micmen (.of cold) (.single (.num p.1)) (.single (.num p.2)) =
      .of fun i => p.1 * cold i / (p.2 + cold i) := by
  simp [micmen, hp]

/-- Data on a curve have no squares left over. -/
theorem leastSquares_micmen (hp : ∀ i, p.2 + cold i ≠ 0) :
    leastSquares (.of cold) (micmen (.of cold) (.single (.num p.1)) (.single (.num p.2)))
      (.pair p) = .num 0 := by
  rw [micmen_of cold p hp, leastSquares_of cold _ p hp]
  simp

/-- The curves of the script fit data on them, at the parameters they are drawn with. -/
theorem leastSquares_hotfit (hcold : ∀ i, (0.1 : α) + cold i ≠ 0) :
    leastSquares (.of cold) (hotfit (.of cold)) (.pair (200, 0.1)) = .num 0 := by
  rw [hotfit_eq_micmen, Vec.ofNat_eq]
  exact leastSquares_micmen cold (200, 0.1) hcold

theorem leastSquares_yfit (hcold : ∀ i, (0.06412146 : α) + cold i ≠ 0) :
    leastSquares (.of cold) (yfit (.of cold)) (.pair (212.68384222, 0.06412146)) = .num 0 := by
  rw [yfit_eq_micmen]
  exact leastSquares_micmen cold (212.68384222, 0.06412146) hcold

/-- `fn` is the least-squares objective of the curve at a parameter pair. In particular it is zero
at a pair whose curve the data lie on, and that pair is a global minimiser. -/
def FitsModel : Prop :=
  fn (.of cold) (.of hot) (.pair p) = leastSquares (.of cold) (.of hot) (.pair p) ∧
    (Vec.of hot = micmen (.of cold) (.single (.num p.1)) (.single (.num p.2)) →
      fn (.of cold) (.of hot) (.pair p) = .num 0 ∧
        ∀ q : α × α, (∀ i, q.2 + cold i ≠ 0) →
          ∃ value, fn (.of cold) (.of hot) (.pair q) = .num value ∧ 0 ≤ value)

/-- What exchanging response and predictor adds to the sum of squares. -/
def imbalance : α :=
  ∑ i, (cold i ^ 2 - hot i ^ 2) * (1 - (p.1 / (p.2 + cold i)) ^ 2)

omit [LinearOrder α] in
theorem sum_exchanged (hp : ∀ i, p.2 + cold i ≠ 0) :
    ∑ i, (cold i - p.1 * hot i / (p.2 + cold i)) ^ 2 =
      ∑ i, (hot i - p.1 * cold i / (p.2 + cold i)) ^ 2 + imbalance cold hot p := by
  rw [imbalance, ← Finset.sum_add_distrib]
  refine Finset.sum_congr rfl ?_
  intro i _
  have hi := hp i
  field_simp
  ring

/-- One observation on the curve `hot = cold / (1 + cold)`, where `fn` is not zero. -/
theorem fn_not_leastSquares :
    ¬ FitsModel (![1] : Fin 1 → ℚ) ![1 / 2] (1, 1) := by
  rintro ⟨hsum, -⟩
  rw [fn_of _ _ _ (by simp), leastSquares_of _ _ _ (by simp), Num.num.injEq] at hsum
  norm_num at hsum

variable [IsStrictOrderedRing α]

/-- The objective is the least-squares objective of the curve exactly where the exchange of
response and predictor adds nothing. -/
theorem fits_model_iff (hp : ∀ i, p.2 + cold i ≠ 0) :
    FitsModel cold hot p ↔ imbalance cold hot p = 0 := by
  have hfn : fn (.of cold) (.of hot) (.pair p) = leastSquares (.of cold) (.of hot) (.pair p) ↔
      imbalance cold hot p = 0 := by
    rw [fn_of cold hot p hp, leastSquares_of cold hot p hp, Num.num.injEq,
      sum_exchanged cold hot p hp, add_eq_left]
  rw [FitsModel, ← hfn]
  refine and_iff_left_of_imp ?_
  intro heq hcurve
  constructor
  · rw [heq, hcurve, leastSquares_micmen cold p hp]
  · intro q hq
    exact ⟨_, fn_of cold hot q hq, Finset.sum_nonneg fun i _ => sq_nonneg _⟩

theorem fits_model_balanced : FitsModel (![1, 2] : Fin 2 → ℚ) ![1, -2] (3, 1) := by
  refine (fits_model_iff ![1, 2] ![1, -2] (3, 1) ?_).mpr ?_
  · intro i
    fin_cases i <;> norm_num
  · norm_num [imbalance, Fin.sum_univ_two]

end DataSets

end GnuRQi.Args
