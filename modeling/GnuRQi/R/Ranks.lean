import GnuRQi.R.Groups
import GnuRQi.Statistics.Ranks

/-!
# `rank` and `kruskal.test`

`kruskalTest_eq`: the statistic is that of an analysis of variance of the ranks, the part of their
sum of squares that lies between the groups. The correction of `kruskal.test` for ties is what makes
this true with ties as well.
-/

namespace GnuRQi.R

open Statistics

section Functions

variable {α β : Type} [Field α] [LinearOrder α]

/-- `rank(v)`. Equal elements share the mean of their places. -/
def Vec.rank (v : Vec α) : Vec α :=
  v.map fun a => .num ((v.elems.countP fun b => b.lt a = some true : ℕ) +
    ((v.elems.count a : α) + 1) / (2 : ℕ))

/-- `table(v)`, the number of elements of each value. The values are not in their order. -/
def Vec.table (v : Vec α) : Vec α := ⟨v.elems.dedup.map fun a => (v.elems.count a : Num α)⟩

/-- `kruskal.test(y ~ g)`, the statistic and its parameter. -/
def kruskalTest (y : Vec α) (g : Factor β) : Except String (Num α × Num α) :=
  let rows := modelFrame y g.codes
  let x : Vec α := ⟨rows.map Prod.fst⟩
  let r := x.rank
  let groups := split (r.elems.zip (rows.map Prod.snd))
  let k : Num α := (groups.length : Num α)
  let n : Num α := (x.length : Num α)
  if groups.length < 2 then .error "all observations are in the same group"
  else if x.length < 2 then .error "not enough observations"
  else
    let TIES := x.table
    let sums : Vec α := ⟨groups.map Vec.sum⟩
    let lengths : Vec α := ⟨groups.map fun v => (v.length : Num α)⟩
    let STATISTIC := (sums ^ 2 / lengths).sum
    .ok ((12 * STATISTIC / (n * (n + 1)) - 3 * (n + 1)) /
      (1 - (TIES ^ 3 - TIES).sum / (n ^ 3 - n)), k - 1)

end Functions

section Parts

variable {α : Type} [Field α] [LinearOrder α] {n k : ℕ} (y : Fin n → α)

theorem Vec.rank_of : (Vec.of y).rank = .of (Statistics.rank y) := by
  refine map_of _ (fun a => ((Finset.univ.filter fun j => y j < a).card : α) +
    (((Finset.univ.filter fun j => y j = a).card : α) + 1) / (2 : ℕ)) y fun i => ?_
  have hless : (Vec.of y).elems.countP (fun b => b.lt (.num (y i)) = some true) =
      (Finset.univ.filter fun j => y j < y i).card := by
    rw [Vec.of, countP_ofFn]
    simp
  have hequal : (Vec.of y).elems.count (.num (y i)) =
      (Finset.univ.filter fun j => y j = y i).card := by
    rw [Vec.of, List.count, countP_ofFn]
    simp
  rw [hless, hequal]

/-- The ranks beside the levels of their rows. -/
theorem zip_rank (code : Fin n → Fin k) :
    (Vec.of y).rank.elems.zip
      (((List.finRange n).map fun i => (Num.num (y i), code i)).map Prod.snd) =
        (List.finRange n).map fun i => (.num (Statistics.rank y i), code i) := by
  rw [Vec.rank_of, List.map_map, Vec.of, List.ofFn_eq_map]
  exact List.zip_map'

/-- The counts of the table are the ties of the values. -/
theorem table_of : (Vec.of y).table = .of ((List.ofFn y).dedup.map fun a =>
    ((Finset.univ.filter fun j => y j = a).card : α)).get := by
  have hcount : ∀ a, (Vec.of y).elems.count (.num a) =
      (Finset.univ.filter fun j => y j = a).card := by
    intro a
    rw [Vec.of, List.count, countP_ofFn]
    simp
  have hdedup : (Vec.of y).elems.dedup = (List.ofFn y).dedup.map .num := by
    rw [Vec.elems_of, List.dedup_map_of_injective fun _ _ => Num.num.inj]
  rw [← Vec.mk_map_num, Vec.table, hdedup, List.map_map, List.map_map]
  refine congrArg Vec.mk (List.map_congr_left fun a _ => ?_)
  rw [Function.comp_apply, hcount]
  rfl

/-- `sum(TIES^3 - TIES)` by the ties of all values. -/
theorem sum_table_cube_sub : ((Vec.of y).table ^ 3 - (Vec.of y).table).sum =
    .num (∑ i, (ties y i : α) ^ 2 - n) := by
  have hcube : ∀ {m : ℕ} (x : Fin m → α), Vec.of x ^ 3 = .of fun i => x i ^ 3 :=
    fun x => Vec.map_of _ _ x fun i => Num.num_cube (x i)
  have hties := sum_ties_sq_sub (α := α) y
  rw [Fintype.card_fin] at hties
  rw [table_of, hcube, Vec.of_sub, Vec.sum_of, ← hties, ← List.sum_ofFn]
  show Num.num (List.ofFn ((fun t : α => t ^ 3 - t) ∘ List.get _)).sum = _
  rw [← List.map_ofFn, List.ofFn_get, List.map_map, ← List.sum_toFinset _ (List.nodup_dedup _)]
  refine congrArg Num.num (Finset.sum_congr ?_ fun a _ => rfl)
  ext a
  simp

end Parts

/-! ## The analysis of variance of the ranks -/

section Test

variable {α β : Type} [Field α] [LinearOrder α] [IsStrictOrderedRing α]

/-- A common positive factor of a quotient cancels, also where the divisor is zero. -/
theorem num_mul_div_mul {a b c : α} (hc : 0 < c) :
    Num.num (c * a) / Num.num (c * b) = Num.num a / Num.num b := by
  by_cases hb : b = 0
  · have hsigned : Num.signed (c * a) = Num.signed a := by
      simp only [Num.signed, mul_eq_zero, hc.ne', false_or, mul_pos_iff_of_pos_left hc]
    have hzero : c * b = 0 := by rw [hb, mul_zero]
    have hdiv : ∀ x : α, Num.num x / Num.num 0 = Num.signed x := fun x => if_pos rfl
    rw [hzero, hb, hdiv, hdiv, hsigned]
  · rw [Num.num_div _ (mul_ne_zero hc.ne' hb), Num.num_div _ hb, mul_div_mul_left _ _ hc.ne']

/-- The mean of the ranks. -/
theorem mean_rank {n : ℕ} (y : Fin n → α) (hn : 0 < n) :
    Statistics.mean (Statistics.rank y : Fin n → α) = (n + 1) / 2 := by
  have hne : (n : α) ≠ 0 := Nat.cast_ne_zero.mpr hn.ne'
  rw [Statistics.mean, sum_rank, Fintype.card_fin]
  field_simp

theorem cube_sub_pos {n : α} (h : 2 ≤ n) : 0 < n ^ 3 - n := by
  nlinarith [sq_nonneg n]

/-- The statistic before the correction, as a multiple of the sum of squares between the groups. -/
theorem statistic_scale {n : α} (h : 2 ≤ n) (s : α) :
    12 * s / (n * (n + 1)) - 3 * (n + 1) = 12 / (n ^ 3 - n) *
      ((n - 1) * (s - 2 * ((n + 1) / 2) * (n * (n + 1) / 2) + n * ((n + 1) / 2) ^ 2)) := by
  have hfactor : n ^ 3 - n = n * (n + 1) * (n - 1) := by ring
  have hprevious : 0 < n - 1 := by linarith
  have hnext : 0 < n * (n + 1) := by nlinarith
  rw [hfactor]
  field_simp
  ring

/-- The correction, as the same multiple of the sum of squares of the ranks. -/
theorem correction_scale {n : α} (h : 2 ≤ n) (t : α) :
    1 - (t - n) / (n ^ 3 - n) = 12 / (n ^ 3 - n) * ((n ^ 3 - t) / 12) := by
  rw [one_sub_div (cube_sub_pos h).ne', sub_sub_sub_cancel_right]
  ring

/-- Where every level has a value, there are at least as many values as levels. -/
theorem levels_le_codes {n k : ℕ} {code : Fin n → Fin k} (h : ∀ level, 0 < groupSize code level) :
    k ≤ n := by
  have hsum := Finset.card_nsmul_le_sum Finset.univ (groupSize code) 1 fun level _ => h level
  rwa [sum_groupSize, Finset.card_univ, Fintype.card_fin, Fintype.card_fin, smul_eq_mul,
    mul_one] at hsum

/-- The statistic by the sums of the ranks in the groups. -/
theorem kruskalTest_of {g : Factor β} {code : Fin g.codes.length → Fin g.levels.length}
    (hcode : ∀ i, g.codes.get i = some (code i)) (y : Fin g.codes.length → α)
    (hlevels : 2 ≤ g.levels.length) (hsize : ∀ level, 0 < groupSize code level) :
    kruskalTest (.of y) g = .ok (
      .num (12 * (∑ level, (∑ i with code i = level, Statistics.rank y i) ^ 2 /
          (groupSize code level : α)) / (g.codes.length * (g.codes.length + 1)) -
            3 * (g.codes.length + 1)) /
        .num (1 - (∑ i, (ties y i : α) ^ 2 - g.codes.length) /
          (g.codes.length ^ 3 - g.codes.length)),
      (g.levels.length : Num α) - 1) := by
  have hsums := map_groups (Statistics.rank y : Fin _ → α) code (sum_level _ code)
  have hlengths := map_length_groups (Statistics.rank y : Fin _ → α) code
  have hne : ∀ level, (groupSize code level : α) ≠ 0 := fun level =>
    Nat.cast_ne_zero.mpr (hsize level).ne'
  have hn : 2 ≤ g.codes.length := hlevels.trans (levels_le_codes hsize)
  have hx : (⟨((List.finRange g.codes.length).map fun i => (Num.num (y i), code i)).map Prod.fst⟩ :
      Vec α) = .of y := congrArg Vec.mk (map_fst_rows y code)
  have hcast : (2 : α) ≤ g.codes.length := by exact_mod_cast hn
  have hprod : (g.codes.length : α) * (g.codes.length + 1) ≠ 0 := by positivity
  have hcube : (g.codes.length : α) ^ 3 - g.codes.length ≠ 0 := (cube_sub_pos hcast).ne'
  simp only [kruskalTest, modelFrame_codes hcode, hx, zip_rank, split_of _ code hsize, hsums,
    hlengths, Vec.of_sq, Vec.of_div _ _ hne, Vec.sum_of, sum_table_cube_sub, Vec.length_of]
  -- Two levels have two values, so neither error is raised.
  rw [List.length_map, List.length_finRange, if_neg (by omega), if_neg (by omega)]
  simp only [Num.natCast_eq, Num.ofNat_eq, Num.one_eq, Num.num_mul, Num.num_add, Num.num_sub,
    Num.num_cube, Num.num_div _ hprod, Num.num_div _ hcube]

/-- The statistic of `kruskal.test` is `n - 1` times the part of the sum of squares of the ranks
that lies between the groups. -/
theorem kruskalTest_eq {g : Factor β} {y null fit : Fin g.codes.length → α}
    (hpresent : ∀ code ∈ g.codes, code.isSome) (hlevels : 2 ≤ g.levels.length)
    (htable : ∀ count ∈ g.table, 1 ≤ count)
    (hnull : Fitted (intercept _) (Statistics.rank y) null)
    (hfit : Fitted (treatment g) (Statistics.rank y) fit) :
    kruskalTest (.of y) g = .ok (
      .num ((g.codes.length - 1) * (rss (Statistics.rank y) null - rss (Statistics.rank y) fit)) /
        .num (rss (Statistics.rank y) null),
      (g.levels.length : Num α) - 1) := by
  obtain ⟨code, hcode⟩ := exists_code hpresent
  have hsize := groupSize_of_table hcode htable
  have hn : 2 ≤ g.codes.length := hlevels.trans (levels_le_codes hsize)
  have hcast : (2 : α) ≤ g.codes.length := by exact_mod_cast hn
  have hcube := cube_sub_pos hcast
  have hmean := mean_rank (α := α) y (by omega)
  have hsum := sum_rank (α := α) y
  have hsquares := sum_rank_sub_sq (α := α) y
  obtain ⟨hbetween, -⟩ := rss_of_fitted hcode hnull hfit
  have htotal : rss (Statistics.rank y) null =
      (g.codes.length ^ 3 - ∑ i, (ties y i : α) ^ 2) / 12 := by
    rw [Fintype.card_fin] at hsquares
    rw [← hsquares, rss]
    exact Finset.sum_congr rfl fun i _ => by rw [null_eq_mean hnull, hmean]
  rw [hmean, sum_groupSize_mul_sub_sq, hsum, Fintype.card_fin] at hbetween
  have hscale : 0 < 12 / ((g.codes.length : α) ^ 3 - g.codes.length) := by positivity
  -- Both parts of the quotient are the same multiple of a sum of squares.
  rw [kruskalTest_of hcode y hlevels hsize, hbetween, htotal, statistic_scale hcast,
    correction_scale hcast, num_mul_div_mul hscale]

end Test

end GnuRQi.R
