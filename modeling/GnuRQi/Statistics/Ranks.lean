import Mathlib.Algebra.BigOperators.Field
import Mathlib.Algebra.BigOperators.Fin
import Mathlib.Algebra.Order.BigOperators.Ring.Finset
import Mathlib.Tactic.FieldSimp
import Mathlib.Tactic.LinearCombination
import Mathlib.Tactic.Ring

/-!
# Ranks

The rank of a value among others, where equal values share the mean of their places. Twice the rank
exceeds the number of values plus one by the balance of the comparisons with all of them. Of three
values the products of the two comparisons of each add up to one unless the three are equal, and
this gives the sum of squares of all ranks (`sum_rank_sub_sq`).
-/

namespace GnuRQi.Statistics

variable {ι β α : Type*} [Fintype ι] [LinearOrder β] [Field α]

/-- The number of values equal to that at an index. -/
def ties (x : ι → β) (i : ι) : ℕ := (Finset.univ.filter fun j => x j = x i).card

/-- The rank of the value at an index. -/
def rank (x : ι → β) (i : ι) : α :=
  (Finset.univ.filter fun j => x j < x i).card + ((ties x i : α) + 1) / (2 : ℕ)

/-- The comparison of two values. -/
def comparison (a b : β) : α := if b < a then 1 else if a < b then -1 else 0

theorem comparison_swap (a b : β) : (comparison b a : α) = -comparison a b := by
  rcases lt_trichotomy a b with h | rfl | h
  · simp [comparison, h, h.not_gt]
  · simp [comparison]
  · simp [comparison, h, h.not_gt]

/-- The products of the comparisons of each of three values with the others. -/
theorem sum_comparison_mul (a b c : β) :
    (comparison a b * comparison a c + comparison b a * comparison b c +
      comparison c a * comparison c b : α) = 1 - if a = b ∧ b = c then 1 else 0 := by
  simp only [comparison]
  grind

variable (x : ι → β)

theorem ties_eq_sum (i : ι) : (ties x i : α) = ∑ j, if x i = x j then 1 else 0 := by
  rw [ties, Finset.natCast_card_filter]
  exact Finset.sum_congr rfl fun j _ => if_congr eq_comm rfl rfl

/-- The triples of equal values. -/
theorem sum_triples : ∑ i, ∑ j, ∑ k, (if x i = x j ∧ x j = x k then 1 else 0 : α) =
    ∑ i, (ties x i : α) ^ 2 := by
  refine Finset.sum_congr rfl fun i _ => ?_
  rw [sq, ties_eq_sum, Finset.sum_mul_sum]
  refine Finset.sum_congr rfl fun j _ => Finset.sum_congr rfl fun k _ => ?_
  by_cases hij : x i = x j
  · simp [hij]
  · simp [hij]

variable [CharZero α]

theorem two_mul_rank (i : ι) :
    2 * (rank x i : α) = Fintype.card ι + 1 + ∑ j, comparison (x i) (x j) := by
  have hterm : ∀ j, 2 * (if x j < x i then 1 else 0 : α) + (if x i = x j then 1 else 0) =
      1 + comparison (x i) (x j) := by
    intro j
    rcases lt_trichotomy (x j) (x i) with h | h | h
    · simp [comparison, h, h.ne']
      norm_num
    · simp [comparison, h]
    · simp [comparison, h, h.ne, h.not_gt]
  have hsum := Finset.sum_congr rfl fun j (_ : j ∈ Finset.univ) => hterm j
  rw [Finset.sum_add_distrib, Finset.sum_add_distrib, ← Finset.mul_sum, ← ties_eq_sum,
    ← Finset.natCast_card_filter, Finset.sum_const, Finset.card_univ, nsmul_eq_mul, mul_one] at hsum
  rw [rank, Nat.cast_ofNat]
  field_simp
  linear_combination hsum

/-- The comparisons of all pairs cancel. -/
theorem sum_comparison : ∑ i, ∑ j, (comparison (x i) (x j) : α) = 0 := by
  have hswap : ∑ i, ∑ j, (comparison (x i) (x j) : α) =
      -∑ i, ∑ j, (comparison (x i) (x j) : α) := by
    conv_lhs => rw [Finset.sum_comm]
    simp only [← Finset.sum_neg_distrib, ← comparison_swap]
  exact self_eq_neg.mp hswap

/-- The sum of the ranks does not depend on the values. -/
theorem sum_rank : ∑ i, (rank x i : α) = Fintype.card ι * (Fintype.card ι + 1) / 2 := by
  have hsum := Finset.sum_congr rfl fun i (_ : i ∈ Finset.univ) => two_mul_rank (α := α) x i
  rw [← Finset.mul_sum, Finset.sum_add_distrib, sum_comparison, Finset.sum_const, Finset.card_univ,
    nsmul_eq_mul, add_zero] at hsum
  field_simp
  linear_combination hsum

omit [CharZero α] in
/-- The squares of the balances, by the products over all triples. -/
theorem sum_comparison_sq : 3 * ∑ i, (∑ j, (comparison (x i) (x j) : α)) ^ 2 =
    Fintype.card ι ^ 3 - ∑ i, (ties x i : α) ^ 2 := by
  have hcube : ∑ i, (∑ j, (comparison (x i) (x j) : α)) ^ 2 =
      ∑ i, ∑ j, ∑ k, comparison (x i) (x j) * comparison (x i) (x k) := by
    refine Finset.sum_congr rfl fun i _ => ?_
    rw [sq, Finset.sum_mul_sum]
  -- Each index of a triple can be the one that is compared with the two others.
  have hsecond : ∑ i, (∑ j, (comparison (x i) (x j) : α)) ^ 2 =
      ∑ i, ∑ j, ∑ k, comparison (x j) (x i) * comparison (x j) (x k) := by
    rw [hcube, Finset.sum_comm]
  have hthird : ∑ i, (∑ j, (comparison (x i) (x j) : α)) ^ 2 =
      ∑ i, ∑ j, ∑ k, comparison (x k) (x i) * comparison (x k) (x j) := by
    rw [hsecond]
    refine Finset.sum_congr rfl fun i _ => ?_
    rw [Finset.sum_comm]
  have htriples : ∑ i, ∑ j, ∑ k, (comparison (x i) (x j) * comparison (x i) (x k) +
      comparison (x j) (x i) * comparison (x j) (x k) +
      comparison (x k) (x i) * comparison (x k) (x j) : α) =
        Fintype.card ι ^ 3 - ∑ i, (ties x i : α) ^ 2 := by
    simp only [sum_comparison_mul, Finset.sum_sub_distrib, sum_triples]
    simp
    ring
  rw [← htriples]
  simp only [Finset.sum_add_distrib, ← hcube, ← hsecond, ← hthird]
  ring

omit [CharZero α] in
/-- The values of one kind, counted at each of them. -/
theorem sum_ties_sq_sub : ∑ a ∈ Finset.univ.image x,
    (((Finset.univ.filter fun j => x j = a).card : α) ^ 3 -
      (Finset.univ.filter fun j => x j = a).card) =
        ∑ i, (ties x i : α) ^ 2 - Fintype.card ι := by
  have h := Finset.sum_comp (s := Finset.univ)
    (fun a => ((Finset.univ.filter fun j => x j = a).card : α) ^ 2 - 1) x
  have hcard : (Fintype.card ι : α) = ∑ _i : ι, 1 := by simp
  rw [hcard, ← Finset.sum_sub_distrib]
  refine Eq.trans (Finset.sum_congr rfl fun a _ => ?_) h.symm
  rw [nsmul_eq_mul]
  ring

/-- The sum of squares of the ranks. -/
theorem sum_rank_sub_sq : ∑ i, (rank x i - ((Fintype.card ι : α) + 1) / 2) ^ 2 =
    (Fintype.card ι ^ 3 - ∑ i, (ties x i : α) ^ 2) / 12 := by
  have hterm : ∀ i, (rank x i - ((Fintype.card ι : α) + 1) / 2) ^ 2 =
      (∑ j, (comparison (x i) (x j) : α)) ^ 2 / 4 := by
    intro i
    have hrank : (rank x i : α) - (Fintype.card ι + 1) / 2 =
        (∑ j, (comparison (x i) (x j) : α)) / 2 := by
      have htwo := two_mul_rank (α := α) x i
      field_simp
      linear_combination htwo
    rw [hrank, div_pow]
    norm_num
  simp only [hterm, ← Finset.sum_div]
  have h := sum_comparison_sq (α := α) x
  field_simp
  linear_combination 4 * h

end GnuRQi.Statistics
