import Mathlib.Algebra.BigOperators.Field
import Mathlib.Algebra.Module.Submodule.Lattice
import Mathlib.Algebra.Module.Submodule.Range
import Mathlib.Algebra.Order.BigOperators.Ring.Finset
import Mathlib.LinearAlgebra.Dimension.Constructions
import Mathlib.LinearAlgebra.Pi
import Mathlib.Tactic.FieldSimp
import Mathlib.Tactic.Linarith
import Mathlib.Tactic.Ring

/-!
# Least squares

A fit of a linear model has the least sum of squared residuals. `isFit_iff` are the normal
equations: the residuals are orthogonal to the model. So the sum of squares of another member of the
model exceeds the least one by the squared distance of the two, there is one fit at most, and a
larger model takes the sum of squares of the differences from that of the smaller one.

Where the model has one value for each group of the data, the fit has the means of the groups.
-/

namespace GnuRQi.Statistics

variable {ι α : Type*} [Fintype ι] [Field α]

/-- The residual sum of squares. -/
def rss (y fit : ι → α) : α := ∑ i, (y i - fit i) ^ 2

/-- The sum of squares after a step in some direction. -/
theorem rss_add_smul (y fit g : ι → α) (t : α) :
    rss y (fit + t • g) =
      rss y fit - 2 * t * ∑ i, (y i - fit i) * g i + t ^ 2 * ∑ i, g i ^ 2 := by
  simp only [rss, Finset.mul_sum]
  rw [← Finset.sum_sub_distrib, ← Finset.sum_add_distrib]
  refine Finset.sum_congr rfl fun i _ => ?_
  simp only [Pi.add_apply, Pi.smul_apply, smul_eq_mul]
  ring

variable {M N : Submodule α (ι → α)} {y fit g : ι → α}

/-- The sum of squares of a member of the model by its distance from one with orthogonal
residuals. -/
theorem rss_eq_of_orthogonal (hmem : fit ∈ M) (h : ∀ g ∈ M, ∑ i, (y i - fit i) * g i = 0)
    (hg : g ∈ M) : rss y g = rss y fit + ∑ i, (fit i - g i) ^ 2 := by
  have hstep := rss_add_smul y fit (g - fit) 1
  rw [h _ (M.sub_mem hg hmem), one_smul, add_sub_cancel] at hstep
  rw [hstep]
  simp only [Pi.sub_apply, mul_zero, sub_zero, one_pow, one_mul]
  congr 1
  exact Finset.sum_congr rfl fun i _ => by ring

variable [LinearOrder α]

/-- A least squares fit of the data by a member of the model. -/
structure IsFit (M : Submodule α (ι → α)) (y fit : ι → α) : Prop where
  mem : fit ∈ M
  least : ∀ g ∈ M, rss y fit ≤ rss y g

variable [IsStrictOrderedRing α]

/-- A step of the best length in a direction shows that the residuals are orthogonal to it. -/
theorem IsFit.orthogonal (h : IsFit M y fit) (hg : g ∈ M) : ∑ i, (y i - fit i) * g i = 0 := by
  have hnonneg : 0 ≤ ∑ i, g i ^ 2 := Finset.sum_nonneg fun i _ => sq_nonneg (g i)
  rcases hnonneg.eq_or_lt with hzero | hpos
  · have hg0 : ∀ i, g i = 0 := by
      simpa [sq, Finset.sum_mul_self_eq_zero_iff] using hzero.symm
    simp [hg0]
  · have hstep := h.least _ (M.add_mem h.mem
      (M.smul_mem ((∑ i, (y i - fit i) * g i) / ∑ i, g i ^ 2) hg))
    rw [rss_add_smul] at hstep
    have hsq : (∑ i, (y i - fit i) * g i) ^ 2 / ∑ i, g i ^ 2 ≤ 0 := by
      have heq : 2 * ((∑ i, (y i - fit i) * g i) / ∑ i, g i ^ 2) * (∑ i, (y i - fit i) * g i) -
          ((∑ i, (y i - fit i) * g i) / ∑ i, g i ^ 2) ^ 2 * ∑ i, g i ^ 2 =
            (∑ i, (y i - fit i) * g i) ^ 2 / ∑ i, g i ^ 2 := by
        field_simp
        ring
      linarith
    have hle := (div_le_iff₀ hpos).mp hsq
    rw [zero_mul] at hle
    exact pow_eq_zero_iff two_ne_zero |>.mp (le_antisymm hle (sq_nonneg _))

/-- The normal equations. -/
theorem isFit_iff : IsFit M y fit ↔ fit ∈ M ∧ ∀ g ∈ M, ∑ i, (y i - fit i) * g i = 0 := by
  refine ⟨fun h => ⟨h.mem, fun g hg => h.orthogonal hg⟩, fun ⟨hmem, h⟩ => ⟨hmem, fun g hg => ?_⟩⟩
  rw [rss_eq_of_orthogonal hmem h hg]
  exact le_add_of_nonneg_right (Finset.sum_nonneg fun i _ => sq_nonneg _)

namespace IsFit

theorem rss_eq (h : IsFit M y fit) (hg : g ∈ M) :
    rss y g = rss y fit + ∑ i, (fit i - g i) ^ 2 :=
  rss_eq_of_orthogonal h.mem (fun _ => h.orthogonal) hg

/-- There is one fit at most. -/
theorem unique (h : IsFit M y fit) (hg : IsFit M y g) : fit = g := by
  have heq := h.rss_eq hg.mem
  have hle := hg.least fit h.mem
  have hzero : ∑ i, (fit i - g i) ^ 2 = 0 :=
    le_antisymm (by linarith) (Finset.sum_nonneg fun i _ => sq_nonneg _)
  have hsame : ∀ i, fit i = g i := by
    simpa [sq, Finset.sum_mul_self_eq_zero_iff, sub_eq_zero] using hzero
  exact funext hsame

/-- Data in the model are their own fit. -/
theorem self (hy : y ∈ M) : IsFit M y y := by
  refine ⟨hy, fun g _ => ?_⟩
  have hzero : rss y y = 0 := Finset.sum_eq_zero fun i _ => by rw [sub_self, zero_pow two_ne_zero]
  rw [hzero]
  exact Finset.sum_nonneg fun i _ => sq_nonneg _

/-- The fit of a larger model. -/
theorem rss_sub (h : IsFit M y fit) (hg : IsFit N y g) (hle : N ≤ M) :
    rss y g - rss y fit = ∑ i, (fit i - g i) ^ 2 := by
  rw [h.rss_eq (hle hg.mem), add_sub_cancel_left]

end IsFit

/-! ## Groups -/

section Groups

variable {κ : Type*} [DecidableEq κ] (group : ι → κ)

omit [Fintype ι] [LinearOrder α] [IsStrictOrderedRing α] [DecidableEq κ] in
variable (α) in
/-- The functions with one value on each group. -/
def groupModel : Submodule α (ι → α) := LinearMap.range (LinearMap.funLeft α α group)

/-- The number of the data in a group. -/
def groupSize (l : κ) : ℕ := (Finset.univ.filter fun i => group i = l).card

/-- The mean of the data in a group. -/
def groupMean (y : ι → α) (l : κ) : α :=
  (∑ i with group i = l, y i) / groupSize group l

variable (y)

theorem groupSize_mul_groupMean (l : κ) :
    groupSize group l * groupMean group y l = ∑ i with group i = l, y i := by
  rcases Nat.eq_zero_or_pos (groupSize group l) with hzero | hpos
  · have hempty : (Finset.univ.filter fun i => group i = l) = ∅ := Finset.card_eq_zero.mp hzero
    rw [hzero, hempty]
    simp
  · have hne : (groupSize group l : α) ≠ 0 := Nat.cast_ne_zero.mpr hpos.ne'
    rw [groupMean, mul_div_cancel₀ _ hne]

variable [Fintype κ]

omit [Field α] [LinearOrder α] [IsStrictOrderedRing α] in
theorem sum_groupSize : ∑ l, groupSize group l = Fintype.card ι :=
  (Finset.card_eq_sum_card_fiberwise fun _ _ => Finset.mem_univ _).symm

omit [Fintype ι] [LinearOrder α] [IsStrictOrderedRing α] [DecidableEq κ] in
/-- Where no group is empty, the model has the dimension of their number. -/
theorem finrank_groupModel (h : Function.Surjective group) :
    Module.finrank α (groupModel α group) = Fintype.card κ := by
  have hinjective := LinearMap.funLeft_injective_of_surjective α α group h
  rw [groupModel, LinearMap.finrank_range_of_inj hinjective, Module.finrank_fintype_fun_eq_card]

/-- The fit has the means of the groups. -/
theorem isFit_groupMean : IsFit (groupModel α group) y fun i => groupMean group y (group i) := by
  refine isFit_iff.mpr ⟨⟨groupMean group y, rfl⟩, ?_⟩
  rintro _ ⟨c, rfl⟩
  rw [← Finset.sum_fiberwise Finset.univ group]
  refine Finset.sum_eq_zero fun l _ => ?_
  -- On one group the residuals add up to zero.
  have hfibre : ∀ i ∈ Finset.univ.filter fun i => group i = l,
      (y i - groupMean group y (group i)) * LinearMap.funLeft α α group c i =
        (y i - groupMean group y l) * c l := by
    intro i hi
    rw [LinearMap.funLeft_apply, (Finset.mem_filter.mp hi).2]
  rw [Finset.sum_congr rfl hfibre, ← Finset.sum_mul, Finset.sum_sub_distrib, Finset.sum_const,
    nsmul_eq_mul, ← groupSize, groupSize_mul_groupMean, sub_self, zero_mul]

omit [LinearOrder α] [IsStrictOrderedRing α] in
/-- The sum of squares within the groups. -/
theorem rss_groupMean : rss y (fun i => groupMean group y (group i)) =
    ∑ l, ∑ i with group i = l, (y i - groupMean group y l) ^ 2 := by
  rw [rss, ← Finset.sum_fiberwise Finset.univ group]
  refine Finset.sum_congr rfl fun l _ => Finset.sum_congr rfl fun i hi => ?_
  rw [(Finset.mem_filter.mp hi).2]

omit [LinearOrder α] [IsStrictOrderedRing α] in
/-- The sum of squares between the groups. -/
theorem sum_groupMean_sub_sq (c : α) : ∑ i, (groupMean group y (group i) - c) ^ 2 =
    ∑ l, groupSize group l * (groupMean group y l - c) ^ 2 := by
  rw [← Finset.sum_fiberwise Finset.univ group]
  refine Finset.sum_congr rfl fun l _ => ?_
  have hfibre : ∀ i ∈ Finset.univ.filter fun i => group i = l,
      (groupMean group y (group i) - c) ^ 2 = (groupMean group y l - c) ^ 2 := by
    intro i hi
    rw [(Finset.mem_filter.mp hi).2]
  rw [Finset.sum_congr rfl hfibre, Finset.sum_const, nsmul_eq_mul, ← groupSize]

/-- The sum of squares between the groups by the sums of the groups. -/
theorem sum_groupSize_mul_sub_sq (c : α) : ∑ l, groupSize group l * (groupMean group y l - c) ^ 2 =
    ∑ l, (∑ i with group i = l, y i) ^ 2 / groupSize group l - 2 * c * ∑ i, y i +
      Fintype.card ι * c ^ 2 := by
  have hterm : ∀ l, groupSize group l * (groupMean group y l - c) ^ 2 =
      (∑ i with group i = l, y i) ^ 2 / groupSize group l -
        2 * c * (∑ i with group i = l, y i) + groupSize group l * c ^ 2 := by
    intro l
    rw [← groupSize_mul_groupMean]
    by_cases hzero : (groupSize group l : α) = 0
    · simp [hzero]
    · field_simp
      ring
  simp only [hterm, Finset.sum_add_distrib, Finset.sum_sub_distrib, ← Finset.mul_sum,
    ← Finset.sum_mul, Finset.sum_fiberwise, ← Nat.cast_sum, sum_groupSize]

end Groups

end GnuRQi.Statistics
