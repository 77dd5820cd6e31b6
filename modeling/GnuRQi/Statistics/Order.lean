import Mathlib.Algebra.Order.Field.Basic
import Mathlib.Data.Fin.Tuple.Sort
import Mathlib.Order.Fin.Basic
import Mathlib.Tactic.Ring

/-!
# Order statistics

A sample in increasing order, and the distance between two of its values at the same depth from
the two ends. A decreasing map turns the order around and swaps the ends, so that this distance
changes under a change of origin and unit only by the absolute value of the unit.
-/

namespace GnuRQi.Statistics

variable {α : Type*} [LinearOrder α] {n : ℕ}

/-- The sample in increasing order. -/
def sorted (x : Fin n → α) : Fin n → α := x ∘ Tuple.sort x

theorem sorted_monotone (x : Fin n → α) : Monotone (sorted x) := Tuple.monotone_sort x

/-- A rearrangement in increasing order is the sorted sample. -/
theorem sorted_eq_of_monotone {x : Fin n → α} (σ : Equiv.Perm (Fin n)) (h : Monotone (x ∘ σ)) :
    sorted x = x ∘ σ :=
  (Tuple.comp_sort_eq_comp_iff_monotone.mpr h).symm

/-- The order of the observations does not matter. -/
theorem sorted_perm (x : Fin n → α) (σ : Equiv.Perm (Fin n)) : sorted (x ∘ σ) = sorted x :=
  Tuple.comp_perm_comp_sort_eq_comp_sort

/-- Sorting the list of a sample. -/
theorem insertionSort_ofFn (x : Fin n → α) :
    (List.ofFn x).insertionSort (· ≤ ·) = List.ofFn (sorted x) := by
  have hperm : ((List.ofFn x).insertionSort (· ≤ ·)).Perm (List.ofFn (sorted x)) :=
    (List.perm_insertionSort _ _).trans ((Tuple.sort x).ofFn_comp_perm x).symm
  exact hperm.eq_of_pairwise' (List.pairwise_insertionSort _ _)
    (sorted_monotone x).sortedLE_ofFn.pairwise

/-- The first value in increasing order is the least one. -/
theorem isLeast_sorted (x : Fin n → α) (hn : 0 < n) :
    IsLeast (Set.range x) (sorted x ⟨0, hn⟩) := by
  refine ⟨⟨_, rfl⟩, ?_⟩
  rintro _ ⟨i, rfl⟩
  obtain ⟨j, rfl⟩ := (Tuple.sort x).surjective i
  have hj : ⟨0, hn⟩ ≤ j := Nat.zero_le j.val
  exact sorted_monotone x hj

/-- The last value in increasing order is the greatest one. -/
theorem isGreatest_sorted (x : Fin n → α) (hn : 0 < n) :
    IsGreatest (Set.range x) (sorted x (Fin.rev ⟨0, hn⟩)) := by
  refine ⟨⟨_, rfl⟩, ?_⟩
  rintro _ ⟨i, rfl⟩
  obtain ⟨j, rfl⟩ := (Tuple.sort x).surjective i
  have hj : j ≤ Fin.rev ⟨0, hn⟩ := by
    show j.val ≤ n - (0 + 1)
    have hlt := j.isLt
    omega
  exact sorted_monotone x hj

/-- An increasing map keeps the order. -/
theorem sorted_comp_monotone (x : Fin n → α) {f : α → α} (hf : Monotone f) :
    sorted (f ∘ x) = f ∘ sorted x :=
  sorted_eq_of_monotone (Tuple.sort x) (hf.comp (sorted_monotone x))

/-- A decreasing map turns the order around. -/
theorem sorted_comp_antitone (x : Fin n → α) {f : α → α} (hf : Antitone f) :
    sorted (f ∘ x) = f ∘ sorted x ∘ Fin.rev := by
  have h : Antitone (sorted x ∘ Fin.rev) := (sorted_monotone x).comp_antitone Fin.rev_anti
  exact sorted_eq_of_monotone (Fin.revPerm.trans (Tuple.sort x)) (hf.comp h)

/-- Keeping the greater of two values along a list. -/
theorem isGreatest_foldl_max (values : List α) (start : α) :
    IsGreatest {z | z ∈ start :: values} (values.foldl Max.max start) := by
  induction values generalizing start with
  | nil => simp
  | cons value rest ih =>
      obtain ⟨hmem, hle⟩ := ih (Max.max start value)
      constructor
      · rcases List.mem_cons.mp hmem with h | h
        · rw [List.foldl_cons, h]
          rcases max_choice start value with hmax | hmax <;> simp [hmax]
        · simp [h]
      · intro z hz
        have hmax := hle List.mem_cons_self
        rcases List.mem_cons.mp hz with rfl | hz
        · exact (le_max_left _ _).trans hmax
        · rcases List.mem_cons.mp hz with rfl | hz
          · exact (le_max_right _ _).trans hmax
          · exact hle (List.mem_cons_of_mem _ hz)

/-- Keeping the smaller of two values along a list. -/
theorem isLeast_foldl_min (values : List α) (start : α) :
    IsLeast {z | z ∈ start :: values} (values.foldl Min.min start) :=
  isGreatest_foldl_max (α := αᵒᵈ) values start

section Spread

variable [AddCommGroup α]

/-- The distance between the values at depth `p` from the upper and from the lower end. -/
def spread (x : Fin n → α) (p : Fin n) : α := sorted x p.rev - sorted x p

theorem spread_perm (x : Fin n → α) (σ : Equiv.Perm (Fin n)) (p : Fin n) :
    spread (x ∘ σ) p = spread x p := by
  rw [spread, sorted_perm, ← spread]

/-- Values deeper in the sample are closer together. -/
theorem spread_antitone [IsOrderedAddMonoid α] (x : Fin n → α) : Antitone (spread x) := by
  intro p q hpq
  exact sub_le_sub (sorted_monotone x (Fin.rev_anti hpq)) (sorted_monotone x hpq)

/-- Up to the middle the upper value is not below the lower one. -/
theorem spread_nonneg [IsOrderedAddMonoid α] (x : Fin n → α) {p : Fin n} (hp : p ≤ p.rev) :
    0 ≤ spread x p :=
  sub_nonneg.mpr (sorted_monotone x hp)

/-- An increasing map keeps the ends apart in their order. -/
theorem spread_comp_monotone (x : Fin n → α) {f : α → α} (hf : Monotone f) (p : Fin n) :
    spread (f ∘ x) p = f (sorted x p.rev) - f (sorted x p) := by
  rw [spread, sorted_comp_monotone x hf]
  rfl

/-- A decreasing map swaps the ends. -/
theorem spread_comp_antitone (x : Fin n → α) {f : α → α} (hf : Antitone f) (p : Fin n) :
    spread (f ∘ x) p = f (sorted x p) - f (sorted x p.rev) := by
  rw [spread, sorted_comp_antitone x hf]
  simp only [Function.comp_apply, Fin.rev_rev]

end Spread

variable {R : Type*} [Field R] [LinearOrder R] [IsStrictOrderedRing R]

/-- A change of origin and unit scales every spread by the absolute value of the unit. -/
theorem spread_affine (x : Fin n → R) (c k : R) (p : Fin n) :
    spread (fun i => c * x i + k) p = |c| * spread x p := by
  rcases le_total 0 c with hc | hc
  · have hf : Monotone fun z => c * z + k := (monotone_mul_left_of_nonneg hc).add_const k
    have h := spread_comp_monotone x hf p
    rw [add_sub_add_right_eq_sub, ← mul_sub] at h
    rw [abs_of_nonneg hc]
    exact h
  · have hf : Antitone fun z => c * z + k := (antitone_mul_left hc).add_const k
    have h := spread_comp_antitone x hf p
    rw [add_sub_add_right_eq_sub, ← mul_sub, ← neg_sub, ← neg_mul_comm] at h
    rw [abs_of_nonpos hc]
    exact h

end GnuRQi.Statistics
