import Mathlib.Algebra.Order.Floor.Semifield
import Mathlib.Data.List.Sort
import Mathlib.Data.Rat.Floor
import GnuRQi.R.Vector
import GnuRQi.Statistics.Order

/-!
# `sort`, `max`, `min` and `fivenum`

Functions of R that compare the elements of a vector. On a data set they give its order
statistics.
-/

namespace GnuRQi.R

namespace Num

variable {α : Type} [LinearOrder α]

/-- `x <= y` is true. -/
def le (x y : Num α) : Prop := y.lt x = some false

instance : DecidableRel (le (α := α)) := fun x y =>
  inferInstanceAs (Decidable (y.lt x = some false))

@[simp] theorem num_le (x y : α) : (num x).le (num y) ↔ x ≤ y := by
  simp [le]

/-- `is.na(x)`, which is true of `NaN` as well. -/
def isNA : Num α → Bool
  | na | nan => true
  | _ => false

end Num

namespace Vec

variable {α : Type} [LinearOrder α] {n : ℕ}

/-- `sort(v)`. Missing values are dropped. -/
def sort (v : Vec α) : Vec α := ⟨(v.elems.filter fun a => !a.isNA).insertionSort Num.le⟩

/-- The element that no later one replaces. A missing value decides the result. -/
def extreme (start : Num α) (replaces : Num α → Num α → Option Bool) (v : Vec α) : Num α :=
  if .na ∈ v.elems then .na
  else if .nan ∈ v.elems then .nan
  else v.elems.foldl (fun best a => if replaces a best = some true then a else best) start

/-- `max(v)`. -/
def max (v : Vec α) : Num α := extreme .negInf (fun a best => best.lt a) v

/-- `min(v)`. -/
def min (v : Vec α) : Num α := extreme .inf Num.lt v

/-- The elements `v[is]` at several indices. -/
def select (v : Vec α) (indices : List ℕ) : Vec α := ⟨indices.flatMap fun i => (v.elt i).elems⟩

/-- `sort(v)` of finite numbers. -/
theorem sort_num (values : List α) :
    (⟨values.map .num⟩ : Vec α).sort = ⟨(values.insertionSort (· ≤ ·)).map .num⟩ := by
  have hkeep : ((values.map Num.num).filter fun a => !a.isNA) = values.map .num := by
    rw [List.filter_map]
    simp [Function.comp_def, Num.isNA]
  have hmap := List.map_insertionSort (· ≤ ·) Num.le Num.num values (by simp)
  rw [sort, hkeep, hmap]

/-- `sort(v)` of a data set. -/
theorem sort_of (x : Fin n → α) : (of x).sort = of (Statistics.sorted x) := by
  have hof : ∀ z : Fin n → α, of z = ⟨(List.ofFn z).map .num⟩ := by
    intro z
    rw [← elems_of]
  rw [hof, sort_num, Statistics.insertionSort_ofFn, ← hof]

/-- On finite numbers the fold of `extreme` picks one of two at each element. -/
theorem extreme_num {start : Num α} {replaces : Num α → Num α → Option Bool} {pick : α → α → α}
    (hstart : ∀ a, replaces (.num a) start = some true)
    (hstep : ∀ best a, (if replaces (.num a) (.num best) = some true then .num a
      else .num best) = Num.num (pick best a)) (a : α) (values : List α) :
    extreme start replaces ⟨(a :: values).map .num⟩ = .num (values.foldl pick a) := by
  have hfold : ∀ best, (values.map Num.num).foldl
      (fun best a => if replaces a best = some true then a else best) (.num best) =
        .num (values.foldl pick best) := by
    induction values with
    | nil => exact fun _ => rfl
    | cons b rest ih =>
        intro best
        rw [List.map_cons, List.foldl_cons, hstep, ih, List.foldl_cons]
  simp only [extreme, List.map_cons, List.foldl_cons, hstart, if_true, hfold]
  simp

omit [LinearOrder α] in
/-- A data set that is not empty as the list of its values. -/
theorem exists_cons_of (x : Fin n → α) (hn : 0 < n) :
    ∃ a values, of x = ⟨(a :: values).map .num⟩ ∧ Set.range x = {z | z ∈ a :: values} := by
  cases hvalues : List.ofFn x with
  | nil =>
      rw [List.ofFn_eq_nil_iff] at hvalues
      omega
  | cons a values =>
      refine ⟨a, values, ?_, ?_⟩
      · rw [← hvalues, ← elems_of]
      · ext z
        rw [← hvalues]
        simp

/-- `extreme` of a data set is the value that is picked along any list of its values. -/
theorem extreme_of {x : Fin n → α} {start : Num α} {replaces : Num α → Num α → Option Bool}
    {pick : α → α → α} {m : α} (hn : 0 < n)
    (hstart : ∀ a, replaces (.num a) start = some true)
    (hstep : ∀ best a, (if replaces (.num a) (.num best) = some true then .num a
      else .num best) = Num.num (pick best a))
    (hpick : ∀ a values, Set.range x = {z | z ∈ a :: values} → values.foldl pick a = m) :
    extreme start replaces (of x) = .num m := by
  obtain ⟨a, values, hof, hrange⟩ := exists_cons_of x hn
  rw [hof, extreme_num hstart hstep, hpick a values hrange]

/-- `max(v)` of a data set. -/
theorem max_of {x : Fin n → α} {m : α} (hm : IsGreatest (Set.range x) m) :
    (of x).max = .num m := by
  have hstep : ∀ best a : α, (if (Num.num best).lt (.num a) = some true then .num a
      else .num best) = Num.num (Max.max best a) := by
    intro best a
    rcases lt_or_ge best a with h | h
    · simp [h, h.le]
    · simp [h, not_lt.mpr h]
  obtain ⟨i, -⟩ := hm.1
  refine extreme_of i.pos (fun _ => rfl) hstep ?_
  intro a values hrange
  rw [hrange] at hm
  exact (Statistics.isGreatest_foldl_max values a).unique hm

/-- `min(v)` of a data set. -/
theorem min_of {x : Fin n → α} {m : α} (hm : IsLeast (Set.range x) m) :
    (of x).min = .num m := by
  have hstep : ∀ best a : α, (if (Num.num a).lt (.num best) = some true then .num a
      else .num best) = Num.num (Min.min best a) := by
    intro best a
    rcases lt_or_ge a best with h | h
    · simp [h, h.le]
    · simp [h, not_lt.mpr h]
  obtain ⟨i, -⟩ := hm.1
  refine extreme_of i.pos (fun _ => rfl) hstep ?_
  intro a values hrange
  rw [hrange] at hm
  exact (Statistics.isLeast_foldl_min values a).unique hm

omit [LinearOrder α] in
/-- The element of a data set at an index in range. -/
theorem elt_of (x : Fin n → α) (i : Fin n) : (of x).elt (i + 1) = single (.num (x i)) :=
  elt_ofFn _ i

omit [LinearOrder α] in
/-- The elements of a data set at indices in range. -/
theorem select_of {k : ℕ} (x : Fin n → α) (p : Fin k → Fin n) :
    (of x).select (List.ofFn fun i => (p i : ℕ) + 1) = of (x ∘ p) := by
  have hindices : (List.ofFn fun i => (p i : ℕ) + 1) = (List.ofFn p).map fun i => i.val + 1 := by
    rw [List.map_ofFn]
    rfl
  rw [select, hindices, List.flatMap_map]
  simp only [elt_of, single]
  rw [← List.map_eq_flatMap, List.map_ofFn]
  rfl

section Fivenum

variable [Field α]

/-- `fivenum(v)`: least value, lower hinge, median, upper hinge and greatest value. -/
def fivenum (v : Vec α) : Vec α :=
  let x := v.sort
  let n := x.length
  if n = 0 then ⟨List.replicate 5 .na⟩
  else
    let n4 : ℚ := (⌊((n : ℚ) + 3) / 2⌋₊ : ℚ) / 2
    let d : List ℚ := [1, n4, ((n : ℚ) + 1) / 2, (n : ℚ) + 1 - n4, n]
    (x.select (d.map fun i => ⌊i⌋₊) + x.select (d.map fun i => ⌈i⌉₊)) / 2

/-- The depth of the outer value in a hinge. -/
def outerHinge (hn : 0 < n) : Fin n := ⟨(n + 3) / 2 / 2 - 1, by omega⟩

/-- The depth of the inner value in a hinge. -/
def innerHinge (hn : 0 < n) : Fin n := ⟨((n + 3) / 2 + 1) / 2 - 1, by omega⟩

/-- The depth of the lower value in the median. -/
def medianDepth (hn : 0 < n) : Fin n := ⟨(n + 1) / 2 - 1, by omega⟩

theorem floor_half (m : ℕ) : ⌊(m : ℚ) / 2⌋₊ = m / 2 :=
  Nat.floor_div_eq_div m 2

theorem ceil_half (m : ℕ) : ⌈(m : ℚ) / 2⌉₊ = (m + 1) / 2 := by
  rcases Nat.even_or_odd' m with ⟨j, rfl | rfl⟩
  · have hj : ((2 * j : ℕ) : ℚ) / 2 = j := by
      push_cast
      ring
    rw [hj, Nat.ceil_natCast]
    omega
  · have hj : (2 * j + 1 + 1) / 2 = j + 1 := by omega
    rw [hj, Nat.ceil_eq_iff (by omega)]
    push_cast
    constructor <;> linarith

/-- The lower of the two indices of each entry of `fivenum`, counted from 0. -/
def lowerIndex (hn : 0 < n) : Fin 5 → Fin n :=
  ![⟨0, hn⟩, outerHinge hn, medianDepth hn, (innerHinge hn).rev, Fin.rev ⟨0, hn⟩]

/-- The upper of the two indices of each entry of `fivenum`, counted from 0. -/
def upperIndex (hn : 0 < n) : Fin 5 → Fin n :=
  ![⟨0, hn⟩, innerHinge hn, (medianDepth hn).rev, (outerHinge hn).rev, Fin.rev ⟨0, hn⟩]

/-- `fivenum(v)` of a data set. The values of the upper hinge are those of the lower one counted
from the other end. -/
theorem fivenum_of [CharZero α] (x : Fin n → α) (hn : 0 < n) :
    (of x).fivenum = of fun i => (Statistics.sorted x (lowerIndex hn i) +
      Statistics.sorted x (upperIndex hn i)) / 2 := by
  have hn4 : ⌊((n : ℚ) + 3) / 2⌋₊ = (n + 3) / 2 := by
    exact_mod_cast floor_half (n + 3)
  have hmedian : ((n : ℚ) + 1) / 2 = (n + 1 : ℕ) / 2 := by push_cast; ring
  have hupper : (n : ℚ) + 1 - ((n + 3) / 2 : ℕ) / 2 = (2 * n + 2 - (n + 3) / 2 : ℕ) / 2 := by
    rw [Nat.cast_sub (by omega)]
    push_cast
    ring
  have hfloor : [1, (n + 3) / 2 / 2, (n + 1) / 2, (2 * n + 2 - (n + 3) / 2) / 2, n] =
      List.ofFn fun i => (lowerIndex hn i : ℕ) + 1 := by
    simp [List.ofFn_succ, lowerIndex, outerHinge, innerHinge, medianDepth]
    omega
  have hceil : [1, ((n + 3) / 2 + 1) / 2, (n + 1 + 1) / 2, (2 * n + 2 - (n + 3) / 2 + 1) / 2, n] =
      List.ofFn fun i => (upperIndex hn i : ℕ) + 1 := by
    simp [List.ofFn_succ, upperIndex, outerHinge, innerHinge, medianDepth]
    omega
  simp only [fivenum, sort_of, length_of, hn.ne', if_false, hn4, hmedian, hupper]
  simp only [List.map_cons, List.map_nil, Nat.floor_one, Nat.ceil_one, floor_half, ceil_half,
    Nat.floor_natCast, Nat.ceil_natCast, hfloor, hceil, select_of, of_add, ofNat_eq]
  rw [of_div_single _ _ two_ne_zero]
  rfl

end Fivenum

end Vec

end GnuRQi.R
