import GnuRQi.R.Order

/-!
# The measures of spread of `burnout/call.R`

`the.range` is the distance of the extreme values and `find.IQR` that of the hinges. Both are
means of distances between values at the same depth from the two ends of the sample, so that the
general facts about these give their order and their behaviour under a change of unit.
-/

namespace GnuRQi.Call

open R Statistics

section Functions

variable {α : Type} [Field α] [LinearOrder α]

/-- `the.range(x)`. -/
def theRange (x : Vec α) : Num α := x.max - x.min

/-- `find.IQR(x)`. -/
def findIQR (x : Vec α) : Vec α :=
  let fiveNum := x.fivenum
  fiveNum.elt 4 - fiveNum.elt 2

end Functions

variable {α : Type} [Field α] [LinearOrder α] [IsStrictOrderedRing α] {n : ℕ}

/-- The midspread of a sample: the mean distance of the values in the two hinges. -/
def midspread (x : Fin n → α) (hn : 0 < n) : α :=
  (spread x (Vec.outerHinge hn) + spread x (Vec.innerHinge hn)) / (2 : ℕ)

omit [IsStrictOrderedRing α] in
/-- `the.range` is the distance of the values at depth 0. -/
theorem theRange_of (x : Fin n → α) (hn : 0 < n) :
    theRange (.of x) = .num (spread x ⟨0, hn⟩) := by
  rw [theRange, Vec.max_of (isGreatest_sorted x hn), Vec.min_of (isLeast_sorted x hn), Num.num_sub,
    spread]

/-- `find.IQR` is the midspread. -/
theorem findIQR_of (x : Fin n → α) (hn : 0 < n) :
    findIQR (.of x) = .single (.num (midspread x hn)) := by
  have hupper : ((Vec.of x).fivenum).elt 4 = .single (.num ((sorted x (Vec.innerHinge hn).rev +
      sorted x (Vec.outerHinge hn).rev) / 2)) := by
    rw [Vec.fivenum_of x hn]
    exact Vec.elt_of _ 3
  have hlower : ((Vec.of x).fivenum).elt 2 = .single (.num ((sorted x (Vec.outerHinge hn) +
      sorted x (Vec.innerHinge hn)) / 2)) := by
    rw [Vec.fivenum_of x hn]
    exact Vec.elt_of _ 1
  have hmid : (sorted x (Vec.innerHinge hn).rev + sorted x (Vec.outerHinge hn).rev) / 2 -
      (sorted x (Vec.outerHinge hn) + sorted x (Vec.innerHinge hn)) / 2 = midspread x hn := by
    rw [midspread, spread, spread, Nat.cast_ofNat]
    ring
  rw [findIQR, hupper, hlower, Vec.single_sub_single, Num.num_sub, hmid]

/-- The hinges are not below the middle of the sample. -/
theorem innerHinge_le_rev (hn : 0 < n) : Vec.innerHinge hn ≤ (Vec.innerHinge hn).rev := by
  show ((n + 3) / 2 + 1) / 2 - 1 ≤ n - (((n + 3) / 2 + 1) / 2 - 1 + 1)
  omega

theorem outerHinge_le_innerHinge (hn : 0 < n) : Vec.outerHinge hn ≤ Vec.innerHinge hn := by
  show (n + 3) / 2 / 2 - 1 ≤ ((n + 3) / 2 + 1) / 2 - 1
  omega

/-- The hinges are in their order. -/
theorem midspread_nonneg (x : Fin n → α) (hn : 0 < n) : 0 ≤ midspread x hn := by
  have hinner : 0 ≤ spread x (Vec.innerHinge hn) := spread_nonneg x (innerHinge_le_rev hn)
  have houter := spread_antitone x (outerHinge_le_innerHinge hn)
  exact div_nonneg (add_nonneg (hinner.trans houter) hinner) (Nat.cast_nonneg 2)

/-- The hinges lie between the extreme values. -/
theorem midspread_le_spread (x : Fin n → α) (hn : 0 < n) :
    midspread x hn ≤ spread x ⟨0, hn⟩ := by
  have hle : ∀ p : Fin n, spread x p ≤ spread x ⟨0, hn⟩ := by
    intro p
    have hp : ⟨0, hn⟩ ≤ p := Nat.zero_le p.val
    exact spread_antitone x hp
  have htwo : (0 : α) < (2 : ℕ) := Nat.cast_pos.mpr two_pos
  rw [midspread, div_le_iff₀ htwo, Nat.cast_ofNat, mul_two]
  exact add_le_add (hle _) (hle _)

/-- A change of unit, of origin and of order. -/
theorem midspread_affine (x : Fin n → α) (hn : 0 < n) (c k : α) (σ : Equiv.Perm (Fin n)) :
    midspread (fun i => c * x (σ i) + k) hn = |c| * midspread x hn := by
  have h : ∀ p, spread (fun i => c * x (σ i) + k) p = |c| * spread x p := by
    intro p
    rw [spread_affine (fun i => x (σ i)) c k p]
    exact congrArg (|c| * ·) (spread_perm x σ p)
  rw [midspread, h, h, ← mul_add, mul_div_assoc, ← midspread]

/-- The interquartile range is between zero and the range. Under a change of unit, of origin and of
the order of the observations both change by the absolute value of the unit. -/
theorem measures_of_spread (x : Fin n → α) (hn : 0 < n) :
    ∃ iqr range : α, findIQR (.of x) = .single (.num iqr) ∧ theRange (.of x) = .num range ∧
      0 ≤ iqr ∧ iqr ≤ range ∧
      ∀ (c k : α) (σ : Equiv.Perm (Fin n)),
        findIQR (Vec.single (.num c) * .of (x ∘ σ) + .single (.num k)) =
          .single (.num (|c| * iqr)) ∧
        theRange (Vec.single (.num c) * .of (x ∘ σ) + .single (.num k)) = .num (|c| * range) := by
  refine ⟨midspread x hn, spread x ⟨0, hn⟩, findIQR_of x hn, theRange_of x hn,
    midspread_nonneg x hn, midspread_le_spread x hn, ?_⟩
  intro c k σ
  rw [Vec.single_mul_of, Vec.of_add_single, findIQR_of _ hn, theRange_of _ hn]
  constructor
  · exact congrArg (fun z => Vec.single (.num z)) (midspread_affine x hn c k σ)
  · rw [spread_affine, spread_perm]

theorem measures_of_spread_pair :
    ∃ iqr range : ℚ, findIQR (.of ![0, 2]) = .single (.num iqr) ∧
      theRange (.of ![0, 2]) = .num range ∧ 0 ≤ iqr ∧ iqr ≤ range := by
  obtain ⟨iqr, range, hiqr, hrange, hnonneg, hle, -⟩ := measures_of_spread ![(0 : ℚ), 2] two_pos
  exact ⟨iqr, range, hiqr, hrange, hnonneg, hle⟩

end GnuRQi.Call
