import GnuRQi.R.Vector
import GnuRQi.Statistics.Sample

/-!
# `mean`, `var` and `sd`

The statistics of a data set, as R computes them, are those of the sample.
-/

namespace GnuRQi.R.Vec

open GnuRQi.R.Num

variable {n : Nat}

section Field

variable {α : Type} [Field α] [LinearOrder α] [IsStrictOrderedRing α] (x : Fin n → α)

/-- `mean(v)`. -/
theorem mean_of (hn : 0 < n) : (of x).mean = .num (Statistics.mean x) := by
  have hne : (n : α) ≠ 0 := Nat.cast_ne_zero.mpr hn.ne'
  simp [mean, natCast_eq, hne, Statistics.mean]

/-- `var(v)`. -/
theorem var_of (hn : 2 ≤ n) : (of x).var = .num (Statistics.variance x) := by
  have hne : (n : α) - 1 ≠ 0 := by
    rw [sub_ne_zero]
    exact_mod_cast (show n ≠ 1 by omega)
  have hlt : ¬ n < 2 := by omega
  simp [var, hlt, mean_of x (by omega), natCast_eq, hne, Statistics.variance,
    Statistics.sumSq]

end Field

/-- `sd(v)`, the square root of the variance. -/
noncomputable def sd (v : Vec ℝ) : Num ℝ := Num.sqrt v.var

end GnuRQi.R.Vec
