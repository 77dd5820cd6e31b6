import Mathlib.Analysis.SpecialFunctions.Log.Basic
import Mathlib.Analysis.SpecialFunctions.Sqrt
import Mathlib.Data.Nat.Choose.Basic
import Mathlib.RingTheory.Polynomial.Pochhammer

/-!
# Numbers of R

A number of R is a finite number, one of the two infinities, `NaN` or the missing value `NA`.
Arithmetic on finite numbers is taken as exact; apart from rounding the operations follow R,
so that dividing by zero gives an infinity or `NaN`, and every operation with `NA` gives `NA`.

The lemmas `num_add` to `exp_num` say that an operation on finite numbers is that of the field
whenever it is defined there, and `na_add` to `div_na` that a missing value stays missing. They
form the simp set of everything computed from data.
-/

namespace GnuRQi.R

/-- A number of R over a field of finite numbers. -/
inductive Num (α : Type) where
  | num (value : α)
  | inf
  | negInf
  | nan
  | na
  deriving DecidableEq

namespace Num

variable {α : Type}

instance [NatCast α] : NatCast (Num α) := ⟨fun n => num (n : α)⟩

instance {n : Nat} [NatCast α] : OfNat (Num α) n := ⟨num (n : α)⟩

theorem natCast_eq [NatCast α] (n : Nat) : (n : Num α) = num (n : α) := rfl

@[simp] theorem zero_eq [AddMonoidWithOne α] : (0 : Num α) = num 0 :=
  congrArg num Nat.cast_zero

@[simp] theorem one_eq [AddMonoidWithOne α] : (1 : Num α) = num 1 :=
  congrArg num Nat.cast_one

@[simp] theorem ofNat_eq {n : Nat} [n.AtLeastTwo] [NatCast α] :
    (OfNat.ofNat n : Num α) = num (OfNat.ofNat n) := rfl

section Arithmetic

variable [Field α]

/-- Addition. Opposite infinities have no sum. -/
def add : Num α → Num α → Num α
  | na, _ | _, na => na
  | nan, _ | _, nan => nan
  | inf, negInf | negInf, inf => nan
  | inf, _ | _, inf => inf
  | negInf, _ | _, negInf => negInf
  | num x, num y => num (x + y)

/-- Unary minus. -/
def neg : Num α → Num α
  | num x => num (-x)
  | inf => negInf
  | negInf => inf
  | nan => nan
  | na => na

instance : Add (Num α) := ⟨add⟩
instance : Neg (Num α) := ⟨neg⟩
instance : Sub (Num α) := ⟨fun x y => x + -y⟩

@[simp] theorem num_add (x y : α) : num x + num y = num (x + y) := rfl

@[simp] theorem num_neg (x : α) : -num x = num (-x) := rfl

@[simp] theorem num_sub (x y : α) : num x - num y = num (x - y) := by
  rw [sub_eq_add_neg]
  rfl

@[simp] theorem na_add (x : Num α) : na + x = na := by
  cases x <;> rfl

@[simp] theorem add_na (x : Num α) : x + na = na := by
  cases x <;> rfl

@[simp] theorem na_sub (x : Num α) : na - x = na :=
  na_add (-x)

variable [LinearOrder α]

/-- The infinity with the sign of a number, and `NaN` for zero. -/
def signed (x : α) : Num α :=
  if x = 0 then nan else if 0 < x then inf else negInf

/-- Multiplication. Zero times an infinity is `NaN`. -/
def mul : Num α → Num α → Num α
  | na, _ | _, na => na
  | nan, _ | _, nan => nan
  | num x, num y => num (x * y)
  | inf, num x | num x, inf => signed x
  | negInf, num x | num x, negInf => signed (-x)
  | inf, inf | negInf, negInf => inf
  | inf, negInf | negInf, inf => negInf

/-- Division. A finite number divided by zero is the infinity with its sign. -/
def div : Num α → Num α → Num α
  | na, _ | _, na => na
  | nan, _ | _, nan => nan
  | num x, num y => if y = 0 then signed x else num (x / y)
  | num _, inf | num _, negInf => num 0
  | inf, num y => if y < 0 then negInf else inf
  | negInf, num y => if y < 0 then inf else negInf
  | inf, inf | inf, negInf | negInf, inf | negInf, negInf => nan

instance : Mul (Num α) := ⟨mul⟩
instance : Div (Num α) := ⟨div⟩

/-- `x^n` for a literal exponent. -/
def pow (x : Num α) : Nat → Num α
  | 0 => num 1
  | 1 => x
  | n + 2 => pow x (n + 1) * x

instance : Pow (Num α) Nat := ⟨pow⟩

@[simp] theorem num_mul (x y : α) : num x * num y = num (x * y) := rfl

@[simp] theorem mul_na (x : Num α) : x * na = na := by
  cases x <;> rfl

@[simp] theorem na_mul (x : Num α) : na * x = na := by
  cases x <;> rfl

@[simp] theorem na_div (x : Num α) : na / x = na := by
  cases x <;> rfl

@[simp] theorem div_na (x : Num α) : x / na = na := by
  cases x <;> rfl

@[simp] theorem num_div (x : α) {y : α} (h : y ≠ 0) : num x / num y = num (x / y) :=
  if_neg h

@[simp] theorem num_sq (x : α) : num x ^ 2 = num (x ^ 2) := by
  rw [pow_two]
  rfl

@[simp] theorem num_cube (x : α) : num x ^ 3 = num (x ^ 3) := by
  rw [pow_succ, pow_two]
  rfl

end Arithmetic

/-- `x < y` as a logical of R, where `none` is `NA`. -/
def lt [LinearOrder α] : Num α → Num α → Option Bool
  | na, _ | _, na | nan, _ | _, nan => none
  | num x, num y => some (decide (x < y))
  | _, negInf | inf, _ => some false
  | negInf, _ | _, inf => some true

@[simp] theorem num_lt [LinearOrder α] (x y : α) :
    (num x).lt (num y) = some (decide (x < y)) := rfl

/-! ## Functions of the reals -/

/-- `sqrt(x)`. -/
noncomputable def sqrt : Num ℝ → Num ℝ
  | num x => if x < 0 then nan else num (Real.sqrt x)
  | inf => inf
  | negInf => nan
  | nan => nan
  | na => na

/-- `exp(x)`. -/
noncomputable def exp : Num ℝ → Num ℝ
  | num x => num (Real.exp x)
  | inf => inf
  | negInf => num 0
  | nan => nan
  | na => na

/-- `log(x)`. -/
noncomputable def log : Num ℝ → Num ℝ
  | num x => if x < 0 then nan else if x = 0 then negInf else num (Real.log x)
  | inf => inf
  | negInf => nan
  | nan => nan
  | na => na

/-- The nearest integer, where a half goes to the even neighbour. -/
noncomputable def forceint (x : ℝ) : ℤ :=
  -- Half way between two integers `round` takes the upper one.
  if Int.fract x + Int.fract x = 1 ∧ round x % 2 = 1 then round x - 1 else round x

/-- The binomial coefficient of a finite number: `n(n-1)...(n-k+1)/k!` for the rounded `k`, and
zero where that is negative. -/
noncomputable def binomialCoefficient (n k : ℝ) : ℝ :=
  if forceint k < 0 then 0
  else (∏ i ∈ Finset.range (forceint k).toNat, (n - i)) / (forceint k).toNat.factorial

/-- `choose(n, k)`. Infinite operands are no counts; they are given `NaN`. -/
noncomputable def choose : Num ℝ → Num ℝ → Num ℝ
  | na, _ | _, na => na
  | num n, num k => num (binomialCoefficient n k)
  | _, _ => nan

@[simp] theorem sqrt_num {x : ℝ} (h : 0 ≤ x) : sqrt (num x) = num (Real.sqrt x) :=
  if_neg (not_lt.mpr h)

@[simp] theorem sqrt_na : sqrt na = na := rfl

@[simp] theorem exp_num (x : ℝ) : exp (num x) = num (Real.exp x) := rfl

@[simp] theorem log_num {x : ℝ} (h : 0 < x) : log (num x) = num (Real.log x) := by
  simp [log, not_lt.mpr h.le, h.ne']

@[simp] theorem forceint_intCast (k : ℤ) : forceint k = k := by
  simp [forceint]

/-- On counts `choose` is the binomial coefficient. -/
@[simp] theorem choose_natCast (n k : ℕ) :
    choose (num n) (num k) = num (n.choose k : ℝ) := by
  have hk : forceint k = k := forceint_intCast k
  have hprod : ∏ i ∈ Finset.range k, ((n : ℝ) - i) = n.descFactorial k := by
    rw [← descPochhammer_eval_eq_prod_range, descPochhammer_eval_eq_descFactorial]
  have hfactorial : (k.factorial : ℝ) ≠ 0 := Nat.cast_ne_zero.mpr k.factorial_ne_zero
  rw [choose, binomialCoefficient, hk, if_neg (not_lt.mpr (Int.natCast_nonneg k)),
    Int.toNat_natCast, hprod, Nat.descFactorial_eq_factorial_mul_choose, Nat.cast_mul,
    mul_div_cancel_left₀ _ hfactorial]

end Num

end GnuRQi.R
