import Mathlib.Algebra.Order.Field.Basic
import Mathlib.Algebra.Ring.CharZero
import Mathlib.Data.List.Chain
import Mathlib.Tactic.FieldSimp
import Mathlib.Tactic.LinearCombination
import Mathlib.Tactic.Ring

/-!
# Trapezoid sums over halved intervals

The composite trapezoid rule over a list of points, and the subdivisions of an interval by
points that arise from it by at most `m` successive halvings. The rule is additive in the
integrand and exact for the identity, whatever the points.
-/

namespace GnuRQi.Quadrature

section Rule

variable {α : Type*} [Field α]

/-- One trapezoid: the width of an interval times the mean of the values at its ends. -/
def trap (a b fa fb : α) : α := (b - a) * (fa + fb) / (2 : ℕ)

/-- The composite trapezoid sum of a function over a list of points. -/
def trapezoid (f : α → α) : List α → α
  | x :: y :: rest => trap x y (f x) (f y) + trapezoid f (y :: rest)
  | _ => 0

/-- The trapezoid rule is additive in the integrand. -/
theorem trapezoid_add (f g : α → α) (xs : List α) :
    trapezoid (fun x => f x + g x) xs = trapezoid f xs + trapezoid g xs := by
  induction xs with
  | nil => simp [trapezoid]
  | cons x rest ih =>
      cases rest with
      | nil => simp [trapezoid]
      | cons y rest =>
          rw [trapezoid, ih, trapezoid, trapezoid]
          unfold trap
          ring

/-- The trapezoid sum of the zero function. -/
theorem trapezoid_zero (xs : List α) : trapezoid (fun _ => 0) xs = 0 := by
  induction xs with
  | nil => rfl
  | cons x rest ih =>
      cases rest with
      | nil => rfl
      | cons y rest => simp [trapezoid, trap, ih]

variable [CharZero α]

/-- The trapezoid rule is exact for the identity, because the terms telescope. -/
theorem trapezoid_id (a b : α) (inner : List α) :
    trapezoid (fun x => x) (a :: (inner ++ [b])) = (b ^ 2 - a ^ 2) / 2 := by
  induction inner generalizing a with
  | nil =>
      simp only [List.nil_append, trapezoid, trap]
      ring
  | cons x rest ih =>
      rw [List.cons_append, trapezoid, ih x]
      unfold trap
      ring

end Rule

/-! ## Subdivisions -/

/-- A subdivision by points that arise by at most `m` successive halvings: the interval is cut
into `2 ^ m` equal parts, and the points of the subdivision are some of their ends, in order and
with both ends of the interval among them. -/
structure Subdivision (m : ℕ) where
  inner : List ℕ
  increasing : List.IsChain (· < ·) (0 :: (inner ++ [2 ^ m]))

namespace Subdivision

variable {α : Type*} [Field α] {m : ℕ}

/-- The point at a position of the grid. -/
def point (a b : α) (m j : ℕ) : α := a + (b - a) * (j / (2 ^ m : ℕ))

/-- The points of a subdivision of `[a, b]`. -/
def points (Q : Subdivision m) (a b : α) : List α :=
  (0 :: (Q.inner ++ [2 ^ m])).map (point a b m)

/-- The trapezoid sum over a subdivision. -/
def sum (Q : Subdivision m) (f : α → α) (a b : α) : α := trapezoid f (Q.points a b)

/-- The subdivision at the midpoint. -/
def midpoint (m : ℕ) : Subdivision (m + 1) where
  inner := [2 ^ m]
  increasing := by simp [pow_succ]

/-- The subdivision whose inner points lie `i` and `j` halvings from the two ends. -/
def ends (m i j : ℕ) (hi : 0 < i) (him : i ≤ m) (hj : 0 < j) (hjm : j ≤ m) :
    Subdivision (m + 1) where
  inner := [2 ^ (m - i), 2 ^ (m + 1) - 2 ^ (m - j)]
  increasing := by
    have hleft : 2 ^ (m - i) < 2 ^ m := Nat.pow_lt_pow_right (by omega) (by omega)
    have hright : 2 ^ (m - j) < 2 ^ m := Nat.pow_lt_pow_right (by omega) (by omega)
    have hpos : 0 < 2 ^ (m - i) := Nat.two_pow_pos _
    have hpos' : 0 < 2 ^ (m - j) := Nat.two_pow_pos _
    simp only [List.cons_append, List.nil_append, List.isChain_cons_cons,
      List.isChain_singleton, and_true, pow_succ]
    omega

@[simp] theorem point_zero (a b : α) (m : ℕ) : point a b m 0 = a := by
  simp [point]

variable [CharZero α]

@[simp] theorem point_last (a b : α) (m : ℕ) : point a b m (2 ^ m) = b := by
  have hne : (2 : α) ^ m ≠ 0 := pow_ne_zero _ two_ne_zero
  simp [point, hne]

/-- A point of the grid stays one when the interval is halved once more. -/
theorem point_double (a b : α) (m j : ℕ) : point a b (m + 1) (2 * j) = point a b m j := by
  simp only [point, pow_succ, Nat.cast_mul, Nat.cast_ofNat]
  field_simp

/-- The other points of the finer grid are the midpoints of the coarser one. -/
theorem point_halve (a b : α) (m j : ℕ) :
    point a b (m + 1) (2 * j + 1) = (point a b m j + point a b m (j + 1)) / 2 := by
  simp only [point, pow_succ, Nat.cast_add, Nat.cast_mul, Nat.cast_ofNat, Nat.cast_one]
  field_simp
  ring

/-- `Halved a b m x y`: the interval `[x, y]` arises from `[a, b]` by `m` successive halvings. -/
inductive Halved (a b : α) : ℕ → α → α → Prop where
  | whole : Halved a b 0 a b
  | left {m : ℕ} {x y : α} : Halved a b m x y → Halved a b (m + 1) x ((x + y) / 2)
  | right {m : ℕ} {x y : α} : Halved a b m x y → Halved a b (m + 1) ((x + y) / 2) y

/-- The intervals that arise by `m` halvings are those between neighbours of the grid, so that the
points of the grid are just those that arise by at most `m` halvings. -/
theorem halved_iff (a b : α) (m : ℕ) (x y : α) :
    Halved a b m x y ↔ ∃ j < 2 ^ m, x = point a b m j ∧ y = point a b m (j + 1) := by
  constructor
  · intro h
    induction h with
    | whole => exact ⟨0, Nat.one_pos, (point_zero a b 0).symm, (point_last a b 0).symm⟩
    | left h ih =>
        obtain ⟨j, hj, rfl, rfl⟩ := ih
        exact ⟨2 * j, by rw [pow_succ]; omega, (point_double a b _ j).symm,
          (point_halve a b _ j).symm⟩
    | right h ih =>
        obtain ⟨j, hj, rfl, rfl⟩ := ih
        exact ⟨2 * j + 1, by rw [pow_succ]; omega, (point_halve a b _ j).symm,
          (point_double a b _ (j + 1)).symm⟩
  · rintro ⟨j, hj, rfl, rfl⟩
    induction m generalizing j with
    | zero =>
        obtain rfl : j = 0 := by simpa using hj
        have hlast : point a b 0 (0 + 1) = b := point_last a b 0
        rw [point_zero, hlast]
        exact .whole
    | succ m ih =>
        rw [pow_succ] at hj
        -- The index says by its parity which half the interval is.
        obtain ⟨i, rfl | rfl⟩ := Nat.even_or_odd' j
        · rw [point_double, point_halve]
          exact .left (ih i (by omega))
        · have hnext : point a b (m + 1) (2 * i + 1 + 1) = point a b m (i + 1) :=
            point_double a b m (i + 1)
          rw [point_halve, hnext]
          exact .right (ih i (by omega))

/-- The trapezoid sum of a function, from that of its distance to the identity. -/
theorem sum_eq (Q : Subdivision m) (f : α → α) (a b : α) :
    Q.sum f a b = (b ^ 2 - a ^ 2) / 2 + Q.sum (fun x => f x - x) a b := by
  have hid : Q.sum (fun x => x) a b = (b ^ 2 - a ^ 2) / 2 := by
    simp only [sum, points, List.map_cons, List.map_append, List.map_nil, point_zero, point_last]
    exact trapezoid_id a b _
  calc
    Q.sum f a b = Q.sum (fun x => x + (f x - x)) a b := by simp only [add_sub_cancel]
    _ = Q.sum (fun x => x) a b + Q.sum (fun x => f x - x) a b := trapezoid_add _ _ _
    _ = (b ^ 2 - a ^ 2) / 2 + Q.sum (fun x => f x - x) a b := by rw [hid]

/-- A position at a power of two is that many halvings from the left end. -/
theorem point_left (a b : α) {m i : ℕ} (hi : i ≤ m) :
    point a b m (2 ^ (m - i)) = a + (b - a) / 2 ^ i := by
  have hne : (2 : α) ≠ 0 := two_ne_zero
  have hpow : (2 : α) ^ m = 2 ^ (m - i) * 2 ^ i := by rw [← pow_add, Nat.sub_add_cancel hi]
  simp only [point, Nat.cast_pow, Nat.cast_ofNat]
  rw [hpow]
  field_simp

/-- The position as far from the right end. -/
theorem point_right (a b : α) {m i : ℕ} (hi : i ≤ m) :
    point a b m (2 ^ m - 2 ^ (m - i)) = b - (b - a) / 2 ^ i := by
  have hle : 2 ^ (m - i) ≤ 2 ^ m := Nat.pow_le_pow_right two_pos (Nat.sub_le m i)
  have hleft : point a b m (2 ^ (m - i)) = a + (b - a) / 2 ^ i := point_left a b hi
  have hlast : point a b m (2 ^ m) = b := point_last a b m
  unfold point at hleft hlast ⊢
  rw [Nat.cast_sub hle]
  linear_combination hlast - hleft

/-- The sum over the two halves of a function that vanishes at the midpoint. -/
theorem sum_midpoint (m : ℕ) {g : α → α} {a b : α} (hg : g (point a b (m + 1) (2 ^ m)) = 0) :
    (midpoint m).sum g a b = g a * (b - a) / 2 ^ 2 + g b * (b - a) / 2 ^ 2 := by
  have hpoint : point a b (m + 1) (2 ^ m) = a + (b - a) / 2 ^ 1 :=
    point_left a b (i := 1) (Nat.le_add_left 1 m)
  simp only [sum, points, midpoint, List.cons_append, List.nil_append, List.map_cons,
    List.map_nil, point_zero, point_last, trapezoid, trap, hg]
  rw [hpoint]
  ring

/-- The sum of a function that vanishes at the inner points of `ends`. -/
theorem sum_ends {m i j : ℕ} (hi : 0 < i) (him : i ≤ m) (hj : 0 < j) (hjm : j ≤ m)
    {g : α → α} {a b : α} (hleft : g (point a b (m + 1) (2 ^ (m - i))) = 0)
    (hright : g (point a b (m + 1) (2 ^ (m + 1) - 2 ^ (m - j))) = 0) :
    (ends m i j hi him hj hjm).sum g a b =
      g a * (b - a) / 2 ^ (i + 2) + g b * (b - a) / 2 ^ (j + 2) := by
  have hp : point a b (m + 1) (2 ^ (m - i)) = a + (b - a) / 2 ^ (i + 1) := by
    rw [← Nat.succ_sub_succ]
    exact point_left a b (Nat.succ_le_succ him)
  have hq : point a b (m + 1) (2 ^ (m + 1) - 2 ^ (m - j)) = b - (b - a) / 2 ^ (j + 1) := by
    rw [← Nat.succ_sub_succ m j]
    exact point_right a b (Nat.succ_le_succ hjm)
  simp only [sum, points, ends, List.cons_append, List.nil_append, List.map_cons,
    List.map_nil, point_zero, point_last, trapezoid, trap, hleft, hright]
  rw [hp, hq]
  ring

end Subdivision

end GnuRQi.Quadrature
