import Mathlib.Algebra.Order.Archimedean.Basic
import Mathlib.Tactic.Linarith
import GnuRQi.Quadrature.Trapezoid

/-!
# The adaptive quadrature of `proof/hmcat.R`

`fun1` compares the area `a0` it is handed with the sum of two trapezoids and either returns
that sum or integrates both halves. At the midpoint it takes `c(d)`, which is `d`, where the
integrand should be applied. An interval both of whose ends were midpoints is therefore
integrated without error; only the intervals at the two outer ends are halved again and again,
and their error is halved with them. This gives the value in closed form, and with it both the
termination of the recursion and what it integrates.
-/

namespace GnuRQi.Hmcat

open Quadrature

section Code

variable {F α : Type} [Field α] [LinearOrder α]

/-- The body of `fun1`, where `self` is what a call of the argument `fun` does. -/
def fun1 (f : F) (a b fa fb a0 eps lim : α)
    (self : F → α → α → α → α → α → α → α → Option α) : Option α :=
  let d := (a + b) / 2
  let h := (b - a) / 4
  -- `fd <- c(d)` makes a vector of `d`; the argument `f` is passed on but never applied.
  let fd := d
  let a1 := h * (fa + fd)
  let a2 := h * (fd + fb)
  if |a0 - a1 - a2| < eps ∨ lim = 0 then some (a1 + a2)
  else do
    let left ← self f a d fa fd a1 eps (lim - 1)
    let right ← self f d b fd fb a2 eps (lim - 1)
    return left + right

/-- `fun1(f, a, b, fa, fb, a0, eps, lim, fun1)` with calls nested at most `depth` deep. A call makes
two calls at most, so that a result means that there were finitely many. -/
def integrate : ℕ → F → α → α → α → α → α → α → α → Option α
  | 0 => fun _ _ _ _ _ _ _ _ => none
  | depth + 1 => fun f a b fa fb a0 eps lim =>
      fun1 f a b fa fb a0 eps lim (integrate depth)

/-- A result does not change when deeper nesting is allowed. -/
theorem integrate_mono {depth more : ℕ} (hle : depth ≤ more) {f : F}
    {a b fa fb a0 eps lim value : α}
    (h : integrate depth f a b fa fb a0 eps lim = some value) :
    integrate more f a b fa fb a0 eps lim = some value := by
  induction depth generalizing more a b fa fb a0 lim value with
  | zero => simp [integrate] at h
  | succ depth ih =>
      obtain ⟨more, rfl⟩ : ∃ k, more = k + 1 := ⟨more - 1, by omega⟩
      have hle' : depth ≤ more := by omega
      simp only [integrate, fun1] at h ⊢
      split at h
      · rename_i hstop
        rwa [if_pos hstop]
      · rename_i hstop
        rw [if_neg hstop]
        simp only [Option.bind_eq_bind, Option.bind_eq_some_iff] at h ⊢
        obtain ⟨left, hleft, right, hright, hvalue⟩ := h
        exact ⟨left, ih hle' hleft, right, ih hle' hright, hvalue⟩

end Code

section Value

variable {F α : Type} [Field α] [LinearOrder α] [IsStrictOrderedRing α]

/-- The two trapezoids of a call, whose common corner lies on the diagonal. -/
def halves (a b fa fb : α) : α :=
  trap a ((a + b) / 2) fa ((a + b) / 2) + trap ((a + b) / 2) b ((a + b) / 2) fb

/-- The error test: the area that was handed in is close to the sum of the two trapezoids. -/
def Accepts (a b fa fb a0 eps : α) : Prop := |a0 - halves a b fa fb| < eps

instance (a b fa fb a0 eps : α) : Decidable (Accepts a b fa fb a0 eps) :=
  inferInstanceAs (Decidable (_ < _))

/-- One call, in terms of its trapezoids. -/
theorem integrate_succ (depth : ℕ) (f : F) (a b fa fb a0 eps lim : α) :
    integrate (depth + 1) f a b fa fb a0 eps lim =
      let d := (a + b) / 2
      if Accepts a b fa fb a0 eps ∨ lim = 0 then some (halves a b fa fb)
      else do
        let left ← integrate depth f a d fa d (trap a d fa d) eps (lim - 1)
        let right ← integrate depth f d b d fb (trap d b d fb) eps (lim - 1)
        return left + right := by
  have hleft : (b - a) / 4 * (fa + (a + b) / 2) = trap a ((a + b) / 2) fa ((a + b) / 2) := by
    unfold trap
    ring
  have hright : (b - a) / 4 * ((a + b) / 2 + fb) = trap ((a + b) / 2) b ((a + b) / 2) fb := by
    unfold trap
    ring
  simp only [integrate, fun1, hleft, hright, sub_sub]
  rfl

/-- A call that accepts its trapezoids, or has reached the limit, returns their sum. -/
theorem integrate_stop (depth : ℕ) (f : F) {a b fa fb a0 eps lim : α}
    (hstop : Accepts a b fa fb a0 eps ∨ lim = 0) :
    integrate (depth + 1) f a b fa fb a0 eps lim = some (halves a b fa fb) := by
  rw [integrate_succ]
  exact if_pos hstop

/-- Any other call returns the sum of what its two calls return. -/
theorem integrate_split {depth : ℕ} {f : F} {a b fa fb a0 eps lim left right : α}
    (hgo : ¬ (Accepts a b fa fb a0 eps ∨ lim = 0))
    (hleft : integrate depth f a ((a + b) / 2) fa ((a + b) / 2)
      (trap a ((a + b) / 2) fa ((a + b) / 2)) eps (lim - 1) = some left)
    (hright : integrate depth f ((a + b) / 2) b ((a + b) / 2) fb
      (trap ((a + b) / 2) b ((a + b) / 2) fb) eps (lim - 1) = some right) :
    integrate (depth + 1) f a b fa fb a0 eps lim = some (left + right) := by
  rw [integrate_succ]
  simp only [if_neg hgo, hleft, hright]
  rfl

/-- The sum of the two trapezoids: the integral of the identity, and for each end a quarter of
the width times the distance of the value there to the identity. -/
theorem halves_eq (a b fa fb : α) :
    halves a b fa fb =
      (b ^ 2 - a ^ 2) / 2 + (fa - a) * (b - a) / 4 + (fb - b) * (b - a) / 4 := by
  unfold halves trap
  ring

/-- What a call returns that does not halve its interval. -/
theorem integrate_stop_value (depth : ℕ) (f : F) {a b fa fb a0 eps lim : α}
    (hstop : Accepts a b fa fb a0 eps ∨ lim = 0) :
    integrate (depth + 1) f a b fa fb a0 eps lim =
      some ((b ^ 2 - a ^ 2) / 2 + (fa - a) * (b - a) / 2 ^ (0 + 2) +
        (fb - b) * (b - a) / 2 ^ (0 + 2)) := by
  rw [integrate_stop depth f hstop, halves_eq]
  norm_num

/-- The trapezoid over the whole interval is off by the same two amounts. -/
theorem accepts_trap_iff (a b fa fb eps : α) :
    Accepts a b fa fb (trap a b fa fb) eps ↔
      |(fa - a) * (b - a) / 4 + (fb - b) * (b - a) / 4| < eps := by
  have h : trap a b fa fb - halves a b fa fb =
      (fa - a) * (b - a) / 4 + (fb - b) * (b - a) / 4 := by
    rw [halves_eq]
    unfold trap
    ring
  rw [Accepts, h]

/-- The interval at an end of the original one is halved `k` times at most: the limit is reached
there, or the error at the end, which starts at a quarter of `δ` and is halved with the interval,
is small enough. Only the first call can accept another area than that of its trapezoid. -/
def StopsAt (accepts : Prop) (eps lim δ : α) (k : ℕ) : Prop :=
  lim = k ∨ if k = 0 then accepts else |δ| / 2 ^ (k + 2) < eps

instance (accepts : Prop) [Decidable accepts] (eps lim δ : α) :
    DecidablePred (StopsAt accepts eps lim δ) :=
  fun k => inferInstanceAs (Decidable (lim = k ∨ if k = 0 then accepts else _ < eps))

omit [IsStrictOrderedRing α] in
/-- The first call itself stops. -/
theorem stopsAt_zero {accepts : Prop} {eps lim δ : α} :
    StopsAt accepts eps lim δ 0 ↔ accepts ∨ lim = 0 := by
  simp [StopsAt, or_comm]

/-- A smaller error stops as soon. -/
theorem StopsAt.of_abs_le {accepts : Prop} {eps lim δ δ' : α} {k : ℕ}
    (h : StopsAt accepts eps lim δ k) (hle : |δ'| ≤ |δ|) : StopsAt accepts eps lim δ' k := by
  unfold StopsAt at h ⊢
  refine h.imp_right ?_
  intro herror
  split at herror
  · rename_i hk
    rwa [if_pos hk]
  · rename_i hk
    rw [if_neg hk]
    exact (div_le_div_of_nonneg_right hle (by positivity)).trans_lt herror

/-- After the first halving, an end is in the position of the first call with half the error. -/
theorem stopsAt_succ_iff {accepts next : Prop} {eps lim δ : α}
    (hnext : next ↔ |δ / 2 / 4| < eps) (k : ℕ) :
    StopsAt accepts eps lim δ (k + 1) ↔ StopsAt next eps (lim - 1) (δ / 2) k := by
  have hlim : lim = (k + 1 : ℕ) ↔ lim - 1 = k := by
    rw [Nat.cast_succ, sub_eq_iff_eq_add]
  have herror : |δ| / 2 ^ (k + 1 + 2) = |δ / 2| / 2 ^ (k + 2) := by
    rw [abs_div, abs_two, div_div, ← pow_succ']
  unfold StopsAt
  rw [hlim, if_neg k.succ_ne_zero, herror]
  refine or_congr Iff.rfl ?_
  split
  · rename_i hk
    rw [hnext, hk, abs_div (δ / 2) 4, abs_of_pos (by norm_num : (0 : α) < 4)]
    norm_num
  · rfl

omit [IsStrictOrderedRing α] in
/-- The first level at which an end stops. -/
theorem exists_isLeast_stopsAt {accepts : Prop} {eps lim δ : α} {k : ℕ}
    (h : StopsAt accepts eps lim δ k) :
    ∃ i ≤ k, IsLeast {i | StopsAt accepts eps lim δ i} i := by
  classical
  have hex : ∃ i, StopsAt accepts eps lim δ i := ⟨k, h⟩
  exact ⟨Nat.find hex, Nat.find_min' hex h, Nat.find_spec hex, fun _ hi => Nat.find_min' hex hi⟩

/-- The halvings that are left after the first one. -/
theorem isLeast_stopsAt_pred {accepts next : Prop} {eps lim δ : α}
    (hnext : next ↔ |δ / 2 / 4| < eps) {i : ℕ}
    (h : IsLeast {k | StopsAt accepts eps lim δ k} (i + 1)) :
    IsLeast {k | StopsAt next eps (lim - 1) (δ / 2) k} i := by
  constructor
  · exact (stopsAt_succ_iff hnext i).mp h.1
  · intro k hk
    have hle := h.2 ((stopsAt_succ_iff hnext k).mpr hk)
    omega

/-- The left half accepts the trapezoid it is handed when half the error at the left end is small
enough. -/
theorem accepts_left (a b fa eps : α) :
    Accepts a ((a + b) / 2) fa ((a + b) / 2) (trap a ((a + b) / 2) fa ((a + b) / 2)) eps ↔
      |(fa - a) * (b - a) / 2 / 4| < eps := by
  rw [accepts_trap_iff]
  ring_nf

/-- The right half, with the error at the right end. -/
theorem accepts_right (a b fb eps : α) :
    Accepts ((a + b) / 2) b ((a + b) / 2) fb (trap ((a + b) / 2) b ((a + b) / 2) fb) eps ↔
      |(fb - b) * (b - a) / 2 / 4| < eps := by
  rw [accepts_trap_iff]
  ring_nf

omit [LinearOrder α] [IsStrictOrderedRing α] in
/-- The error at an outer end is halved with the interval. -/
theorem left_error [CharZero α] (a b fa : α) :
    (fa - a) * ((a + b) / 2 - a) = (fa - a) * (b - a) / 2 := by
  ring

omit [LinearOrder α] [IsStrictOrderedRing α] in
theorem right_error [CharZero α] (a b fb : α) :
    (fb - b) * (b - (a + b) / 2) = (fb - b) * (b - a) / 2 := by
  ring

theorem midpoint_error_le (d w : α) {δ : α} : |(d - d) * w| ≤ |δ| := by
  rw [sub_self, zero_mul, abs_zero]
  exact abs_nonneg δ

/-- The value of the recursion: the integral of the identity, and the errors at the two ends,
halved at every level down to the first where that end stops. -/
theorem integrate_eq (f : F) {a b fa fb a0 eps lim : α} {depth i j : ℕ}
    (hi : IsLeast {k | StopsAt (Accepts a b fa fb a0 eps) eps lim ((fa - a) * (b - a)) k} i)
    (hj : IsLeast {k | StopsAt (Accepts a b fa fb a0 eps) eps lim ((fb - b) * (b - a)) k} j)
    (hidepth : i ≤ depth) (hjdepth : j ≤ depth) :
    integrate (depth + 1) f a b fa fb a0 eps lim =
      some ((b ^ 2 - a ^ 2) / 2 + (fa - a) * (b - a) / 2 ^ (i + 2) +
        (fb - b) * (b - a) / 2 ^ (j + 2)) := by
  induction depth generalizing a b fa fb a0 lim i j with
  | zero =>
      obtain rfl : i = 0 := by omega
      obtain rfl : j = 0 := by omega
      exact integrate_stop_value 0 f (stopsAt_zero.mp hi.1)
  | succ depth ih =>
      by_cases hstop : Accepts a b fa fb a0 eps ∨ lim = 0
      · obtain rfl : i = 0 := Nat.le_zero.mp (hi.2 (stopsAt_zero.mpr hstop))
        obtain rfl : j = 0 := Nat.le_zero.mp (hj.2 (stopsAt_zero.mpr hstop))
        exact integrate_stop_value (depth + 1) f hstop
      · have hpos : ∀ {δ k}, IsLeast {k | StopsAt (Accepts a b fa fb a0 eps) eps lim δ k} k →
            ∃ k', k = k' + 1 := by
          intro δ k hk
          refine Nat.exists_eq_succ_of_ne_zero fun h0 => hstop ?_
          rw [h0] at hk
          exact stopsAt_zero.mp hk.1
        obtain ⟨i, rfl⟩ := hpos hi
        obtain ⟨j, rfl⟩ := hpos hj
        have hleft := isLeast_stopsAt_pred (accepts_left a b fa eps) hi
        have hright := isLeast_stopsAt_pred (accepts_right a b fb eps) hj
        rw [← left_error] at hleft
        rw [← right_error] at hright
        -- At the midpoint the error is zero, so that end of a half stops as soon as the other.
        obtain ⟨k, hk, hleft'⟩ := exists_isLeast_stopsAt (hleft.1.of_abs_le (midpoint_error_le _ _))
        obtain ⟨l, hl, hright'⟩ :=
          exists_isLeast_stopsAt (hright.1.of_abs_le (midpoint_error_le _ _))
        rw [integrate_split hstop (ih hleft hleft' (by omega) (by omega))
          (ih hright' hright (by omega) (by omega)), left_error, right_error]
        have hi2 : (2 : α) ^ (i + 1 + 2) = 2 * 2 ^ (i + 2) := pow_succ' 2 (i + 2)
        have hj2 : (2 : α) ^ (j + 1 + 2) = 2 * 2 ^ (j + 2) := pow_succ' 2 (j + 2)
        rw [hi2, hj2, sub_self, zero_mul, zero_mul, zero_div, zero_div, ← div_div, ← div_div]
        congr 1
        ring

/-- The call in the script stops at once, on the two trapezoids. -/
example : integrate 1 (2 : ℚ) (1 : ℚ) 2 2 4 1 5 0 = some (9 / 4) := by decide +kernel

/-- With a positive tolerance each end stops, because its error is halved at every level. -/
theorem exists_stopsAt [Archimedean α] (accepts : Prop) {eps : α} (heps : 0 < eps) (lim δ : α) :
    ∃ k, StopsAt accepts eps lim δ k := by
  obtain ⟨n, hn⟩ := pow_unbounded_of_one_lt (|δ| / eps) (one_lt_two : (1 : α) < 2)
  refine ⟨n + 1, .inr ?_⟩
  rw [if_neg n.succ_ne_zero, div_lt_comm₀ (by positivity) heps]
  calc
    |δ| / eps < 2 ^ n := hn
    _ ≤ 2 ^ (n + 1 + 2) := pow_le_pow_right₀ one_le_two (by omega)

/-- With a positive tolerance the recursion returns a number after finitely many calls, whatever
the limit. -/
theorem integrate_terminates [Archimedean α] (f : F) (a b fa fb a0 eps lim : α) (heps : 0 < eps) :
    ∃ depth value, ∀ more, depth ≤ more →
      integrate more f a b fa fb a0 eps lim = some value := by
  obtain ⟨k, hk⟩ := exists_stopsAt (Accepts a b fa fb a0 eps) heps lim ((fa - a) * (b - a))
  obtain ⟨l, hl⟩ := exists_stopsAt (Accepts a b fa fb a0 eps) heps lim ((fb - b) * (b - a))
  obtain ⟨i, -, hi⟩ := exists_isLeast_stopsAt hk
  obtain ⟨j, -, hj⟩ := exists_isLeast_stopsAt hl
  have hvalue := integrate_eq f hi hj (le_max_left i j) (le_max_right i j)
  exact ⟨max i j + 1, _, fun more hmore => integrate_mono hmore hvalue⟩

/-- A fractional limit is passed by, and the error test stops the recursion. -/
theorem integrate_terminates_fractional :
    ∃ depth value, ∀ more, depth ≤ more →
      integrate more () (0 : ℚ) 1 5 7 0 (1 / 100) (1 / 2) = some value :=
  integrate_terminates () 0 1 5 7 0 (1 / 100) (1 / 2) (by norm_num)

end Value

/-! ## What is integrated -/

section Trapezoids

variable (f : ℚ → ℚ) (a b a0 eps : ℚ) (lim : ℕ)

/-- The recursion returns a trapezoid sum of its integrand, over a subdivision by points that
arise by at most `lim + 1` halvings. -/
def ReturnsTrapezoidSum : Prop :=
  ∃ (Q : Subdivision (lim + 1)) (depth : ℕ),
    integrate depth f a b (f a) (f b) a0 eps (lim : ℚ) = some (Q.sum f a b)

theorem exists_stopsAt_lim (accepts : Prop) (δ : ℚ) :
    ∃ k, StopsAt accepts eps (lim : ℚ) δ k :=
  ⟨lim, .inl rfl⟩

/-- How often the interval is halved at an end `x`: down to the first level where that end
stops. -/
def halvings (x : ℚ) : ℕ :=
  Nat.find (exists_stopsAt_lim eps lim (Accepts a b (f a) (f b) a0 eps) ((f x - x) * (b - a)))

theorem halvings_le (x : ℚ) : halvings f a b a0 eps lim x ≤ lim :=
  Nat.find_min' _ (.inl rfl)

/-- The value for an integrand and a natural limit. -/
theorem integrate_natCast :
    integrate (lim + 1) f a b (f a) (f b) a0 eps (lim : ℚ) =
      some ((b ^ 2 - a ^ 2) / 2 +
        (f a - a) * (b - a) / 2 ^ (halvings f a b a0 eps lim a + 2) +
        (f b - b) * (b - a) / 2 ^ (halvings f a b a0 eps lim b + 2)) := by
  have hleast : ∀ x, IsLeast {k | StopsAt (Accepts a b (f a) (f b) a0 eps) eps (lim : ℚ)
      ((f x - x) * (b - a)) k} (halvings f a b a0 eps lim x) := by
    intro x
    exact ⟨Nat.find_spec _, fun _ hk => Nat.find_min' _ hk⟩
  have hle := halvings_le f a b a0 eps lim
  exact integrate_eq f (hleast a) (hleast b) (hle a) (hle b)

/-- What any result of the recursion is, whatever nesting it took. -/
theorem exists_integrate_iff (value : ℚ) :
    (∃ depth, integrate depth f a b (f a) (f b) a0 eps (lim : ℚ) = some value) ↔
      value = (b ^ 2 - a ^ 2) / 2 +
        (f a - a) * (b - a) / 2 ^ (halvings f a b a0 eps lim a + 2) +
        (f b - b) * (b - a) / 2 ^ (halvings f a b a0 eps lim b + 2) := by
  have hvalue := integrate_natCast f a b a0 eps lim
  constructor
  · rintro ⟨depth, h⟩
    have hmore := integrate_mono (le_max_left depth (lim + 1)) h
    rw [integrate_mono (le_max_right depth (lim + 1)) hvalue] at hmore
    exact (Option.some.inj hmore).symm
  · rintro rfl
    exact ⟨lim + 1, hvalue⟩

/-- One subdivision gives the value of the recursion when the distances of the integrand to the
identity add up, over the whole subdivision, to what is left of those at the ends. -/
theorem integrate_sum_iff (Q : Subdivision (lim + 1)) :
    (∃ depth, integrate depth f a b (f a) (f b) a0 eps (lim : ℚ) = some (Q.sum f a b)) ↔
      Q.sum (fun x => f x - x) a b =
        (f a - a) * (b - a) / 2 ^ (halvings f a b a0 eps lim a + 2) +
          (f b - b) * (b - a) / 2 ^ (halvings f a b a0 eps lim b + 2) := by
  rw [exists_integrate_iff, Q.sum_eq f a b, add_assoc, add_right_inj]

/-- Both ends of the interval are halved, or neither is. -/
theorem halvings_eq_zero_iff (x : ℚ) :
    halvings f a b a0 eps lim x = 0 ↔ Accepts a b (f a) (f b) a0 eps ∨ lim = 0 := by
  rw [halvings, Nat.find_eq_zero, stopsAt_zero, Nat.cast_eq_zero]

/-- An integrand that is the identity at the inner points is integrated by the trapezoid rule. -/
theorem returnsTrapezoidSum_of_fixed
    (hf : ∀ j, 0 < j → j < 2 ^ (lim + 1) →
      f (Subdivision.point a b (lim + 1) j) = Subdivision.point a b (lim + 1) j) :
    ReturnsTrapezoidSum f a b a0 eps lim := by
  have hhalf : 2 ^ lim < 2 ^ (lim + 1) := Nat.pow_lt_pow_right one_lt_two lim.lt_succ_self
  by_cases hstop : Accepts a b (f a) (f b) a0 eps ∨ lim = 0
  · -- The two trapezoids are returned.
    have ha := (halvings_eq_zero_iff f a b a0 eps lim a).mpr hstop
    have hb := (halvings_eq_zero_iff f a b a0 eps lim b).mpr hstop
    refine ⟨.midpoint lim, (integrate_sum_iff f a b a0 eps lim _).mpr ?_⟩
    rw [ha, hb]
    refine Subdivision.sum_midpoint lim ?_
    exact sub_eq_zero.mpr (hf _ (Nat.two_pow_pos lim) hhalf)
  · -- The outermost points lie as many halvings from the ends as the recursion makes there.
    have hpos : ∀ x, 0 < halvings f a b a0 eps lim x := by
      intro x
      rw [Nat.pos_iff_ne_zero]
      intro hzero
      exact hstop ((halvings_eq_zero_iff f a b a0 eps lim x).mp hzero)
    have hle := halvings_le f a b a0 eps lim
    have hlt : ∀ x, 2 ^ (lim - halvings f a b a0 eps lim x) < 2 ^ (lim + 1) := by
      intro x
      exact Nat.pow_lt_pow_right one_lt_two (by omega)
    refine ⟨.ends lim (halvings f a b a0 eps lim a) (halvings f a b a0 eps lim b)
      (hpos a) (hle a) (hpos b) (hle b), (integrate_sum_iff f a b a0 eps lim _).mpr ?_⟩
    refine Subdivision.sum_ends (hpos a) (hle a) (hpos b) (hle b) ?_ ?_
    · exact sub_eq_zero.mpr (hf _ (Nat.two_pow_pos _) (hlt a))
    · have hb := hlt b
      have hb' := Nat.two_pow_pos (lim - halvings f a b a0 eps lim b)
      exact sub_eq_zero.mpr (hf _ (by omega) (by omega))

/-- The zero function has the trapezoid sum zero everywhere, and yet is not given zero. -/
theorem zero_not_integrated : ¬ ReturnsTrapezoidSum (fun _ => 0) 0 1 0 (1 / 1000) 10 := by
  rintro ⟨Q, h⟩
  have hvalue := (exists_integrate_iff _ _ _ _ _ _ _).mp h
  have hzero : Q.sum (fun _ => (0 : ℚ)) 0 1 = 0 := trapezoid_zero _
  have hsmall : (1 : ℚ) / 2 ^ (halvings (fun _ => 0) 0 1 0 (1 / 1000) 10 1 + 2) ≤ 1 / 2 ^ 2 :=
    one_div_le_one_div_of_le (by positivity) (pow_le_pow_right₀ one_le_two (Nat.le_add_left _ _))
  rw [hzero] at hvalue
  norm_num [neg_div] at hvalue hsmall
  linarith

/-- The recursion returns a trapezoid sum of its integrand exactly when, over some subdivision,
the distances of the integrand to the identity add up to what the halvings leave of those at the
two ends. -/
theorem returns_trapezoid_sum_iff :
    ReturnsTrapezoidSum f a b a0 eps lim ↔
      ∃ Q : Subdivision (lim + 1), Q.sum (fun x => f x - x) a b =
        (f a - a) * (b - a) / 2 ^ (halvings f a b a0 eps lim a + 2) +
          (f b - b) * (b - a) / 2 ^ (halvings f a b a0 eps lim b + 2) :=
  exists_congr fun Q => integrate_sum_iff f a b a0 eps lim Q

end Trapezoids

end GnuRQi.Hmcat
