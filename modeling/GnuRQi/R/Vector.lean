import Mathlib.Algebra.BigOperators.Fin
import GnuRQi.R.Numeric

/-!
# Numeric vectors of R

A number is a vector of length one, and an operation on vectors of different lengths recycles
the shorter one. `Vec.of` is the vector of a data set; the lemmas `of_add` to `of_div` compute
with data sets, and `sum_of`, `mean_of` and `var_of` give the statistics of one.
-/

namespace GnuRQi.R

/-- A numeric vector. -/
@[ext] structure Vec (α : Type) where
  elems : List (Num α)
  deriving DecidableEq

/-- The sequence `first:last` of two counts, which runs downward when `last` is the smaller one. -/
def colon (first last : ℕ) : List ℕ :=
  if first ≤ last then List.range' first (last + 1 - first)
  else (List.range' last (first + 1 - last)).reverse

/-- The indices of a vector that is not empty. -/
theorem colon_one {n : ℕ} (hn : 0 < n) : colon 1 n = List.range' 1 n := by
  have hup : 1 ≤ n := hn
  rw [colon, if_pos hup, Nat.add_sub_cancel]

/-- `1:0` runs downward. -/
theorem colon_one_zero : colon 1 0 = [1, 0] := rfl

/-- The elements of a list with a property, by their indices. -/
theorem countP_ofFn {β : Type} {n : ℕ} (f : Fin n → β) (p : β → Bool) :
    (List.ofFn f).countP p = (Finset.univ.filter fun i => p (f i) = true).card := by
  rw [List.ofFn_eq_map, List.countP_map, ← List.toFinset_finRange,
    (List.nodup_finRange n).card_eq_countP]
  simp [Function.comp_def]

namespace Vec

variable {α : Type} {n : Nat}

/-- The number of elements, `length(v)`. -/
def length (v : Vec α) : Nat := v.elems.length

/-- A number as a vector. -/
def single (x : Num α) : Vec α := ⟨[x]⟩

instance : Coe (Num α) (Vec α) := ⟨single⟩

instance {k : Nat} [NatCast α] : OfNat (Vec α) k := ⟨single (OfNat.ofNat k)⟩

/-- The vector of a data set. -/
def of (x : Fin n → α) : Vec α := ⟨List.ofFn fun i => .num (x i)⟩

/-- The vector `c(x, y)` of a pair. -/
def pair (p : α × α) : Vec α := ⟨[.num p.1, .num p.2]⟩

/-- `v[i]` for one index. Indices start at 1; index 0 selects nothing and an index past the end
gives `NA`. -/
def elt (v : Vec α) : Nat → Vec α
  | 0 => ⟨[]⟩
  | i + 1 => single (v.elems.getD i .na)

/-- `v[i] <- a` for one index. A vector that is too short is filled up with `NA`, and index 0
assigns nothing. -/
def assign (v : Vec α) : Nat → Num α → Vec α
  | 0, _ => v
  | i + 1, a => ⟨(v.elems ++ List.replicate (i + 1 - v.length) Num.na).set i a⟩

/-- `c(u, v)`. -/
def append (u v : Vec α) : Vec α := ⟨u.elems ++ v.elems⟩

/-- A function applied to every element. -/
def map (f : Num α → Num α) (v : Vec α) : Vec α := ⟨v.elems.map f⟩

/-- The element at a position counted from 0 when the vector is repeated without end. -/
def cyclic (v : Vec α) (i : Nat) : Num α := v.elems.getD (i % v.length) .na

/-- An operation element by element. The shorter vector is recycled, and a vector of length zero
gives one of length zero. -/
def recycle (op : Num α → Num α → Num α) (u v : Vec α) : Vec α :=
  ⟨if u.length = 0 ∨ v.length = 0 then []
    else (List.range (max u.length v.length)).map fun i => op (u.cyclic i) (v.cyclic i)⟩

@[simp] theorem one_eq [AddMonoidWithOne α] : (1 : Vec α) = single (.num 1) :=
  congrArg single Num.one_eq

@[simp] theorem ofNat_eq {k : Nat} [k.AtLeastTwo] [NatCast α] :
    (OfNat.ofNat k : Vec α) = single (.num (OfNat.ofNat k)) := rfl

@[simp] theorem length_of (x : Fin n → α) : (of x).length = n := by
  simp [of, length]

/-- Joining two data sets. -/
theorem append_of {m : Nat} (x : Fin n → α) (y : Fin m → α) :
    (of x).append (of y) = of (Fin.append x y) := by
  have hjoin : (fun i => Num.num (Fin.append x y i)) =
      Fin.append (fun i => .num (x i)) fun i => .num (y i) := by
    funext i
    cases i using Fin.addCases <;> simp
  rw [append, of, of, of, hjoin, List.ofFn_fin_append]

/-- An index in range selects its element. -/
theorem elt_succ (v : Vec α) {i : Nat} (hi : i < v.elems.length) :
    v.elt (i + 1) = single v.elems[i] := by
  simp [elt, hi]

/-- The element of a list of given values at an index in range. -/
theorem elt_ofFn (a : Fin n → Num α) (i : Fin n) :
    (⟨List.ofFn a⟩ : Vec α).elt (i + 1) = single (a i) := by
  rw [elt_succ _ (by simp)]
  simp

/-- Assigning to the first index past the end appends. -/
theorem assign_length (v : Vec α) (a : Num α) : v.assign (v.length + 1) a = ⟨v.elems ++ [a]⟩ := by
  simp [assign, length]

theorem elems_of (x : Fin n → α) : (of x).elems = (List.ofFn x).map .num := by
  rw [List.map_ofFn]
  rfl

/-- `p[1]` of a pair. -/
@[simp] theorem elt_one_pair (p : α × α) : (pair p).elt 1 = single (.num p.1) := rfl

/-- `p[2]` of a pair. -/
@[simp] theorem elt_two_pair (p : α × α) : (pair p).elt 2 = single (.num p.2) := rfl

theorem pair_eq_of (p : α × α) : pair p = of ![p.1, p.2] := by
  simp [pair, of]

theorem map_of (f : Num α → Num α) (g : α → α) (x : Fin n → α)
    (h : ∀ i, f (.num (x i)) = .num (g (x i))) : (of x).map f = of fun i => g (x i) := by
  ext1
  simp [map, of, List.map_ofFn, Function.comp_def, h]

@[simp] theorem length_single (a : Num α) : (single a).length = 1 := rfl

@[simp] theorem cyclic_of (x : Fin n → α) (i : Fin n) : (of x).cyclic i = .num (x i) := by
  simp [cyclic, of, length, Nat.mod_eq_of_lt i.isLt]

@[simp] theorem cyclic_single (a : Num α) (i : Nat) : (single a).cyclic i = a := by
  rw [cyclic, length_single, Nat.mod_one]
  rfl

/-- The operands of an operation have the length of its result or length one. -/
theorem recycle_eq_of (op : Num α → Num α → Num α) {u v : Vec α} {z : Fin n → α}
    (hlength : u.length = n ∧ v.length = n ∨ u.length = n ∧ v.length = 1 ∨
      u.length = 1 ∧ v.length = n)
    (h : ∀ i : Fin n, op (u.cyclic i) (v.cyclic i) = .num (z i)) : recycle op u v = of z := by
  -- In each of the three cases the longer operand has `n` elements.
  have hrange : recycle op u v = ⟨(List.range n).map fun i => op (u.cyclic i) (v.cyclic i)⟩ := by
    rcases hlength with ⟨hu, hv⟩ | ⟨hu, hv⟩ | ⟨hu, hv⟩ <;> rcases n with _ | n <;>
      simp [recycle, hu, hv]
  ext1
  refine List.ext_getElem (by simp [hrange, of]) ?_
  intro i _ hi
  have hlt : i < n := by simpa [of] using hi
  simpa [hrange, of] using h ⟨i, hlt⟩

variable [Field α]

instance : Add (Vec α) := ⟨recycle (· + ·)⟩
instance : Sub (Vec α) := ⟨recycle (· - ·)⟩
instance : Neg (Vec α) := ⟨map (- ·)⟩

/-- `sum(v)`. -/
def sum (v : Vec α) : Num α := v.elems.foldl (· + ·) 0

@[simp] theorem single_add_single (a b : Num α) : single a + single b = single (a + b) := rfl

@[simp] theorem single_sub_single (a b : Num α) : single a - single b = single (a - b) := rfl

/-- An operand of length zero leaves nothing. -/
@[simp] theorem add_empty (v : Vec α) : v + ⟨[]⟩ = ⟨[]⟩ :=
  congrArg Vec.mk (if_pos (.inr rfl))

@[simp] theorem empty_add (v : Vec α) : (⟨[]⟩ : Vec α) + v = ⟨[]⟩ :=
  congrArg Vec.mk (if_pos (.inl rfl))

section DataSets

variable (x y : Fin n → α) (a : α)

@[simp] theorem of_add : of x + of y = of fun i => x i + y i :=
  recycle_eq_of _ (by simp) (by simp)

@[simp] theorem single_add_of : single (.num a) + of y = of fun i => a + y i :=
  recycle_eq_of _ (by simp) (by simp)

@[simp] theorem of_add_single : of x + single (.num a) = of fun i => x i + a :=
  recycle_eq_of _ (by simp) (by simp)

@[simp] theorem of_sub : of x - of y = of fun i => x i - y i :=
  recycle_eq_of _ (by simp) (by simp)

@[simp] theorem of_sub_single : of x - single (.num a) = of fun i => x i - a :=
  recycle_eq_of _ (by simp) (by simp)

@[simp] theorem neg_of : -of x = of fun i => -x i :=
  map_of _ _ x fun _ => rfl

/-- Adding up a list of finite numbers from the left. -/
theorem foldl_add_num (values : List α) (start : α) :
    (values.map Num.num).foldl (· + ·) (.num start) = .num (start + values.sum) := by
  induction values generalizing start with
  | nil => simp
  | cons value rest ih => simp [ih, add_assoc]

@[simp] theorem sum_of : (of x).sum = .num (∑ i, x i) := by
  have h := foldl_add_num (List.ofFn x) 0
  rw [List.map_ofFn, zero_add, List.sum_ofFn] at h
  rw [sum, Num.zero_eq]
  exact h

end DataSets

variable [LinearOrder α]

instance : Mul (Vec α) := ⟨recycle (· * ·)⟩
instance : Div (Vec α) := ⟨recycle (· / ·)⟩
instance : Pow (Vec α) Nat := ⟨fun v k => v.map (· ^ k)⟩

/-- `mean(v)`, which is `NaN` for a vector of length zero. -/
def mean (v : Vec α) : Num α := v.sum / (v.length : Num α)

/-- `var(v)`, the sample variance, which is `NA` for fewer than two elements. -/
def var (v : Vec α) : Num α :=
  if v.length < 2 then .na else ((v - v.mean) ^ 2).sum / ((v.length : Num α) - 1)

theorem var_na {v : Vec α} (h : v.length < 2) : v.var = .na := if_pos h

section DataSets

variable (x y : Fin n → α) (a : α)

@[simp] theorem of_mul : of x * of y = of fun i => x i * y i :=
  recycle_eq_of _ (by simp) (by simp)

@[simp] theorem single_mul_of : single (.num a) * of y = of fun i => a * y i :=
  recycle_eq_of _ (by simp) (by simp)

@[simp] theorem of_div (h : ∀ i, y i ≠ 0) : of x / of y = of fun i => x i / y i :=
  recycle_eq_of _ (by simp) (by simp [h])

@[simp] theorem of_div_single (h : a ≠ 0) : of x / single (.num a) = of fun i => x i / a :=
  recycle_eq_of _ (by simp) (by simp [h])

@[simp] theorem of_sq : of x ^ 2 = of fun i => x i ^ 2 :=
  map_of _ _ x fun i => Num.num_sq (x i)

end DataSets

/-! ## Functions of the reals -/

/-- `exp(v)`. -/
noncomputable def exp (v : Vec ℝ) : Vec ℝ := v.map Num.exp

/-- `log(v)`. -/
noncomputable def log (v : Vec ℝ) : Vec ℝ := v.map Num.log

/-- `choose(u, v)`. -/
noncomputable def choose (u v : Vec ℝ) : Vec ℝ := recycle Num.choose u v

@[simp] theorem exp_of (x : Fin n → ℝ) : (of x).exp = of fun i => Real.exp (x i) :=
  map_of _ Real.exp x fun i => Num.exp_num (x i)

@[simp] theorem log_of {x : Fin n → ℝ} (hx : ∀ i, 0 < x i) :
    (of x).log = of fun i => Real.log (x i) :=
  map_of _ Real.log x fun i => Num.log_num (hx i)

@[simp] theorem choose_of (m k : Fin n → ℕ) :
    choose (of fun i => (m i : ℝ)) (of fun i => (k i : ℝ)) = of fun i => ((m i).choose (k i) : ℝ) :=
  recycle_eq_of _ (by simp) (by simp)

end Vec

end GnuRQi.R
