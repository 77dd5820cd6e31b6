import Mathlib.Algebra.BigOperators.Field
import Mathlib.Analysis.SpecialFunctions.Sqrt
import Mathlib.LinearAlgebra.Matrix.Determinant.Basic
import GnuRQi.R.Vector

/-!
# The absolute determinant of `listway.R`

`absdet` multiplies the singular values of a matrix. For a square matrix this is the absolute value
of the determinant, and for another one the root of the smaller of its two Gram determinants.
-/

namespace GnuRQi.Listway

open R Matrix

variable {n p : ℕ}

/-- `svd(M)`: the singular values `d` in decreasing order and the left and right singular vectors,
the columns of `u` and `v`. -/
structure Svd (M : Matrix (Fin n) (Fin p) ℝ) where
  d : Fin (min n p) → ℝ
  u : Matrix (Fin n) (Fin (min n p)) ℝ
  v : Matrix (Fin p) (Fin (min n p)) ℝ
  eq : M = u * diagonal d * vᵀ
  left_orthonormal : uᵀ * u = 1
  right_orthonormal : vᵀ * v = 1
  nonneg : ∀ i, 0 ≤ d i
  antitone : Antitone d

/-- `prod(v)`. -/
def prod {α : Type} [Field α] [LinearOrder α] (v : Vec α) : Num α := v.elems.foldl (· * ·) 1

/-- `absdet(M)`. -/
noncomputable def absdet {M : Matrix (Fin n) (Fin p) ℝ} (svd : Svd M) : Num ℝ := prod (.of svd.d)

theorem prod_of (x : Fin n → ℝ) : prod (.of x) = .num (∏ i, x i) := by
  have hfold : ∀ (values : List ℝ) (start : ℝ),
      (values.map Num.num).foldl (· * ·) (.num start) = .num (start * values.prod) := by
    intro values
    induction values with
    | nil => simp
    | cons value rest ih =>
        intro start
        simp [ih, mul_assoc]
  have h := hfold (List.ofFn x) 1
  rw [List.map_ofFn, one_mul, List.prod_ofFn] at h
  rw [prod, Num.one_eq]
  exact h

/-- Orthonormal columns in as many dimensions do not change the determinant. -/
theorem det_conj_diagonal {ι κ : Type} [Fintype ι] [DecidableEq ι] [Fintype κ] [DecidableEq κ]
    (e : ι ≃ κ) {w : Matrix κ ι ℝ} (hw : wᵀ * w = 1) (a : ι → ℝ) :
    (w * diagonal a * wᵀ).det = ∏ i, a i := by
  have hsquare : (w * diagonal a * wᵀ).submatrix e e =
      w.submatrix e id * diagonal a * (w.submatrix e id)ᵀ := by
    rw [transpose_submatrix]
    rfl
  have hdet : (w.submatrix e id).det * (w.submatrix e id).det = 1 := by
    have hone : (w.submatrix e id)ᵀ * w.submatrix e id = 1 := by
      rw [transpose_submatrix, submatrix_mul_equiv, hw, submatrix_id_id]
    have h := congrArg det hone
    rwa [det_mul, det_transpose, det_one] at h
  rw [← det_submatrix_equiv_self e, hsquare, det_mul, det_mul, det_transpose, det_diagonal,
    mul_right_comm, hdet, one_mul]

namespace Svd

variable {M : Matrix (Fin n) (Fin p) ℝ} (svd : Svd M)

theorem transpose_mul_self : Mᵀ * M = svd.v * diagonal (fun i => svd.d i ^ 2) * svd.vᵀ := by
  have hgram : Mᵀ * M = svd.v * diagonal svd.d * (svd.uᵀ * svd.u) * diagonal svd.d * svd.vᵀ := by
    conv_lhs => rw [svd.eq]
    simp only [transpose_mul, transpose_transpose, diagonal_transpose, Matrix.mul_assoc]
  rw [hgram, svd.left_orthonormal, Matrix.mul_one, Matrix.mul_assoc svd.v, diagonal_mul_diagonal]
  simp only [sq]

theorem mul_transpose_self : M * Mᵀ = svd.u * diagonal (fun i => svd.d i ^ 2) * svd.uᵀ := by
  have hgram : M * Mᵀ = svd.u * diagonal svd.d * (svd.vᵀ * svd.v) * diagonal svd.d * svd.uᵀ := by
    conv_lhs => rw [svd.eq]
    simp only [transpose_mul, transpose_transpose, diagonal_transpose, Matrix.mul_assoc]
  rw [hgram, svd.right_orthonormal, Matrix.mul_one, Matrix.mul_assoc svd.u, diagonal_mul_diagonal]
  simp only [sq]

/-- The product of the singular values by its square. -/
theorem absdet_of_prod_sq {g : ℝ} (h : ∏ i, svd.d i ^ 2 = g) : absdet svd = .num √g := by
  rw [absdet, prod_of, ← h, Finset.prod_pow, Real.sqrt_sq (Finset.prod_nonneg fun i _ =>
    svd.nonneg i)]

theorem absdet_tall (h : p ≤ n) : absdet svd = .num √(Mᵀ * M).det := by
  refine svd.absdet_of_prod_sq ?_
  rw [svd.transpose_mul_self]
  exact (det_conj_diagonal (finCongr (min_eq_right h)) svd.right_orthonormal _).symm

theorem absdet_wide (h : n ≤ p) : absdet svd = .num √(M * Mᵀ).det := by
  refine svd.absdet_of_prod_sq ?_
  rw [svd.mul_transpose_self]
  exact (det_conj_diagonal (finCongr (min_eq_left h)) svd.left_orthonormal _).symm

end Svd

/-- The product of the singular values is the absolute determinant of a square matrix. -/
theorem absdet_square {M : Matrix (Fin n) (Fin n) ℝ} (svd : Svd M) : absdet svd = .num |M.det| := by
  rw [svd.absdet_tall le_rfl, det_mul, det_transpose, Real.sqrt_mul_self_eq_abs]

/-- `absdet` of a product. -/
theorem absdet_mul {M N : Matrix (Fin n) (Fin n) ℝ} (svdM : Svd M) (svdN : Svd N)
    (svdMN : Svd (M * N)) : absdet svdMN = absdet svdM * absdet svdN := by
  rw [absdet_square, absdet_square, absdet_square, Num.num_mul, det_mul, abs_mul]

/-- A vector as a matrix of one column: `absdet(x)` is its length. -/
theorem absdet_column (x : Fin n → ℝ) (hn : 0 < n) (svd : Svd (replicateCol (Fin 1) x)) :
    absdet svd = .num √(∑ i, x i ^ 2) := by
  rw [svd.absdet_tall hn, det_fin_one]
  simp [mul_apply, sq]

/-- The decomposition of a matrix of one column, not zero. -/
noncomputable def Svd.column (x : Fin (n + 1) → ℝ) (hx : 0 < ∑ i, x i ^ 2) :
    Svd (replicateCol (Fin 1) x) := by
  -- The one singular value is the length of the vector.
  have hmin : min (n + 1) 1 = 1 := min_eq_right (Nat.succ_pos n)
  have hroot : √(∑ i, x i ^ 2) ≠ 0 := (Real.sqrt_pos.mpr hx).ne'
  have hunit : ∑ i, x i / √(∑ i, x i ^ 2) * (x i / √(∑ i, x i ^ 2)) = 1 := by
    have hterm : ∀ i, x i / √(∑ i, x i ^ 2) * (x i / √(∑ i, x i ^ 2)) =
        x i ^ 2 / ∑ i, x i ^ 2 := by
      intro i
      rw [div_mul_div_comm, Real.mul_self_sqrt hx.le, sq]
    rw [Finset.sum_congr rfl fun i _ => hterm i, ← Finset.sum_div, div_self hx.ne']
  exact {
    d := fun _ => √(∑ i, x i ^ 2)
    u := Matrix.of fun i _ => x i / √(∑ i, x i ^ 2)
    v := Matrix.of fun _ _ => 1
    eq := by
      generalize min (n + 1) 1 = m at hmin
      subst hmin
      ext i j
      simp [mul_apply, diagonal_apply, div_mul_cancel₀ _ hroot]
    left_orthonormal := by
      generalize min (n + 1) 1 = m at hmin
      subst hmin
      ext i j
      rw [Subsingleton.elim i j, one_apply_eq]
      exact hunit
    right_orthonormal := by
      generalize min (n + 1) 1 = m at hmin
      subst hmin
      ext i j
      rw [Subsingleton.elim i j, one_apply_eq]
      simp [mul_apply]
    nonneg := fun _ => Real.sqrt_nonneg _
    antitone := fun _ _ _ => le_rfl }

/-- The decomposition of a square matrix with the given parts. -/
def Svd.square (d : Fin n → ℝ) (u v : Matrix (Fin n) (Fin n) ℝ) (hu : uᵀ * u = 1)
    (hv : vᵀ * v = 1) (hd : ∀ i, 0 ≤ d i) (hanti : Antitone d) : Svd (u * diagonal d * vᵀ) where
  d := d ∘ finCongr (min_self n)
  u := u.submatrix id (finCongr (min_self n))
  v := v.submatrix id (finCongr (min_self n))
  eq := by
    rw [← submatrix_diagonal_equiv, transpose_submatrix, submatrix_mul_equiv,
      submatrix_mul_equiv, submatrix_id_id]
  left_orthonormal := by
    rw [transpose_submatrix, ← submatrix_mul _ _ _ id _ Function.bijective_id, hu,
      submatrix_one_equiv]
  right_orthonormal := by
    rw [transpose_submatrix, ← submatrix_mul _ _ _ id _ Function.bijective_id, hv,
      submatrix_one_equiv]
  nonneg := fun i => hd _
  antitone := fun _ _ h => hanti h

/-- `absdet` is the root of a Gram determinant, that of the columns of a matrix with as many rows or
more and else that of the rows, and for a square matrix the absolute value of the determinant. -/
theorem absdet_eq {M : Matrix (Fin n) (Fin p) ℝ} (svd : Svd M) :
    absdet svd = .num √(if p ≤ n then (Mᵀ * M).det else (M * Mᵀ).det) ∧
    ∀ {N : Matrix (Fin n) (Fin n) ℝ} (svdN : Svd N), absdet svdN = .num |N.det| := by
  refine ⟨?_, absdet_square⟩
  split_ifs with h
  · exact svd.absdet_tall h
  · exact svd.absdet_wide (Nat.le_of_not_le h)

/-- A decomposition of a matrix that is not symmetric and has a negative determinant. -/
theorem Svd.exists_swapped : Nonempty (Svd !![0, 2; 1, 0]) := by
  have hsymm : (!![0, 1; 1, 0] : Matrix (Fin 2) (Fin 2) ℝ)ᵀ = !![0, 1; 1, 0] := by
    ext i j
    fin_cases i <;> fin_cases j <;> rfl
  have hM : (!![0, 2; 1, 0] : Matrix (Fin 2) (Fin 2) ℝ) =
      1 * diagonal ![2, 1] * (!![0, 1; 1, 0] : Matrix (Fin 2) (Fin 2) ℝ)ᵀ := by
    rw [Matrix.one_mul, hsymm, diagonal_vec2, mul_fin_two]
    norm_num
  rw [hM]
  refine ⟨Svd.square ![2, 1] 1 !![0, 1; 1, 0] (by simp) ?_ ?_ ?_⟩
  · rw [hsymm, mul_fin_two, one_fin_two]
    norm_num
  · simp [Fin.forall_fin_two]
  · simp [Fin.antitone_iff_succ_le]

/-- A column and a square matrix. -/
theorem absdet_eq_column_square :
    (∃ hx, absdet (Svd.column ![3, 4] hx) = .num 5) ∧
    ∃ svd : Svd !![0, 2; 1, 0], absdet svd = .num 2 := by
  have hsum : ∑ i, (![3, 4] : Fin 2 → ℝ) i ^ 2 = 5 ^ 2 := by
    norm_num [Fin.sum_univ_two]
  have hx : 0 < ∑ i, (![3, 4] : Fin 2 → ℝ) i ^ 2 := by
    norm_num [hsum]
  have hgram : ((replicateCol (Fin 1) (![3, 4] : Fin 2 → ℝ))ᵀ *
      replicateCol (Fin 1) (![3, 4] : Fin 2 → ℝ)).det = 5 ^ 2 := by
    rw [det_fin_one, mul_apply, ← hsum]
    exact Finset.sum_congr rfl fun i _ => (sq _).symm
  obtain ⟨hcolumn, hsquare⟩ := absdet_eq (Svd.column ![3, 4] hx)
  obtain ⟨svd⟩ := Svd.exists_swapped
  refine ⟨⟨hx, ?_⟩, svd, ?_⟩
  · rw [hcolumn, if_pos (by decide), hgram, Real.sqrt_sq (by norm_num)]
  · rw [hsquare, det_fin_two_of]
    norm_num

end GnuRQi.Listway
