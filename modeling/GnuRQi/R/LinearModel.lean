import Mathlib.LinearAlgebra.LinearIndependent.Lemmas
import GnuRQi.R.Numeric
import GnuRQi.Statistics.LeastSquares

/-!
# `lm`

A linear model is given by the columns of its design. The fitted values are the least squares fit by
the space of the columns, the rank is its dimension, and the coefficients of the columns give them;
a column that the ones before it span is left out and has the coefficient `NA`.
-/

namespace GnuRQi.R

open Statistics

variable {α : Type} {κ : Type*} {n p : ℕ} [Field α]

/-- A column of the design that the ones before it span. -/
def Aliased (design : Fin p → Fin n → α) (j : Fin p) : Prop :=
  design j ∈ Submodule.span α (design '' {i | i < j})

/-- The rank of a linear model, as many columns as are not aliased. -/
noncomputable def modelRank (design : κ → Fin n → α) : ℕ :=
  Module.finrank α (Submodule.span α (Set.range design))

section Definitions

variable [LinearOrder α]

/-- `fitted(lm)` for the given design. -/
def Fitted (design : κ → Fin n → α) (y fit : Fin n → α) : Prop :=
  IsFit (Submodule.span α (Set.range design)) y fit

/-- `coef(lm)` for the given design. -/
def Coefficients (design : Fin p → Fin n → α) (y : Fin n → α) (coef : Fin p → Num α) : Prop :=
  ∃ b : Fin p → α, Fitted design y (∑ j, b j • design j) ∧ ∀ j,
    (Aliased design j ∧ b j = 0 ∧ coef j = .na) ∨ (¬Aliased design j ∧ coef j = .num (b j))

end Definitions

/-- Independent columns have coefficients. -/
theorem not_aliased {design : Fin p → Fin n → α} (h : LinearIndependent α design) (j : Fin p) :
    ¬Aliased design j :=
  h.notMem_span_image (lt_irrefl j)

variable [LinearOrder α] [IsStrictOrderedRing α] {design : Fin p → Fin n → α} {y : Fin n → α}

/-- The coefficients of independent columns satisfy the normal equations. -/
theorem coefficients_num {coef : Fin p → Num α} (h : Coefficients design y coef)
    (hindep : LinearIndependent α design) :
    ∃ b : Fin p → α, coef = (fun j => .num (b j)) ∧
      ∀ k, ∑ i, (y i - ∑ j, b j * design j i) * design k i = 0 := by
  obtain ⟨b, hfit, hcoef⟩ := h
  refine ⟨b, funext fun j => ?_, fun k => ?_⟩
  · rcases hcoef j with ⟨halias, -⟩ | ⟨-, hnum⟩
    · exact absurd halias (not_aliased hindep j)
    · exact hnum
  · have hk := IsFit.orthogonal hfit (Submodule.subset_span ⟨k, rfl⟩)
    simpa only [Finset.sum_apply, Pi.smul_apply, smul_eq_mul] using hk

/-- Data in the space of the columns are fitted as they are. -/
theorem Fitted.eq_of_mem {design : κ → Fin n → α} {fit : Fin n → α} (h : Fitted design y fit)
    (hy : y ∈ Submodule.span α (Set.range design)) : fit = y :=
  IsFit.unique h (IsFit.self hy)

end GnuRQi.R
