import GnuRQi.R.Vector

/-!
# Random numbers of R

A random generator has a state, which every draw moves on. Drawing again and again runs through
its states one after another, and a loop that stores what it computes from each draw stores the
values for these states in their order.
-/

namespace GnuRQi.R

/-- `rnorm(n, mean, sd)` or `runif(n, min, max)`: a sample of `n` numbers. -/
abbrev Sampler (σ : Type) := ℕ → Num ℝ → Num ℝ → StateM σ (Vec ℝ)

/-- `rbinom(1, size, prob)`: one count. -/
abbrev CountSampler (σ : Type) := Num ℝ → Num ℝ → StateM σ (Num ℝ)

variable {σ β : Type}

/-- The state after a draw was made `i` times. -/
def stateAfter (draw : StateM σ β) (i : ℕ) (s : σ) : σ := (fun s => (draw.run s).2)^[i] s

/-- What is drawn after the same draw was made `i` times. -/
def resultAfter (draw : StateM σ β) (i : ℕ) (s : σ) : β := (draw.run (stateAfter draw i s)).1

theorem stateAfter_succ (draw : StateM σ β) (i : ℕ) (s : σ) :
    stateAfter draw (i + 1) s = (draw.run (stateAfter draw i s)).2 :=
  Function.iterate_succ_apply' _ _ _

/-- After `k` passes a loop `for (i in 1:k) results[i] <- f(draw)` holds the values for the first
`k` states. -/
theorem run_store (draw : StateM σ β) (f : β → Num ℝ) (k : ℕ) (s : σ) :
    (forIn (List.range' 1 k) (⟨[]⟩ : Vec ℝ) fun i results => do
      let value ← draw
      pure (ForInStep.yield (results.assign i (f value)))).run s =
      (⟨List.ofFn fun i : Fin k => f (resultAfter draw i s)⟩, stateAfter draw k s) := by
  simp only [bind_pure_comp]
  rw [List.forIn_yield_eq_foldlM (fun _ _ => draw) fun i (results : Vec ℝ) value =>
    results.assign i (f value)]
  induction k with
  | zero => rfl
  | succ k ih =>
      have hassign := Vec.assign_length ⟨List.ofFn fun i : Fin k => f (resultAfter draw i s)⟩
        (f (resultAfter draw k s))
      rw [Vec.length, List.length_ofFn] at hassign
      rw [List.range'_concat, List.foldlM_append, StateT.run_bind, ih, one_mul, add_comm 1 k]
      show (Vec.assign ⟨List.ofFn fun i : Fin k => f (resultAfter draw i s)⟩ (k + 1)
        (f (resultAfter draw k s)), (draw.run (stateAfter draw k s)).2) = _
      rw [hassign, List.ofFn_succ_last, stateAfter_succ]
      rfl

/-- The generator whose state is the sequence of all its draws. -/
def replay : StateM (ℕ → β) β := fun s => (s 0, fun i => s (i + 1))

theorem resultAfter_replay (i : ℕ) (s : ℕ → β) : resultAfter replay i s = s i := by
  have hstate : stateAfter replay i s = fun j => s (i + j) := by
    induction i with
    | zero => simp [stateAfter]
    | succ i ih =>
        rw [stateAfter_succ, ih]
        funext j
        exact congrArg s (by omega)
  rw [resultAfter, hstate]
  rfl

end GnuRQi.R
