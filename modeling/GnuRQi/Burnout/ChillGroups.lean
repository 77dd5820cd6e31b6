import GnuRQi.R.Ranks

/-!
# The one-way analysis of `burnout/chill.R`

The script stacks the columns of `scores` and tests for equal means, once by `oneway.test` and once
by `anova(lm())`. `stack_oneway_eq_anova`: for every data frame of numbers with two columns and two
rows or more the two give the same result. `stack_kruskalTest_eq` reads the statistic of
`kruskal.test`, which comes last, off the same two models of the ranks.
-/

namespace GnuRQi.Chill

open R Statistics

/-- A data frame of numbers: its columns have different names and one length. -/
structure DataFrame (α : Type) where
  columns : List (String × Vec α)
  rows : ℕ
  names_nodup : (columns.map Prod.fst).Nodup
  length_eq : ∀ column ∈ columns, column.2.length = rows

section Stack

variable {α : Type}

/-- `rep(factor(names, unique(names)), lengths)`. -/
def stackCodes (columns : List (String × Vec α)) :
    List (Option (Fin (columns.map Prod.fst).length)) :=
  (List.finRange _).flatMap fun level =>
    List.replicate (columns.get (level.cast (List.length_map _))).2.length (some level)

/-- `stack(frame)`, the columns `values` and `ind`. The levels of `ind` are the names of the columns
of the frame. -/
def stack (frame : DataFrame α) : Vec α × Factor String where
  fst := ⟨frame.columns.flatMap fun column => column.2.elems⟩
  snd := { levels := frame.columns.map Prod.fst, codes := stackCodes frame.columns }

theorem count_stackCodes (columns : List (String × Vec α))
    (level : Fin (columns.map Prod.fst).length) :
    (stackCodes columns).count (some level) =
      (columns.get (level.cast (List.length_map _))).2.length := by
  rw [stackCodes, List.count_flatMap, ← List.ofFn_eq_map, List.sum_ofFn,
    Finset.sum_eq_single level]
  · simp
  · intro other _ hne
    simp [List.count_replicate, hne]
  · simp

variable (frame : DataFrame α)

/-- Every name occurs in as many rows as the frame has. -/
theorem table_stack : ∀ count ∈ (stack frame).2.table, count = frame.rows := by
  intro count hcount
  obtain ⟨level, rfl⟩ := List.mem_ofFn.mp hcount
  exact (count_stackCodes _ level).trans (frame.length_eq _ (List.get_mem _ _))

theorem present_stack : ∀ code ∈ (stack frame).2.codes, code.isSome := by
  intro code hcode
  obtain ⟨level, -, hlevel⟩ := List.mem_flatMap.mp hcode
  rw [List.eq_of_mem_replicate hlevel]
  rfl

end Stack

variable {α : Type} [Field α] [LinearOrder α] [IsStrictOrderedRing α]

/-- `oneway.test(values ~ ind, data=df, var.equal=T)` and `anova(lm(values ~ ind, data=df))` for
`df = stack(frame)`. The rank of the model is the number of the columns of the frame. -/
theorem stack_oneway_eq_anova {frame : DataFrame α}
    {y null fit : Fin (stack frame).2.codes.length → α}
    (hy : (stack frame).1 = .of y) (hcolumns : 2 ≤ frame.columns.length) (hrows : 2 ≤ frame.rows)
    (hnull : Fitted (intercept _) y null) (hfit : Fitted (treatment (stack frame).2) y fit) :
    onewayTest (stack frame).1 (stack frame).2 =
        .ok (anova (treatment (stack frame).2) y null fit) ∧
      modelRank (treatment (stack frame).2 : _ → _ → α) = frame.columns.length := by
  have hlevels : (stack frame).2.levels.length = frame.columns.length := List.length_map _
  have htable : ∀ count ∈ (stack frame).2.table, 2 ≤ count := by
    intro count hcount
    rwa [table_stack frame count hcount]
  constructor
  · rw [hy]
    exact onewayTest_eq_anova (present_stack frame) (hcolumns.trans_eq hlevels.symm) htable
      hnull hfit
  · rw [← hlevels]
    exact modelRank_treatment (present_stack frame) fun count hcount =>
      one_le_two.trans (htable count hcount)

/-- The data frame `scores` of the script. -/
def scores : DataFrame ℚ where
  columns := [("x", .of ![4, 3, 4, 5, 2, 3, 4, 5]), ("y", .of ![4, 4, 5, 5, 4, 5, 4, 4]),
    ("z", .of ![3, 4, 2, 4, 5, 5, 4, 4])]
  rows := 8
  names_nodup := by decide
  length_eq := by simp

/-- The column `values` of `stack(scores)`. -/
def scoreValues : Fin 24 → ℚ :=
  ![4, 3, 4, 5, 2, 3, 4, 5, 4, 4, 5, 5, 4, 5, 4, 4, 3, 4, 2, 4, 5, 5, 4, 4]

theorem stack_oneway_eq_anova_scores :
    ∃ null fit : Fin 24 → ℚ, onewayTest (stack scores).1 (stack scores).2 =
      .ok (anova (treatment (stack scores).2) scoreValues null fit) := by
  obtain ⟨⟨null, hnull⟩, fit, hfit⟩ := exists_fitted (present_stack scores) scoreValues
  exact ⟨null, fit, (stack_oneway_eq_anova rfl (by decide) (by decide) hnull hfit).1⟩

/-- `kruskal.test(values ~ ind, data=df)` for `df = stack(frame)`. -/
theorem stack_kruskalTest_eq {frame : DataFrame α}
    {y null fit : Fin (stack frame).2.codes.length → α}
    (hy : (stack frame).1 = .of y) (hcolumns : 2 ≤ frame.columns.length) (hrows : 1 ≤ frame.rows)
    (hnull : Fitted (intercept _) (rank y) null)
    (hfit : Fitted (treatment (stack frame).2) (rank y) fit) :
    kruskalTest (stack frame).1 (stack frame).2 = .ok (
      .num (((stack frame).2.codes.length - 1) * (rss (rank y) null - rss (rank y) fit)) /
        .num (rss (rank y) null),
      (frame.columns.length : Num α) - 1) := by
  have hlevels : (stack frame).2.levels.length = frame.columns.length := List.length_map _
  have htable : ∀ count ∈ (stack frame).2.table, 1 ≤ count := by
    intro count hcount
    rwa [table_stack frame count hcount]
  have htest := kruskalTest_eq (present_stack frame) (hcolumns.trans_eq hlevels.symm) htable
    hnull hfit
  rw [hy, htest]
  exact congrArg (fun k : ℕ => Except.ok (_, (k : Num α) - 1)) hlevels

theorem stack_kruskalTest_eq_scores :
    ∃ null fit : Fin 24 → ℚ, kruskalTest (stack scores).1 (stack scores).2 = .ok (
      .num ((24 - 1) * (rss (rank scoreValues) null - rss (rank scoreValues) fit)) /
        .num (rss (rank scoreValues) null), 3 - 1) := by
  obtain ⟨⟨null, hnull⟩, fit, hfit⟩ :=
    exists_fitted (present_stack scores) (rank scoreValues : _ → ℚ)
  exact ⟨null, fit, stack_kruskalTest_eq rfl (by decide) (by decide) hnull hfit⟩

end GnuRQi.Chill
