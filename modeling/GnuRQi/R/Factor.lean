import GnuRQi.R.Order

/-!
# Factors, `cut` and `table`

A factor gives each of its elements one of its levels or none. `cut` makes one from the intervals
between sorted breaks, `levels<-` gives the levels other names, and `table` counts the elements
of each level.
-/

namespace GnuRQi.R

/-- A factor. The code of an element is the position of its level, and none is `NA`. -/
structure Factor (β : Type) where
  levels : List β
  codes : List (Option (Fin levels.length))

namespace Factor

variable {β γ : Type}

/-- `as.vector(f)`: the level of each element. -/
def labels (f : Factor β) : List (Option β) := f.codes.map (Option.map f.levels.get)

/-- `table(f)`: the number of elements of each level. Elements without a level are not counted. -/
def table (f : Factor β) : List ℕ := List.ofFn fun i => f.codes.count (some i)

/-- `levels(f) <- value`. Levels of the same name become one. -/
def setLevels [DecidableEq γ] (f : Factor β) (value : List γ) : Except String (Factor γ) :=
  if h : f.levels.length ≤ value.length then
    .ok {
      levels := value.eraseDups
      codes := f.codes.map fun code =>
        code.bind fun i => value.eraseDups.finIdxOf? (value.get (i.castLE h)) }
  else .error "number of levels differs"

/-- After an assignment of levels an element has the name at its code. -/
theorem setLevels_labels [DecidableEq γ] (f : Factor β) {value : List γ}
    (h : f.levels.length ≤ value.length) :
    ∃ g, f.setLevels value = .ok g ∧
      g.labels = f.codes.map (Option.map fun i => value.get (i.castLE h)) := by
  refine ⟨_, dif_pos h, ?_⟩
  simp only [labels, List.map_map]
  refine List.map_congr_left ?_
  intro code _
  cases code with
  | none => rfl
  | some i =>
      have hmem : value.get (i.castLE h) ∈ value.eraseDups :=
        List.mem_eraseDups.mpr (List.get_mem _ _)
      cases hindex : value.eraseDups.finIdxOf? (value.get (i.castLE h)) with
      | none => exact absurd hmem (List.finIdxOf?_eq_none_iff.mp hindex)
      | some j =>
          have hj := (List.finIdxOf?_eq_some_iff.mp hindex).1
          show ((value.eraseDups.finIdxOf? (value.get (i.castLE h))).map value.eraseDups.get) =
            some (value.get (i.castLE h))
          rw [hindex, Option.map_some]
          exact congrArg some hj

/-- The elements with a code, counted by their codes. -/
theorem sum_count {k : ℕ} (codes : List (Option (Fin k))) :
    ∑ i, codes.count (some i) = codes.countP Option.isSome := by
  induction codes with
  | nil => simp
  | cons code rest ih =>
      simp only [List.count_cons, Finset.sum_add_distrib, ih, List.countP_cons]
      cases code with
      | none => simp
      | some i => simp

/-- A table counts the elements with a level. -/
theorem sum_table (f : Factor β) : f.table.sum = f.labels.countP Option.isSome := by
  rw [table, List.sum_ofFn, sum_count, labels, List.countP_map]
  refine congrArg (List.countP · f.codes) ?_
  funext code
  cases code <;> rfl

end Factor

section Cut

variable {α : Type} [LinearOrder α]

/-- The position of the first interval with the number. An interval has its right end, not its
left one. -/
def bin (intervals : List (Num α × Num α)) (x : Num α) : Option (Fin intervals.length) :=
  intervals.findFinIdx? fun interval => interval.1.lt x = some true ∧ x.le interval.2

/-- The numbers by the interval between sorted breaks in which they are. -/
def intervals (x : Vec α) (breaks : List (Num α)) : Factor (Num α × Num α) where
  levels := breaks.zip breaks.tail
  codes := x.elems.map (bin (breaks.zip breaks.tail))

/-- `cut(x, breaks)` for two or more breaks, with the intervals themselves as levels. -/
def cut (x breaks : Vec α) : Except String (Factor (Num α × Num α)) :=
  let breaks := breaks.sort.elems
  if breaks.Nodup then .ok (intervals x breaks) else .error "'breaks' are not unique"

/-- `cut(x, breaks)` with finite numbers as breaks. -/
theorem cut_num (x : Vec α) (breaks : List α) :
    cut x ⟨breaks.map .num⟩ =
      if breaks.Nodup then .ok (intervals x ((breaks.insertionSort (· ≤ ·)).map .num))
      else .error "'breaks' are not unique" := by
  have hnodup : ((breaks.insertionSort (· ≤ ·)).map Num.num).Nodup ↔ breaks.Nodup := by
    rw [List.nodup_map_iff fun _ _ h => Num.num.inj h, (List.perm_insertionSort _ _).nodup_iff]
  simp only [cut, Vec.sort_num, hnodup]

end Cut

end GnuRQi.R
