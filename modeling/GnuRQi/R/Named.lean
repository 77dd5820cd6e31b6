import Mathlib.Data.List.Basic
import GnuRQi.Text.Literals

/-!
# Vectors with names

Concatenation, `duplicated` and logical subscripts. `dedupe_entries` says which entries stay when
repeated values and repeated names are taken out at once.
-/

namespace GnuRQi.R

open Text (Chars)

/-! ## First occurrences -/

section Firsts

variable {α : Type} (r : α → α → Prop) [DecidableRel r]

/-- The elements that are related to all elements before them. -/
def firstsFrom (seen : List α) : List α → List α
  | [] => []
  | x :: rest =>
      if ∀ y ∈ seen, r y x then x :: firstsFrom (seen ++ [x]) rest
      else firstsFrom (seen ++ [x]) rest

variable {r}

theorem mem_firstsFrom {seen xs : List α} {x : α} :
    x ∈ firstsFrom r seen xs ↔
      ∃ before after, xs = before ++ x :: after ∧ ∀ y ∈ seen ++ before, r y x := by
  induction xs generalizing seen with
  | nil => simp [firstsFrom]
  | cons first rest ih =>
      have hrest : x ∈ firstsFrom r (seen ++ [first]) rest ↔ ∃ before after,
          first :: rest = (first :: before) ++ x :: after ∧
            ∀ y ∈ seen ++ first :: before, r y x := by
        simp [ih]
      -- The element is the first one, or it comes later and the first one is before it.
      have hfirst : ∀ before after : List α, first :: rest = before ++ x :: after →
          (before = [] ∧ x = first) ∨ ∃ tail, before = first :: tail := by
        intro before after h
        cases before with
        | nil => exact Or.inl ⟨rfl, (List.cons.inj h).1.symm⟩
        | cons y tail =>
            obtain ⟨rfl, -⟩ := List.cons.inj h
            exact Or.inr ⟨tail, rfl⟩
      rw [firstsFrom]
      split_ifs with hseen
      · rw [List.mem_cons, hrest]
        constructor
        · rintro (rfl | ⟨before, after, heq, h⟩)
          · exact ⟨[], rest, rfl, by simpa using hseen⟩
          · exact ⟨first :: before, after, heq, h⟩
        · rintro ⟨before, after, heq, h⟩
          rcases hfirst before after heq with ⟨-, rfl⟩ | ⟨tail, rfl⟩
          · exact Or.inl rfl
          · exact Or.inr ⟨tail, after, heq, h⟩
      · rw [hrest]
        constructor
        · rintro ⟨before, after, heq, h⟩
          exact ⟨first :: before, after, heq, h⟩
        · rintro ⟨before, after, heq, h⟩
          rcases hfirst before after heq with ⟨rfl, rfl⟩ | ⟨tail, rfl⟩
          · exact absurd (by simpa using h) hseen
          · exact ⟨tail, after, heq, h⟩

theorem pairwise_firstsFrom (seen xs : List α) : (firstsFrom r seen xs).Pairwise r := by
  induction xs generalizing seen with
  | nil => exact List.Pairwise.nil
  | cons first rest ih =>
      rw [firstsFrom]
      split_ifs
      · refine List.pairwise_cons.mpr ⟨fun x hx => ?_, ih _⟩
        obtain ⟨before, after, -, h⟩ := mem_firstsFrom.mp hx
        exact h first (by simp)
      · exact ih _

end Firsts

/-! ## Vectors -/

/-- A vector, which has one name for each element or none at all. -/
structure Named (α : Type) where
  values : List α
  names : Option (List Chars)
  length_names : ∀ ns ∈ names, ns.length = values.length
  deriving DecidableEq

/-- `duplicated(xs)`, after some elements. -/
def duplicatedFrom {α : Type} [DecidableEq α] (seen : List α) : List α → List Bool
  | [] => []
  | x :: rest => decide (x ∈ seen) :: duplicatedFrom (seen ++ [x]) rest

/-- `duplicated(xs)`. -/
def duplicated {α : Type} [DecidableEq α] (xs : List α) : List Bool := duplicatedFrom [] xs

/-- `x | y`, where the shorter one is recycled and nothing remains if one is empty. -/
def orLogical (x y : List Bool) : List Bool :=
  if x = [] ∨ y = [] then []
  else (List.range (max x.length y.length)).map fun i =>
    x.getD (i % x.length) false || y.getD (i % y.length) false

/-- `xs[mask]`, where the mask is recycled. -/
def selectMask {α : Type} (xs : List α) (mask : List Bool) : List α :=
  if mask = [] then []
  else (xs.zipIdx.filter fun entry => mask.getD (entry.2 % mask.length) false).map Prod.fst

/-- The elements where the mask is true, one mask element for each. -/
def keep {α : Type} : List α → List Bool → List α
  | x :: xs, b :: mask => if b then x :: keep xs mask else keep xs mask
  | _, _ => []

section Masks

variable {α : Type}

theorem selectMask_eq_keep {xs : List α} {mask : List Bool} (h : mask.length = xs.length) :
    selectMask xs mask = keep xs mask := by
  -- The mask is indexed from its beginning, also where only a suffix of the list is left.
  have hshift : ∀ (xs : List α) (before mask : List Bool), mask.length = xs.length →
      ((xs.zipIdx before.length).filter fun entry =>
        (before ++ mask).getD (entry.2 % (before ++ mask).length) false).map Prod.fst =
          keep xs mask := by
    intro xs
    induction xs with
    | nil => exact fun _ _ _ => by simp [keep]
    | cons x xs ih =>
        intro before mask h
        cases mask with
        | nil => cases h
        | cons b mask =>
            have hrest := ih (before ++ [b]) mask (Nat.succ.inj h)
            have htext : before ++ [b] ++ mask = before ++ b :: mask := by simp
            have hlength : (before ++ [b]).length = before.length + 1 := by simp
            rw [htext, hlength] at hrest
            have hfirst : (before ++ b :: mask).getD
                (before.length % (before ++ b :: mask).length) false = b := by
              rw [Nat.mod_eq_of_lt (by simp)]
              simp
            rw [List.zipIdx_cons, List.filter_cons, keep, ← hrest, hfirst]
            cases b <;> rfl
  rw [selectMask]
  split_ifs with hmask
  · subst hmask
    obtain rfl := List.length_eq_zero_iff.mp h.symm
    rfl
  · exact hshift xs [] mask h

theorem zip_keep {β : Type} {xs : List α} {ys : List β} (h : xs.length = ys.length)
    (mask : List Bool) : (keep xs mask).zip (keep ys mask) = keep (xs.zip ys) mask := by
  induction xs generalizing ys mask with
  | nil => simp [keep]
  | cons x xs ih =>
      cases ys with
      | nil => cases h
      | cons y ys =>
          cases mask with
          | nil => simp [keep]
          | cons b mask =>
              have hrest := ih (Nat.succ.inj h) mask
              cases b <;> simp [keep, hrest]

theorem length_selectMask {β : Type} {xs : List α} {ys : List β} (h : xs.length = ys.length)
    (mask : List Bool) : (selectMask xs mask).length = (selectMask ys mask).length := by
  have hshift : ∀ (xs : List α) (ys : List β) (k : ℕ), xs.length = ys.length →
      ((xs.zipIdx k).filter fun entry => mask.getD (entry.2 % mask.length) false).length =
        ((ys.zipIdx k).filter fun entry => mask.getD (entry.2 % mask.length) false).length := by
    intro xs
    induction xs with
    | nil =>
        intro ys k h
        obtain rfl := List.length_eq_zero_iff.mp h.symm
        rfl
    | cons x xs ih =>
        intro ys k h
        cases ys with
        | nil => cases h
        | cons y ys =>
            have hrest := ih ys (k + 1) (Nat.succ.inj h)
            rw [List.zipIdx_cons, List.zipIdx_cons, List.filter_cons, List.filter_cons]
            simp only
            split_ifs
            · rw [List.length_cons, List.length_cons, hrest]
            · exact hrest
  rw [selectMask, selectMask]
  split_ifs
  · rfl
  · rw [List.length_map, List.length_map]
    exact hshift xs ys 0 h

theorem orLogical_eq {x y : List Bool} (h : x.length = y.length) :
    orLogical x y = List.zipWith or x y := by
  rw [orLogical]
  split_ifs with hnil
  · rcases hnil with rfl | rfl <;> simp
  · refine List.ext_getElem (by simp [h]) fun i hi _ => ?_
    have hlt : i < y.length := by simpa [h] using hi
    simp [h, Nat.mod_eq_of_lt hlt, hlt]

end Masks

namespace Named

variable {α : Type}

/-- The names, which are empty where there are none. -/
def nameList (x : Named α) : List Chars := x.names.getD (List.replicate x.values.length [])

/-- The elements with their names. -/
def entries (x : Named α) : List (Chars × α) := x.nameList.zip x.values

theorem length_nameList (x : Named α) : x.nameList.length = x.values.length := by
  cases hnames : x.names with
  | none => simp [nameList, hnames]
  | some ns => simpa [nameList, hnames] using x.length_names ns hnames

theorem entries_fst (x : Named α) : x.entries.map Prod.fst = x.nameList :=
  List.map_fst_zip (Nat.le_of_eq x.length_nameList)

theorem entries_snd (x : Named α) : x.entries.map Prod.snd = x.values :=
  List.map_snd_zip (Nat.le_of_eq x.length_nameList.symm)

/-- A vector without names. -/
def unnamed (values : List α) : Named α := ⟨values, none, nofun⟩

/-- A vector with names. -/
def ofEntries (entries : List (Chars × α)) : Named α :=
  ⟨entries.map Prod.snd, some (entries.map Prod.fst), by simp⟩

/-- `c(x, y)`. -/
def c (x y : Named α) : Named α where
  values := x.values ++ y.values
  names := if x.names = none ∧ y.names = none then none else some (x.nameList ++ y.nameList)
  length_names := by
    intro ns hns
    split_ifs at hns
    · cases hns
    · obtain rfl := Option.some.inj hns
      simp [length_nameList]

theorem names_c {x y : Named α} : (x.c y).names = none ↔ x.names = none ∧ y.names = none := by
  show (if x.names = none ∧ y.names = none then none
    else some (x.nameList ++ y.nameList)) = none ↔ _
  split_ifs with hnone
  · exact iff_of_true rfl hnone
  · exact iff_of_false nofun hnone

/-- Some values replaced, with the names kept. -/
def map (f : α → α) (x : Named α) : Named α :=
  ⟨x.values.map f, x.names, by simpa using x.length_names⟩

theorem c_entries (x y : Named α) : (x.c y).entries = x.entries ++ y.entries := by
  have hnames : (x.c y).nameList = x.nameList ++ y.nameList := by
    by_cases hnone : x.names = none ∧ y.names = none
    · simp [c, nameList, hnone]
    · have hsome : (x.c y).names = some (x.nameList ++ y.nameList) := if_neg hnone
      rw [nameList, hsome]
      rfl
  rw [entries, hnames]
  exact List.zip_append (x.length_nameList)

/-- `x[mask]`. -/
def select (x : Named α) (mask : List Bool) : Named α where
  values := selectMask x.values mask
  names := x.names.map fun ns => selectMask ns mask
  length_names := by
    intro ns hns
    obtain ⟨old, hold, rfl⟩ := Option.map_eq_some_iff.mp hns
    exact length_selectMask (x.length_names old hold) mask

/-- `x[!(duplicated(x) | duplicated(names(x)))]`. -/
def dedupe [DecidableEq α] (x : Named α) : Named α :=
  x.select ((orLogical (duplicated x.values) (duplicated (x.names.getD []))).map not)

/-- Two entries have neither the same name nor the same value. -/
def Apart (x y : Chars × α) : Prop := x.1 ≠ y.1 ∧ x.2 ≠ y.2

instance [DecidableEq α] : DecidableRel (Apart (α := α)) :=
  fun x y => inferInstanceAs (Decidable (x.1 ≠ y.1 ∧ x.2 ≠ y.2))

theorem length_duplicatedFrom {β : Type} [DecidableEq β] (seen xs : List β) :
    (duplicatedFrom seen xs).length = xs.length := by
  induction xs generalizing seen with
  | nil => rfl
  | cons x xs ih => exact congrArg (· + 1) (ih _)

theorem keep_duplicated [DecidableEq α] (seen entries : List (Chars × α)) :
    keep entries ((List.zipWith or (duplicatedFrom (seen.map Prod.snd) (entries.map Prod.snd))
      (duplicatedFrom (seen.map Prod.fst) (entries.map Prod.fst))).map not) =
      firstsFrom Apart seen entries := by
  induction entries generalizing seen with
  | nil => rfl
  | cons entry entries ih =>
      have hrest := ih (seen ++ [entry])
      rw [List.map_append, List.map_append] at hrest
      have hfirst : (∀ other ∈ seen, Apart other entry) ↔
          entry.2 ∉ seen.map Prod.snd ∧ entry.1 ∉ seen.map Prod.fst := by
        simp only [List.mem_map, not_exists, not_and, Apart]
        constructor
        · intro h
          exact ⟨fun other hother => (h other hother).2, fun other hother => (h other hother).1⟩
        · rintro ⟨hvalue, hname⟩ other hother
          exact ⟨hname other hother, hvalue other hother⟩
      rw [firstsFrom, ← hrest]
      simp only [hfirst, List.map_cons, duplicatedFrom, List.zipWith_cons_cons, keep]
      by_cases hvalue : entry.2 ∈ seen.map Prod.snd
      · simp [hvalue]
      · by_cases hname : entry.1 ∈ seen.map Prod.fst
        · simp [hname]
        · simp [hvalue, hname]

theorem select_entries {x : Named α} {ns : List Chars} (hns : x.names = some ns) {mask : List Bool}
    (h : mask.length = x.values.length) : (x.select mask).entries = keep x.entries mask := by
  have hlength := x.length_names ns hns
  have hselect : (x.select mask).entries = (selectMask ns mask).zip (selectMask x.values mask) := by
    simp only [select, entries, nameList, hns, Option.map_some, Option.getD_some]
  have hentries : x.entries = ns.zip x.values := by
    rw [entries, nameList, hns]
    rfl
  rw [hselect, hentries, selectMask_eq_keep (h.trans hlength.symm), selectMask_eq_keep h,
    zip_keep hlength]

/-- Of a vector with names the entries stay that have neither the name nor the value of one before
them. -/
theorem dedupe_entries [DecidableEq α] {x : Named α} (h : x.names ≠ none) :
    x.dedupe.entries = firstsFrom Apart [] x.entries := by
  obtain ⟨ns, hns⟩ := Option.ne_none_iff_exists'.mp h
  have hlength := x.length_names ns hns
  have hnames : x.entries.map Prod.fst = ns := by
    rw [entries_fst, nameList, hns]
    rfl
  have hduplicated : (duplicated x.values).length = (duplicated ns).length := by
    simp [duplicated, length_duplicatedFrom, hlength]
  have hmask : ((orLogical (duplicated x.values) (duplicated ns)).map not).length =
      x.values.length := by
    rw [orLogical_eq hduplicated]
    simp [duplicated, length_duplicatedFrom, hlength]
  have hkeep := keep_duplicated [] x.entries
  rw [entries_snd, hnames] at hkeep
  rw [dedupe, hns, Option.getD_some, select_entries hns hmask, orLogical_eq hduplicated]
  exact hkeep

/-- Without names nothing stays at all. -/
theorem dedupe_unnamed [DecidableEq α] {x : Named α} (h : x.names = none) :
    x.dedupe.entries = [] := by
  have hmask : (orLogical (duplicated x.values) (duplicated (x.names.getD []))).map not = [] := by
    simp [h, orLogical, duplicated, duplicatedFrom]
  simp [dedupe, select, entries, hmask, selectMask]

end Named

end GnuRQi.R
