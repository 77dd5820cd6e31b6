import GnuRQi.R.Factor

/-!
# The three classes of `proof/can'tdiesmore.R` and `burnout/idcall.R`

Both scripts cut a vector of numbers at 0, two thresholds and its own maximum, and then name the
three levels. The third break moves with the data: it may lie on either side of the thresholds,
and where it meets one of them `cut` stops. The lowest interval does not have its left end 0.
-/

namespace GnuRQi.Classes

open R

section Scripts

variable {α : Type} [Field α] [LinearOrder α]

/-- `cut(v, c(0, k1, k2, max(v)))` with the levels renamed. -/
def classify (v : Vec α) (k1 k2 : Num α) (names : List String) : Except String (Factor String) := do
  let f ← cut v ⟨[0, k1, k2, v.max]⟩
  f.setLevels names

/-- `cats` of `can'tdiesmore.R`. -/
def cats (lives : Vec α) : Except String (Factor String) :=
  classify lives 1 5 ["poor", "rich", "rolling in it"]

/-- `price` of `idcall.R`. -/
def price (prices : Vec α) : Except String (Factor String) :=
  classify prices 12 20 ["cheap", "okay", "expensive"]

/-- `mpg` of `idcall.R`. -/
def mpg (mpgHighway : Vec α) : Except String (Factor String) :=
  classify mpgHighway 20 30 ["gas guzzler", "okay", "miser"]

end Scripts

variable {α : Type} [Field α] [LinearOrder α] {n : ℕ}

/-- The name for a number: the first up to `k1`, the second from there up to `k2` and the third
beyond. -/
def nameOf (k1 k2 : α) (first second third : String) (z : α) : String :=
  if z ≤ k1 then first else if z ≤ k2 then second else third

/-- The classification succeeds, every element has its name, and the table counts all of them. -/
def Classified (v : Fin n → α) (k1 k2 : α) (first second third : String) : Prop :=
  ∃ f, classify (.of v) (.num k1) (.num k2) [first, second, third] = .ok f ∧
    f.labels = List.ofFn (fun i => some (nameOf k1 k2 first second third (v i))) ∧
    f.table.sum = n

/-- The name for a number by its place between four breaks. -/
def nameBetween (p q r s : α) (first second third : String) (z : α) : Option String :=
  if p < z ∧ z ≤ q then some first
  else if q < z ∧ z ≤ r then some second
  else if r < z ∧ z ≤ s then some third
  else none

omit [Field α] in
/-- The name at the code of a number. -/
theorem map_bin (p q r s : α) (first second third : String) (z : α)
    (h : [(Num.num p, Num.num q), (.num q, .num r), (.num r, .num s)].length ≤
      [first, second, third].length) :
    (bin [(.num p, .num q), (.num q, .num r), (.num r, .num s)] (.num z)).map
      (fun i => [first, second, third].get (i.castLE h)) =
      nameBetween p q r s first second third z := by
  simp only [bin, nameBetween, List.findFinIdx?_cons, List.findFinIdx?_nil, Num.num_lt, Num.num_le]
  split_ifs <;> simp_all

/-- With distinct breaks the names follow the sorted breaks. -/
theorem classify_sorted {v : Fin n → α} {k1 k2 m p q r s : α} (first second third : String)
    (hmax : (Vec.of v).max = .num m) (hnodup : [0, k1, k2, m].Nodup)
    (hsort : [0, k1, k2, m].insertionSort (· ≤ ·) = [p, q, r, s]) :
    ∃ f, classify (.of v) (.num k1) (.num k2) [first, second, third] = .ok f ∧
      f.labels = List.ofFn fun i => nameBetween p q r s first second third (v i) := by
  have hbreaks : (⟨[0, .num k1, .num k2, (Vec.of v).max]⟩ : Vec α) =
      ⟨[0, k1, k2, m].map .num⟩ := by
    simp [hmax]
  have hcut : cut (.of v) ⟨[0, .num k1, .num k2, (Vec.of v).max]⟩ =
      .ok (intervals (.of v) ([p, q, r, s].map .num)) := by
    rw [hbreaks, cut_num, if_pos hnodup, hsort]
  have hlength : (intervals (.of v) ([p, q, r, s].map .num)).levels.length ≤
      [first, second, third].length := le_rfl
  obtain ⟨f, hf, hlabels⟩ := Factor.setLevels_labels _ hlength
  refine ⟨f, ?_, ?_⟩
  · rw [classify, hcut]
    exact hf
  · rw [hlabels]
    show ((Vec.of v).elems.map (bin _)).map (Option.map _) = _
    rw [Vec.elems_of, List.map_map, List.map_map, List.map_ofFn]
    refine congrArg List.ofFn ?_
    funext i
    exact map_bin p q r s first second third (v i) hlength

/-- The breaks in increasing order, by the place of the maximum. Below the maximum the names follow
the thresholds, except that zero has none. -/
theorem exists_sorted_breaks {k1 k2 m : α} (first second third : String) (hk1 : 0 < k1)
    (hk2 : k1 < k2) (hm : 0 < m) (hm1 : m ≠ k1) (hm2 : m ≠ k2) :
    ∃ p q r s, [0, k1, k2, m].insertionSort (· ≤ ·) = [p, q, r, s] ∧
      ∀ z, 0 ≤ z → z ≤ m → nameBetween p q r s first second third z =
        if z = 0 then none else some (nameOf k1 k2 first second third z) := by
  rcases lt_or_gt_of_ne hm1 with h1 | h1
  · refine ⟨0, m, k1, k2, ?_, ?_⟩
    · simp [List.orderedInsert, hm.le, hk2.le, h1.not_ge, (h1.trans hk2).not_ge]
    · intro z hz0 hzm
      grind [nameBetween, nameOf]
  · rcases lt_or_gt_of_ne hm2 with h2 | h2
    · refine ⟨0, k1, m, k2, ?_, ?_⟩
      · simp [List.orderedInsert, hk1.le, h1.le, h2.not_ge]
      · intro z hz0 hzm
        grind [nameBetween, nameOf]
    · refine ⟨0, k1, k2, m, ?_, ?_⟩
      · simp [hk1.le, hk2.le, h2.le]
      · intro z hz0 hzm
        grind [nameBetween, nameOf]

/-- What the classification does when the maximum is positive and meets no threshold. -/
theorem classify_of {v : Fin n → α} {k1 k2 m : α} (first second third : String) (hk1 : 0 < k1)
    (hk2 : k1 < k2) (hv : ∀ i, 0 ≤ v i) (hmax : IsGreatest (Set.range v) m) (hm : 0 < m)
    (hm1 : m ≠ k1) (hm2 : m ≠ k2) :
    ∃ f, classify (.of v) (.num k1) (.num k2) [first, second, third] = .ok f ∧
      f.labels = List.ofFn fun i =>
        if v i = 0 then none else some (nameOf k1 k2 first second third (v i)) := by
  obtain ⟨p, q, r, s, hsort, hname⟩ := exists_sorted_breaks first second third hk1 hk2 hm hm1 hm2
  have hnodup : [0, k1, k2, m].Nodup := by
    simp [hk1.ne, hk2.ne, (hk1.trans hk2).ne, hm.ne, hm1.symm, hm2.symm]
  obtain ⟨f, hf, hlabels⟩ := classify_sorted first second third (Vec.max_of hmax) hnodup hsort
  refine ⟨f, hf, hlabels.trans ?_⟩
  refine congrArg List.ofFn ?_
  funext i
  exact hname (v i) (hv i) (hmax.2 ⟨i, rfl⟩)

/-- Where the maximum meets another break, `cut` stops. -/
theorem classify_error {v : Fin n → α} {k1 k2 m : α} (names : List String)
    (hmax : IsGreatest (Set.range v) m) (hm : m = 0 ∨ m = k1 ∨ m = k2) :
    classify (.of v) (.num k1) (.num k2) names = .error "'breaks' are not unique" := by
  have hbreaks : (⟨[0, .num k1, .num k2, (Vec.of v).max]⟩ : Vec α) =
      ⟨[0, k1, k2, m].map .num⟩ := by
    simp [Vec.max_of hmax]
  have hdup : ¬ [0, k1, k2, m].Nodup := by
    rcases hm with rfl | rfl | rfl <;> simp
  rw [classify, hbreaks, cut_num, if_neg hdup]
  rfl

/-- With the thresholds of `cats` the value 0 gets no name. -/
theorem cats_zero : ¬ Classified ![(0 : ℚ), 6] 1 5 "poor" "rich" "rolling in it" := by
  rintro ⟨f, hf, hlabels, -⟩
  have hmax : IsGreatest (Set.range ![(0 : ℚ), 6]) 6 := by
    refine ⟨⟨1, rfl⟩, ?_⟩
    rintro _ ⟨i, rfl⟩
    fin_cases i <;> norm_num
  obtain ⟨g, hg, hnames⟩ := classify_of "poor" "rich" "rolling in it" zero_lt_one
    (by norm_num : (1 : ℚ) < 5) (by decide) hmax (by norm_num) (by norm_num) (by norm_num)
  obtain rfl : f = g := Except.ok.inj (hf.symm.trans hg)
  have hzero := congrFun (List.ofFn_injective (hlabels.symm.trans hnames)) 0
  simp at hzero

/-- The classification is right if and only if no element is zero and the maximum meets no
threshold. -/
theorem classified_iff_max {v : Fin n → α} {k1 k2 m : α} (first second third : String)
    (hk1 : 0 < k1) (hk2 : k1 < k2) (hv : ∀ i, 0 ≤ v i) (hmax : IsGreatest (Set.range v) m) :
    Classified v k1 k2 first second third ↔ (∀ i, v i ≠ 0) ∧ m ≠ k1 ∧ m ≠ k2 := by
  obtain ⟨j, hj⟩ := hmax.1
  have hm0 : 0 ≤ m := hj ▸ hv j
  constructor
  · rintro ⟨f, hf, hlabels, -⟩
    -- Where two breaks are equal `cut` fails.
    have hdistinct : ¬ (m = 0 ∨ m = k1 ∨ m = k2) := by
      intro h
      rw [classify_error _ hmax h] at hf
      contradiction
    obtain ⟨hm, hm1, hm2⟩ : m ≠ 0 ∧ m ≠ k1 ∧ m ≠ k2 := by simpa using hdistinct
    obtain ⟨g, hg, hnames⟩ := classify_of first second third hk1 hk2 hv hmax
      (lt_of_le_of_ne hm0 hm.symm) hm1 hm2
    obtain rfl : f = g := Except.ok.inj (hf.symm.trans hg)
    refine ⟨?_, hm1, hm2⟩
    intro i hzero
    have hi := congrFun (List.ofFn_injective (hlabels.symm.trans hnames)) i
    simp [hzero] at hi
  · rintro ⟨hzero, hm1, hm2⟩
    have hm : m ≠ 0 := hj ▸ hzero j
    obtain ⟨f, hf, hlabels⟩ := classify_of first second third hk1 hk2 hv hmax
      (lt_of_le_of_ne hm0 hm.symm) hm1 hm2
    simp only [hzero, if_false] at hlabels
    refine ⟨f, hf, hlabels, ?_⟩
    have hall : ∀ name ∈ f.labels, name.isSome := by
      simp [hlabels]
    rw [Factor.sum_table, List.countP_eq_length.mpr hall, hlabels, List.length_ofFn]

/-- The classification is right if and only if no element is zero and the maximum is none of the
thresholds. -/
theorem classified_iff (v : Fin n → α) (k1 k2 : α) (first second third : String) (hn : 0 < n)
    (hk1 : 0 < k1) (hk2 : k1 < k2) (hv : ∀ i, 0 ≤ v i) :
    Classified v k1 k2 first second third ↔
      (∀ i, v i ≠ 0) ∧ ¬ IsGreatest (Set.range v) k1 ∧ ¬ IsGreatest (Set.range v) k2 := by
  obtain ⟨m, hmax⟩ : ∃ m, IsGreatest (Set.range v) m := ⟨_, Statistics.isGreatest_sorted v hn⟩
  have hgreatest : ∀ k, IsGreatest (Set.range v) k ↔ m = k := by
    intro k
    exact ⟨hmax.unique, fun h => h ▸ hmax⟩
  rw [classified_iff_max first second third hk1 hk2 hv hmax, hgreatest, hgreatest]

/-- A maximum beyond both thresholds of `cats`. -/
theorem classified_pair : Classified ![(1 : ℚ), 50] 1 5 "poor" "rich" "rolling in it" := by
  refine (classified_iff _ 1 5 _ _ _ two_pos zero_lt_one (by norm_num) (by decide)).mpr
    ⟨by decide, ?_, ?_⟩
  · intro h
    have hle : (50 : ℚ) ≤ 1 := h.2 ⟨1, rfl⟩
    norm_num at hle
  · intro h
    have hle : (50 : ℚ) ≤ 5 := h.2 ⟨1, rfl⟩
    norm_num at hle

section Members

variable [IsStrictOrderedRing α] {v : Fin n → α} {m : α}

/-- What `cats` does with lives, of which the most are `m`. -/
theorem cats_iff (hv : ∀ i, 0 ≤ v i) (hmax : IsGreatest (Set.range v) m) :
    (∃ f, cats (.of v) = .ok f ∧
      f.labels = List.ofFn (fun i => some (nameOf 1 5 "poor" "rich" "rolling in it" (v i))) ∧
      f.table.sum = n) ↔ (∀ i, v i ≠ 0) ∧ m ≠ 1 ∧ m ≠ 5 := by
  rw [cats, Num.one_eq]
  exact classified_iff_max "poor" "rich" "rolling in it" one_pos (by norm_num) hv hmax

/-- What `price` does with prices, of which the highest is `m`. -/
theorem price_iff (hv : ∀ i, 0 ≤ v i) (hmax : IsGreatest (Set.range v) m) :
    (∃ f, price (.of v) = .ok f ∧
      f.labels = List.ofFn (fun i => some (nameOf 12 20 "cheap" "okay" "expensive" (v i))) ∧
      f.table.sum = n) ↔ (∀ i, v i ≠ 0) ∧ m ≠ 12 ∧ m ≠ 20 :=
  classified_iff_max "cheap" "okay" "expensive" Nat.ofNat_pos (by norm_num) hv hmax

/-- What `mpg` does with distances, of which the longest is `m`. -/
theorem mpg_iff (hv : ∀ i, 0 ≤ v i) (hmax : IsGreatest (Set.range v) m) :
    (∃ f, mpg (.of v) = .ok f ∧
      f.labels = List.ofFn (fun i => some (nameOf 20 30 "gas guzzler" "okay" "miser" (v i))) ∧
      f.table.sum = n) ↔ (∀ i, v i ≠ 0) ∧ m ≠ 20 ∧ m ≠ 30 :=
  classified_iff_max "gas guzzler" "okay" "miser" Nat.ofNat_pos (by norm_num) hv hmax

end Members

example : (cats (.of ![(12 : ℚ), 2 / 5, 5, 2, 50, 8, 3, 1, 4, 1 / 4])).map Factor.table =
    .ok [3, 4, 3] := by
  decide +kernel

end GnuRQi.Classes
