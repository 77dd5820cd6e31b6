import GnuRQi.R.Factor
import GnuRQi.R.LinearModel
import GnuRQi.R.Statistics

/-!
# `stack`, `oneway.test` and `anova(lm())`

The analysis of variance of one factor, once from the means and variances of the groups and once
from two linear models. `onewayTest_eq_anova`: where every level has two values or more both give
the same statistic and the same degrees of freedom.
-/

namespace GnuRQi.R

open Statistics

section Functions

variable {α β : Type}

/-- The rows of `model.frame(y ~ g)` by the codes of `g`. A row with a missing value is dropped. -/
def modelFrame {k : ℕ} (y : Vec α) (codes : List (Option (Fin k))) : List (Num α × Fin k) :=
  (y.elems.zip codes).filterMap fun row => if row.1.isNA then none else row.2.map (row.1, ·)

/-- `split(y, factor(g))`, where `factor` drops the levels without a row. -/
def split {k : ℕ} (rows : List (Num α × Fin k)) : List (Vec α) :=
  ((List.finRange k).map fun level =>
    ⟨(rows.filter fun row => row.2 = level).map Prod.fst⟩).filter fun v : Vec α => v.length ≠ 0

/-- The statistic of a test and its parameters, the degrees of freedom. -/
structure FTest (α : Type) where
  statistic : Num α
  parameter : Num α × Num α

variable [Field α] [LinearOrder α]

/-- `oneway.test(y ~ g, var.equal=TRUE)`. -/
def onewayTest (y : Vec α) (g : Factor β) : Except String (FTest α) :=
  let rows := modelFrame y g.codes
  let y : Vec α := ⟨rows.map Prod.fst⟩
  let groups := split rows
  let k : Num α := (groups.length : Num α)
  if groups.length < 2 then .error "not enough groups"
  else if groups.any fun v => v.length < 2 then .error "not enough observations"
  else
    let ni : Vec α := ⟨groups.map fun v => (v.length : Num α)⟩
    let mi : Vec α := ⟨groups.map Vec.mean⟩
    let vi : Vec α := ⟨groups.map Vec.var⟩
    let n := ni.sum
    .ok {
      statistic := ((ni * (mi - y.mean) ^ 2).sum / (k - 1)) / (((ni - 1) * vi).sum / (n - k))
      parameter := (k - 1, n - k) }

/-- The design of `lm(y ~ 1)`. -/
def intercept (n : ℕ) : Unit → Fin n → α := fun _ _ => 1

/-- The design of `lm(y ~ g)`: the intercept, and an indicator for each level after the first. -/
def treatment (g : Factor β) : Fin g.levels.length → Fin g.codes.length → α :=
  fun level i => if level.val = 0 then 1 else if g.codes.get i = some level then 1 else 0

/-- The F value of `anova(lm(y ~ g))` and its degrees of freedom: the reduction of the residual sum
of squares by the term and what remains, each divided by its degrees of freedom. -/
noncomputable def anova {n : ℕ} {κ : Type*} (design : κ → Fin n → α) (y null fit : Fin n → α) :
    FTest α where
  statistic := (.num (rss y null - rss y fit) / ((modelRank design : Num α) - 1)) /
    (.num (rss y fit) / ((n : Num α) - (modelRank design : Num α)))
  parameter := ((modelRank design : Num α) - 1, (n : Num α) - (modelRank design : Num α))

end Functions

/-! ## The groups of a factor -/

section Groups

variable {α : Type} {n k : ℕ} (y : Fin n → α) (code : Fin n → Fin k)

/-- The values of a level. -/
def levelValues (level : Fin k) : List α :=
  ((List.finRange n).filter fun i => code i = level).map y

theorem modelFrame_of :
    modelFrame (.of y) (List.ofFn fun i => some (code i)) =
      (List.finRange n).map fun i => (.num (y i), code i) := by
  have hzip : (Vec.of y).elems.zip (List.ofFn fun i => some (code i)) =
      (List.finRange n).map fun i => (.num (y i), some (code i)) := by
    rw [Vec.of, List.ofFn_eq_map, List.ofFn_eq_map]
    exact List.zip_map'
  rw [modelFrame, hzip, List.filterMap_map, ← List.filterMap_eq_map]
  rfl

theorem sum_levelValues {δ : Type*} [AddCommMonoid δ] (f : α → δ) (level : Fin k) :
    ((levelValues y code level).map f).sum = ∑ i with code i = level, f (y i) := by
  have hnodup : ((List.finRange n).filter fun i => code i = level).Nodup :=
    (List.nodup_finRange n).filter _
  rw [levelValues, List.map_map, ← List.sum_toFinset _ hnodup, List.toFinset_filter,
    List.toFinset_finRange]
  simp

theorem length_levelValues (level : Fin k) :
    (levelValues y code level).length = groupSize code level := by
  have h := sum_levelValues y code (fun _ => 1) level
  rwa [List.map_const', List.sum_replicate_nat, mul_one, Finset.sum_const, smul_eq_mul,
    mul_one] at h

theorem count_codes (level : Fin k) :
    (List.ofFn fun i => some (code i)).count (some level) = groupSize code level := by
  rw [List.count, countP_ofFn, groupSize]
  simp

/-- Where every level has a value, each is a group. -/
theorem split_of (h : ∀ level, 0 < groupSize code level) :
    split ((List.finRange n).map fun i => (Num.num (y i), code i)) =
      (List.finRange k).map fun level => ⟨(levelValues y code level).map .num⟩ := by
  have hvalues : ∀ level, (((List.finRange n).map fun i => (Num.num (y i), code i)).filter
      fun row => row.2 = level).map Prod.fst = (levelValues y code level).map .num := by
    intro level
    rw [List.filter_map, levelValues, List.map_map, List.map_map]
    rfl
  simp only [split, hvalues]
  refine List.filter_eq_self.mpr ?_
  intro v hv
  obtain ⟨level, -, rfl⟩ := List.mem_map.mp hv
  have hpos := h level
  rw [← length_levelValues y code level] at hpos
  simp [Vec.length, hpos.ne']

theorem length_group (level : Fin k) :
    Vec.length ⟨(levelValues y code level).map Num.num⟩ = groupSize code level := by
  rw [Vec.length, List.length_map, length_levelValues]

/-- A statistic of every group. -/
theorem map_groups {f : Vec α → Num α} {z : Fin k → α}
    (h : ∀ level, f ⟨(levelValues y code level).map .num⟩ = .num (z level)) :
    (⟨((List.finRange k).map fun level =>
      (⟨(levelValues y code level).map .num⟩ : Vec α)).map f⟩ : Vec α) = .of z := by
  rw [Vec.of, List.ofFn_eq_map, List.map_map]
  exact congrArg Vec.mk (List.map_congr_left fun level _ => h level)

theorem map_length_groups [Field α] :
    (⟨((List.finRange k).map fun level =>
      (⟨(levelValues y code level).map .num⟩ : Vec α)).map fun v => (v.length : Num α)⟩ : Vec α) =
        .of fun level => (groupSize code level : α) :=
  map_groups y code fun level => by rw [length_group, Num.natCast_eq]

/-- A list of finite numbers as a data set. -/
theorem Vec.mk_map_num (values : List α) : (⟨values.map .num⟩ : Vec α) = .of values.get := by
  rw [Vec.mk.injEq, Vec.elems_of, List.ofFn_get]

variable [Field α] [LinearOrder α] [IsStrictOrderedRing α]

theorem mean_level (level : Fin k) (h : 0 < groupSize code level) :
    Vec.mean ⟨(levelValues y code level).map .num⟩ = .num (groupMean code y level) := by
  have hsum := sum_levelValues y code id level
  rw [List.map_id] at hsum
  rw [Vec.mk_map_num, Vec.mean_of _ (by rwa [length_levelValues]), Statistics.mean,
    ← List.sum_ofFn, List.ofFn_get, hsum, length_levelValues, groupMean]
  rfl

omit [LinearOrder α] [IsStrictOrderedRing α] in
theorem sum_level (level : Fin k) :
    Vec.sum ⟨(levelValues y code level).map .num⟩ = .num (∑ i with code i = level, y i) := by
  have hsum := sum_levelValues y code id level
  rw [List.map_id] at hsum
  rw [Vec.mk_map_num, Vec.sum_of, ← List.sum_ofFn, List.ofFn_get, hsum]
  rfl

/-- The weighted variance of a group is its sum of squares. -/
theorem var_level (level : Fin k) (h : 2 ≤ groupSize code level) :
    ∃ v, Vec.var ⟨(levelValues y code level).map .num⟩ = .num v ∧
      (groupSize code level - 1) * v =
        ∑ i with code i = level, (y i - groupMean code y level) ^ 2 := by
  have hlength := length_levelValues y code level
  have hmean := mean_level y code level (by omega)
  rw [Vec.mk_map_num, Vec.mean_of _ (by omega), Num.num.injEq] at hmean
  rw [Vec.mk_map_num]
  refine ⟨_, Vec.var_of _ (by omega), ?_⟩
  rw [← hlength, mul_variance _ (by omega), sumSq, hmean,
    ← sum_levelValues y code (fun z => (z - groupMean code y level) ^ 2) level, ← List.sum_ofFn]
  show (List.ofFn ((fun z => (z - groupMean code y level) ^ 2) ∘ List.get _)).sum = _
  rw [← List.map_ofFn, List.ofFn_get]

end Groups

/-- The rows of a factor without missing values. -/
theorem modelFrame_codes {β : Type} {g : Factor β} {code : Fin g.codes.length → Fin g.levels.length}
    (hcode : ∀ i, g.codes.get i = some (code i)) {α : Type} (y : Fin g.codes.length → α) :
    modelFrame (.of y) g.codes =
      (List.finRange g.codes.length).map fun i => (.num (y i), code i) := by
  have hcodes : g.codes = List.ofFn fun i => some (code i) :=
    (List.ofFn_get g.codes).symm.trans (congrArg List.ofFn (funext hcode))
  exact (congrArg _ hcodes).trans (modelFrame_of y code)

/-- The values of all rows. -/
theorem map_fst_rows {α : Type} {n k : ℕ} (y : Fin n → α) (code : Fin n → Fin k) :
    ((List.finRange n).map fun i => (Num.num (y i), code i)).map Prod.fst = (Vec.of y).elems := by
  rw [List.map_map, Vec.of, List.ofFn_eq_map]
  rfl

/-- Where every row has a level. -/
theorem exists_code {β : Type} {g : Factor β} (hpresent : ∀ code ∈ g.codes, code.isSome) :
    ∃ code : Fin g.codes.length → Fin g.levels.length, ∀ i, g.codes.get i = some (code i) :=
  ⟨fun i => (g.codes.get i).get (hpresent _ (List.get_mem _ i)), fun _ => (Option.some_get _).symm⟩

/-- A bound of the counts of a table bounds the groups. -/
theorem groupSize_of_table {β : Type} {g : Factor β}
    {code : Fin g.codes.length → Fin g.levels.length} (hcode : ∀ i, g.codes.get i = some (code i))
    {size : ℕ} (htable : ∀ count ∈ g.table, size ≤ count) (level : Fin g.levels.length) :
    size ≤ groupSize code level := by
  rw [← count_codes, ← funext hcode, List.ofFn_get]
  exact htable _ (List.mem_ofFn.mpr ⟨level, rfl⟩)

/-! ## Two linear models -/

section Models

variable {α β : Type} [Field α] {n k : ℕ}

/-- The model of the intercept has one group. -/
theorem span_intercept : Submodule.span α (Set.range (intercept n)) =
    groupModel α fun _ : Fin n => () := by
  refine le_antisymm (Submodule.span_le.mpr ?_) ?_
  · rintro _ ⟨_, rfl⟩
    exact ⟨fun _ => 1, rfl⟩
  · rintro _ ⟨c, rfl⟩
    have hone : LinearMap.funLeft α α (fun _ : Fin n => ()) c = c () • intercept n () := by
      funext i
      simp [intercept]
    rw [hone]
    exact Submodule.smul_mem _ _ (Submodule.subset_span ⟨(), rfl⟩)

/-- The columns of the treatment contrasts span the functions of the level. -/
theorem span_treatment {g : Factor β} {code : Fin g.codes.length → Fin g.levels.length}
    (hcode : ∀ i, g.codes.get i = some (code i)) :
    Submodule.span α (Set.range (treatment g)) = groupModel α code := by
  refine le_antisymm (Submodule.span_le.mpr ?_) ?_
  · rintro _ ⟨level, rfl⟩
    refine ⟨fun l => if level.val = 0 then 1 else if l = level then 1 else 0, ?_⟩
    funext i
    simp only [LinearMap.funLeft_apply, treatment, hcode, Option.some.injEq]
  · rintro _ ⟨c, rfl⟩
    -- A function of the level is its value at the first one and the differences from that.
    have hsum : LinearMap.funLeft α α code c = ∑ level, (if level.val = 0 then c level
        else c level - c ⟨0, level.pos⟩) • treatment g level := by
      funext i
      have hterm : ∀ level, (if level.val = 0 then c level else c level - c ⟨0, level.pos⟩) *
          treatment g level i = (if ⟨0, (code i).pos⟩ = level then c level else 0) +
            if code i = level then c level - c ⟨0, (code i).pos⟩ else 0 := by
        intro level
        simp only [treatment, hcode, Option.some.injEq]
        by_cases hfirst : level.val = 0
        · have heq : level = ⟨0, (code i).pos⟩ := Fin.ext hfirst
          simp [heq]
        · have hne : (⟨0, (code i).pos⟩ : Fin g.levels.length) ≠ level :=
            fun heq => hfirst (congrArg Fin.val heq).symm
          simp [hfirst, hne]
      simp only [Finset.sum_apply, Pi.smul_apply, smul_eq_mul, hterm, Finset.sum_add_distrib,
        Finset.sum_ite_eq, Finset.mem_univ, if_true]
      exact (add_sub_cancel _ _).symm
    rw [hsum]
    exact Submodule.sum_mem _ fun level _ =>
      Submodule.smul_mem _ _ (Submodule.subset_span ⟨level, rfl⟩)

/-- Where every level has a value, the rank is their number. -/
theorem modelRank_treatment {g : Factor β} (hpresent : ∀ code ∈ g.codes, code.isSome)
    (htable : ∀ count ∈ g.table, 1 ≤ count) :
    modelRank (treatment g : _ → _ → α) = g.levels.length := by
  obtain ⟨code, hcode⟩ := exists_code hpresent
  have hsurjective : Function.Surjective code := by
    intro level
    obtain ⟨i, hi⟩ := Finset.card_pos.mp (groupSize_of_table hcode htable level)
    exact ⟨i, (Finset.mem_filter.mp hi).2⟩
  rw [modelRank, span_treatment hcode, finrank_groupModel code hsurjective, Fintype.card_fin]

end Models

/-! ## One test -/

section Test

variable {α β : Type} [Field α] [LinearOrder α] [IsStrictOrderedRing α]

/-- Both models have fitted values, whatever the data are. -/
theorem exists_fitted {g : Factor β} (hpresent : ∀ code ∈ g.codes, code.isSome)
    (y : Fin g.codes.length → α) :
    (∃ null, Fitted (intercept _) y null) ∧ ∃ fit, Fitted (treatment g) y fit := by
  obtain ⟨code, hcode⟩ := exists_code hpresent
  have hnull := isFit_groupMean y fun _ => ()
  have hfit := isFit_groupMean y code
  rw [← span_intercept] at hnull
  rw [← span_treatment hcode] at hfit
  exact ⟨⟨_, hnull⟩, _, hfit⟩

/-- The fitted values of the intercept are the mean. -/
theorem null_eq_mean {n : ℕ} {y null : Fin n → α} (hnull : Fitted (intercept n) y null)
    (i : Fin n) : null i = Statistics.mean y := by
  rw [Fitted, span_intercept] at hnull
  rw [hnull.unique (isFit_groupMean y fun _ => ()), groupMean, groupSize, Statistics.mean]
  simp

/-- The sums of squares of `anova` between and within the groups. -/
theorem rss_of_fitted {g : Factor β} {code : Fin g.codes.length → Fin g.levels.length}
    (hcode : ∀ i, g.codes.get i = some (code i)) {y null fit : Fin g.codes.length → α}
    (hnull : Fitted (intercept _) y null) (hfit : Fitted (treatment g) y fit) :
    rss y null - rss y fit =
      ∑ level, groupSize code level * (groupMean code y level - Statistics.mean y) ^ 2 ∧
    rss y fit = ∑ level, ∑ i with code i = level, (y i - groupMean code y level) ^ 2 := by
  have hmean := null_eq_mean hnull
  rw [Fitted, span_intercept] at hnull
  rw [Fitted, span_treatment hcode] at hfit
  have hle : groupModel α (fun _ : Fin g.codes.length => ()) ≤ groupModel α code := by
    rintro _ ⟨c, rfl⟩
    exact ⟨fun _ => c (), rfl⟩
  have hgroups := hfit.unique (isFit_groupMean y code)
  constructor
  · rw [hfit.rss_sub hnull hle, hgroups, ← sum_groupMean_sub_sq]
    exact Finset.sum_congr rfl fun i _ => by rw [hmean]
  · rw [hgroups, rss_groupMean]

/-- The statistic by the means of the groups. -/
theorem onewayTest_of {g : Factor β} {code : Fin g.codes.length → Fin g.levels.length}
    (hcode : ∀ i, g.codes.get i = some (code i)) (y : Fin g.codes.length → α)
    (hlevels : 2 ≤ g.levels.length) (hsize : ∀ level, 2 ≤ groupSize code level) :
    onewayTest (.of y) g = .ok {
      statistic :=
        (.num (∑ level, groupSize code level *
            (groupMean code y level - Statistics.mean y) ^ 2) /
          ((g.levels.length : Num α) - 1)) /
        (.num (∑ level, ∑ i with code i = level, (y i - groupMean code y level) ^ 2) /
          ((g.codes.length : Num α) - (g.levels.length : Num α)))
      parameter := ((g.levels.length : Num α) - 1,
        (g.codes.length : Num α) - (g.levels.length : Num α)) } := by
  have hpos : ∀ level, 0 < groupSize code level := fun level => by linarith [hsize level]
  choose v hvar hweighted using fun level => var_level y code level (hsize level)
  have hni := map_length_groups y code
  have hmi := map_groups y code fun level => mean_level y code level (hpos level)
  have hvi := map_groups y code hvar
  have hn : ∑ level, groupSize code level = g.codes.length := by
    rw [sum_groupSize, Fintype.card_fin]
  have hmean : (Vec.of y).mean = .num (Statistics.mean y) := by
    refine Vec.mean_of y ?_
    rw [← hn]
    exact (hpos ⟨0, by omega⟩).trans_le
      (Finset.single_le_sum (fun level _ => Nat.zero_le _) (Finset.mem_univ _))
  -- No group is too small for its variance.
  have hany : ((List.finRange g.levels.length).map fun level =>
      (⟨(levelValues y code level).map .num⟩ : Vec α)).any (fun v => v.length < 2) = false := by
    simp only [List.any_map, List.any_eq_false, Function.comp_apply, length_group,
      decide_eq_true_eq, not_lt]
    exact fun level _ => hsize level
  simp only [onewayTest, modelFrame_codes hcode, map_fst_rows, split_of y code hpos, hni, hmi, hvi]
  rw [List.length_map, List.length_finRange, if_neg (by omega), hany]
  simp only [Bool.false_eq_true, if_false, hmean, Vec.one_eq, Vec.of_sub_single, Vec.of_sq,
    Vec.of_mul, Vec.sum_of, hweighted, ← Nat.cast_sum, hn]
  rfl

/-- `oneway.test(y ~ g, var.equal=TRUE)` and `anova(lm(y ~ g))` report the same test. -/
theorem onewayTest_eq_anova {g : Factor β} {y null fit : Fin g.codes.length → α}
    (hpresent : ∀ code ∈ g.codes, code.isSome) (hlevels : 2 ≤ g.levels.length)
    (htable : ∀ count ∈ g.table, 2 ≤ count) (hnull : Fitted (intercept _) y null)
    (hfit : Fitted (treatment g) y fit) :
    onewayTest (.of y) g = .ok (anova (treatment g) y null fit) := by
  obtain ⟨code, hcode⟩ := exists_code hpresent
  have hsize := groupSize_of_table hcode htable
  have hrank : modelRank (treatment g : _ → _ → α) = g.levels.length :=
    modelRank_treatment hpresent fun count hcount => one_le_two.trans (htable count hcount)
  obtain ⟨hbetween, hwithin⟩ := rss_of_fitted hcode hnull hfit
  rw [onewayTest_of hcode y hlevels hsize, anova, hrank, hbetween, hwithin]

end Test

end GnuRQi.R
