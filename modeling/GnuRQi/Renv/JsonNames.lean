import GnuRQi.Renv.Json

/-!
# The names of a list in the JSON reader

`fixNames` puts the values of the map at the positions of its names, both in the order of the other
side. It replaces each name by its own value if the names that the map has occur in the order of
the map.
-/

namespace GnuRQi.Renv

open R Text

variable (map : List (Chars × Chars))

/-- The positions of the names that the map has, with their values. -/
def replacements : List Chars → List (ℕ × Chars)
  | [] => []
  | name :: rest =>
      let later := (replacements rest).map fun (i, value) => (i + 1, value)
      match map.lookup name with
      | some value => (0, value) :: later
      | none => later

variable {map}

theorem lookup_eq_none_iff {name : Chars} :
    map.lookup name = none ↔ name ∉ map.map Prod.fst := by
  induction map with
  | nil => simp
  | cons pair rest ih =>
      rcases pair with ⟨key, value⟩
      by_cases h : name = key
      · subst h
        simp
      · have hbeq : (name == key) = false := beq_false_of_ne h
        rw [List.lookup_cons, hbeq]
        simp [ih, h]

theorem lookup_of_mem (hnodup : (map.map Prod.fst).Nodup) {pair : Chars × Chars}
    (h : pair ∈ map) : map.lookup pair.1 = some pair.2 := by
  obtain ⟨before, after, rfl⟩ := List.append_of_mem h
  rw [List.map_append, List.map_cons, List.nodup_append] at hnodup
  refine List.lookup_eq_some_iff.mpr ⟨before, after, rfl, fun other hother => ?_⟩
  have hne := hnodup.2.2 other.1 (List.mem_map_of_mem hother) pair.1 List.mem_cons_self
  simpa using hne.symm

/-- A value by the position of its name. -/
theorem lookup_eq_bind (name : Chars) :
    ((map.map Prod.fst).idxOf? name).bind (fun i => (map[i]?).map Prod.snd) = map.lookup name := by
  induction map with
  | nil => rfl
  | cons pair rest ih =>
      rcases pair with ⟨key, value⟩
      by_cases h : name = key
      · subst h
        simp [List.idxOf?_cons]
      · have hbeq : (name == key) = false := beq_false_of_ne h
        have hbeq' : (key == name) = false := beq_false_of_ne (Ne.symm h)
        rw [List.lookup_cons, hbeq, ← ih, List.map_cons, List.idxOf?_cons, hbeq']
        cases (rest.map Prod.fst).idxOf? name <;> simp

theorem values_eq (names : List Chars) :
    (names.filterMap fun name => (map.map Prod.fst).idxOf? name).filterMap
      (fun i => (map[i]?).map Prod.snd) = (replacements map names).map Prod.snd := by
  rw [List.filterMap_filterMap]
  simp only [lookup_eq_bind]
  induction names with
  | nil => rfl
  | cons name rest ih =>
      rw [List.filterMap_cons, ih, replacements]
      cases map.lookup name <;> simp [Function.comp_def]

/-- The position after a name that is not the one that is looked for. -/
theorem filterMap_idxOf_cons {keys : List Chars} {name : Chars} (h : name ∉ keys)
    (rest : List Chars) :
    keys.filterMap (fun key => (name :: rest).idxOf? key) =
      (keys.filterMap fun key => rest.idxOf? key).map (· + 1) := by
  rw [List.map_filterMap]
  refine List.filterMap_congr ?_
  intro key hkey
  have hne : (name == key) = false := beq_false_of_ne fun heq => h (heq ▸ hkey)
  rw [List.idxOf?_cons, hne]
  rfl

theorem filterMap_idxOf_nil {keys names : List Chars} (h : ∀ key ∈ keys, key ∉ names) :
    (keys.filterMap fun key => names.idxOf? key) = [] := by
  refine List.filterMap_eq_nil_iff.mpr ?_
  intro key hkey
  exact List.idxOf?_eq_none_iff.mpr (h key hkey)

/-- Where one key is the first name and none is a later one, the keys have one position. -/
theorem filterMap_idxOf_head {keys rest : List Chars} {name : Chars} (hkeys : keys.Nodup)
    (hname : name ∈ keys) (hlater : ∀ key ∈ keys, key ∉ rest) :
    (keys.filterMap fun key => (name :: rest).idxOf? key) = [0] := by
  obtain ⟨before, after, rfl⟩ := List.append_of_mem hname
  have hother : ∀ key ∈ before ++ after, key ∉ name :: rest := by
    intro key hkey
    have hne : key ≠ name := by
      rintro rfl
      exact (List.nodup_cons.mp (List.perm_middle.nodup_iff.mp hkeys)).1 hkey
    have hmem : key ∈ before ++ name :: after :=
      List.perm_middle.mem_iff.mpr (List.mem_cons_of_mem name hkey)
    exact List.not_mem_cons_of_ne_of_not_mem hne (hlater key hmem)
  rw [List.filterMap_append, List.filterMap_cons,
    filterMap_idxOf_nil fun key hkey => hother key (List.mem_append_left after hkey),
    filterMap_idxOf_nil fun key hkey => hother key (List.mem_append_right before hkey),
    List.idxOf?_cons, beq_self_eq_true]
  rfl

/-- The positions of the keys in their order are those of the names in theirs. -/
theorem positions_eq {keys names : List Chars} (hkeys : keys.Nodup)
    (hmem : ∀ name ∈ names, name ∈ keys ↔ map.lookup name ≠ none)
    (horder : (names.filter (· ∈ keys)).Sublist keys) :
    (keys.filterMap fun key => names.idxOf? key) = (replacements map names).map Prod.fst := by
  induction names generalizing keys with
  | nil => exact filterMap_idxOf_nil (by simp)
  | cons name rest ih =>
      have hname := hmem name List.mem_cons_self
      have hrest := fun other hother => hmem other (List.mem_cons_of_mem name hother)
      by_cases hin : name ∈ keys
      · obtain ⟨value, hvalue⟩ := Option.ne_none_iff_exists'.mp (hname.mp hin)
        rw [List.filter_cons_of_pos (by simpa using hin), List.cons_sublist_iff] at horder
        -- The keys up to this name, and those for the later names.
        obtain ⟨first, second, rfl, hfirst, hsecond⟩ := horder
        obtain ⟨hnodup, hnodup', hdisjoint⟩ := List.nodup_append.mp hkeys
        have hlater : ∀ key ∈ first, key ∉ rest := by
          intro key hkey hkeyrest
          have hkept : key ∈ rest.filter (· ∈ first ++ second) := by
            simp [hkeyrest, hkey]
          exact hdisjoint key hkey key (hsecond.subset hkept) rfl
        have hnotin : name ∉ second := fun hmem => hdisjoint name hfirst name hmem rfl
        have hmem' : ∀ other ∈ rest, other ∈ second ↔ map.lookup other ≠ none := by
          intro other hother
          rw [← hrest other hother, List.mem_append]
          constructor
          · exact Or.inr
          · rintro (h | h)
            · exact absurd hother (hlater other h)
            · exact h
        have hkept : rest.filter (· ∈ second) = rest.filter (· ∈ first ++ second) := by
          refine List.filter_congr ?_
          intro other hother
          have hother' := hlater other
          grind
        have hind := ih hnodup' hmem' (hkept ▸ hsecond)
        rw [List.filterMap_append, filterMap_idxOf_head hnodup hfirst hlater,
          filterMap_idxOf_cons hnotin, hind, replacements, hvalue]
        simp [Function.comp_def]
      · have hnone : map.lookup name = none := by
          by_contra h
          exact hin (hname.mpr h)
        rw [List.filter_cons_of_neg (by simpa using hin)] at horder
        rw [filterMap_idxOf_cons hin, ih hkeys hrest horder, replacements, hnone]
        simp [Function.comp_def]

/-- Setting the values at their positions. -/
theorem set_replacements (names : List Chars) :
    (replacements map names).foldl (fun names (i, value) => names.set i value) names =
      names.map fun name => (map.lookup name).getD name := by
  have hshift : ∀ (pairs : List (ℕ × Chars)) (name : Chars) (rest : List Chars),
      (pairs.map fun (i, value) => (i + 1, value)).foldl
        (fun names (i, value) => names.set i value) (name :: rest) =
        name :: pairs.foldl (fun names (i, value) => names.set i value) rest := by
    intro pairs
    induction pairs with
    | nil => exact fun _ _ => rfl
    | cons pair pairs ih =>
        intro name rest
        exact ih name (rest.set pair.1 pair.2)
  induction names with
  | nil => rfl
  | cons name rest ih =>
      rw [replacements, List.map_cons, ← ih]
      cases map.lookup name with
      | none => exact hshift _ name rest
      | some value => exact hshift _ value rest

/-- Values that are recycled over as many positions are not repeated. -/
theorem foldl_recycled (done pairs : List (ℕ × Chars)) (names : List Chars) :
    ((pairs.map Prod.fst).zipIdx done.length).foldl (fun names (i, j) =>
      names.set i (((done ++ pairs).map Prod.snd).getD
        (j % ((done ++ pairs).map Prod.snd).length) [])) names =
      pairs.foldl (fun names (i, value) => names.set i value) names := by
  induction pairs generalizing done names with
  | nil => rfl
  | cons pair pairs ih =>
      have hlt : done.length < ((done ++ pair :: pairs).map Prod.snd).length := by simp
      have hvalue : ((done ++ pair :: pairs).map Prod.snd).getD
          (done.length % ((done ++ pair :: pairs).map Prod.snd).length) [] = pair.2 := by
        rw [Nat.mod_eq_of_lt hlt]
        simp
      have hrest := ih (done ++ [pair]) (names.set pair.1 pair.2)
      rw [List.append_assoc, List.singleton_append, List.length_append] at hrest
      rw [List.map_cons, List.zipIdx_cons, List.foldl_cons, List.foldl_cons]
      simp only [hvalue]
      exact hrest

/-- Each name that the map has is replaced by its value. -/
theorem fixNames_eq {names : List Chars} (hkeys : (map.map Prod.fst).Nodup)
    (horder : (names.filter (· ∈ map.map Prod.fst)).Sublist (map.map Prod.fst)) :
    fixNames map names = .ok (names.map fun name => (map.lookup name).getD name) := by
  have hmem : ∀ name ∈ names, name ∈ map.map Prod.fst ↔ map.lookup name ≠ none := by
    intro name _
    rw [Ne, lookup_eq_none_iff, not_not]
  have hset : (replacements map names).foldl (fun names (i, value) => names.set i value) names =
      names.map fun name => (map.lookup name).getD name := set_replacements names
  simp only [fixNames, positions_eq hkeys hmem horder, values_eq]
  cases hpairs : replacements map names with
  | nil =>
      rw [hpairs] at hset
      simpa using hset
  | cons pair pairs =>
      have hfold := foldl_recycled [] (pair :: pairs) names
      rw [← hpairs, set_replacements, List.nil_append, hpairs] at hfold
      simpa using hfold

end GnuRQi.Renv
