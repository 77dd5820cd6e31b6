import GnuRQi.Renv.JsonReader

/-!
# What R reads for JSON values

For each form of a JSON value: the expression that R reads for it, and that the expression has the
value when the placeholders in it are exchanged back.
-/

namespace GnuRQi.Renv

open R Text

/-! ## Strings in their places -/

/-- A map from placeholders: its keys are different and have the sign of placeholders. -/
structure IsMap (map : List (Chars × Chars)) : Prop where
  nodup : (map.map Prod.fst).Nodup
  sign : ∀ key ∈ map.map Prod.fst, '\x1a' ∈ key

/-- The placeholders for the strings of the tokens. -/
def placeholders (k : ℕ) (tokens : List Token) : List Chars :=
  (List.range' k (specials marked tokens).length).map placeholder

/-- The map has the strings of the tokens under their placeholders. -/
structure Covers (map : List (Chars × Chars)) (k : ℕ) (tokens : List Token) : Prop where
  lookup : ∀ (n : ℕ) (content value : Chars), (specials marked tokens)[n]? = some content →
    StringOf content value → map.lookup (placeholder (k + n)) = some value
  keys : (placeholders k tokens).Sublist (map.map Prod.fst)

section Maps

variable {map : List (Chars × Chars)} {k : ℕ}

theorem IsMap.lookup_eq_none (h : IsMap map) {name : Chars} (hname : '\x1a' ∉ name) :
    map.lookup name = none :=
  lookup_eq_none_iff.mpr fun hmem => hname (h.sign name hmem)

theorem placeholders_append (k : ℕ) (first second : List Token) :
    placeholders k (first ++ second) =
      placeholders k first ++ placeholders (k + (specials marked first).length) second := by
  simp only [placeholders, specials_append, List.length_append, ← List.map_append,
    List.range'_append_1]

@[simp] theorem placeholders_char (k : ℕ) (c : Char) (rest : List Token) :
    placeholders k (.char c :: rest) = placeholders k rest := rfl

theorem Covers.left {first second : List Token} (h : Covers map k (first ++ second)) :
    Covers map k first where
  lookup n content value hn hvalue := by
    refine h.lookup n content value ?_ hvalue
    rw [specials_append, List.getElem?_append_left (List.getElem?_eq_some_iff.mp hn).1, hn]
  keys := by
    have hkeys := h.keys
    rw [placeholders_append] at hkeys
    exact (List.sublist_append_left _ _).trans hkeys

theorem Covers.right {first second : List Token} (h : Covers map k (first ++ second)) :
    Covers map (k + (specials marked first).length) second where
  lookup n content value hn hvalue := by
    have hlookup := h.lookup ((specials marked first).length + n) content value
    rw [specials_append, List.getElem?_append_right (Nat.le_add_right _ n),
      Nat.add_sub_cancel_left, ← Nat.add_assoc] at hlookup
    exact hlookup hn hvalue
  keys := by
    have hkeys := h.keys
    rw [placeholders_append] at hkeys
    exact (List.sublist_append_right _ _).trans hkeys

theorem Covers.of_char {c : Char} {tokens : List Token} (h : Covers map k (.char c :: tokens)) :
    Covers map k tokens := ⟨h.lookup, h.keys⟩

variable {content value : Chars}

/-- What R reads for a string becomes the string. -/
theorem lookup_label (hmap : IsMap map) (hcovers : Covers map k [.literal content])
    (h : StringOf content value) :
    (map.lookup (label k content value)).getD (label k content value) = value := by
  rw [label]
  split_ifs with hmarked
  · have hlookup := hcovers.lookup 0 content value (by rw [specials_marked hmarked]; rfl) h
    rw [Nat.add_zero] at hlookup
    rw [hlookup]
    rfl
  · rw [hmap.lookup_eq_none h.sign_not_mem.2]
    rfl

theorem filter_label (hmap : IsMap map) (h : StringOf content value) :
    ([label k content value].filter (· ∈ map.map Prod.fst)).Sublist
      (placeholders k [.literal content]) := by
  rw [label]
  split_ifs with hmarked
  · have hplaceholders : placeholders k [.literal content] = [placeholder k] := by
      rw [placeholders, specials_marked hmarked]
      rfl
    rw [hplaceholders]
    exact List.filter_sublist
  · have hvalue : value ∉ map.map Prod.fst := fun hmem => h.sign_not_mem.2 (hmap.sign value hmem)
    rw [List.filter_cons_of_neg (by simpa using hvalue)]
    exact List.nil_sublist _

end Maps

/-! ## Expressions for values -/

/-- The expression has the value when the placeholders in it are exchanged back. -/
def Evaluates (map : List (Chars × Chars)) (e : Lang) (value : Value) : Prop :=
  ∃ remapped, remap map e = .ok remapped ∧ remapped.eval = .ok value

/-- An argument of `list` with its name and value. -/
structure MeansArg (map : List (Chars × Chars)) (k : ℕ) (tokens : List Token) (arg : Chars × Lang)
    (item : Chars × Value) : Prop where
  name : (map.lookup arg.1).getD arg.1 = item.1
  key : ([arg.1].filter (· ∈ map.map Prod.fst)).Sublist (placeholders k tokens)
  value : Evaluates map arg.2 item.2

/-- The arguments of `list` with their names and values. -/
structure MeansArgs (map : List (Chars × Chars)) (k : ℕ) (tokens : List Token)
    (args : List (Chars × Lang)) (items : List (Chars × Value)) : Prop where
  names : args.map (fun arg => (map.lookup arg.1).getD arg.1) = items.map Prod.fst
  keys : ((args.map Prod.fst).filter (· ∈ map.map Prod.fst)).Sublist (placeholders k tokens)
  values : ∃ remapped, remapArgs map args = .ok remapped ∧
    evalArgs ((items.map Prod.fst).zip remapped) = .ok items

section Args

variable {map : List (Chars × Chars)} {k : ℕ} {tokens : List Token}

theorem MeansArgs.cons {rest : List Token} {arg : Chars × Lang} {item : Chars × Value}
    {args : List (Chars × Lang)} {items : List (Chars × Value)} (h : MeansArg map k tokens arg item)
    (hrest : MeansArgs map (k + (specials marked tokens).length) rest args items) :
    MeansArgs map k (tokens ++ rest) (arg :: args) (item :: items) := by
  obtain ⟨remapped, hremap, heval⟩ := h.value
  obtain ⟨remappedRest, hremapRest, hevalRest⟩ := hrest.values
  refine ⟨?_, ?_, remapped :: remappedRest, ?_, ?_⟩
  · rw [List.map_cons, List.map_cons, h.name, hrest.names]
  · rw [placeholders_append, List.map_cons, ← List.singleton_append, List.filter_append]
    exact h.key.append hrest.keys
  · simp [remapArgs, hremap, hremapRest, bind, Except.bind, pure, Except.pure]
  · simp [evalArgs, heval, hevalRest, bind, Except.bind, pure, Except.pure]

theorem MeansArgs.nil : MeansArgs map k tokens [] [] :=
  ⟨rfl, List.nil_sublist _, [], rfl, rfl⟩

theorem MeansArgs.of_char {c : Char} {args : List (Chars × Lang)} {items : List (Chars × Value)}
    (h : MeansArgs map k tokens args items) : MeansArgs map k (.char c :: tokens) args items :=
  ⟨h.names, h.keys, h.values⟩

theorem MeansArgs.single {arg : Chars × Lang} {item : Chars × Value}
    (h : MeansArg map k tokens arg item) : MeansArgs map k tokens [arg] [item] := by
  have hsingle : MeansArgs map k (tokens ++ []) ([arg] ++ []) ([item] ++ []) :=
    MeansArgs.cons h MeansArgs.nil
  rwa [List.append_nil] at hsingle

/-- The call of `list` has the list as its value. -/
theorem MeansArgs.evaluates {args : List (Chars × Lang)} {items : List (Chars × Value)}
    (h : MeansArgs map k tokens args items) (hmap : IsMap map)
    (hcovers : (placeholders k tokens).Sublist (map.map Prod.fst)) :
    Evaluates map (.call "list".toList args) (listOf items) := by
  have hempty : ([] : Chars) ∉ map.map Prod.fst := fun hmem => by
    have hsign := hmap.sign [] hmem
    simp at hsign
  obtain ⟨remapped, hremap, heval⟩ := h.values
  refine ⟨.call "list".toList ((items.map Prod.fst).zip remapped), ?_, ?_⟩
  · rw [remap, hremap]
    -- Without a placeholder among the names they are left as they are.
    split_ifs with hnone
    · have hnames : args.map Prod.fst = items.map Prod.fst := by
        rw [← h.names]
        refine List.map_congr_left fun arg harg => ?_
        rw [hnone arg harg, lookup_eq_none_iff.mpr hempty]
        rfl
      rw [hnames]
      rfl
    · have hkeys : (([] :: args.map Prod.fst).filter (· ∈ map.map Prod.fst)).Sublist
          (map.map Prod.fst) := by
        rw [List.filter_cons_of_neg (by simpa using hempty)]
        exact h.keys.trans hcovers
      have hnames : (([] :: args.map Prod.fst).map fun name => (map.lookup name).getD name).tail =
          items.map Prod.fst := by
        rw [← h.names, List.map_cons, List.tail_cons, List.map_map]
        rfl
      rw [fixNames_eq hmap.nodup hkeys]
      show Except.ok (Lang.call _ ((([] :: args.map Prod.fst).map _).tail.zip remapped)) = _
      rw [hnames]
  · rw [Lang.eval, heval]
    rfl

end Args

end GnuRQi.Renv
