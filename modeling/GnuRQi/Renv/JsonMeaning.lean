import GnuRQi.Renv.JsonEmpty
import GnuRQi.Renv.JsonGrammar

/-!
# The value that is read for a JSON value

The induction on the grammar. What R reads for a value is the value itself, but for the names of
the empty objects that are written with blanks.
-/

namespace GnuRQi.Renv

open R Text

/-- Induction on the grammar, with elements and members as arguments of a list. Members are
`named`. -/
theorem means_induction {P : List Token → Value → Prop}
    {A : Bool → List Token → Chars × Value → Prop}
    {L : Bool → List Token → List (Chars × Value) → Prop}
    (null : P (chars "null".toList) .null)
    (true : P (chars "true".toList) (.logical true))
    (false : P (chars "false".toList) (.logical false))
    (number : ∀ d : Decimal, P (chars d.text) (.num d.value))
    (negative : ∀ d : Decimal, P (chars ('-' :: d.text)) (.num (-d.value)))
    (string : ∀ {content value}, StringOf content value →
      P [.literal content] (.character [value]))
    (emptyArray : ∀ {blank}, Blank blank → P (.char '[' :: (blank ++ [.char ']'])) (.list []))
    (array : ∀ {tokens elems}, L .false tokens (elems.map fun value => ([], value)) →
      P (.char '[' :: (tokens ++ [.char ']'])) (.list elems))
    (emptyObject : ∀ {blank}, Blank blank →
      P (.char '{' :: (blank ++ [.char '}'])) (.namedList []))
    (object : ∀ {tokens items}, Members tokens items → L .true tokens items →
      P (.char '{' :: (tokens ++ [.char '}'])) (.namedList items))
    (element : ∀ {before tokens after value}, Blank before → P tokens value → Blank after →
      A .false (before ++ (tokens ++ after)) ([], value))
    (member : ∀ {before colon space tokens after content name value}, Blank before →
      StringOf content name → Blank colon → Blank space → Means tokens value → P tokens value →
      Blank after →
      A .true (before ++ .literal content :: (colon ++ .char ':' :: (space ++ (tokens ++ after))))
        (name, value))
    (last : ∀ {named tokens item}, A named tokens item → L named tokens [item])
    (cons : ∀ {named tokens rest item items}, A named tokens item → L named rest items →
      L named (tokens ++ .char ',' :: rest) (item :: items))
    {tokens : List Token} {value : Value} (h : Means tokens value) : P tokens value := by
  refine @Means.rec (fun tokens value _ => P tokens value)
    (fun tokens elems _ => L .false tokens (elems.map fun value => ([], value)))
    (fun tokens items _ => L .true tokens items) null true false number negative string emptyArray
    (fun _ ih => array ih) emptyObject (fun h ih => object h ih) ?_ ?_ ?_ ?_ _ _ h
  · intro before tokens after value hbefore _ hafter ih
    exact last (element hbefore ih hafter)
  · intro before tokens after rest value elems hbefore _ hafter _ ih ihRest
    have hcons := cons (element hbefore ih hafter) ihRest
    rwa [List.append_assoc, List.append_assoc] at hcons
  · intro before colon space tokens after content name value hbefore hname hcolon hspace h hafter ih
    exact last (member hbefore hname hcolon hspace h ih hafter)
  · intro before colon space tokens after rest content name value items hbefore hname hcolon hspace
      h hafter _ ih ihRest
    have hcons := cons (member hbefore hname hcolon hspace h ih hafter) ihRest
    simpa only [List.append_assoc, List.cons_append] using hcons

theorem listOf_elements (elems : List Value) :
    listOf (elems.map fun value => ([], value)) = .list elems := by
  rw [listOf, if_pos (by simp), List.map_map]
  exact congrArg Value.list (List.map_id elems)

/-- The members of an object do not begin with a closing brace. -/
theorem head_members {tokens : List Token} {items : List (Chars × Value)} (h : Members tokens items)
    (k : ℕ) (rest : Chars) :
    (render (number marked placeholder k tokens) ++ rest).head? ≠ some '}' := by
  have hhead : ∀ {before : List Token} (content : Chars) (after : List Token), Blank before →
      (render (number marked placeholder k (before ++ .literal content :: after)) ++ rest).head? ≠
        some '}' := by
    intro before content after hbefore
    cases before with
    | nil =>
        rw [List.nil_append]
        rcases Bool.eq_false_or_eq_true (content.any marked) with hmarked | hmarked
        · rw [number_marked hmarked]
          simp [quote]
        · rw [number_plain hmarked]
          simp [quote]
    | cons token before =>
        obtain ⟨c, hc, rfl⟩ := hbefore.exists_char List.mem_cons_self
        have hne : c ≠ '}' := by
          rintro rfl
          simp at hc
        simpa using hne
  cases h with
  | last hbefore => exact hhead _ _ hbefore
  | cons hbefore => exact hhead _ _ hbefore

/-! ## What is read and what is meant -/

/-- An argument has an empty name where it is `named`, or there is one within its value. -/
def nameless (named : Bool) (item : Chars × Value) : Bool :=
  named && item.1.isEmpty || hasEmptyName item.2

theorem any_nameless_elements (elems : List Value) :
    (elems.map fun value => (([] : Chars), value)).any (nameless false) =
      hasEmptyName (.list elems) := by
  rw [hasEmptyName_list, List.any_map]
  rfl

theorem any_nameless_members (items : List (Chars × Value)) :
    items.any (nameless true) = hasEmptyName (.namedList items) := by
  rw [hasEmptyName_namedList]
  rfl

/-- What is read is what is meant but for the names of empty lists, and these are the same unless
an object has blanks between its braces. Where the reader is `failing` nothing is read. -/
def Agrees {α : Type} (unname : α → α) (tokens : List Token) (failing : Bool) (read meant : α) :
    Prop :=
  ∃ spaced, Scans tokens spaced ∧
    (failing = false → unname read = unname meant ∧ (read = meant ↔ spaced = false))

theorem Agrees.of_scans {α : Type} {unname : α → α} {tokens : List Token} {failing : Bool}
    {value : α} (h : Scans tokens false) : Agrees unname tokens failing value value :=
  ⟨false, h, fun _ => ⟨rfl, by simp⟩⟩

/-- R reads the tokens of a value. -/
def ReadsMeaning (tokens : List Token) (value : Value) : Prop :=
  ∃ read, ReadsValue tokens read (hasEmptyName value) ∧
    Agrees unnameEmpty tokens (hasEmptyName value) read value

/-- R reads the tokens of an element or a member. -/
def ReadsItem (named : Bool) (tokens : List Token) (item : Chars × Value) : Prop :=
  ∃ read, ReadsArg tokens (item.1, read) (nameless named item) ∧
    Agrees unnameItem tokens (nameless named item) (item.1, read) item

/-- R reads the tokens of elements or members. -/
def ReadsItems (named : Bool) (tokens : List Token) (items : List (Chars × Value)) : Prop :=
  ∃ reads, ReadsArgs tokens reads (items.any (nameless named)) ∧
    reads.map Prod.fst = items.map Prod.fst ∧
    Agrees (List.map unnameItem) tokens (items.any (nameless named)) reads items

/-- A value without parts. -/
theorem readsMeaning_of_scans {tokens : List Token} {value : Value}
    (h : ReadsValue tokens value false) (hname : hasEmptyName value = false)
    (hscans : Scans tokens false) : ReadsMeaning tokens value :=
  ⟨value, hname ▸ h, .of_scans hscans⟩

theorem readsMeaning_emptyObject {blank : List Token} (hblank : Blank blank) :
    ReadsMeaning (.char '{' :: (blank ++ [.char '}'])) (.namedList []) := by
  have hname : hasEmptyName (.namedList []) = false := rfl
  rw [ReadsMeaning, hname]
  cases blank with
  | nil => exact ⟨.namedList [], readsValue_emptyObject, .of_scans (Scans.emptyObject hblank)⟩
  | cons token blank =>
      refine ⟨.list [], readsValue_blank (Or.inr rfl) (Or.inr rfl) (fun _ => List.cons_ne_nil _ _)
        hblank, true, Scans.emptyObject hblank, fun _ => ⟨rfl, ?_⟩⟩
      simp

theorem readsMeaning_array {tokens : List Token} {elems : List Value}
    (h : ReadsItems false tokens (elems.map fun value => ([], value))) :
    ReadsMeaning (.char '[' :: (tokens ++ [.char ']'])) (.list elems) := by
  obtain ⟨reads, hreads, hnames, spaced, hscans, hagrees⟩ := h
  rw [any_nameless_elements] at hreads hagrees
  -- None of the arguments that are read has a name.
  obtain ⟨values, rfl⟩ : ∃ values : List Value, reads = values.map fun value => ([], value) := by
    refine ⟨reads.map Prod.snd, ?_⟩
    rw [List.map_map]
    refine (List.map_id reads).symm.trans (List.map_congr_left fun item hitem => ?_)
    have hname : item.1 ∈ (elems.map fun value => (([] : Chars), value)).map Prod.fst :=
      hnames ▸ List.mem_map_of_mem hitem
    rw [List.map_map] at hname
    obtain ⟨_, -, hempty⟩ := List.mem_map.mp hname
    exact Prod.ext hempty.symm rfl
  have hvalue := readsValue_list (Or.inl rfl) (Or.inl rfl) nofun hreads
  rw [listOf_elements] at hvalue
  have hinjective : Function.Injective fun value : Value => (([] : Chars), value) :=
    fun _ _ heq => congrArg Prod.snd heq
  refine ⟨.list values, hvalue, spaced, hscans.array, fun hname => ?_⟩
  obtain ⟨hunname, heq⟩ := hagrees hname
  constructor
  · have hvalues : (values.map unnameEmpty).map (fun value => (([] : Chars), value)) =
        (elems.map unnameEmpty).map fun value => ([], value) := by
      simpa [List.map_map, Function.comp_def, unnameItem] using hunname
    rw [unnameEmpty_list, unnameEmpty_list, hinjective.list_map hvalues]
  · rw [← heq, Value.list.injEq, hinjective.list_map.eq_iff]

theorem readsMeaning_object {tokens : List Token} {items : List (Chars × Value)}
    (hmembers : Members tokens items) (h : ReadsItems true tokens items) :
    ReadsMeaning (.char '{' :: (tokens ++ [.char '}'])) (.namedList items) := by
  obtain ⟨reads, hreads, hnames, spaced, hscans, hagrees⟩ := h
  rw [any_nameless_members] at hreads hagrees
  have hvalue := readsValue_list (Or.inr rfl) (Or.inr rfl) (fun _ => head_members hmembers) hreads
  refine ⟨listOf reads, hvalue, spaced, hscans.object, fun hname => ?_⟩
  obtain ⟨hunname, heq⟩ := hagrees hname
  have hne : items ≠ [] := by
    cases hmembers <;> exact List.cons_ne_nil _ _
  have hreadsNe : reads ≠ [] := by
    rintro rfl
    exact hne (List.map_eq_nil_iff.mp hnames.symm)
  -- The first member has a name, so that the list has names.
  have hlist : listOf reads = .namedList reads := by
    obtain ⟨item, rest, rfl⟩ := List.exists_cons_of_ne_nil hreadsNe
    refine if_neg fun hnone => ?_
    have hempty : item.1 ∈ items.map Prod.fst := hnames ▸ List.mem_map_of_mem List.mem_cons_self
    obtain ⟨other, hother, hotherName⟩ := List.mem_map.mp hempty
    rw [hasEmptyName_namedList, List.any_eq_false] at hname
    have hfirst := hname other hother
    rw [hotherName, hnone item List.mem_cons_self] at hfirst
    exact hfirst rfl
  constructor
  · rw [hlist, unnameEmpty_namedList hreadsNe, unnameEmpty_namedList hne, hunname]
  · rw [hlist, Value.namedList.injEq]
    exact heq

theorem readsItem_element {before tokens after : List Token} {value : Value}
    (hbefore : Blank before) (h : ReadsMeaning tokens value) (hafter : Blank after) :
    ReadsItem false (before ++ (tokens ++ after)) ([], value) := by
  obtain ⟨read, hread, spaced, hscans, hagrees⟩ := h
  refine ⟨read, readsArg_element hbefore hread hafter, spaced,
    (hscans.append_blank hafter).of_blank_append hbefore, fun hname => ?_⟩
  obtain ⟨hunname, heq⟩ := hagrees hname
  exact ⟨congrArg (Prod.mk []) hunname, by simpa using heq⟩

theorem readsItem_member {before colon space tokens after : List Token} {content name : Chars}
    {value : Value} (hbefore : Blank before) (hname : StringOf content name)
    (hcolon : Blank colon) (hspace : Blank space) (hmeans : Means tokens value)
    (h : ReadsMeaning tokens value) (hafter : Blank after) :
    ReadsItem true
      (before ++ .literal content :: (colon ++ .char ':' :: (space ++ (tokens ++ after))))
      (name, value) := by
  obtain ⟨read, hread, spaced, hscans, hagrees⟩ := h
  have hvalue := (hscans.append_blank hafter).of_blank_append hspace
  have hsign : Scans [.char ':'] false := .single (by decide) (by decide)
  have hmember := (Scans.literal content).append ((hsign.append hvalue).of_blank_append hcolon)
  refine ⟨read, readsArg_member hbefore hname hcolon hspace (begins_of_means hmeans) hread hafter,
    spaced, hmember.of_blank_append hbefore, fun hfails => ?_⟩
  obtain ⟨hunname, heq⟩ := hagrees (Bool.or_eq_false_iff.mp hfails).2
  exact ⟨congrArg (Prod.mk name) hunname, by simpa using heq⟩

theorem readsItems_last {named : Bool} {tokens : List Token} {item : Chars × Value}
    (h : ReadsItem named tokens item) : ReadsItems named tokens [item] := by
  obtain ⟨read, hread, spaced, hscans, hagrees⟩ := h
  have hany : [item].any (nameless named) = nameless named item := by simp
  rw [ReadsItems, hany]
  refine ⟨[(item.1, read)], readsArgs_last hread, rfl, spaced, hscans, fun hname => ?_⟩
  obtain ⟨hunname, heq⟩ := hagrees hname
  exact ⟨congrArg ([·]) hunname, by simpa using heq⟩

theorem readsItems_cons {named : Bool} {tokens rest : List Token} {item : Chars × Value}
    {items : List (Chars × Value)} (h : ReadsItem named tokens item)
    (hrest : ReadsItems named rest items) :
    ReadsItems named (tokens ++ .char ',' :: rest) (item :: items) := by
  obtain ⟨read, hread, spaced, hscans, hagrees⟩ := h
  obtain ⟨reads, hreads, hnames, spacedRest, hscansRest, hagreesRest⟩ := hrest
  have hcomma : Scans [.char ','] false := .single (by decide) (by decide)
  rw [ReadsItems, List.any_cons]
  refine ⟨(item.1, read) :: reads, readsArgs_cons hread hreads, by simp [hnames],
    spaced || spacedRest, hscans.append (hcomma.append hscansRest), fun hname => ?_⟩
  obtain ⟨hfirst, hlater⟩ := Bool.or_eq_false_iff.mp hname
  obtain ⟨hunname, heq⟩ := hagrees hfirst
  obtain ⟨hunnameRest, heqRest⟩ := hagreesRest hlater
  constructor
  · rw [List.map_cons, List.map_cons, hunname, hunnameRest]
  · rw [List.cons.injEq, heq, heqRest, Bool.or_eq_false_iff]

/-- A number has neither blanks nor braces. -/
theorem not_mem_of_mem_text {d : Decimal} {c : Char} (hc : c ∈ d.text) :
    c ∉ [' ', '\t', '\n', '{', '}'] := by
  intro hmem
  have hother : c.isDigit = false ∧ c ∉ ['.', 'e', 'E', '+', '-'] := by
    simp only [List.mem_cons, List.not_mem_nil, or_false] at hmem
    rcases hmem with rfl | rfl | rfl | rfl | rfl <;> decide
  rcases mem_text hc with hdigit | hsign
  · rw [hother.1] at hdigit
    cases hdigit
  · exact hother.2 hsign

/-- R reads every JSON value. -/
theorem readsMeaning_of_means {tokens : List Token} {value : Value} (h : Means tokens value) :
    ReadsMeaning tokens value := by
  refine means_induction (A := ReadsItem) (L := ReadsItems) ?_ ?_ ?_ ?_ ?_ ?_ ?_
    readsMeaning_array readsMeaning_emptyObject readsMeaning_object readsItem_element
    readsItem_member readsItems_last readsItems_cons h
  · refine readsMeaning_of_scans ?_ rfl (.of_chars (by decide) (by decide))
    exact readsValue_word (by decide) (by decide) (by decide) (by decide) (by decide)
      fun map => ⟨.null, rfl, rfl⟩
  · refine readsMeaning_of_scans ?_ rfl (.of_chars (by decide) (by decide))
    exact readsValue_word (by decide) (by decide) (by decide) (by decide) (by decide)
      fun map => ⟨.logical true, rfl, rfl⟩
  · refine readsMeaning_of_scans ?_ rfl (.of_chars (by decide) (by decide))
    exact readsValue_word (by decide) (by decide) (by decide) (by decide) (by decide)
      fun map => ⟨.logical false, rfl, rfl⟩
  · intro d
    have hne : d.text ≠ [] := by simp [Decimal.text, d.int.ne_nil]
    exact readsMeaning_of_scans (readsValue_number d) rfl
      (.of_chars hne fun c hc => not_mem_of_mem_text hc)
  · intro d
    refine readsMeaning_of_scans (readsValue_negative d) rfl
      (.of_chars (List.cons_ne_nil _ _) fun c hc => ?_)
    rcases List.mem_cons.mp hc with rfl | hc
    · decide
    · exact not_mem_of_mem_text hc
  · intro content value hvalue
    exact readsMeaning_of_scans (readsValue_string hvalue) rfl (.literal content)
  · intro blank hblank
    have hvalue := readsValue_blank (Or.inl rfl) (Or.inl rfl) (fun h => absurd h (by decide)) hblank
    exact readsMeaning_of_scans hvalue rfl (.emptyArray hblank)

end GnuRQi.Renv
