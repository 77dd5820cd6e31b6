import GnuRQi.Renv.Json

/-!
# Empty names and empty objects of JSON

Two things that JSON has and the reader does not keep. R refuses an argument with an empty name. An
object with nothing but blanks between its braces becomes a list without names, since only `{}` is
replaced as a whole; `spacedObject_iff` finds these objects in one pass over the tokens.
-/

namespace GnuRQi.Renv

open R Text

/-! ## Values -/

mutual

/-- An object in the value has a member with an empty name. -/
def hasEmptyName : Value → Bool
  | .list elems => anyEmptyName elems
  | .namedList items => anyEmptyMember items
  | _ => false

/-- The same for one of the elements. -/
def anyEmptyName : List Value → Bool
  | [] => false
  | value :: rest => hasEmptyName value || anyEmptyName rest

/-- A member has an empty name, or there is one within its value. -/
def anyEmptyMember : List (Chars × Value) → Bool
  | [] => false
  | (name, value) :: rest => name.isEmpty || hasEmptyName value || anyEmptyMember rest

end

mutual

/-- The value without the names of empty lists, which are the attribute `character()`. -/
def unnameEmpty : Value → Value
  | .list elems => .list (unnameElems elems)
  | .namedList [] => .list []
  | .namedList (item :: items) => .namedList (unnameItems (item :: items))
  | value => value

/-- The same for all elements. -/
def unnameElems : List Value → List Value
  | [] => []
  | value :: rest => unnameEmpty value :: unnameElems rest

/-- The same for the values of all members. -/
def unnameItems : List (Chars × Value) → List (Chars × Value)
  | [] => []
  | (name, value) :: rest => (name, unnameEmpty value) :: unnameItems rest

end

@[simp] theorem hasEmptyName_list (elems : List Value) :
    hasEmptyName (.list elems) = elems.any hasEmptyName := by
  rw [hasEmptyName]
  induction elems with
  | nil => rfl
  | cons value rest ih => rw [anyEmptyName, ih, List.any_cons]

@[simp] theorem hasEmptyName_namedList (items : List (Chars × Value)) :
    hasEmptyName (.namedList items) =
      items.any fun item => item.1.isEmpty || hasEmptyName item.2 := by
  rw [hasEmptyName]
  induction items with
  | nil => rfl
  | cons item rest ih => rw [anyEmptyMember, ih, List.any_cons]

/-- An item with the value without the names of empty lists. -/
def unnameItem (item : Chars × Value) : Chars × Value := (item.1, unnameEmpty item.2)

theorem unnameItems_eq (items : List (Chars × Value)) :
    unnameItems items = items.map unnameItem := by
  induction items with
  | nil => rfl
  | cons item rest ih =>
      rw [unnameItems, ih]
      rfl

@[simp] theorem unnameEmpty_list (elems : List Value) :
    unnameEmpty (.list elems) = .list (elems.map unnameEmpty) := by
  rw [unnameEmpty]
  congr 1
  induction elems with
  | nil => rfl
  | cons value rest ih => rw [unnameElems, ih, List.map_cons]

theorem unnameEmpty_namedList {items : List (Chars × Value)} (hne : items ≠ []) :
    unnameEmpty (.namedList items) = .namedList (items.map unnameItem) := by
  cases items with
  | nil => contradiction
  | cons item rest => rw [unnameEmpty, unnameItems_eq]

/-! ## Objects with blanks between their braces -/

/-- An object of the text has blanks between its braces and nothing else. -/
def SpacedObject (tokens : List Token) : Prop :=
  ∃ before blank after, tokens = before ++ .char '{' :: (blank ++ .char '}' :: after) ∧
    Blank blank ∧ blank ≠ []

/-- How far such an object has been seen: not at all, its brace with or without blanks after it, or
all of it. -/
inductive Scan where
  | outside
  | opened (spaced : Bool)
  | found

namespace Scan

/-- The next token. -/
def next : Scan → Token → Scan
  | .found, _ => .found
  | .outside, token => if token = .char '{' then .opened false else .outside
  | .opened spaced, token =>
      if token = .char '{' then .opened false
      else if token ∈ chars [' ', '\t', '\n'] then .opened true
      else if token = .char '}' ∧ spaced = true then .found
      else .outside

/-- What has been seen of an object at the end of the tokens. -/
def Seen : Scan → List Token → Prop
  | .outside, _ => True
  | .opened spaced, tokens => ∃ before blank, tokens = before ++ .char '{' :: blank ∧
      Blank blank ∧ (spaced = true → blank ≠ [])
  | .found, tokens => SpacedObject tokens

theorem Seen.next {scan : Scan} {tokens : List Token} (h : scan.Seen tokens) (token : Token) :
    (scan.next token).Seen (tokens ++ [token]) := by
  have hopened : Seen (.opened false) (tokens ++ [.char '{']) := ⟨tokens, [], rfl, nofun, nofun⟩
  cases scan with
  | outside =>
      rw [Scan.next]
      split_ifs with hopen
      · exact hopen ▸ hopened
      · trivial
  | opened spaced =>
      obtain ⟨before, blank, rfl, hblank, hspaced⟩ := h
      rw [Scan.next]
      split_ifs with hopen hspace hclose
      · exact hopen ▸ hopened
      · refine ⟨before, blank ++ [token], by simp, ?_, by simp⟩
        exact List.forall_mem_append.mpr ⟨hblank, List.forall_mem_singleton.mpr hspace⟩
      · exact ⟨before, blank, [], by simp [hclose.1], hblank, hspaced hclose.2⟩
      · trivial
  | found =>
      obtain ⟨before, blank, after, rfl, hobject⟩ := h
      exact ⟨before, blank, after ++ [token], by simp, hobject⟩

theorem Seen.foldl {scan : Scan} {done : List Token} (h : scan.Seen done) (tokens : List Token) :
    (tokens.foldl Scan.next scan).Seen (done ++ tokens) := by
  induction tokens generalizing scan done with
  | nil => rwa [List.append_nil]
  | cons token tokens ih =>
      have hrest := ih (h.next token)
      rwa [List.append_assoc] at hrest

@[simp] theorem foldl_found (tokens : List Token) : tokens.foldl Scan.next .found = .found := by
  induction tokens with
  | nil => rfl
  | cons token tokens ih => exact ih

/-- Blanks after an opening brace. -/
theorem foldl_opened {blank : List Token} (hblank : Blank blank) (spaced : Bool) :
    blank.foldl Scan.next (.opened spaced) = .opened (spaced || !blank.isEmpty) := by
  induction blank generalizing spaced with
  | nil => simp
  | cons token blank ih =>
      have htoken := hblank token List.mem_cons_self
      have hne : token ≠ .char '{' := by
        rintro rfl
        simp [chars] at htoken
      rw [List.foldl_cons, Scan.next, if_neg hne, if_pos htoken,
        ih fun other hother => hblank other (List.mem_cons_of_mem token hother)]
      simp

theorem foldl_outside {blank : List Token} (hblank : Blank blank) :
    blank.foldl Scan.next .outside = .outside := by
  induction blank with
  | nil => rfl
  | cons token blank ih =>
      have hne : token ≠ .char '{' := by
        rintro rfl
        have htoken := hblank _ List.mem_cons_self
        simp [chars] at htoken
      rw [List.foldl_cons, Scan.next, if_neg hne]
      exact ih fun other hother => hblank other (List.mem_cons_of_mem token hother)

/-- An opening brace is seen everywhere. -/
theorem next_open {scan : Scan} (h : scan ≠ .found) : scan.next (.char '{') = .opened false := by
  cases scan with
  | found => contradiction
  | _ => rfl

end Scan

/-- One pass over the tokens finds such an object. -/
theorem spacedObject_iff (tokens : List Token) :
    SpacedObject tokens ↔ tokens.foldl Scan.next .outside = .found := by
  constructor
  · rintro ⟨before, blank, after, rfl, hblank, hne⟩
    rw [List.foldl_append, List.foldl_cons]
    by_cases hbefore : before.foldl Scan.next .outside = .found
    · rw [hbefore]
      exact Scan.foldl_found _
    · rw [Scan.next_open hbefore, List.foldl_append, Scan.foldl_opened hblank, List.foldl_cons]
      have hclose : Scan.next (.opened (false || !blank.isEmpty)) (.char '}') = .found := by
        simp [Scan.next, chars, hne]
      rw [hclose]
      exact Scan.foldl_found after
  · intro hfound
    have hnothing : Scan.outside.Seen [] := trivial
    have hseen : (tokens.foldl Scan.next .outside).Seen tokens := hnothing.foldl tokens
    rwa [hfound] at hseen

/-- Whether the tokens have such an object does not depend on what stands before them, and nothing
of it is open after them. -/
def Scans (tokens : List Token) (spaced : Bool) : Prop :=
  ∀ scan, scan ≠ Scan.found →
    tokens.foldl Scan.next scan = if spaced then Scan.found else Scan.outside

namespace Scans

variable {tokens : List Token} {spaced : Bool}

theorem spacedObject (h : Scans tokens spaced) : SpacedObject tokens ↔ spaced = true := by
  rw [spacedObject_iff, h .outside nofun]
  cases spaced <;> simp

theorem append {rest : List Token} {spacedRest : Bool} (h : Scans tokens spaced)
    (hrest : Scans rest spacedRest) : Scans (tokens ++ rest) (spaced || spacedRest) := by
  intro scan hscan
  rw [List.foldl_append, h scan hscan]
  cases spaced with
  | true => exact Scan.foldl_found rest
  | false => exact hrest .outside nofun

/-- A token that is neither a blank nor a brace. -/
theorem single {token : Token} (hblank : token ∉ chars [' ', '\t', '\n'])
    (hbrace : token ≠ .char '{' ∧ token ≠ .char '}') : Scans [token] false := by
  intro scan hscan
  cases scan with
  | found => contradiction
  | _ => simp [Scan.next, hblank, hbrace]

theorem of_blank_append {blank : List Token} (hblank : Blank blank) (h : Scans tokens spaced) :
    Scans (blank ++ tokens) spaced := by
  intro scan hscan
  rw [List.foldl_append]
  refine h _ ?_
  cases scan with
  | found => contradiction
  | outside =>
      rw [Scan.foldl_outside hblank]
      nofun
  | opened spaced =>
      rw [Scan.foldl_opened hblank]
      nofun

theorem append_blank {blank : List Token} (h : Scans tokens spaced) (hblank : Blank blank) :
    Scans (tokens ++ blank) spaced := by
  intro scan hscan
  rw [List.foldl_append, h scan hscan]
  cases spaced with
  | true => exact Scan.foldl_found blank
  | false => exact Scan.foldl_outside hblank

/-- One or more such characters. -/
theorem of_chars {text : Chars} (hne : text ≠ [])
    (h : ∀ c ∈ text, c ∉ [' ', '\t', '\n', '{', '}']) : Scans (chars text) false := by
  have hsingle : ∀ c ∈ text, Scans [.char c] false := by
    intro c hc
    have hc' := h c hc
    simp only [List.mem_cons, List.not_mem_nil, or_false, not_or] at hc'
    exact .single (by simp [chars, hc']) (by simp [hc'])
  induction text with
  | nil => contradiction
  | cons c text ih =>
      have hfirst := hsingle c List.mem_cons_self
      cases text with
      | nil => exact hfirst
      | cons d text =>
          exact hfirst.append (ih (List.cons_ne_nil d text)
            (fun x hx => h x (List.mem_cons_of_mem c hx))
            fun x hx => hsingle x (List.mem_cons_of_mem c hx))

theorem literal (content : Chars) : Scans [.literal content] false :=
  .single (by simp [chars]) (by simp)

/-- An array, by what stands between its brackets. -/
theorem array (h : Scans tokens spaced) : Scans (.char '[' :: (tokens ++ [.char ']'])) spaced := by
  have hopen : Scans [.char '['] false := .single (by decide) (by decide)
  have hclose : Scans [.char ']'] false := .single (by decide) (by decide)
  have harray := hopen.append (h.append hclose)
  rwa [Bool.or_false, Bool.false_or] at harray

theorem emptyArray {blank : List Token} (hblank : Blank blank) :
    Scans (.char '[' :: (blank ++ [.char ']'])) false := by
  have hopen : Scans [.char '['] false := .single (by decide) (by decide)
  have hclose : Scans [.char ']'] false := .single (by decide) (by decide)
  exact hopen.append (hclose.of_blank_append hblank)

/-- An object with members. -/
theorem object (h : Scans tokens spaced) :
    Scans (.char '{' :: (tokens ++ [.char '}'])) spaced := by
  intro scan hscan
  rw [List.foldl_cons, Scan.next_open hscan, List.foldl_append, h (.opened false) nofun]
  cases spaced <;> rfl

theorem emptyObject {blank : List Token} (hblank : Blank blank) :
    Scans (.char '{' :: (blank ++ [.char '}'])) (!blank.isEmpty) := by
  intro scan hscan
  rw [List.foldl_cons, Scan.next_open hscan, List.foldl_append, Scan.foldl_opened hblank]
  cases blank <;> rfl

end Scans

end GnuRQi.Renv
