import Mathlib.Data.List.Basic

/-!
# Quoted literals in a text

A text is made of single characters and of literals between double quotes, in which a backslash
takes the next character with it. `findLiterals_render` finds the literals of a text again, and
`replaceFirst_render` and `replaceFirst_gap` say where the first occurrence of a literal is: no
literal before it contains it, but a text that stands between two literals may read like it.
-/

namespace GnuRQi.Text

/-- The characters of a text. -/
abbrev Chars := List Char

/-- Only the characters of the text are gone through, not all that there are. -/
instance (priority := high) decidableForallMem {p : Char → Prop} [DecidablePred p] (text : Chars) :
    Decidable (∀ c ∈ text, p c) := List.decidableBAll p text

/-- A text is in a list of texts by comparing their characters. -/
instance (priority := high) lawfulBEqChars : LawfulBEq Chars := inferInstance

/-- The text with the first occurrence of a pattern replaced, if there is one. -/
def replaceFirst (pattern replacement : Chars) : Chars → Chars
  | [] => []
  | c :: rest =>
      if pattern.isPrefixOf (c :: rest) then replacement ++ (c :: rest).drop pattern.length
      else c :: replaceFirst pattern replacement rest

/-- The text between double quotes. -/
def quote (content : Chars) : Chars := '"' :: content ++ ['"']

/-- What may stand between the quotes of a literal: any characters but a quote and a backslash,
and backslashes with a character after each of them that is not a line break. -/
inductive Content : Chars → Prop
  | nil : Content []
  | plain (c : Char) {rest : Chars} (hquote : c ≠ '"') (hescape : c ≠ '\\') (h : Content rest) :
      Content (c :: rest)
  | escape (c : Char) {rest : Chars} (hline : c ≠ '\n') (h : Content rest) :
      Content ('\\' :: c :: rest)

/-- The contents of a literal up to its closing quote, and the text after it. The character after a
backslash is `escaped`. -/
def closeLiteral (escaped : Bool) : Chars → Option (Chars × Chars)
  | [] => none
  | c :: rest =>
      if escaped then
        if c = '\n' then none
        else (closeLiteral false rest).map fun (content, after) => (c :: content, after)
      else if c = '"' then some ([], rest)
      else (closeLiteral (c = '\\') rest).map fun (content, after) => (c :: content, after)

theorem closeLiteral_content {content : Chars} (h : Content content) (after : Chars) :
    closeLiteral false (content ++ '"' :: after) = some (content, after) := by
  induction h with
  | nil => simp [closeLiteral]
  | plain c hquote hescape h ih => simp [closeLiteral, hquote, hescape, ih]
  | escape c hline h ih => simp [closeLiteral, hline, ih]

/-- No literal is the beginning of another one. -/
theorem Content.unique {x y s t : Chars} (hx : Content x) (hy : Content y)
    (h : x ++ '"' :: s = y ++ '"' :: t) : x = y ∧ s = t := by
  have hclose := closeLiteral_content hx s
  rw [h, closeLiteral_content hy t] at hclose
  simpa [eq_comm] using hclose

/-- Characters outside of literals: neither a quote nor a backslash. -/
theorem content_of_plain {gap : Chars} (h : ∀ c ∈ gap, c ≠ '"' ∧ c ≠ '\\') : Content gap := by
  induction gap with
  | nil => exact .nil
  | cons c rest ih =>
      have hc := h c List.mem_cons_self
      exact .plain c hc.1 hc.2 (ih fun d hd => h d (List.mem_cons_of_mem c hd))

theorem closeLiteral_length {escaped : Bool} {text content after : Chars}
    (h : closeLiteral escaped text = some (content, after)) : after.length < text.length := by
  induction text generalizing escaped content with
  | nil => cases h
  | cons c rest ih =>
      have htail : ∀ flag, ((closeLiteral flag rest).map fun (content, after) =>
          (c :: content, after)) = some (content, after) → after.length < (c :: rest).length := by
        intro flag hmap
        obtain ⟨⟨content', after'⟩, hrest, heq⟩ := Option.map_eq_some_iff.mp hmap
        cases heq
        exact Nat.lt_succ_of_lt (ih hrest)
      rw [closeLiteral] at h
      split_ifs at h
      · exact htail _ h
      · cases h
        exact Nat.lt_succ_self _
      · exact htail _ h

/-- The contents of the literals of a text. A quote that nothing closes is passed over. -/
def findLiterals : Chars → List Chars
  | [] => []
  | c :: rest =>
      if c = '"' then
        match h : closeLiteral false rest with
        | some (content, after) =>
            have := closeLiteral_length h
            content :: findLiterals after
        | none => findLiterals rest
      else findLiterals rest
termination_by text => text.length
decreasing_by all_goals simp_wf <;> omega

/-! ## The first occurrence of a literal -/

theorem replaceFirst_cons_ne {c : Char} (hc : c ≠ '"') (x replacement rest : Chars) :
    replaceFirst (quote x) replacement (c :: rest) =
      c :: replaceFirst (quote x) replacement rest := by
  simp [replaceFirst, quote, hc.symm]

theorem replaceFirst_quote (x replacement after : Chars) :
    replaceFirst (quote x) replacement (quote x ++ after) = replacement ++ after := by
  have hprefix : (quote x).isPrefixOf ('"' :: (x ++ ['"'] ++ after)) = true :=
    List.isPrefixOf_iff_prefix.mpr ⟨after, by simp [quote]⟩
  show replaceFirst (quote x) replacement ('"' :: (x ++ ['"'] ++ after)) = _
  rw [replaceFirst, if_pos hprefix]
  simp [quote]

/-- At a quote with other contents after it the literal does not occur. -/
theorem replaceFirst_other {x y : Chars} (hx : Content x) (hy : Content y) (hne : x ≠ y)
    (replacement after : Chars) :
    replaceFirst (quote x) replacement ('"' :: (y ++ '"' :: after)) =
      '"' :: replaceFirst (quote x) replacement (y ++ '"' :: after) := by
  rw [replaceFirst, if_neg]
  intro hprefix
  obtain ⟨rest, hrest⟩ := List.isPrefixOf_iff_prefix.mp hprefix
  have htail : x ++ '"' :: rest = y ++ '"' :: after := by
    simpa [quote] using hrest
  exact hne (hx.unique hy htail).1

/-- A literal with a marked character does not occur within one that has none. -/
theorem replaceFirst_within {marked : Char → Bool} {x y : Chars} (hx : Content x)
    (hmarked : x.any marked = true) (hy : Content y) (hplain : y.any marked = false)
    (replacement after : Chars) :
    replaceFirst (quote x) replacement (y ++ '"' :: after) =
      y ++ replaceFirst (quote x) replacement ('"' :: after) := by
  induction hy with
  | nil => rfl
  | plain c hquote hescape h ih =>
      rw [List.any_cons, Bool.or_eq_false_iff] at hplain
      rw [List.cons_append, replaceFirst_cons_ne hquote, ih hplain.2, List.cons_append]
  | @escape c rest hline h ih =>
      rw [List.any_cons, List.any_cons, Bool.or_eq_false_iff, Bool.or_eq_false_iff] at hplain
      rw [List.cons_append, List.cons_append, replaceFirst_cons_ne (by decide)]
      by_cases hc : c = '"'
      · -- from an escaped quote on, the literal would have to be the rest of this one
        have hne : x ≠ rest := by
          rintro rfl
          simp [hplain.2.2] at hmarked
        rw [hc, replaceFirst_other hx h hne, ih hplain.2.2]
        rfl
      · rw [replaceFirst_cons_ne hc, ih hplain.2.2]
        rfl

/-- Where the text after a literal reads like the literal that is looked for, together with the
quotes around it, this text is replaced. -/
theorem replaceFirst_closing {marked : Char → Bool} {x y : Chars} (hx : Content x)
    (hmarked : x.any marked = true) (hy : Content y) (hplain : y.any marked = false)
    (replacement after : Chars) :
    replaceFirst (quote x) replacement ('"' :: (y ++ (quote x ++ after))) =
      '"' :: (y ++ (replacement ++ after)) := by
  have hxy : x ≠ y := by
    rintro rfl
    simp [hplain] at hmarked
  have hquote : quote x ++ after = '"' :: (x ++ '"' :: after) := by simp [quote]
  rw [hquote, replaceFirst_other hx hy hxy, replaceFirst_within hx hmarked hy hplain, ← hquote,
    replaceFirst_quote]

/-! ## Texts as characters and literals -/

/-- A character outside of literals, or a literal by what stands between its quotes. -/
inductive Token where
  | char (c : Char)
  | literal (content : Chars)
  deriving DecidableEq

namespace Token

/-- The text of a token. -/
def text : Token → Chars
  | .char c => [c]
  | .literal content => quote content

/-- Characters outside of literals are neither quotes nor backslashes, and literals are closed by
their last quote. -/
def Valid : Token → Prop
  | .char c => c ≠ '"' ∧ c ≠ '\\'
  | .literal content => Content content

/-- No marked character in a literal. -/
def Plain (marked : Char → Bool) : Token → Prop
  | .char _ => True
  | .literal content => content.any marked = false

end Token

/-- The text of a list of tokens. -/
def render (tokens : List Token) : Chars := tokens.flatMap Token.text

@[simp] theorem render_nil : render [] = [] := rfl

@[simp] theorem render_char (c : Char) (rest : List Token) :
    render (.char c :: rest) = c :: render rest := rfl

@[simp] theorem render_literal (content : Chars) (rest : List Token) :
    render (.literal content :: rest) = quote content ++ render rest := rfl

@[simp] theorem render_append (first second : List Token) :
    render (first ++ second) = render first ++ render second :=
  List.flatMap_append

/-- The contents of the literals. -/
def literals : List Token → List Chars
  | [] => []
  | .char _ :: rest => literals rest
  | .literal content :: rest => content :: literals rest

theorem literals_append (first second : List Token) :
    literals (first ++ second) = literals first ++ literals second := by
  induction first with
  | nil => rfl
  | cons token first ih =>
      cases token with
      | char c => exact ih
      | literal content => exact congrArg (content :: ·) ih

theorem content_of_mem_literals {tokens : List Token} (h : ∀ token ∈ tokens, token.Valid)
    {content : Chars} (hcontent : content ∈ literals tokens) : Content content := by
  induction tokens with
  | nil => cases hcontent
  | cons token tokens ih =>
      have hrest := fun other hother => h other (List.mem_cons_of_mem token hother)
      cases token with
      | char c => exact ih hrest hcontent
      | literal first =>
          rcases List.mem_cons.mp hcontent with rfl | hcontent
          · exact h (.literal content) List.mem_cons_self
          · exact ih hrest hcontent

/-- The literals of a text are found in their order. -/
theorem findLiterals_render {tokens : List Token} (h : ∀ token ∈ tokens, token.Valid) :
    findLiterals (render tokens) = literals tokens := by
  induction tokens with
  | nil => rw [render_nil, findLiterals, literals]
  | cons token tokens ih =>
      have hrest := ih fun other hother => h other (List.mem_cons_of_mem token hother)
      cases token with
      | char c =>
          have hc := h (.char c) List.mem_cons_self
          rw [render_char, findLiterals, if_neg hc.1, hrest, literals]
      | literal content =>
          have hclose := closeLiteral_content (h (.literal content) List.mem_cons_self)
            (render tokens)
          have htext : render (.literal content :: tokens) =
              '"' :: (content ++ '"' :: render tokens) := by
            simp [quote]
          rw [htext, findLiterals, if_pos rfl, literals]
          split
          · rename_i content' after hfound
            rw [hclose] at hfound
            cases hfound
            rw [hrest]
          · rename_i hfound
            rw [hclose] at hfound
            cases hfound

/-- The characters before the first literal. -/
def gap : List Token → Chars
  | .char c :: rest => c :: gap rest
  | _ => []

/-- For each literal, the characters between it and the next one. -/
def gaps : List Token → List Chars
  | [] => []
  | .char _ :: rest => gaps rest
  | .literal _ :: rest => gap rest :: gaps rest

/-- Gaps do not depend on the contents of the literals. -/
theorem gap_append_literal (before : List Token) (x y : Chars) (after : List Token) :
    gap (before ++ .literal x :: after) = gap (before ++ .literal y :: after) := by
  induction before with
  | nil => rfl
  | cons token rest ih =>
      cases token with
      | char c => exact congrArg (c :: ·) ih
      | literal content => rfl

theorem gaps_append_literal (before : List Token) (x y : Chars) (after : List Token) :
    gaps (before ++ .literal x :: after) = gaps (before ++ .literal y :: after) := by
  induction before with
  | nil => rfl
  | cons token rest ih =>
      cases token with
      | char c => exact ih
      | literal content => exact congrArg₂ List.cons (gap_append_literal rest x y after) ih

theorem content_gap {tokens : List Token} (h : ∀ token ∈ tokens, token.Valid) :
    Content (gap tokens) := by
  induction tokens with
  | nil => exact .nil
  | cons token rest ih =>
      cases token with
      | char c =>
          have hc := h (.char c) List.mem_cons_self
          exact .plain c hc.1 hc.2 (ih fun other hother => h other (List.mem_cons_of_mem _ hother))
      | literal content => exact .nil

/-- Up to the next quote a text shows the gap. -/
theorem render_quote (tokens : List Token) (after : Chars) :
    ∃ rest, render tokens ++ '"' :: after = gap tokens ++ '"' :: rest := by
  induction tokens with
  | nil => exact ⟨after, rfl⟩
  | cons token tokens ih =>
      cases token with
      | char c =>
          obtain ⟨rest, hrest⟩ := ih
          exact ⟨rest, congrArg (c :: ·) hrest⟩
      | literal content =>
          exact ⟨content ++ ['"'] ++ render tokens ++ '"' :: after, by simp [quote, gap]⟩

section Exchange

variable {marked : Char → Bool} {x : Chars}

/-- One literal is passed over: it is another one, and it is not followed by a gap that reads like
the literal that is looked for. -/
theorem replaceFirst_literal (hx : Content x) (hmarked : x.any marked = true) {y : Chars}
    (hy : Content y) (hplain : y.any marked = false) {g : Chars} (hg : Content g) (hne : x ≠ g)
    (replacement after : Chars) :
    replaceFirst (quote x) replacement (quote y ++ (g ++ '"' :: after)) =
      quote y ++ replaceFirst (quote x) replacement (g ++ '"' :: after) := by
  have hxy : x ≠ y := by
    rintro rfl
    simp [hplain] at hmarked
  have hopening := replaceFirst_other hx hy hxy replacement (g ++ '"' :: after)
  rw [replaceFirst_within hx hmarked hy hplain, replaceFirst_other hx hg hne] at hopening
  simpa [quote] using hopening

/-- The tokens before a quote are passed over if no gap reads like the literal that is looked
for. -/
theorem replaceFirst_pass (hx : Content x) (hmarked : x.any marked = true) {before : List Token}
    (hvalid : ∀ token ∈ before, token.Valid) (hplain : ∀ token ∈ before, token.Plain marked)
    (hgaps : x ∉ gaps before) (replacement after : Chars) :
    replaceFirst (quote x) replacement (render before ++ '"' :: after) =
      render before ++ replaceFirst (quote x) replacement ('"' :: after) := by
  induction before with
  | nil => rfl
  | cons token rest ih =>
      have hvalid' := fun other hother => hvalid other (List.mem_cons_of_mem token hother)
      have hplain' := fun other hother => hplain other (List.mem_cons_of_mem token hother)
      cases token with
      | char c =>
          have hc := hvalid (.char c) List.mem_cons_self
          have hrest := ih hvalid' hplain' hgaps
          rw [render_char, List.cons_append, replaceFirst_cons_ne hc.1, hrest]
          rfl
      | literal y =>
          obtain ⟨hne, hgaps'⟩ : x ≠ gap rest ∧ x ∉ gaps rest := by
            simpa [gaps] using hgaps
          obtain ⟨tail, htail⟩ := render_quote rest after
          have hrest := ih hvalid' hplain' hgaps'
          have hpass := replaceFirst_literal hx hmarked (hvalid (.literal y) List.mem_cons_self)
            (hplain (.literal y) List.mem_cons_self) (content_gap hvalid') hne replacement tail
          rw [← htail, hrest] at hpass
          rw [render_literal, List.append_assoc, hpass, List.append_assoc]

/-- The first occurrence of a literal is the one after tokens without such a gap. -/
theorem replaceFirst_render (hx : Content x) (hmarked : x.any marked = true)
    {before : List Token} (hvalid : ∀ token ∈ before, token.Valid)
    (hplain : ∀ token ∈ before, token.Plain marked) (hgaps : x ∉ gaps before)
    (replacement after : Chars) :
    replaceFirst (quote x) replacement (render before ++ quote x ++ after) =
      render before ++ replacement ++ after := by
  have hpass := replaceFirst_pass hx hmarked hvalid hplain hgaps replacement (x ++ '"' :: after)
  have hquote : quote x ++ after = '"' :: (x ++ '"' :: after) := by simp [quote]
  rw [← hquote, replaceFirst_quote] at hpass
  rw [List.append_assoc, hpass, List.append_assoc]

/-- With such a gap among the tokens the closing quote of the literal before it is replaced, and the
gap with it. -/
theorem replaceFirst_gap (hx : Content x) (hmarked : x.any marked = true) {before : List Token}
    (hvalid : ∀ token ∈ before, token.Valid) (hplain : ∀ token ∈ before, token.Plain marked)
    (hgaps : x ∈ gaps before) (replacement after : Chars) :
    ∃ first y c second rest, before = first ++ .literal y :: .char c :: second ∧ c ∈ x ∧
      replaceFirst (quote x) replacement (render before ++ '"' :: after) =
        render first ++ '"' :: (y ++ (replacement ++ rest)) := by
  induction before with
  | nil => simp [gaps] at hgaps
  | cons token before ih =>
      have hvalid' := fun other hother => hvalid other (List.mem_cons_of_mem token hother)
      have hplain' := fun other hother => hplain other (List.mem_cons_of_mem token hother)
      cases token with
      | char d =>
          have hd := hvalid (.char d) List.mem_cons_self
          obtain ⟨first, y, c, second, rest, rfl, hc, hreplace⟩ := ih hvalid' hplain' hgaps
          refine ⟨.char d :: first, y, c, second, rest, rfl, hc, ?_⟩
          rw [render_char, List.cons_append, replaceFirst_cons_ne hd.1, hreplace]
          rfl
      | literal z =>
          have hz : Content z := hvalid (.literal z) List.mem_cons_self
          have hzplain : z.any marked = false := hplain (.literal z) List.mem_cons_self
          obtain ⟨tail, htail⟩ := render_quote before after
          -- The closing quote of this literal opens the gap, or the search passes both.
          by_cases hg : x = gap before
          · obtain ⟨c, second, rfl⟩ : ∃ c second, before = .char c :: second := by
              cases before with
              | nil =>
                  rw [hg] at hmarked
                  simp [gap] at hmarked
              | cons token before =>
                  cases token with
                  | char c => exact ⟨c, before, rfl⟩
                  | literal content =>
                      rw [hg] at hmarked
                      simp [gap] at hmarked
            refine ⟨[], z, c, second, tail, rfl, by simp [hg, gap], ?_⟩
            have htext : render (.literal z :: .char c :: second) ++ '"' :: after =
                '"' :: (z ++ (quote x ++ tail)) := by
              rw [render_literal, List.append_assoc, htail, ← hg]
              simp [quote]
            rw [htext, replaceFirst_closing hx hmarked hz hzplain]
            rfl
          · have hgaps' : x ∈ gaps before := by simpa [gaps, hg] using hgaps
            have hpass := replaceFirst_literal hx hmarked hz hzplain (content_gap hvalid') hg
              replacement tail
            obtain ⟨first, y, c, second, rest, rfl, hc, hreplace⟩ := ih hvalid' hplain' hgaps'
            refine ⟨.literal z :: first, y, c, second, rest, rfl, hc, ?_⟩
            rw [← htail, hreplace] at hpass
            rw [render_literal, List.append_assoc, hpass, render_literal, List.append_assoc]

end Exchange

end GnuRQi.Text
