import GnuRQi.Renv.Json

/-!
# The texts of the JSON reader

What `transform` does to the characters of a text, and what the literals of a JSON text are like.
With these the text that R parses is the one with the placeholders, if the first occurrence of each
string is the one that is meant.
-/

namespace GnuRQi.Renv

open R Text

/-! ## The text that R parses -/

/-- What stands for a character once the empty objects are replaced. -/
def translate (c : Char) : Chars :=
  if c ∈ ['[', '{'] then "list(".toList
  else if c ∈ [']', '}'] then ")".toList
  else if c = ':' then ['=']
  else [c]

theorem translate_of_unmarked {c : Char} (h : marked c = false) : translate c = [c] := by
  have hne : c ≠ '[' ∧ c ≠ ']' ∧ c ≠ '{' ∧ c ≠ '}' ∧ c ≠ ':' := by
    simpa [marked] using h
  simp [translate, hne]

theorem transform_eq (text : Chars) :
    transform text = (gsub ['{', '}'] emptyObject text).flatMap translate := by
  have hpasses : ∀ text : Chars, gsub [':'] ['=']
      (gsubClass [']', '}'] ")".toList (gsubClass ['[', '{'] "list(".toList text)) =
        text.flatMap translate := by
    intro text
    induction text with
    | nil => simp [gsubClass, gsub_char]
    | cons c rest ih =>
        rw [gsub_char] at ih ⊢
        rw [List.flatMap_cons, ← ih]
        simp only [gsubClass, List.flatMap_cons, List.flatMap_append, List.map_append]
        congr 1
        by_cases hmarked : marked c = true
        · simp only [marked, List.mem_cons, List.not_mem_nil, or_false,
            decide_eq_true_eq] at hmarked
          rcases hmarked with rfl | rfl | rfl | rfl | rfl <;> rfl
        · have hne : c ≠ '[' ∧ c ≠ ']' ∧ c ≠ '{' ∧ c ≠ '}' ∧ c ≠ ':' := by
            simpa [marked] using hmarked
          rw [Bool.not_eq_true] at hmarked
          rw [translate_of_unmarked hmarked]
          simp [hne]
  exact hpasses _

@[simp] theorem transform_nil : transform [] = [] := by
  rw [transform_eq, gsub]
  rfl

/-- Without a closing brace after it each character is translated on its own. -/
theorem transform_cons {c : Char} {rest : Chars} (h : c = '{' → rest.head? ≠ some '}') :
    transform (c :: rest) = translate c ++ transform rest := by
  have hprefix : ['{', '}'].isPrefixOf (c :: rest) = false := by
    by_contra hcon
    rw [Bool.not_eq_false] at hcon
    cases rest with
    | nil => simp [List.isPrefixOf] at hcon
    | cons d tail =>
        obtain ⟨hc, hd⟩ : '{' = c ∧ '}' = d := by simpa [List.isPrefixOf] using hcon
        exact h hc.symm (congrArg some hd.symm)
  rw [transform_eq, gsub, hprefix, if_neg (by decide), List.flatMap_cons, ← transform_eq]

theorem transform_append {text : Chars} (h : ∀ c ∈ text, marked c = false) (rest : Chars) :
    transform (text ++ rest) = text ++ transform rest := by
  induction text with
  | nil => rfl
  | cons c text ih =>
      have hc := h c List.mem_cons_self
      have hopen : c = '{' → (text ++ rest).head? ≠ some '}' := by
        rintro rfl
        cases hc
      rw [List.cons_append, transform_cons hopen, translate_of_unmarked hc,
        ih fun d hd => h d (List.mem_cons_of_mem c hd)]
      rfl

/-- An empty object is replaced as a whole. -/
theorem transform_empty (rest : Chars) :
    transform ('{' :: '}' :: rest) = emptyObject ++ transform rest := by
  have hplain : ∀ c ∈ emptyObject, marked c = false := by decide
  have hcall : emptyObject.flatMap translate = emptyObject := by
    conv_rhs => rw [← List.flatMap_singleton' emptyObject]
    exact List.flatMap_congr fun c hc => translate_of_unmarked (hplain c hc)
  rw [transform_eq, gsub, if_pos (by simp [List.isPrefixOf]), List.flatMap_append, hcall,
    transform_eq]
  rfl

theorem Blank.exists_char {tokens : List Token} (h : Blank tokens) {token : Token}
    (htoken : token ∈ tokens) : ∃ c ∈ [' ', '\t', '\n'], token = .char c := by
  simpa [chars] using h token htoken

theorem unmarked_quote {content : Chars} (h : content.any marked = false) :
    ∀ c ∈ quote content, marked c = false := by
  intro c hc
  simp only [quote, List.mem_append, List.mem_cons, List.not_mem_nil, or_false] at hc
  rcases hc with (rfl | hc) | rfl
  · rfl
  · simpa using List.any_eq_false.mp h c hc
  · rfl

/-! ## Placeholders -/

theorem placeholder_injective : Function.Injective placeholder := by
  intro m n h
  have htail := (List.cons.inj h).2
  exact formatInt_injective (List.append_cancel_right htail)

/-- A placeholder has digits between its two signs. -/
theorem mem_placeholder {n : ℕ} {c : Char} (h : c ∈ placeholder n) :
    c = '\x1a' ∨ c.isDigit = true := by
  simp only [placeholder, List.mem_cons, List.mem_append, List.not_mem_nil, or_false] at h
  rcases h with h | h | h
  · exact Or.inl h
  · exact Or.inr (isDigit_of_mem_formatInt h)
  · exact Or.inl h

theorem sign_mem_placeholder (n : ℕ) : '\x1a' ∈ placeholder n := List.mem_cons_self

theorem ne_of_mem_placeholder {n : ℕ} {c d : Char} (h : c ∈ placeholder n) (hsign : d ≠ '\x1a')
    (hdigit : d.isDigit = false) : c ≠ d := by
  rintro rfl
  rcases mem_placeholder h with h | h
  · exact hsign h
  · rw [hdigit] at h
    cases h

theorem isPlaceholder : IsPlaceholder marked '\x1a' placeholder where
  sign_ne := by decide
  content n := content_of_plain fun c hc =>
    ⟨ne_of_mem_placeholder hc (by decide) (by decide),
      ne_of_mem_placeholder hc (by decide) (by decide)⟩
  plain n := by
    rw [List.any_eq_false]
    intro c hc
    have hne := fun d => ne_of_mem_placeholder (d := d) hc
    simp [marked, hne '[' (by decide) (by decide), hne ']' (by decide) (by decide),
      hne '{' (by decide) (by decide), hne '}' (by decide) (by decide),
      hne ':' (by decide) (by decide)]
  begins n := ⟨_, rfl⟩

theorem readsAs_placeholder (n : ℕ) : ReadsAs (placeholder n) (placeholder n) :=
  .of_plain fun _ hc => ⟨ne_of_mem_placeholder hc (by decide) (by decide),
    ne_of_mem_placeholder hc (by decide) (by decide)⟩

/-! ## Strings -/

/-- The string has an escape of JSON that R refuses: a slash or the character with the code zero. -/
def unreadable : Chars → Bool
  | '\\' :: c :: rest =>
      c = '/' || (c = 'u' && hexValue (rest.take 4) = 0) || unreadable rest
  | _ :: rest => unreadable rest
  | [] => false

theorem unreadable_plain {c : Char} (hc : c ≠ '\\') (rest : Chars) :
    unreadable (c :: rest) = unreadable rest := by
  cases rest <;> simp [unreadable, hc]

theorem unreadable_append {text : Chars} (h : ∀ c ∈ text, c ≠ '\\') (rest : Chars) :
    unreadable (text ++ rest) = unreadable rest := by
  induction text with
  | nil => rfl
  | cons c text ih =>
      rw [List.cons_append, unreadable_plain (h c List.mem_cons_self)]
      exact ih fun d hd => h d (List.mem_cons_of_mem c hd)

theorem unreadable_escape {c : Char} (hc : c ≠ 'u') (rest : Chars) :
    unreadable ('\\' :: c :: rest) = (decide (c = '/') || unreadable rest) := by
  simp [unreadable, hc]

theorem unreadable_unicode {digits : Chars} (hlength : digits.length = 4)
    (hdigits : ∀ c ∈ digits, c ≠ '\\') (rest : Chars) :
    unreadable ('\\' :: 'u' :: (digits ++ rest)) =
      (decide (hexValue digits = 0) || unreadable rest) := by
  have htake : (digits ++ rest).take 4 = digits := by simp [← hlength]
  rw [unreadable, htake, unreadable_append hdigits]
  simp

/-- A hexadecimal digit is none of the other characters of strings. -/
theorem ne_of_hexDigit {c d : Char} (h : (hexDigit c).isSome = true) (hd : hexDigit d = none) :
    c ≠ d := by
  rintro rfl
  rw [hd] at h
  cases h

theorem ne_backslash {digits : Chars} (h : ∀ c ∈ digits, (hexDigit c).isSome = true) :
    ∀ c ∈ digits, c ≠ '\\' :=
  fun c hc => ne_of_hexDigit (h c hc) rfl

theorem ne_u_of_mem {c d : Char} (hcd : (c, d) ∈ jsonEscapes) : c ≠ 'u' := by
  rintro rfl
  simp [jsonEscapes] at hcd

namespace StringOf

variable {string value : Chars}

theorem content (h : StringOf string value) : Content string := by
  induction h with
  | nil => exact .nil
  | plain c hcontrol hquote hescape h ih => exact .plain c hquote hescape ih
  | escape c d hcd h ih =>
      refine .escape c ?_ ih
      rintro rfl
      simp [jsonEscapes] at hcd
  | unicode digits hlength hdigits hhalf hsign h ih =>
      refine .escape 'u' (by decide) ?_
      clear hlength hhalf hsign
      induction digits with
      | nil => exact ih
      | cons c digits ihDigits =>
          have hc := hdigits c List.mem_cons_self
          exact .plain c (ne_of_hexDigit hc rfl) (ne_of_hexDigit hc rfl)
            (ihDigits fun d hd => hdigits d (List.mem_cons_of_mem c hd))

/-- Characters that need no escape stand for themselves. -/
theorem of_plain (h : ∀ c ∈ string, 32 ≤ c.toNat ∧ c ≠ '"' ∧ c ≠ '\\') :
    StringOf string string := by
  induction string with
  | nil => exact .nil
  | cons c rest ih =>
      obtain ⟨hcontrol, hquote, hescape⟩ := h c List.mem_cons_self
      exact .plain c hcontrol hquote hescape (ih fun d hd => h d (List.mem_cons_of_mem c hd))

/-- Only the empty string is written without characters. -/
theorem eq_nil_iff (h : StringOf string value) : value = [] ↔ string = [] := by
  cases h <;> simp

/-- Only the code of the sign gives the sign. -/
theorem ofNat_ne_sign {code : ℕ} (h : code ≠ 0x1a) : '\x1a' ≠ Char.ofNat code := by
  intro heq
  have hcode : (Char.ofNat code).toNat = 0x1a := congrArg Char.toNat heq.symm
  by_cases hvalid : code.isValidChar
  · rw [Char.ofNat, dif_pos hvalid] at hcode
    exact h hcode
  · rw [Char.ofNat, dif_neg hvalid] at hcode
    cases hcode

/-- The sign of placeholders is a control character, which JSON strings must escape. -/
theorem sign_not_mem (h : StringOf string value) : '\x1a' ∉ string ∧ '\x1a' ∉ value := by
  induction h with
  | nil => simp
  | plain c hcontrol hquote hescape h ih =>
      have hc : '\x1a' ≠ c := by
        rintro rfl
        revert hcontrol
        decide
      simp [hc, ih]
  | escape c d hcd h ih =>
      have hne : '\x1a' ≠ c ∧ '\x1a' ≠ d := by
        simp only [jsonEscapes, List.mem_cons, Prod.mk.injEq, List.not_mem_nil, or_false] at hcd
        rcases hcd with ⟨rfl, rfl⟩ | ⟨rfl, rfl⟩ | ⟨rfl, rfl⟩ | ⟨rfl, rfl⟩ | ⟨rfl, rfl⟩ |
          ⟨rfl, rfl⟩ | ⟨rfl, rfl⟩ | ⟨rfl, rfl⟩ <;> decide
      simp [hne, ih]
  | unicode digits hlength hdigits hhalf hsign h ih =>
      have hnone : '\x1a' ∉ digits := fun hmem => ne_of_hexDigit (hdigits _ hmem) rfl rfl
      simp [hnone, ofNat_ne_sign hsign, ih]

/-- The escapes of JSON but the slash are escapes of R. -/
theorem escapeValue_eq {c d : Char} (hcd : (c, d) ∈ jsonEscapes) :
    escapeValue c = if c = '/' then none else some d := by
  simp only [jsonEscapes, List.mem_cons, Prod.mk.injEq, List.not_mem_nil, or_false] at hcd
  rcases hcd with ⟨rfl, rfl⟩ | ⟨rfl, rfl⟩ | ⟨rfl, rfl⟩ | ⟨rfl, rfl⟩ | ⟨rfl, rfl⟩ |
    ⟨rfl, rfl⟩ | ⟨rfl, rfl⟩ | ⟨rfl, rfl⟩ <;> rfl

/-- The codes that JSON has but R does not take are zero only. -/
theorem unicodeValue_eq {code : ℕ} (hhalf : ¬(0xd800 ≤ code ∧ code ≤ 0xdfff)) :
    unicodeValue code =
      if code = 0 then .error (.error "nul character not allowed") else .ok (Char.ofNat code) := by
  rw [unicodeValue, if_neg hhalf]

/-- R reads the string that JSON means if it has no escape that R refuses. -/
theorem readsAs (h : StringOf string value) (hread : unreadable string = false) :
    ReadsAs string value := by
  induction h with
  | nil => exact .nil
  | plain c hcontrol hquote hescape h ih =>
      rw [unreadable_plain hescape] at hread
      exact .plain hquote hescape (ih hread)
  | escape c d hcd h ih =>
      rw [unreadable_escape (ne_u_of_mem hcd), Bool.or_eq_false_iff] at hread
      have hvalue := escapeValue_eq hcd
      rw [if_neg (of_decide_eq_false hread.1)] at hvalue
      exact .escape hvalue (ih hread.2)
  | unicode digits hlength hdigits hhalf hsign h ih =>
      rw [unreadable_unicode hlength (ne_backslash hdigits), Bool.or_eq_false_iff] at hread
      have hvalue := unicodeValue_eq hhalf
      rw [if_neg (of_decide_eq_false hread.1)] at hvalue
      exact .unicode hlength hdigits hvalue (ih hread.2)

/-- R fails at an escape that it refuses. -/
theorem read_error (h : StringOf string value) (hread : unreadable string = true) :
    ∃ message, ∀ read p, Reader.read ⟨.string read, p⟩ string = .error (.error message) := by
  -- What the string begins with is read first.
  have hlater : ∀ {first rest : Chars} {d : Char},
      (∀ read p, Reader.read ⟨.string read, p⟩ first = .ok ⟨.string (read ++ [d]), p⟩) →
      (∃ message, ∀ read p, Reader.read ⟨.string read, p⟩ rest = .error (.error message)) →
      ∃ message, ∀ read p,
        Reader.read ⟨.string read, p⟩ (first ++ rest) = .error (.error message) := by
    rintro first rest d hfirst ⟨message, hrest⟩
    refine ⟨message, fun read p => ?_⟩
    rw [Reader.read_append, hfirst]
    exact hrest _ p
  induction h with
  | nil => cases hread
  | plain c hcontrol hquote hescape h ih =>
      rw [unreadable_plain hescape] at hread
      exact hlater (ReadsAs.plain hquote hescape .nil) (ih hread)
  | @escape c d rest _ hcd h ih =>
      rw [unreadable_escape (ne_u_of_mem hcd), Bool.or_eq_true] at hread
      have hvalue := escapeValue_eq hcd
      by_cases hc : c = '/'
      · subst hc
        exact ⟨_, fun read p => rfl⟩
      · rw [if_neg hc] at hvalue
        exact hlater (ReadsAs.escape hvalue .nil) (ih (hread.resolve_left (by simpa using hc)))
  | @unicode digits rest _ hlength hdigits hhalf hsign h ih =>
      rw [unreadable_unicode hlength (ne_backslash hdigits), Bool.or_eq_true] at hread
      have hvalue := unicodeValue_eq hhalf
      by_cases hzero : hexValue digits = 0
      · rw [if_pos hzero] at hvalue
        refine ⟨"nul character not allowed", fun read p => ?_⟩
        rw [← List.cons_append, ← List.cons_append, Reader.read_append,
          Reader.read_unicode hlength hdigits, hvalue]
        rfl
      · rw [if_neg hzero] at hvalue
        have hfirst := ReadsAs.unicode hlength hdigits hvalue .nil
        rw [List.append_nil] at hfirst
        exact hlater hfirst (ih (hread.resolve_left (by simpa using hzero)))

end StringOf

/-! ## The strings that are exchanged -/

/-- The exchange of the strings is the one of the literals. -/
theorem replaceStrings_eq (text : Chars) :
    replaceStrings text =
      (((findLiterals text).filter fun content => content.any marked).map quote,
        (List.range' 1 ((findLiterals text).filter fun content => content.any marked).length).map
          fun n => quote (placeholder n),
        exchange placeholder 1 ((findLiterals text).filter fun content => content.any marked)
          text) := by
  have hmarked : ∀ content : Chars, (quote content).any marked = content.any marked := by
    intro content
    have hquote : marked '"' = false := by decide
    simp [quote, hquote]
  have hstrings : ((findLiterals text).map quote).filter (fun string => string.any marked) =
      ((findLiterals text).filter fun content => content.any marked).map quote := by
    rw [List.filter_map]
    exact congrArg (List.map quote) (List.filter_congr fun content _ => hmarked content)
  -- The placeholders count on from any number, so that the induction goes through.
  have hexchange : ∀ (contents : List Chars) (k : ℕ) (text : Chars),
      ((contents.map quote).zip
        ((List.range' k contents.length).map fun n => quote (placeholder n))).foldl replaceString
          text =
        exchange placeholder k contents text := by
    intro contents
    induction contents with
    | nil => exact fun _ _ => rfl
    | cons content rest ih =>
        intro k text
        exact ih (k + 1) _
  simp only [replaceStrings, hstrings, List.length_map, hexchange]

end GnuRQi.Renv
