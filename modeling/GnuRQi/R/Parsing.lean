import GnuRQi.R.Language

/-!
# Reading texts of R

How the reader goes through the tokens of a text. A token that is being read may still be open when
the text of an expression ends, so the statements are about the parser that is reached when this
token ends (`Reader.Ends`) and about the characters that end it (`Lexeme.Breaks`).
-/

namespace GnuRQi.R

open Text (Chars quote)

namespace Lexeme

/-- The character is not part of the token that is being read. -/
def Breaks (lexeme : Lexeme) (c : Char) : Prop := lexeme.step c = lexeme.restart c

/-- Nothing is being read, or a symbol or a number. -/
def Loose : Lexeme → Prop
  | .none | .number _ | .symbol _ => True
  | _ => False

/-- Nothing is being read, or an equals sign or a minus sign. -/
def Fresh : Lexeme → Prop
  | .none | .equals | .dash => True
  | _ => False

/-- Characters that end symbols and numbers. -/
def IsDelimiter (c : Char) : Prop := c ∈ [' ', '\t', '\n', '(', ')', ',', '=']

theorem Loose.breaks {lexeme : Lexeme} (h : lexeme.Loose) {c : Char} (hc : IsDelimiter c) :
    lexeme.Breaks c := by
  have hplain : c.isDigit = false ∧ c.isAlpha = false ∧ c ≠ '.' ∧ c ≠ 'e' ∧ c ≠ 'E' ∧ c ≠ '+' ∧
      c ≠ '-' ∧ c ≠ '_' ∧ c ≠ '"' := by
    simp only [IsDelimiter, List.mem_cons, List.not_mem_nil, or_false] at hc
    rcases hc with rfl | rfl | rfl | rfl | rfl | rfl | rfl <;> decide
  cases lexeme with
  | none => rfl
  | number read => simp [Breaks, step, hplain]
  | symbol read => simp [Breaks, step, Char.isAlphanum, hplain]
  | _ => cases h

theorem Fresh.breaks {lexeme : Lexeme} (h : lexeme.Fresh) {c : Char} (heq : c ≠ '=')
    (hgt : c ≠ '>') : lexeme.Breaks c := by
  cases lexeme with
  | none => rfl
  | equals => simp [Breaks, step, heq]
  | dash => simp [Breaks, step, hgt]
  | _ => cases h

theorem Loose.breaks_blank {lexeme : Lexeme} (h : lexeme.Loose) {c : Char}
    (hc : c ∈ [' ', '\t', '\n']) : lexeme.Breaks c := by
  refine h.breaks ?_
  simp only [List.mem_cons, List.not_mem_nil, or_false] at hc
  rcases hc with rfl | rfl | rfl <;> simp [IsDelimiter]

theorem Fresh.breaks_blank {lexeme : Lexeme} (h : lexeme.Fresh) {c : Char}
    (hc : c ∈ [' ', '\t', '\n']) : lexeme.Breaks c := by
  simp only [List.mem_cons, List.not_mem_nil, or_false] at hc
  rcases hc with rfl | rfl | rfl <;> exact h.breaks (by decide) (by decide)

end Lexeme

namespace Reader

/-- The parser that is reached when the token that is being read ends. -/
def Ends (r : Reader) (p : Parser) : Prop := r.settle = .ok p

theorem ends_none (p : Parser) : Ends ⟨.none, p⟩ p := rfl

/-- A character that ends the token is read as if nothing had been read. -/
theorem Ends.step_eq {r : Reader} {p : Parser} (h : r.Ends p) {c : Char}
    (hc : r.lexeme.Breaks c) : r.step c = Reader.step ⟨.none, p⟩ c := by
  rw [Ends, settle] at h
  cases hfinish : r.lexeme.finish with
  | error failure =>
      rw [hfinish] at h
      cases h
  | ok tokens =>
      rw [hfinish] at h
      have hfold : tokens.foldlM Parser.step r.parser = .ok p := h
      have hnone : Lexeme.none.finish = .ok [] := rfl
      rw [Reader.step, hc]
      cases hstart : Lexeme.start c with
      | error failure =>
          simp [Reader.step, Lexeme.step, Lexeme.restart, hfinish, hnone, hstart, bind, Except.bind]
      | ok next =>
          simp [Reader.step, Lexeme.step, Lexeme.restart, hfinish, hnone, hstart, bind, Except.bind,
            pure, Except.pure, List.foldlM_append, hfold]

theorem read_cons {r next : Reader} {c : Char} (h : r.step c = .ok next) (rest : Chars) :
    r.read (c :: rest) = next.read rest := by
  rw [read, List.foldlM_cons, h]
  rfl

theorem read_append (r : Reader) (first second : Chars) :
    r.read (first ++ second) = (r.read first).bind fun next => next.read second :=
  List.foldlM_append

theorem read_cons_of_ends {r : Reader} {p : Parser} (h : r.Ends p) {c : Char}
    (hc : r.lexeme.Breaks c) (rest : Chars) :
    r.read (c :: rest) = Reader.read ⟨.none, p⟩ (c :: rest) := by
  rw [read, read, List.foldlM_cons, List.foldlM_cons, h.step_eq hc]

/-- A character that is a token of its own, after a symbol, a number or nothing. -/
theorem read_delimiter {r : Reader} {p next : Parser} (h : r.Ends p) (hr : r.lexeme.Loose)
    {c : Char} (hc : Lexeme.IsDelimiter c) {token : RToken}
    (hstart : Lexeme.start c = .ok (.none, [token])) (hstep : p.step token = .ok next) :
    r.read [c] = .ok ⟨.none, next⟩ := by
  have hread : Reader.step ⟨.none, p⟩ c = .ok ⟨.none, next⟩ := by
    simp [Reader.step, Lexeme.step, Lexeme.restart, Lexeme.finish, hstart, hstep, bind, Except.bind,
      pure, Except.pure]
  rw [read_cons_of_ends h (hr.breaks hc), read_cons hread]
  rfl

end Reader

/-! ## String constants -/

/-- The characters between two quotes are read as the string. -/
def ReadsAs (content value : Chars) : Prop :=
  ∀ (read : Chars) (p : Parser),
    Reader.read ⟨.string read, p⟩ content = .ok ⟨.string (read ++ value), p⟩

namespace ReadsAs

variable {content value : Chars}

theorem nil : ReadsAs [] [] := by
  intro read p
  simp [Reader.read, pure, Except.pure]

/-- The first character of the string has been read. -/
theorem of_read (first : Chars) {d : Char} (h : ReadsAs content value)
    (hfirst : ∀ read p, Reader.read ⟨.string read, p⟩ first = .ok ⟨.string (read ++ [d]), p⟩) :
    ReadsAs (first ++ content) (d :: value) := by
  intro read p
  have hcontent := h (read ++ [d]) p
  rw [List.append_assoc] at hcontent
  rw [Reader.read_append, hfirst]
  exact hcontent

theorem plain {c : Char} (hquote : c ≠ '"') (hescape : c ≠ '\\') (h : ReadsAs content value) :
    ReadsAs (c :: content) (c :: value) := by
  refine h.of_read [c] fun read p => ?_
  have hstep : Reader.step ⟨.string read, p⟩ c = .ok ⟨.string (read ++ [c]), p⟩ := by
    simp [Reader.step, Lexeme.step, hquote, hescape, bind, Except.bind, pure, Except.pure]
  rw [Reader.read_cons hstep]
  rfl

theorem escape {c d : Char} (hvalue : escapeValue c = some d) (h : ReadsAs content value) :
    ReadsAs ('\\' :: c :: content) (d :: value) := by
  refine h.of_read ['\\', c] fun read p => ?_
  have hopen : Reader.step ⟨.string read, p⟩ '\\' = .ok ⟨.escape read, p⟩ := rfl
  have hstep : Reader.step ⟨.escape read, p⟩ c = .ok ⟨.string (read ++ [d]), p⟩ := by
    simp [Reader.step, Lexeme.step, hvalue, bind, Except.bind, pure, Except.pure]
  rw [Reader.read_cons hopen, Reader.read_cons hstep]
  rfl

/-- A string constant has one value. -/
theorem unique {other : Chars} (h : ReadsAs content value) (hother : ReadsAs content other) :
    value = other := by
  have hread := h [] {}
  rw [hother [] {}] at hread
  simpa using hread.symm

/-- A string without escapes is read as it stands. -/
theorem of_plain (h : ∀ c ∈ content, c ≠ '"' ∧ c ≠ '\\') : ReadsAs content content := by
  induction content with
  | nil => exact .nil
  | cons c rest ih =>
      obtain ⟨hquote, hescape⟩ := h c List.mem_cons_self
      exact .plain hquote hescape (ih fun d hd => h d (List.mem_cons_of_mem c hd))

end ReadsAs

namespace Reader

/-- The last of the four digits of an escape decides. -/
theorem read_unicode {digits : Chars} (hlength : digits.length = 4)
    (hdigits : ∀ c ∈ digits, (hexDigit c).isSome = true) (read : Chars) (p : Parser) :
    Reader.read ⟨.string read, p⟩ ('\\' :: 'u' :: digits) =
      (unicodeValue (hexValue digits)).map fun value => ⟨.string (read ++ [value]), p⟩ := by
  obtain ⟨a, b, c, d, rfl⟩ : ∃ a b c d, digits = [a, b, c, d] := by
    match digits, hlength with
    | [a, b, c, d], _ => exact ⟨a, b, c, d, rfl⟩
  simp only [List.mem_cons, List.not_mem_nil, or_false, forall_eq_or_imp, forall_eq] at hdigits
  obtain ⟨ha, hb, hc, hd⟩ := hdigits
  have hescape : Reader.step ⟨.string read, p⟩ '\\' = .ok ⟨.escape read, p⟩ := rfl
  have hopen : Reader.step ⟨.escape read, p⟩ 'u' = .ok ⟨.unicode read [], p⟩ := rfl
  have hstep : ∀ (digits : Chars) (x : Char), (hexDigit x).isSome = true → digits.length < 3 →
      Reader.step ⟨.unicode read digits, p⟩ x = .ok ⟨.unicode read (digits ++ [x]), p⟩ := by
    intro digits x hx hdigits
    simp [Reader.step, Lexeme.step, hx, hdigits, bind, Except.bind, pure, Except.pure]
  rw [read_cons hescape, read_cons hopen, read_cons (hstep _ a ha (by decide)),
    read_cons (hstep _ b hb (by simp)), read_cons (hstep _ c hc (by simp))]
  cases hvalue : unicodeValue (hexValue [a, b, c, d]) <;>
    simp [Reader.read, Reader.step, Lexeme.step, hd, hvalue, Except.map, bind, Except.bind, pure,
      Except.pure]

/-- A string constant. -/
theorem read_quote {r : Reader} {p next : Parser} (h : r.Ends p) (hc : r.lexeme.Breaks '"')
    {content value : Chars} (hvalue : ReadsAs content value)
    (hpush : p.step (.str value) = .ok next) (rest : Chars) :
    r.read (quote content ++ rest) = Reader.read ⟨.none, next⟩ rest := by
  have hopen : Reader.step ⟨.none, p⟩ '"' = .ok ⟨.string [], p⟩ := rfl
  have hclose : Reader.step ⟨.string value, p⟩ '"' = .ok ⟨.none, next⟩ := by
    simp [Reader.step, Lexeme.step, bind, Except.bind, pure, Except.pure, hpush]
  have hcontent : Reader.read ⟨.string [], p⟩ content = .ok ⟨.string value, p⟩ := hvalue [] p
  show r.read ('"' :: (content ++ ['"'] ++ rest)) = _
  rw [read_cons_of_ends h hc, read_cons hopen, List.append_assoc, read_append, hcontent]
  exact read_cons hclose rest

/-- A string constant that fails between its quotes. -/
theorem read_quote_error {r : Reader} {p : Parser} (h : r.Ends p) (hc : r.lexeme.Breaks '"')
    {content : Chars} {failure : Failure}
    (hcontent : Reader.read ⟨.string [], p⟩ content = .error failure) (rest : Chars) :
    r.read (quote content ++ rest) = .error failure := by
  have hopen : Reader.step ⟨.none, p⟩ '"' = .ok ⟨.string [], p⟩ := rfl
  show r.read ('"' :: (content ++ ['"'] ++ rest)) = _
  rw [read_cons_of_ends h hc, read_cons hopen, List.append_assoc, read_append, hcontent]
  rfl

end Reader

theorem ReadsAs.unicode {digits content value : Chars} {d : Char} (hlength : digits.length = 4)
    (hdigits : ∀ c ∈ digits, (hexDigit c).isSome = true)
    (hvalue : unicodeValue (hexValue digits) = .ok d) (h : ReadsAs content value) :
    ReadsAs ('\\' :: 'u' :: (digits ++ content)) (d :: value) := by
  refine h.of_read ('\\' :: 'u' :: digits) fun read p => ?_
  rw [Reader.read_unicode hlength hdigits, hvalue]
  rfl

namespace Reader

/-! ## Symbols and numbers -/

/-- A letter or a digit is none of the single-character tokens. -/
theorem start_of_isAlphanum {c : Char} (h : c.isAlphanum = true) :
    Lexeme.start c = .ok (if c.isDigit then .number [c] else .symbol [c], []) := by
  have hne : ∀ d : Char, d.isAlphanum = false → c ≠ d := by
    rintro d hd rfl
    rw [h] at hd
    cases hd
  have hc : c.isAlpha = true ∨ c.isDigit = true := by
    simpa [Char.isAlphanum] using h
  rw [Lexeme.start]
  cases hdigit : c.isDigit <;>
    simp_all [hne ' ' rfl, hne '\t' rfl, hne '\n' rfl, hne '(' rfl, hne ')' rfl, hne ',' rfl,
      hne '=' rfl, hne '-' rfl, hne '"' rfl, hne '\x60' rfl]

/-- The first character of a symbol or a number. -/
theorem step_start {r : Reader} {p : Parser} (h : r.Ends p) (hr : r.lexeme.Fresh) {c : Char}
    (hc : c.isAlphanum = true) :
    r.step c = .ok ⟨if c.isDigit then .number [c] else .symbol [c], p⟩ := by
  have hbreaks : r.lexeme.Breaks c := by
    refine hr.breaks ?_ ?_ <;>
      · rintro rfl
        revert hc
        decide
  have hstart := start_of_isAlphanum hc
  rw [h.step_eq hbreaks]
  simp [Reader.step, Lexeme.step, Lexeme.restart, Lexeme.finish, hstart, bind, Except.bind, pure,
    Except.pure]

/-- The letters and digits of a symbol are collected. -/
theorem read_letters (read : Chars) (p : Parser) {rest : Chars}
    (h : ∀ c ∈ rest, c.isAlphanum = true) :
    Reader.read ⟨.symbol read, p⟩ rest = .ok ⟨.symbol (read ++ rest), p⟩ := by
  induction rest generalizing read with
  | nil => simp [Reader.read, pure, Except.pure]
  | cons c rest ih =>
      have hstep : Reader.step ⟨.symbol read, p⟩ c = .ok ⟨.symbol (read ++ [c]), p⟩ := by
        simp [Reader.step, Lexeme.step, h c List.mem_cons_self, bind, Except.bind, pure,
          Except.pure]
      have hread := ih (read ++ [c]) fun d hd => h d (List.mem_cons_of_mem c hd)
      rw [List.append_assoc] at hread
      rw [read_cons hstep]
      exact hread

/-- A symbol. -/
theorem read_symbol {r : Reader} {p : Parser} (h : r.Ends p) (hr : r.lexeme.Fresh) {c : Char}
    {rest : Chars} (hc : c.isAlphanum = true) (hdigit : c.isDigit = false)
    (hrest : ∀ d ∈ rest, d.isAlphanum = true) :
    r.read (c :: rest) = .ok ⟨.symbol (c :: rest), p⟩ := by
  have hstep := step_start h hr hc
  rw [hdigit, if_neg (by decide)] at hstep
  rw [read_cons hstep]
  exact read_letters [c] p hrest

/-- Characters that a numeric constant takes in after those that are read. -/
theorem step_number {read : Chars} {c : Char} (p : Parser)
    (h : c.isDigit = true ∨ c = '.' ∨ c = 'e' ∨ c = 'E' ∨
      ((c = '+' ∨ c = '-') ∧ (read.getLast? = some 'e' ∨ read.getLast? = some 'E'))) :
    Reader.step ⟨.number read, p⟩ c = .ok ⟨.number (read ++ [c]), p⟩ := by
  simp [Reader.step, Lexeme.step, h, bind, Except.bind, pure, Except.pure]

theorem read_digits (read : Chars) (p : Parser) {digits : Chars}
    (h : ∀ c ∈ digits, c.isDigit = true) :
    Reader.read ⟨.number read, p⟩ digits = .ok ⟨.number (read ++ digits), p⟩ := by
  induction digits generalizing read with
  | nil => simp [Reader.read, pure, Except.pure]
  | cons c rest ih =>
      have hread := ih (read ++ [c]) fun d hd => h d (List.mem_cons_of_mem c hd)
      rw [List.append_assoc] at hread
      rw [read_cons (step_number p (Or.inl (h c List.mem_cons_self)))]
      exact hread

end Reader

/-! ## Decimal numbers -/

/-- One or more digits. -/
structure Digits where
  chars : Chars
  ne_nil : chars ≠ []
  isDigit : ∀ c ∈ chars, c.isDigit = true

/-- The exponent of a decimal number. -/
structure Exponent where
  letter : Char
  sign : Option Char
  digits : Digits
  letter_eq : letter = 'e' ∨ letter = 'E'
  sign_eq : ∀ c ∈ sign, c = '+' ∨ c = '-'

/-- A decimal number without a sign. -/
structure Decimal where
  int : Digits
  frac : Option Digits
  exp : Option Exponent

/-- The exponent as a number. -/
def Exponent.value (e : Exponent) : ℤ :=
  let value : ℤ := Nat.ofDigitChars 10 e.digits.chars 0
  if e.sign = some '-' then -value else value

def Exponent.text (e : Exponent) : Chars := e.letter :: (e.sign.toList ++ e.digits.chars)

namespace Decimal

/-- The digits after the decimal point. -/
def fracDigits (d : Decimal) : Chars := (d.frac.map Digits.chars).getD []

def fracText (d : Decimal) : Chars := (d.frac.map fun digits => '.' :: digits.chars).getD []

def expText (d : Decimal) : Chars := (d.exp.map Exponent.text).getD []

/-- How the number is written. -/
def text (d : Decimal) : Chars := d.int.chars ++ (d.fracText ++ d.expText)

/-- The number. -/
def value (d : Decimal) : ℚ :=
  Nat.ofDigitChars 10 (d.int.chars ++ d.fracDigits) 0 *
    (10 : ℚ) ^ ((d.exp.map Exponent.value).getD 0 - (d.fracDigits.length : ℤ))

/-- The digits of the integer part end at the decimal point, the exponent or the end. -/
theorem span_digits {digits rest : Chars} (hdigits : ∀ c ∈ digits, c.isDigit = true)
    (hrest : ∀ c ∈ rest.head?, c.isDigit = false) :
    (digits ++ rest).takeWhile Char.isDigit = digits ∧
      (digits ++ rest).dropWhile Char.isDigit = rest := by
  have hhead : rest.takeWhile Char.isDigit = [] ∧ rest.dropWhile Char.isDigit = rest := by
    cases rest with
    | nil => exact ⟨rfl, rfl⟩
    | cons c tail =>
        have hc := hrest c rfl
        simp [hc]
  rw [List.takeWhile_append_of_pos hdigits, List.dropWhile_append_of_pos hdigits, hhead.1, hhead.2,
    List.append_nil]
  exact ⟨rfl, rfl⟩

theorem head_expText (d : Decimal) : ∀ c ∈ d.expText.head?, c.isDigit = false ∧ c ≠ '.' := by
  intro c hc
  cases hexp : d.exp with
  | none => simp [expText, hexp] at hc
  | some e =>
      obtain rfl : e.letter = c := by simpa [expText, hexp, Exponent.text] using hc
      rcases e.letter_eq with h | h <;> rw [h] <;> decide

theorem exponent_text (e : Exponent) : exponent e.text = some e.value := by
  have hall : e.digits.chars.all Char.isDigit = true := List.all_eq_true.mpr e.digits.isDigit
  have hne := e.digits.ne_nil
  cases hsign : e.sign with
  | none =>
      cases hdigits : e.digits.chars with
      | nil => contradiction
      | cons c rest =>
          have hc := e.digits.isDigit c (by simp [hdigits])
          have hplus : c ≠ '+' := by
            rintro rfl
            cases hc
          have hminus : c ≠ '-' := by
            rintro rfl
            cases hc
          rw [hdigits] at hall
          simp [Exponent.text, Exponent.value, exponent, hsign, hdigits, hplus, hminus, hall,
            e.letter_eq]
  | some c =>
      rcases e.sign_eq c (by simp [hsign]) with rfl | rfl <;>
        simp [Exponent.text, Exponent.value, exponent, hsign, hne, hall, e.letter_eq]

theorem exponent_expText (d : Decimal) :
    exponent d.expText = some ((d.exp.map Exponent.value).getD 0) := by
  cases hexp : d.exp with
  | none => simp [expText, hexp, exponent]
  | some e => simp [expText, hexp, exponent_text]

theorem fraction_text (d : Decimal) :
    fraction (d.fracText ++ d.expText) = (d.fracDigits, d.expText) := by
  have hhead := d.head_expText
  cases hfrac : d.frac with
  | none =>
      simp only [fracText, fracDigits, hfrac, Option.map_none, Option.getD_none, List.nil_append]
      cases htext : d.expText with
      | nil => rfl
      | cons c rest =>
          have hc := (hhead c (by simp [htext])).2
          rw [fraction]
          rintro rest' ⟨⟩
          exact hc rfl
  | some digits =>
      have hspan := span_digits digits.isDigit fun c hc => (hhead c hc).1
      simp only [fracText, fracDigits, hfrac, Option.map_some, Option.getD_some, List.cons_append,
        fraction, hspan.1, hspan.2]

/-- What is written is read as the number. -/
theorem numericValue_text (d : Decimal) : numericValue d.text = some d.value := by
  have hhead : ∀ c ∈ (d.fracText ++ d.expText).head?, c.isDigit = false := by
    intro c hc
    cases hfrac : d.frac with
    | none =>
        have hexp : c ∈ d.expText.head? := by simpa [fracText, hfrac] using hc
        exact (d.head_expText c hexp).1
    | some digits =>
        obtain rfl : '.' = c := by simpa [fracText, hfrac] using hc
        rfl
  have hspan := span_digits d.int.isDigit hhead
  rw [numericValue, text, hspan.1, hspan.2, fraction_text]
  simp only [exponent_expText, Option.map_some]
  rfl

theorem read_fracText (d : Decimal) (read : Chars) (p : Parser) :
    Reader.read ⟨.number read, p⟩ d.fracText = .ok ⟨.number (read ++ d.fracText), p⟩ := by
  cases hfrac : d.frac with
  | none => simp [fracText, hfrac, Reader.read, pure, Except.pure]
  | some digits =>
      have hpoint : Reader.step ⟨.number read, p⟩ '.' = .ok ⟨.number (read ++ ['.']), p⟩ :=
        Reader.step_number p (Or.inr (Or.inl rfl))
      have hdigits := Reader.read_digits (read ++ ['.']) p digits.isDigit
      have htext : d.fracText = '.' :: digits.chars := by simp [fracText, hfrac]
      rw [htext, Reader.read_cons hpoint, hdigits, List.append_assoc]
      rfl

theorem read_expText (d : Decimal) (read : Chars) (p : Parser) :
    Reader.read ⟨.number read, p⟩ d.expText = .ok ⟨.number (read ++ d.expText), p⟩ := by
  cases hexp : d.exp with
  | none => simp [expText, hexp, Reader.read, pure, Except.pure]
  | some e =>
      have hletter : Reader.step ⟨.number read, p⟩ e.letter =
          .ok ⟨.number (read ++ [e.letter]), p⟩ := by
        refine Reader.step_number p ?_
        rcases e.letter_eq with h | h <;> simp [h]
      have htext : d.expText = e.letter :: (e.sign.toList ++ e.digits.chars) := by
        simp [expText, hexp, Exponent.text]
      rw [htext, Reader.read_cons hletter]
      cases hsign : e.sign with
      | none =>
          have hdigits := Reader.read_digits (read ++ [e.letter]) p e.digits.isDigit
          rw [Option.toList_none, List.nil_append, hdigits, List.append_assoc]
          rfl
      | some c =>
          have hstep : Reader.step ⟨.number (read ++ [e.letter]), p⟩ c =
              .ok ⟨.number (read ++ [e.letter] ++ [c]), p⟩ := by
            refine Reader.step_number p ?_
            have hc := e.sign_eq c (by simp [hsign])
            rcases e.letter_eq with h | h <;> simp [h, hc]
          have hdigits := Reader.read_digits (read ++ [e.letter] ++ [c]) p e.digits.isDigit
          rw [Option.toList_some, List.singleton_append, Reader.read_cons hstep, hdigits]
          simp

/-- A number where an expression may begin. -/
theorem read_text (d : Decimal) {r : Reader} {p : Parser} (h : r.Ends p) (hr : r.lexeme.Fresh) :
    r.read d.text = .ok ⟨.number d.text, p⟩ := by
  cases hint : d.int.chars with
  | nil => exact absurd hint d.int.ne_nil
  | cons c rest =>
      have hdigits := d.int.isDigit
      rw [hint] at hdigits
      have hc := hdigits c List.mem_cons_self
      have hstep := Reader.step_start h hr (by simp [Char.isAlphanum, hc] : c.isAlphanum = true)
      rw [hc, if_pos rfl] at hstep
      have hrest := Reader.read_digits [c] p fun x hx => hdigits x (List.mem_cons_of_mem c hx)
      rw [text, hint, List.cons_append, Reader.read_cons hstep, Reader.read_append, hrest]
      show (Reader.read ⟨.number ([c] ++ rest), p⟩ (d.fracText ++ d.expText)) = _
      rw [Reader.read_append, read_fracText]
      show Reader.read ⟨.number ([c] ++ rest ++ d.fracText), p⟩ d.expText = _
      rw [read_expText, List.append_assoc, List.append_assoc]
      rfl

end Decimal

end GnuRQi.R
