import Mathlib.Data.List.Forall2
import Mathlib.Data.List.Nodup
import GnuRQi.Renv.JsonMeaning

/-!
# What the JSON reader does with a JSON text

The parts of `renv_json_read_default` together: the strings, the placeholders, the expression and
its value. A JSON text is read if the first occurrence of each string is the one that is meant, R
takes the escapes of all strings, and no member has an empty name.
-/

namespace GnuRQi.Renv

open R Text

/-! ## Tokens of a JSON text -/

/-- The characters outside of strings are neither quotes of R nor backslashes, and the strings are
strings of JSON. -/
def Written : Token → Prop
  | .char c => c ≠ '"' ∧ c ≠ '\\' ∧ c ≠ '\x60'
  | .literal content => ∃ value, StringOf content value

theorem Written.valid {token : Token} (h : Written token) : token.Valid := by
  cases token with
  | char c => exact ⟨h.1, h.2.1⟩
  | literal content =>
      obtain ⟨value, hvalue⟩ := h
      exact hvalue.content

theorem Blank.written {tokens : List Token} (h : Blank tokens) :
    ∀ token ∈ tokens, Written token := by
  intro token htoken
  obtain ⟨c, hc, rfl⟩ := h.exists_char htoken
  simp only [List.mem_cons, List.not_mem_nil, or_false] at hc
  rcases hc with rfl | rfl | rfl <;> exact ⟨by decide, by decide, by decide⟩

theorem written_chars {text : Chars} (h : ∀ c ∈ text, c ≠ '"' ∧ c ≠ '\\' ∧ c ≠ '\x60') :
    ∀ token ∈ chars text, Written token := by
  intro token htoken
  obtain ⟨c, hc, rfl⟩ := List.mem_map.mp htoken
  exact h c hc

theorem written_text (d : Decimal) : ∀ c ∈ d.text, c ≠ '"' ∧ c ≠ '\\' ∧ c ≠ '\x60' := by
  have hdigit : ∀ c : Char, c.isDigit = true → c ≠ '"' ∧ c ≠ '\\' ∧ c ≠ '\x60' := by
    intro c hc
    refine ⟨?_, ?_, ?_⟩ <;>
      · rintro rfl
        cases hc
  intro c hc
  rcases mem_text hc with hc | hc
  · exact hdigit c hc
  · simp only [List.mem_cons, List.not_mem_nil, or_false] at hc
    rcases hc with rfl | rfl | rfl | rfl | rfl <;> decide

/-- All tokens of a JSON value are written as JSON has it. -/
theorem written_of_means {tokens : List Token} {value : Value} (h : Means tokens value) :
    ∀ token ∈ tokens, Written token := by
  have hchar : ∀ c : Char, c ∈ ['[', ']', '{', '}', ':', ','] → Written (.char c) := by
    intro c hc
    simp only [List.mem_cons, List.not_mem_nil, or_false] at hc
    rcases hc with rfl | rfl | rfl | rfl | rfl | rfl <;> exact ⟨by decide, by decide, by decide⟩
  have hopen := hchar '[' (by simp)
  have hclose := hchar ']' (by simp)
  have hopen' := hchar '{' (by simp)
  have hclose' := hchar '}' (by simp)
  have hcolon := hchar ':' (by simp)
  have hcomma := hchar ',' (by simp)
  -- One case for each rule of the grammar, blanks included.
  refine means_induction (P := fun tokens _ => ∀ token ∈ tokens, Written token)
    (A := fun _ tokens _ => ∀ token ∈ tokens, Written token)
    (L := fun _ tokens _ => ∀ token ∈ tokens, Written token) ?_ ?_ ?_ ?_ ?_ ?_ ?_ ?_ ?_ ?_ ?_ ?_ ?_
    ?_ h
  · exact written_chars (by decide)
  · exact written_chars (by decide)
  · exact written_chars (by decide)
  · exact fun d => written_chars (written_text d)
  · intro d
    refine written_chars fun c hc => ?_
    rcases List.mem_cons.mp hc with rfl | hc
    · decide
    · exact written_text d c hc
  · intro content value hvalue
    exact List.forall_mem_singleton.mpr ⟨value, hvalue⟩
  · intro blank hblank
    simpa [or_imp, forall_and, hopen, hclose] using hblank.written
  · intro tokens elems ih
    simpa [or_imp, forall_and, hopen, hclose] using ih
  · intro blank hblank
    simpa [or_imp, forall_and, hopen', hclose'] using hblank.written
  · intro tokens items _ ih
    simpa [or_imp, forall_and, hopen', hclose'] using ih
  · intro before tokens after value hbefore ih hafter
    simpa [or_imp, forall_and] using ⟨hbefore.written, ih, hafter.written⟩
  · intro before colon space tokens after content name value hbefore hname hcolon' hspace _ ih
      hafter
    have hliteral : Written (.literal content) := ⟨name, hname⟩
    simpa [or_imp, forall_and, hcolon, hliteral] using
      ⟨hbefore.written, hcolon'.written, hspace.written, ih, hafter.written⟩
  · exact fun ih => ih
  · intro named tokens rest item items ih ihRest
    simpa [or_imp, forall_and, hcomma] using ⟨ih, ihRest⟩

theorem Document.written {tokens : List Token} {value : Value} (h : Document tokens value) :
    ∀ token ∈ tokens, Written token := by
  obtain ⟨before, text, after, hbefore, htext, hafter, rfl⟩ := h
  simpa [or_imp, forall_and] using ⟨hbefore.written, written_of_means htext, hafter.written⟩

theorem stringOf_of_written {tokens : List Token} (h : ∀ token ∈ tokens, Written token)
    {content : Chars} (hcontent : content ∈ literals tokens) :
    ∃ value, StringOf content value := by
  induction tokens with
  | nil => cases hcontent
  | cons token tokens ih =>
      have hrest := fun other hother => h other (List.mem_cons_of_mem token hother)
      cases token with
      | char c => exact ih hrest hcontent
      | literal first =>
          rcases List.mem_cons.mp hcontent with rfl | hcontent
          · exact h (.literal content) List.mem_cons_self
          · exact ih hrest hcontent

section Document

variable {tokens : List Token} {value : Value} (h : Document tokens value)

include h

theorem Document.valid : ∀ token ∈ tokens, token.Valid :=
  fun token htoken => (h.written token htoken).valid

theorem Document.stringOf {content : Chars} (hcontent : content ∈ specials marked tokens) :
    ∃ value, StringOf content value :=
  stringOf_of_written h.written (List.mem_of_mem_filter hcontent)

theorem Document.sign_not_mem : ∀ content ∈ specials marked tokens, '\x1a' ∉ content := by
  intro content hcontent
  obtain ⟨value, hvalue⟩ := h.stringOf hcontent
  exact hvalue.sign_not_mem.1

/-- The strings that are exchanged, their placeholders, and the text after the exchange. -/
theorem Document.replaceStrings_eq :
    replaceStrings (render tokens) =
      ((specials marked tokens).map quote,
        ((List.range' 1 (specials marked tokens).length).map placeholder).map quote,
        exchange placeholder 1 (specials marked tokens) (render tokens)) := by
  rw [Renv.replaceStrings_eq, findLiterals_render h.valid, List.map_map]
  rfl

end Document

/-! ## The strings as constants of R -/

theorem pasteLines_cons_cons (first second : Chars) (rest : List Chars) :
    pasteLines (first :: second :: rest) = first ++ '\n' :: pasteLines (second :: rest) := by
  simp [pasteLines, List.intercalate]

/-- A line with a string constant, where an expression may begin. -/
theorem read_line {content value : Chars} (h : ReadsAs content value) (done : List Lang)
    (rest : Chars) :
    Reader.read ⟨.none, { done := done }⟩ (quote content ++ '\n' :: rest) =
      Reader.read ⟨.none, { done := done ++ [.str value] }⟩ rest := by
  have hnewline : Reader.step ⟨.none, { operand := some (.str value), done := done }⟩ '\n' =
      .ok ⟨.none, { done := done ++ [.str value] }⟩ := rfl
  have hpush : Parser.step { done := done } (.str value) =
      .ok { operand := some (.str value), done := done } := rfl
  rw [Reader.read_quote (Reader.ends_none _) rfl h hpush, Reader.read_cons hnewline]

/-- Lines with string constants. -/
theorem read_lines {contents values : List Chars} (h : List.Forall₂ ReadsAs contents values)
    (done : List Lang) :
    ∃ p, Reader.read ⟨.none, { done := done }⟩ (pasteLines (contents.map quote)) =
        .ok ⟨.none, p⟩ ∧ p.finish = .ok (done ++ values.map .str) := by
  induction h generalizing done with
  | nil => exact ⟨{ done := done }, rfl, by simp [Parser.finish]⟩
  | @cons content value contents values hvalue hrest ih =>
      cases hrest with
      | nil =>
          have hpush : Parser.step { done := done } (.str value) =
              .ok { operand := some (.str value), done := done } := rfl
          refine ⟨{ operand := some (.str value), done := done }, ?_, rfl⟩
          have hread := Reader.read_quote (Reader.ends_none _) rfl hvalue hpush []
          have hline : pasteLines [quote content] = quote content := by
            simp [pasteLines, List.intercalate]
          rw [List.append_nil] at hread
          rw [List.map_singleton, hline, hread]
          rfl
      | cons hsecond hrest =>
          obtain ⟨p, hread, hfinish⟩ := ih (done ++ [.str value])
          refine ⟨p, ?_, by simpa using hfinish⟩
          rw [List.map_cons, List.map_cons, pasteLines_cons_cons, read_line hvalue]
          exact hread

/-- Lines with string constants, one of which has an escape that R refuses. -/
theorem read_lines_error {contents : List Chars}
    (h : ∀ content ∈ contents, ∃ value, StringOf content value)
    (hunreadable : ∃ content ∈ contents, unreadable content = true) (done : List Lang) :
    ∃ message, Reader.read ⟨.none, { done := done }⟩ (pasteLines (contents.map quote)) =
      .error (.error message) := by
  induction contents generalizing done with
  | nil => simp at hunreadable
  | cons content contents ih =>
      have hrest := fun other hother => h other (List.mem_cons_of_mem content hother)
      obtain ⟨value, hvalue⟩ := h content List.mem_cons_self
      rcases Bool.eq_false_or_eq_true (unreadable content) with hcontent | hcontent
      · obtain ⟨message, hfails⟩ := hvalue.read_error hcontent
        have hread : ∀ rest, Reader.read ⟨.none, { done := done }⟩ (quote content ++ rest) =
            .error (.error message) :=
          Reader.read_quote_error (Reader.ends_none _) rfl (hfails [] _)
        refine ⟨message, ?_⟩
        cases contents with
        | nil => simpa [pasteLines, List.intercalate] using hread []
        | cons second contents =>
            rw [List.map_cons, List.map_cons, pasteLines_cons_cons]
            exact hread _
      · have hlater : ∃ other ∈ contents, unreadable other = true := by
          simpa [hcontent] using hunreadable
        cases contents with
        | nil => simp at hlater
        | cons second contents =>
            rw [List.map_cons, List.map_cons, pasteLines_cons_cons,
              read_line (hvalue.readsAs hcontent)]
            exact ih hrest hlater _

theorem mapM_str (values : List Chars) :
    (values.map Lang.str).mapM (fun expr => match expr with
      | .str value => .ok value
      | _ => .error .notModelled) = (.ok values : Except Failure (List Chars)) := by
  induction values with
  | nil => rfl
  | cons value values ih =>
      rw [List.map_cons, List.mapM_cons, ih]
      rfl

theorem parseStrings_eq {contents values : List Chars}
    (h : List.Forall₂ ReadsAs contents values) :
    parseStrings (contents.map quote) = .ok values := by
  obtain ⟨p, hread, hfinish⟩ := read_lines h []
  have hparse : parse (pasteLines (contents.map quote)) = .ok (values.map .str) := by
    rw [parse, hread]
    exact hfinish
  rw [parseStrings, hparse]
  exact mapM_str values

theorem parseStrings_error {contents : List Chars}
    (h : ∀ content ∈ contents, ∃ value, StringOf content value)
    (hunreadable : ∃ content ∈ contents, unreadable content = true) :
    ∃ message, parseStrings (contents.map quote) = .error (.error message) := by
  obtain ⟨message, hread⟩ := read_lines_error h hunreadable []
  have hparse : parse (pasteLines (contents.map quote)) = .error (.error message) := by
    rw [parse, hread]
    rfl
  refine ⟨message, ?_⟩
  rw [parseStrings, hparse]
  rfl

/-! ## The whole text -/

/-- The value at the top, with blanks around it. -/
theorem reaches_document {tokens : List Token} {value : Value} (h : Document tokens value) :
    ∃ read, Agrees unnameEmpty tokens (hasEmptyName value) read value ∧
      Reaches 1 {} tokens (hasEmptyName value) fun next => ∃ p e, next.Ends p ∧
        p.finish = .ok [e] ∧ ∀ map, IsMap map → Covers map 1 tokens → Evaluates map e read := by
  obtain ⟨before, text, after, hbefore, htext, hafter, rfl⟩ := h
  obtain ⟨read, hread, spaced, hscans, hagrees⟩ := readsMeaning_of_means htext
  refine ⟨read, ⟨spaced, (hscans.append_blank hafter).of_blank_append hbefore, hagrees⟩, ?_⟩
  refine (reaches_blank_fresh (p := {}) hbefore (Or.inr rfl) (Reader.ends_none {}) trivial).append
    ?_
  rintro next ⟨hnext, hfresh⟩
  rw [specials_blank hbefore]
  refine (hread _ next {} hnext hfresh ⟨rfl, rfl⟩).append_named ?_
  rintro last ⟨q, e, hlast, hloose, ⟨hcalls, hdone, -, operand, hoperand, hclose⟩, heval⟩
  -- a line break after the value ends the expression, further ones do nothing
  have hfinish : q.calls = [] ∧ q.finish = .ok [e] := by
    refine ⟨hcalls, ?_⟩
    simp [Parser.finish, hcalls, hdone, hoperand, hclose]
  have hline : ∀ p : Parser, p.calls = [] ∧ p.finish = .ok [e] →
      ∃ p', p.step .newline = .ok p' ∧ p'.calls = [] ∧ p'.finish = .ok [e] := by
    rintro ⟨calls, slot, operand, done⟩ ⟨rfl, hp⟩
    cases operand with
    | none => exact ⟨_, rfl, rfl, hp⟩
    | some operand => exact ⟨_, rfl, rfl, by simpa [Parser.finish] using hp⟩
  refine (reaches_blank hafter trivial (fun _ h _ => h.breaks_blank) hline hlast hfinish
    hloose).mono ?_
  rintro final ⟨p, hfinal, ⟨-, hp⟩, -⟩
  exact ⟨p, e, hfinal, hp, fun map hmap hcovers =>
    heval map hmap (Covers.of_blank hbefore hcovers).left⟩

/-- The expression for the text with the placeholders in their places. -/
theorem parse_document {tokens : List Token} {value : Value} (h : Document tokens value) :
    ∃ read, Agrees unnameEmpty tokens (hasEmptyName value) read value ∧
      if refused tokens || hasEmptyName value then
        ∃ message, parse (transform (render (number marked placeholder 1 tokens))) =
          .error (.error message)
      else ∃ e, parse (transform (render (number marked placeholder 1 tokens))) = .ok [e] ∧
        ∀ map, IsMap map → Covers map 1 tokens → Evaluates map e read := by
  obtain ⟨read, hagrees, hreach⟩ := reaches_document h
  refine ⟨read, hagrees, ?_⟩
  unfold Reaches at hreach
  split_ifs at hreach ⊢
  · obtain ⟨message, hread⟩ := hreach
    have hread' := hread []
    rw [List.append_nil] at hread'
    refine ⟨message, ?_⟩
    rw [parse, hread']
    rfl
  · obtain ⟨next, ⟨p, e, hends, hfinish, heval⟩, hread⟩ := hreach
    have hread' := hread []
    rw [List.append_nil, transform_nil] at hread'
    refine ⟨e, ?_, heval⟩
    have hends' : next.settle = .ok p := hends
    rw [parse, hread']
    show (do
      let p ← next.settle
      p.finish) = _
    rw [hends']
    exact hfinish

/-- The map of the reader, for strings that R can read. -/
theorem isMap_zip {n : ℕ} {values : List Chars} (hvalues : values.length = n) :
    IsMap (((List.range' 1 n).map placeholder).zip values) := by
  have hkeys : (((List.range' 1 n).map placeholder).zip values).map Prod.fst =
      (List.range' 1 n).map placeholder :=
    List.map_fst_zip (by simp [hvalues])
  constructor
  · rw [hkeys]
    exact List.Nodup.map placeholder_injective List.nodup_range'
  · rw [hkeys]
    intro key hkey
    obtain ⟨n, -, rfl⟩ := List.mem_map.mp hkey
    exact sign_mem_placeholder n

theorem covers_zip {tokens : List Token} {values : List Chars}
    (h : List.Forall₂ ReadsAs (specials marked tokens) values)
    (hreadable : ∀ content ∈ specials marked tokens, unreadable content = false) :
    Covers (((List.range' 1 (specials marked tokens).length).map placeholder).zip values) 1
      tokens := by
  have hlength := h.length_eq
  have hmap := isMap_zip hlength.symm
  constructor
  · intro n content value hn hvalue
    have hlt : n < (specials marked tokens).length := (List.getElem?_eq_some_iff.mp hn).1
    have hsame := List.forall₂_iff_get.mp h |>.2 n hlt (hlength ▸ hlt)
    have hcontent : (specials marked tokens).get ⟨n, hlt⟩ = content :=
      (List.getElem?_eq_some_iff.mp hn).2
    rw [hcontent] at hsame
    have hreads := hvalue.readsAs (hreadable content (List.mem_of_getElem? hn))
    suffices h : (placeholder (1 + n), value) ∈ ((List.range' 1 (specials marked tokens).length).map
        placeholder).zip values from lookup_of_mem hmap.nodup h
    refine List.mem_of_getElem? (i := n) (List.getElem?_zip_eq_some.mpr ⟨?_, ?_⟩)
    · simp [hlt]
    · rw [hreads.unique hsame]
      exact List.getElem?_eq_getElem _
  · rw [List.map_fst_zip (by simp [hlength])]
    exact List.Sublist.refl _

/-- The strings that R reads for the contents of literals. -/
theorem exists_values {contents : List Chars}
    (h : ∀ content ∈ contents, ∃ value, StringOf content value)
    (hreadable : ∀ content ∈ contents, unreadable content = false) :
    ∃ values, List.Forall₂ ReadsAs contents values := by
  induction contents with
  | nil => exact ⟨[], .nil⟩
  | cons content contents ih =>
      obtain ⟨value, hvalue⟩ := h content List.mem_cons_self
      obtain ⟨values, hvalues⟩ := ih
        (fun other hother => h other (List.mem_cons_of_mem content hother))
        fun other hother => hreadable other (List.mem_cons_of_mem content hother)
      exact ⟨value :: values,
        .cons (hvalue.readsAs (hreadable content List.mem_cons_self)) hvalues⟩

/-! ## The reader -/

/-- No string that is exchanged reads like the text between two strings before it, R takes the
escapes of all strings, and no member of an object has an empty name. -/
structure Readable (tokens : List Token) (value : Value) : Prop where
  distinct : Distinct marked tokens
  escapes : ∀ content ∈ literals tokens, unreadable content = false
  names : hasEmptyName value = false

section Reading

variable {lines : List Chars} {tokens : List Token} {value : Value}

/-- What the reader does with the expressions of the text. -/
def evalFirst (strings replacements : List Chars) : List Lang → Except Failure Value
  | [] => .error (.error "subscript out of bounds")
  | json :: _ => do
      let values ← parseStrings strings
      let keys ← parseStrings replacements
      let remapped ← remap (keys.zip values) json
      remapped.eval

theorem renvJsonReadDefault_eq (hlines : pasteLines lines = render tokens)
    (h : Document tokens value) (hdistinct : Distinct marked tokens) :
    renvJsonReadDefault lines =
      parse (transform (render (number marked placeholder 1 tokens))) >>=
        evalFirst ((specials marked tokens).map quote)
          (((List.range' 1 (specials marked tokens).length).map placeholder).map quote) := by
  have hexchange := (exchange_eq_iff isPlaceholder h.valid h.sign_not_mem 1).mpr hdistinct
  rw [renvJsonReadDefault, hlines, h.replaceStrings_eq, hexchange]
  rfl

/-- A text that is readable is read as the value it means but for the names of empty lists, and
these are the same if no empty object has blanks between its braces. -/
theorem renvJsonReadDefault_readable (hlines : pasteLines lines = render tokens)
    (h : Document tokens value) (hreadable : Readable tokens value) :
    ∃ read, renvJsonReadDefault lines = .ok read ∧ unnameEmpty read = unnameEmpty value ∧
      (read = value ↔ ¬SpacedObject tokens) := by
  obtain ⟨read, ⟨spaced, hscans, hagrees⟩, hparse⟩ := parse_document h
  have hspecials : ∀ content ∈ specials marked tokens, unreadable content = false :=
    fun content hcontent => hreadable.escapes content (List.mem_of_mem_filter hcontent)
  have hrefused : refused tokens = false := by
    refine List.any_eq_false.mpr fun content hcontent => ?_
    simp [hreadable.escapes content hcontent]
  rw [hrefused, hreadable.names, if_neg (by decide)] at hparse
  obtain ⟨hunname, heq⟩ := hagrees hreadable.names
  refine ⟨read, ?_, hunname, by rw [heq, hscans.spacedObject, Bool.not_eq_true]⟩
  obtain ⟨e, hexpr, heval⟩ := hparse
  obtain ⟨values, hvalues⟩ := exists_values (fun content => h.stringOf) hspecials
  have hkeys : List.Forall₂ ReadsAs
      ((List.range' 1 (specials marked tokens).length).map placeholder)
      ((List.range' 1 (specials marked tokens).length).map placeholder) := by
    refine List.forall₂_same.mpr fun key hkey => ?_
    obtain ⟨n, -, rfl⟩ := List.mem_map.mp hkey
    exact readsAs_placeholder n
  obtain ⟨remapped, hremap, hremapped⟩ :=
    heval _ (isMap_zip hvalues.length_eq.symm) (covers_zip hvalues hspecials)
  rw [renvJsonReadDefault_eq hlines h hreadable.distinct, hexpr]
  show (parseStrings ((specials marked tokens).map quote) >>= _) = _
  rw [parseStrings_eq hvalues]
  show (parseStrings (((List.range' 1 (specials marked tokens).length).map placeholder).map
    quote) >>= _) = _
  rw [parseStrings_eq hkeys]
  show (remap _ e >>= _) = _
  rw [hremap]
  exact hremapped

/-- A text with an escape that R refuses or with a member that has an empty name. -/
theorem renvJsonReadDefault_error (hlines : pasteLines lines = render tokens)
    (h : Document tokens value) (hdistinct : Distinct marked tokens)
    (hunreadable : ¬Readable tokens value) :
    ∃ message, renvJsonReadDefault lines = .error (.error message) := by
  obtain ⟨read, -, hparse⟩ := parse_document h
  rw [renvJsonReadDefault_eq hlines h hdistinct]
  split_ifs at hparse with hfails
  · obtain ⟨message, hparse⟩ := hparse
    exact ⟨message, by rw [hparse]; rfl⟩
  -- What R could read where it stands is fine, so that it fails at a string that was exchanged.
  · obtain ⟨hrefused, hname⟩ : refused tokens = false ∧ hasEmptyName value = false := by
      simpa using hfails
    obtain ⟨e, hexpr, -⟩ := hparse
    have hspecial : ∃ content ∈ specials marked tokens, unreadable content = true := by
      by_contra hnone
      refine hunreadable ⟨hdistinct, fun content hcontent => ?_, hname⟩
      by_contra hescape
      rw [Bool.not_eq_false] at hescape
      have hmarked := List.any_eq_false.mp hrefused content hcontent
      exact hnone ⟨content, List.mem_filter.mpr ⟨hcontent, by simpa [hescape] using hmarked⟩,
        hescape⟩
    obtain ⟨message, hstrings⟩ := parseStrings_error (fun content => h.stringOf) hspecial
    refine ⟨message, ?_⟩
    rw [hexpr]
    show (parseStrings ((specials marked tokens).map quote) >>= _) = _
    rw [hstrings]
    rfl

end Reading

end GnuRQi.Renv
