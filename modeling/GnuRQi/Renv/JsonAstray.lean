import GnuRQi.Renv.JsonDocument

/-!
# JSON texts that the reader goes astray in

Where a string reads like the text between two strings before it, the closing quote of one of these
is taken for the string. The placeholder then begins outside of a string, and R stops there. The
reader of tokens alone shows this: it does not depend on the expressions that have been read.
-/

namespace GnuRQi.Renv

open R Text

/-! ## The token that is being read -/

/-- The token that is being read after a text. -/
def run (lexeme : Lexeme) (text : Chars) : Except Failure Lexeme :=
  text.foldlM (fun lexeme c => (lexeme.step c).map Prod.fst) lexeme

/-- The token that is being read is neither a string nor a name between backquotes. -/
def Outside : Lexeme → Prop
  | .string _ | .escape _ | .unicode _ _ | .backquote _ => False
  | _ => True

/-- A string is being read, and the character before was no backslash. -/
def Within : Lexeme → Prop
  | .string _ | .unicode _ _ => True
  | _ => False

theorem run_append (lexeme : Lexeme) (first second : Chars) :
    run lexeme (first ++ second) = (run lexeme first).bind fun next => run next second :=
  List.foldlM_append

theorem run_eq_of_read {r next : Reader} {text : Chars} (h : r.read text = .ok next) :
    run r.lexeme text = .ok next.lexeme := by
  induction text generalizing r with
  | nil =>
      cases h
      rfl
  | cons c text ih =>
      cases hstep : r.step c with
      | error failure =>
          rw [Reader.read, List.foldlM_cons, hstep] at h
          cases h
      | ok second =>
          rw [Reader.read_cons hstep] at h
          have hlexeme : (r.lexeme.step c).map Prod.fst = .ok second.lexeme := by
            rw [Reader.step] at hstep
            cases hc : r.lexeme.step c with
            | error failure =>
                rw [hc] at hstep
                cases hstep
            | ok pair =>
                rw [hc] at hstep
                cases hfold : pair.2.foldlM Parser.step r.parser with
                | error failure => simp [hfold, bind, Except.bind] at hstep
                | ok parser =>
                    simp only [bind, Except.bind, hfold, pure, Except.pure,
                      Except.ok.injEq] at hstep
                    rw [← hstep]
                    rfl
          rw [run, List.foldlM_cons, hlexeme]
          exact ih h

/-- From a token with the first property the text leads, unless R fails, to one with the second. -/
def Leads (text : Chars) (P Q : Lexeme → Prop) : Prop :=
  ∀ lexeme next, P lexeme → run lexeme text = .ok next → Q next

section Leads

variable {P Q S : Lexeme → Prop}

theorem Leads.append {first second : Chars} (h : Leads first P Q) (hsecond : Leads second Q S) :
    Leads (first ++ second) P S := by
  intro lexeme next hP hrun
  rw [run_append] at hrun
  cases hfirst : run lexeme first with
  | error failure =>
      rw [hfirst] at hrun
      cases hrun
  | ok middle =>
      rw [hfirst] at hrun
      exact hsecond middle next (h lexeme middle hP hfirst) hrun

theorem leads_nil : Leads [] P P := by
  rintro lexeme next hP ⟨⟩
  exact hP

theorem leads_step {c : Char}
    (h : ∀ lexeme next tokens, P lexeme → lexeme.step c = .ok (next, tokens) → Q next) :
    Leads [c] P Q := by
  intro lexeme next hP hrun
  cases hstep : lexeme.step c with
  | error failure =>
      rw [run, List.foldlM_cons, hstep] at hrun
      cases hrun
  | ok pair =>
      rw [run, List.foldlM_cons, hstep] at hrun
      cases hrun
      exact h lexeme pair.1 pair.2 hP hstep

theorem outside_ite {p : Prop} [Decidable p] {a b : Except Failure (Lexeme × List RToken)}
    (ha : ∀ next tokens, a = .ok (next, tokens) → Outside next)
    (hb : ∀ next tokens, b = .ok (next, tokens) → Outside next) :
    ∀ next tokens, (if p then a else b) = .ok (next, tokens) → Outside next := by
  split
  · exact ha
  · exact hb

/-- Only the two kinds of quotes begin a string or a name between backquotes. -/
theorem outside_start {c : Char} (hquote : c ≠ '"') (hback : c ≠ '\x60') :
    ∀ next tokens, Lexeme.start c = .ok (next, tokens) → Outside next := by
  rw [Lexeme.start, if_neg hquote, if_neg hback]
  repeat' apply outside_ite
  all_goals rintro next tokens ⟨⟩ <;> trivial

theorem start_of_restart {lexeme next : Lexeme} {c : Char} {tokens : List RToken}
    (h : lexeme.restart c = .ok (next, tokens)) :
    ∃ tokens, Lexeme.start c = .ok (next, tokens) := by
  rw [Lexeme.restart] at h
  cases hfinish : lexeme.finish with
  | error failure =>
      rw [hfinish] at h
      cases h
  | ok first =>
      cases hstart : Lexeme.start c with
      | error failure =>
          rw [hfinish, hstart] at h
          cases h
      | ok pair =>
          rw [hfinish, hstart] at h
          cases h
          exact ⟨pair.2, rfl⟩

/-- Outside of strings a character goes on with the token or ends it. -/
theorem step_outside {lexeme next : Lexeme} {c : Char} {tokens : List RToken}
    (h : Outside lexeme) (hstep : lexeme.step c = .ok (next, tokens)) :
    Outside next ∧ c ≠ '"' ∧ c ≠ '\x60' ∨ lexeme.restart c = .ok (next, tokens) := by
  cases lexeme with
  | none => exact Or.inr hstep
  | string read => cases h
  | escape read => cases h
  | unicode read digits => cases h
  | backquote read => cases h
  | number read =>
      rw [Lexeme.step] at hstep
      split_ifs at hstep with hdigit
      · cases hstep
        refine Or.inl ⟨trivial, ?_, ?_⟩ <;>
          · rintro rfl
            revert hdigit
            simp
      · exact Or.inr hstep
  | symbol read =>
      rw [Lexeme.step] at hstep
      split_ifs at hstep with hletter
      · cases hstep
        refine Or.inl ⟨trivial, ?_, ?_⟩ <;>
          · rintro rfl
            revert hletter
            decide
      · exact Or.inr hstep
  | equals =>
      rw [Lexeme.step] at hstep
      split_ifs at hstep
      exact Or.inr hstep
  | dash =>
      rw [Lexeme.step] at hstep
      split_ifs at hstep
      exact Or.inr hstep

theorem leads_plain {text : Chars} (h : ∀ c ∈ text, c ≠ '"' ∧ c ≠ '\x60') :
    Leads text Outside Outside := by
  induction text with
  | nil => exact leads_nil
  | cons c text ih =>
      have hc := h c List.mem_cons_self
      have hfirst : Leads [c] Outside Outside := by
        refine leads_step fun lexeme next tokens hlexeme hstep => ?_
        rcases step_outside hlexeme hstep with hnext | hrestart
        · exact hnext.1
        · obtain ⟨_, hstart⟩ := start_of_restart hrestart
          exact outside_start hc.1 hc.2 next _ hstart
      exact hfirst.append (ih fun d hd => h d (List.mem_cons_of_mem c hd))

/-- Within a string a digit of an escape `\u` or any other character is read. -/
theorem step_within {lexeme next : Lexeme} {c : Char} {tokens : List RToken}
    (h : Within lexeme) (hquote : c ≠ '"') (hescape : c ≠ '\\')
    (hstep : lexeme.step c = .ok (next, tokens)) : Within next := by
  cases lexeme with
  | string read =>
      rw [Lexeme.step, if_neg hquote, if_neg hescape] at hstep
      cases hstep
      trivial
  | unicode read digits =>
      rw [Lexeme.step] at hstep
      split_ifs at hstep
      · cases hstep
        trivial
      · cases hvalue : unicodeValue (hexValue (digits ++ [c])) with
        | error failure =>
            rw [hvalue] at hstep
            cases hstep
        | ok value =>
            rw [hvalue] at hstep
            cases hstep
            trivial
  | _ => cases h

/-- No escape takes a quote or a backslash for one of its digits. -/
theorem eq_string_of_step {lexeme next : Lexeme} {c : Char} {tokens : List RToken}
    (h : Within lexeme) (hc : hexDigit c = none) (hstep : lexeme.step c = .ok (next, tokens)) :
    ∃ read, lexeme = .string read := by
  cases lexeme with
  | string read => exact ⟨read, rfl⟩
  | unicode read digits =>
      rw [Lexeme.step, hc, if_neg (by decide)] at hstep
      split_ifs at hstep
  | _ => cases h

/-- A string is closed by its last quote. -/
theorem leads_quote {content : Chars} (h : Content content) :
    Leads (quote content) Outside (· = .none) := by
  have hopen : Leads ['"'] Outside Within := by
    refine leads_step fun lexeme next tokens hlexeme hstep => ?_
    rcases step_outside hlexeme hstep with hnext | hrestart
    · exact absurd rfl hnext.2.1
    · obtain ⟨_, hstart⟩ := start_of_restart hrestart
      cases hstart
      trivial
  -- An escape leads back into the string, whatever character it is for.
  have hcontent : Leads content Within Within := by
    induction h with
    | nil => exact leads_nil
    | plain c hquote hescape h ih =>
        have hfirst : Leads [c] Within Within :=
          leads_step fun lexeme next tokens hlexeme hstep =>
            step_within hlexeme hquote hescape hstep
        exact hfirst.append ih
    | escape c hline h ih =>
        have hback : Leads ['\\'] Within fun lexeme => ∃ read, lexeme = .escape read := by
          refine leads_step fun lexeme next tokens hlexeme hstep => ?_
          obtain ⟨read, rfl⟩ := eq_string_of_step hlexeme rfl hstep
          cases hstep
          exact ⟨read, rfl⟩
        have hescape : Leads [c] (fun lexeme => ∃ read, lexeme = .escape read) Within := by
          refine leads_step ?_
          rintro _ next tokens ⟨read, rfl⟩ hstep
          rw [Lexeme.step] at hstep
          cases hvalue : escapeValue c with
          | none =>
              simp only [hvalue] at hstep
              split_ifs at hstep
              cases hstep
              trivial
          | some value =>
              simp only [hvalue] at hstep
              cases hstep
              trivial
        exact hback.append (hescape.append ih)
  have hclose : Leads ['"'] Within (· = .none) := by
    refine leads_step fun lexeme next tokens hlexeme hstep => ?_
    obtain ⟨read, rfl⟩ := eq_string_of_step hlexeme rfl hstep
    cases hstep
    rfl
  exact hopen.append (hcontent.append hclose)

/-- The call for an empty object has one name between backquotes. -/
theorem leads_emptyObject : Leads emptyObject Outside Outside := by
  have hopen : Leads ['\x60'] Outside (· = .backquote []) := by
    refine leads_step fun lexeme next tokens hlexeme hstep => ?_
    rcases step_outside hlexeme hstep with hnext | hrestart
    · exact absurd rfl hnext.2.2
    · obtain ⟨_, hstart⟩ := start_of_restart hrestart
      cases hstart
      rfl
  have hname : Leads "names<-\x60".toList (· = .backquote []) (· = .none) := by
    rintro lexeme next rfl hrun
    cases hrun
    rfl
  have hrest : Leads "(list(), character())".toList (· = .none) Outside := by
    rintro lexeme next rfl hrun
    exact leads_plain (by decide) .none next trivial hrun
  exact hopen.append (hname.append hrest)

end Leads

/-! ## The text that R parses, token by token -/

/-- What stands for a character has quotes or backquotes only for these. -/
theorem mem_translate {c d : Char} (hquote : c ≠ '"') (hback : c ≠ '\x60') (h : d ∈ translate c) :
    d ≠ '"' ∧ d ≠ '\x60' := by
  rw [translate] at h
  split_ifs at h
  · revert d
    decide
  · revert d
    decide
  · revert d
    decide
  · obtain rfl := List.mem_singleton.mp h
    exact ⟨hquote, hback⟩

/-- Tokens before a quote are transformed on their own, and outside of strings R is still outside
after them. -/
theorem transform_tokens (tokens : List Token)
    (hvalid : ∀ token ∈ tokens, token.Valid ∧ token.Plain marked)
    (hback : ∀ c, .char c ∈ tokens → c ≠ '\x60') :
    ∃ text, (∀ rest, transform (render tokens ++ '"' :: rest) = text ++ transform ('"' :: rest)) ∧
      Leads text Outside Outside := by
  -- On the number of tokens, since an empty object is two of them.
  induction hlength : tokens.length using Nat.strong_induction_on generalizing tokens with
  | _ n ih =>
      have hshorter : ∀ rest : List Token, rest.length < n → (∀ token ∈ rest, token ∈ tokens) →
          ∃ text, (∀ after, transform (render rest ++ '"' :: after) =
            text ++ transform ('"' :: after)) ∧ Leads text Outside Outside := fun rest hrest hmem =>
        ih rest.length hrest rest (fun token htoken => hvalid token (hmem token htoken))
          (fun c hc => hback c (hmem _ hc)) rfl
      cases tokens with
      | nil => exact ⟨[], fun _ => rfl, leads_nil⟩
      | cons token tokens =>
          obtain ⟨text, htext, hleads⟩ := hshorter tokens (by simp [← hlength])
            fun other hother => List.mem_cons_of_mem token hother
          cases token with
          | literal content =>
              obtain ⟨hcontent, hplain⟩ := hvalid (.literal content) List.mem_cons_self
              refine ⟨quote content ++ text, fun rest => ?_, ?_⟩
              · rw [render_literal, List.append_assoc, transform_append (unmarked_quote hplain),
                  htext, List.append_assoc]
              · refine (leads_quote hcontent).append ?_
                rintro lexeme next rfl hrun
                exact hleads .none next trivial hrun
          | char c =>
              by_cases hempty : c = '{' ∧ ∃ rest, tokens = .char '}' :: rest
              · -- both braces are replaced by one call
                obtain ⟨rfl, rest, rfl⟩ := hempty
                have hlt : rest.length < n := by
                  simp only [List.length_cons] at hlength
                  omega
                obtain ⟨text, htext, hleads⟩ := hshorter rest hlt
                  fun other hother => by simp [hother]
                refine ⟨emptyObject ++ text, fun rest => ?_, leads_emptyObject.append hleads⟩
                rw [render_char, render_char, List.cons_append, List.cons_append, transform_empty,
                  htext, List.append_assoc]
              · have hc : c ≠ '"' := (hvalid (.char c) List.mem_cons_self).1.1
                have hhead : ∀ rest, c = '{' → (render tokens ++ '"' :: rest).head? ≠ some '}' := by
                  rintro rest rfl
                  cases tokens with
                  | nil => simp
                  | cons token tokens =>
                      cases token with
                      | char d => simpa using hempty
                      | literal content => simp [quote]
                refine ⟨translate c ++ text, fun rest => ?_, ?_⟩
                · rw [render_char, List.cons_append, transform_cons (hhead rest), htext,
                    List.append_assoc]
                · exact (leads_plain fun d =>
                    mem_translate hc (hback c List.mem_cons_self)).append hleads

/-! ## The whole text -/

/-- Where the text has gone astray R stops, if it has not stopped before. -/
theorem parse_astray {tokens : List Token} {value : Value} (h : Document tokens value)
    {text : Chars} (hastray : Astray '\x1a' text (number marked placeholder 1 tokens)) :
    ∃ message, parse (transform text) = .error (.error message) := by
  have hvalid := number_valid isPlaceholder h.valid 1
  have hback : ∀ c, .char c ∈ number marked placeholder 1 tokens → c ≠ '\x60' := fun c hc =>
    (h.written (.char c) (char_of_mem_number 1 hc)).2.2
  obtain ⟨before, content, c, after, rest, -, htokens, rfl⟩ := hastray
  rw [htokens] at hvalid hback
  obtain ⟨first, hfirst, hleads⟩ := transform_tokens before
    (fun token htoken => hvalid token (List.mem_append_left _ htoken))
    fun c hc => hback c (List.mem_append_left _ hc)
  obtain ⟨hcontent, hplain⟩ := hvalid (.literal content) (by simp)
  have hsplit : ∀ rest, transform (render before ++ (quote content ++ rest)) =
      first ++ quote content ++ transform rest := by
    intro rest
    have hquote : quote content ++ rest = '"' :: (content ++ '"' :: rest) := by simp [quote]
    rw [hquote, hfirst, ← hquote, transform_append (unmarked_quote hplain), List.append_assoc]
  rw [hsplit, parse, Reader.read_append]
  cases hread : Reader.read {} (first ++ quote content) with
  | error failure =>
      -- the text with the placeholders in their places begins in the same way
      obtain ⟨read, -, hgoal⟩ := reaches_document h
      have htext : ∀ rest, Reader.read {} (transform
          (render (number marked placeholder 1 tokens) ++ rest)) = .error failure := by
        intro rest
        rw [htokens, render_append, render_literal, List.append_assoc, List.append_assoc, hsplit,
          Reader.read_append, hread]
        rfl
      unfold Reaches at hgoal
      simp only [htext] at hgoal
      split_ifs at hgoal
      · obtain ⟨message, hmessage⟩ := hgoal
        obtain rfl : failure = .error message := by simpa using hmessage
        exact ⟨message, rfl⟩
      · obtain ⟨next, -, hnext⟩ := hgoal
        have hempty := hnext []
        rw [transform_nil] at hempty
        cases hempty
  | ok next =>
      have hlexeme : next.lexeme = .none :=
        hleads.append (leads_quote hcontent) .none next.lexeme trivial (run_eq_of_read hread)
      obtain ⟨lexeme, parser⟩ := next
      cases hlexeme
      have htranslate : translate '\x1a' = ['\x1a'] := by decide
      rw [transform_cons fun hbrace => absurd hbrace (by decide), htranslate]
      exact ⟨"unexpected input", rfl⟩

section Document

variable {lines : List Chars} {tokens : List Token} {value : Value}

theorem renvJsonReadDefault_unreadable (hlines : pasteLines lines = render tokens)
    (h : Document tokens value) (hunreadable : ¬Readable tokens value) :
    ∃ message, renvJsonReadDefault lines = .error (.error message) := by
  by_cases hdistinct : Distinct marked tokens
  · exact renvJsonReadDefault_error hlines h hdistinct hunreadable
  · have hastray := exchange_astray isPlaceholder h.valid h.sign_not_mem 1 hdistinct
    obtain ⟨message, hparse⟩ := parse_astray h hastray
    refine ⟨message, ?_⟩
    rw [renvJsonReadDefault, hlines, h.replaceStrings_eq]
    show (parse (transform (exchange placeholder 1 (specials marked tokens)
      (render tokens))) >>= _) = _
    rw [hparse]
    rfl

end Document

/-- Two members, the second one with the value `":"`. -/
theorem document_colon (space : List Token) (hspace : Blank space) :
    Document
      (.char '{' :: .literal ['a'] :: .char ':' :: (space ++ .literal ['b'] :: .char ',' ::
        .literal ['c'] :: .char ':' :: (space ++ [.literal [':'], .char '}'])))
      (.namedList [(['a'], .character [['b']]), (['c'], .character [[':']])]) := by
  have hblank : Blank [] := nofun
  have hlast : Members _ _ := .last hblank (.of_plain (by decide : ∀ c ∈ ['c'], _)) hblank hspace
    (.string (.of_plain (by decide : ∀ c ∈ [':'], _))) hblank
  have ha : StringOf ['a'] ['a'] := .of_plain (by decide)
  have hb : StringOf ['b'] ['b'] := .of_plain (by decide)
  have hmembers := Members.cons hblank ha hblank hspace (.string hb) hblank hlast
  exact ⟨[], _, [], hblank, .object hmembers, hblank, by simp⟩

end GnuRQi.Renv
