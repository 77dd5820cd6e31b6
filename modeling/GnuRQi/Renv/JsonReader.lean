import GnuRQi.Renv.JsonNames
import GnuRQi.Renv.JsonText

/-!
# How R reads a JSON text

`Reaches` says where the reader is after some tokens of the text with the placeholders; it is shown
for the tokens of a JSON value by induction on the grammar. What has been read at the end is an
expression that has the JSON value once the strings are back in their places.
-/

namespace GnuRQi.Renv

open R Text

/-! ## Tokens of the text with placeholders -/

/-- A literal that R has to read where it stands has an escape that R refuses. -/
def refused (tokens : List Token) : Bool :=
  (literals tokens).any fun content => !content.any marked && unreadable content

theorem refused_append (first second : List Token) :
    refused (first ++ second) = (refused first || refused second) := by
  rw [refused, literals_append, List.any_append]
  rfl

@[simp] theorem refused_char (c : Char) (rest : List Token) :
    refused (.char c :: rest) = refused rest := rfl

/-! ## Reading tokens -/

/-- After the tokens, numbered from `k` on, the reader is in a state with the property, unless it
fails before: at an escape that R refuses, or where there is an argument that is `nameless`. -/
def Reaches (k : ℕ) (r : Reader) (tokens : List Token) (nameless : Bool) (P : Reader → Prop) :
    Prop :=
  if refused tokens || nameless then
    ∃ message, ∀ rest, r.read (transform (render (number marked placeholder k tokens) ++ rest)) =
      .error (.error message)
  else ∃ next, P next ∧ ∀ rest,
    r.read (transform (render (number marked placeholder k tokens) ++ rest)) =
      next.read (transform rest)

section Reaches

variable {k : ℕ} {r : Reader} {P Q : Reader → Prop} {tokens : List Token} {nameless : Bool}

theorem reaches_nil (h : P r) : Reaches k r [] false P := ⟨r, h, fun _ => rfl⟩

theorem Reaches.mono (h : Reaches k r tokens nameless P) (hPQ : ∀ next, P next → Q next) :
    Reaches k r tokens nameless Q := by
  unfold Reaches at h ⊢
  split_ifs at h ⊢
  · exact h
  · obtain ⟨next, hnext, hread⟩ := h
    exact ⟨next, hPQ next hnext, hread⟩

theorem Reaches.append_or {first second : List Token} {later : Bool}
    (h : Reaches k r first nameless P)
    (hsecond : ∀ next, P next →
      Reaches (k + (specials marked first).length) next second later Q) :
    Reaches k r (first ++ second) (nameless || later) Q := by
  unfold Reaches at h hsecond ⊢
  have hfails : (refused (first ++ second) || (nameless || later)) =
      ((refused first || nameless) || (refused second || later)) := by
    rw [refused_append]
    ac_rfl
  rw [hfails, number_append, render_append]
  cases hfirst : refused first || nameless with
  | true =>
      rw [hfirst, if_pos rfl] at h
      obtain ⟨message, hread⟩ := h
      refine ⟨message, fun rest => ?_⟩
      rw [List.append_assoc]
      exact hread _
  | false =>
      rw [hfirst, if_neg (by decide)] at h
      obtain ⟨next, hnext, hread⟩ := h
      have hrest := hsecond next hnext
      rw [Bool.false_or]
      split_ifs at hrest ⊢
      · obtain ⟨message, hread'⟩ := hrest
        refine ⟨message, fun rest => ?_⟩
        rw [List.append_assoc, hread]
        exact hread' rest
      · obtain ⟨last, hlast, hread'⟩ := hrest
        refine ⟨last, hlast, fun rest => ?_⟩
        rw [List.append_assoc, hread]
        exact hread' rest

theorem Reaches.append {first second : List Token} (h : Reaches k r first false P)
    (hsecond : ∀ next, P next →
      Reaches (k + (specials marked first).length) next second nameless Q) :
    Reaches k r (first ++ second) nameless Q := h.append_or hsecond

theorem Reaches.append_named {first second : List Token} (h : Reaches k r first nameless P)
    (hsecond : ∀ next, P next →
      Reaches (k + (specials marked first).length) next second false Q) :
    Reaches k r (first ++ second) nameless Q := by
  have happend := h.append_or hsecond
  rwa [Bool.or_false] at happend

/-- One character, which is translated to some text. -/
theorem Reaches.cons {c : Char} {text : Chars} {next : Reader}
    (h : Reaches k next tokens nameless P)
    (htext : ∀ rest, transform (c :: (render (number marked placeholder k tokens) ++ rest)) =
      text ++ transform (render (number marked placeholder k tokens) ++ rest))
    (hread : r.read text = .ok next) : Reaches k r (.char c :: tokens) nameless P := by
  have hstep : ∀ rest, r.read (transform
      (c :: (render (number marked placeholder k tokens) ++ rest))) =
        next.read (transform (render (number marked placeholder k tokens) ++ rest)) := by
    intro rest
    rw [htext, Reader.read_append, hread]
    rfl
  unfold Reaches at h ⊢
  rw [refused_char, number_char, render_char]
  simp only [List.cons_append, hstep]
  exact h

/-- A character that is neither an opening brace nor followed by something it is replaced with. -/
theorem Reaches.translate {c : Char} {next : Reader} (h : Reaches k next tokens nameless P)
    (hc : c ≠ '{') (hread : r.read (translate c) = .ok next) :
    Reaches k r (.char c :: tokens) nameless P :=
  h.cons (fun _ => transform_cons fun hc' => absurd hc' hc) hread

/-- Characters that stay as they are. -/
theorem reaches_chars {text : Chars} {next : Reader} (h : ∀ c ∈ text, marked c = false)
    (hread : r.read text = .ok next) (hnext : P next) : Reaches k r (chars text) false P := by
  have htokens : refused (chars text) = false ∧
      render (number marked placeholder k (chars text)) = text := by
    clear h hread
    induction text with
    | nil => exact ⟨rfl, rfl⟩
    | cons c text ih => exact ⟨ih.1, congrArg (c :: ·) ih.2⟩
  unfold Reaches
  rw [htokens.1, htokens.2, if_neg (by decide)]
  refine ⟨next, hnext, fun rest => ?_⟩
  rw [transform_append h, Reader.read_append, hread]
  rfl

/-- What R reads for a string. -/
def label (k : ℕ) (content value : Chars) : Chars :=
  if content.any marked then placeholder k else value

/-- A string where an operand may stand. -/
theorem reaches_literal {content value : Chars} {p : Parser} (h : StringOf content value)
    (hends : r.Ends p) (hr : r.lexeme.Fresh) (hp : p.operand = none)
    (hP : P ⟨.none, { p with operand := some (.str (label k content value)) }⟩) :
    Reaches k r [.literal content] false P := by
  have hbreaks : r.lexeme.Breaks '"' := hr.breaks (by decide) (by decide)
  have hpush : ∀ value, p.step (.str value) = .ok { p with operand := some (.str value) } := by
    intro value
    simp [Parser.step, Parser.push, hp]
  have hread : ∀ content value : Chars, content.any marked = false → ReadsAs content value →
      ∀ rest, r.read (transform (quote content ++ rest)) =
        Reader.read ⟨.none, { p with operand := some (.str value) }⟩ (transform rest) := by
    intro content value hplain hvalue rest
    rw [transform_append (unmarked_quote hplain)]
    exact Reader.read_quote hends hbreaks hvalue (hpush value) (transform rest)
  unfold Reaches
  -- A marked string is a placeholder in the text, and a placeholder has no escapes.
  rcases Bool.eq_false_or_eq_true (content.any marked) with hmarked | hmarked
  · have hrefused : refused [.literal content] = false := by simp [refused, literals, hmarked]
    rw [hrefused, if_neg (by decide), number_marked hmarked]
    rw [label, if_pos hmarked] at hP
    refine ⟨_, hP, fun rest => ?_⟩
    rw [render_literal, List.append_assoc]
    exact hread _ _ (isPlaceholder.plain k) (readsAs_placeholder k) rest
  · have hrefused : refused [.literal content] = unreadable content := by
      simp [refused, literals, hmarked]
    rw [hrefused, Bool.or_false, number_plain hmarked]
    rw [label, if_neg (by rw [hmarked]; decide)] at hP
    split_ifs with hunreadable
    · obtain ⟨message, hfails⟩ := h.read_error hunreadable
      refine ⟨message, fun rest => ?_⟩
      rw [render_literal, List.append_assoc, transform_append (unmarked_quote hmarked)]
      exact Reader.read_quote_error hends hbreaks (hfails [] p) _
    · rw [Bool.not_eq_true] at hunreadable
      refine ⟨_, hP, fun rest => ?_⟩
      rw [render_literal, List.append_assoc]
      exact hread _ _ hmarked (h.readsAs hunreadable) rest

/-- Blanks leave a parser with a property that line breaks keep. -/
theorem reaches_blank {S : Lexeme → Prop} {D : Parser → Prop} {blank : List Token} {p : Parser}
    (hblank : Blank blank) (hnone : S .none)
    (hbreaks : ∀ lexeme, S lexeme → ∀ c ∈ [' ', '\t', '\n'], lexeme.Breaks c)
    (hline : ∀ p, D p → ∃ q, p.step .newline = .ok q ∧ D q) (hends : r.Ends p) (hp : D p)
    (hr : S r.lexeme) :
    Reaches k r blank false fun next => ∃ q, next.Ends q ∧ D q ∧ S next.lexeme := by
  induction blank generalizing r p with
  | nil => exact reaches_nil ⟨p, hends, hp, hr⟩
  | cons token blank ih =>
      have hrest := fun other hother => hblank other (List.mem_cons_of_mem token hother)
      obtain ⟨c, hc, rfl⟩ := hblank.exists_char List.mem_cons_self
      have hplain : marked c = false ∧ c ≠ '{' := by
        simp only [List.mem_cons, List.not_mem_nil, or_false] at hc
        rcases hc with rfl | rfl | rfl <;> decide
      -- Only the line break is a token for the parser.
      obtain ⟨q, hq, hDq⟩ : ∃ q, Reader.step ⟨.none, p⟩ c = .ok ⟨.none, q⟩ ∧ D q := by
        simp only [List.mem_cons, List.not_mem_nil, or_false] at hc
        rcases hc with rfl | rfl | rfl
        · exact ⟨p, rfl, hp⟩
        · exact ⟨p, rfl, hp⟩
        · obtain ⟨q, hq, hDq⟩ := hline p hp
          refine ⟨q, ?_, hDq⟩
          have hfold : [RToken.newline].foldlM Parser.step p = .ok q := by
            simp [hq, bind, Except.bind, pure, Except.pure]
          show (do
            let parser ← [RToken.newline].foldlM Parser.step p
            return Reader.mk .none parser) = _
          rw [hfold]
          rfl
      have hstep : r.read (translate c) = .ok ⟨.none, q⟩ := by
        rw [translate_of_unmarked hplain.1, Reader.read_cons_of_ends hends (hbreaks _ hr c hc),
          Reader.read_cons hq]
        rfl
      exact (ih hrest (Reader.ends_none q) hDq hnone).translate hplain.2 hstep

end Reaches

end GnuRQi.Renv
