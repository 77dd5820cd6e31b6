import GnuRQi.Text.Literals

/-!
# Placeholders for the literals of a text

The literals of a text that have a marked character are exchanged for numbered placeholders, one
after another, and each time the first occurrence of the literal in the whole text is the one that
is exchanged. `exchange_eq_iff` says when this is the occurrence that is meant: a literal must not
read like the text that stands between two literals before it. Otherwise the text goes astray, and
no later exchange repairs it.
-/

namespace GnuRQi.Text

section Placeholders

variable (marked : Char → Bool) (placeholder : ℕ → Chars)

/-- The contents of the marked literals, in their order. -/
def specials (tokens : List Token) : List Chars :=
  (literals tokens).filter fun content => content.any marked

/-- Placeholders from number `k` on in place of the marked literals. -/
def number (k : ℕ) : List Token → List Token
  | [] => []
  | .char c :: rest => .char c :: number k rest
  | .literal content :: rest =>
      if content.any marked then .literal (placeholder k) :: number (k + 1) rest
      else .literal content :: number k rest

/-- The literals of a list exchanged one after another for placeholders from number `k` on. -/
def exchange : ℕ → List Chars → Chars → Chars
  | _, [], text => text
  | k, content :: rest, text =>
      exchange (k + 1) rest (replaceFirst (quote content) (quote (placeholder k)) text)

/-- No marked literal reads like a gap between two literals before it. -/
def Distinct (tokens : List Token) : Prop :=
  ∀ before content after, tokens = before ++ .literal content :: after →
    content.any marked = true → content ∉ gaps before

variable {marked placeholder}

@[simp] theorem specials_char (c : Char) (rest : List Token) :
    specials marked (.char c :: rest) = specials marked rest := rfl

theorem specials_marked {content : Chars} (h : content.any marked = true) (rest : List Token) :
    specials marked (.literal content :: rest) = content :: specials marked rest := by
  exact List.filter_cons_of_pos (by simpa using h)

theorem specials_plain {content : Chars} (h : content.any marked = false) (rest : List Token) :
    specials marked (.literal content :: rest) = specials marked rest := by
  exact List.filter_cons_of_neg (by simpa using h)

@[simp] theorem number_char (k : ℕ) (c : Char) (rest : List Token) :
    number marked placeholder k (.char c :: rest) = .char c :: number marked placeholder k rest :=
  rfl

theorem number_marked {content : Chars} (h : content.any marked = true) (k : ℕ)
    (rest : List Token) :
    number marked placeholder k (.literal content :: rest) =
      .literal (placeholder k) :: number marked placeholder (k + 1) rest := by
  simp [number, h]

theorem number_plain {content : Chars} (h : content.any marked = false) (k : ℕ)
    (rest : List Token) :
    number marked placeholder k (.literal content :: rest) =
      .literal content :: number marked placeholder k rest := by
  simp [number, h]

theorem specials_append (first second : List Token) :
    specials marked (first ++ second) = specials marked first ++ specials marked second := by
  rw [specials, literals_append, List.filter_append]
  rfl

/-- The numbers go on after the marked literals before. -/
theorem number_append (k : ℕ) (first second : List Token) :
    number marked placeholder k (first ++ second) =
      number marked placeholder k first ++
        number marked placeholder (k + (specials marked first).length) second := by
  induction first generalizing k with
  | nil => rfl
  | cons token first ih =>
      cases token with
      | char c => exact congrArg (Token.char c :: ·) (ih k)
      | literal content =>
          rcases Bool.eq_false_or_eq_true (content.any marked) with h | h
          · rw [List.cons_append, number_marked h, number_marked h, ih, specials_marked h,
              List.length_cons, List.cons_append, Nat.add_right_comm, Nat.add_assoc k]
          · rw [List.cons_append, number_plain h, number_plain h, ih, specials_plain h,
              List.cons_append]

/-- What placeholders have to be: literals without a marked character that begin with the sign. -/
structure IsPlaceholder (marked : Char → Bool) (sign : Char) (placeholder : ℕ → Chars) : Prop where
  sign_ne : sign ≠ '"'
  content : ∀ k, Content (placeholder k)
  plain : ∀ k, (placeholder k).any marked = false
  begins : ∀ k, ∃ content, placeholder k = sign :: content

/-- The numbered tokens are valid, and no literal among them is marked. -/
theorem number_valid {sign : Char} (hph : IsPlaceholder marked sign placeholder)
    {tokens : List Token} (h : ∀ token ∈ tokens, token.Valid) (k : ℕ) :
    ∀ token ∈ number marked placeholder k tokens, token.Valid ∧ token.Plain marked := by
  induction tokens generalizing k with
  | nil => exact nofun
  | cons token tokens ih =>
      have hrest := ih fun other hother => h other (List.mem_cons_of_mem token hother)
      cases token with
      | char c =>
          exact List.forall_mem_cons.mpr ⟨⟨h (.char c) List.mem_cons_self, trivial⟩, hrest k⟩
      | literal content =>
          rcases Bool.eq_false_or_eq_true (content.any marked) with hmarked | hmarked
          · rw [number_marked hmarked]
            exact List.forall_mem_cons.mpr ⟨⟨hph.content k, hph.plain k⟩, hrest (k + 1)⟩
          · rw [number_plain hmarked]
            have hcontent := h (.literal content) List.mem_cons_self
            exact List.forall_mem_cons.mpr ⟨⟨hcontent, hmarked⟩, hrest k⟩

/-- The characters outside of literals stay. -/
theorem char_of_mem_number {tokens : List Token} {c : Char} (k : ℕ)
    (h : .char c ∈ number marked placeholder k tokens) : .char c ∈ tokens := by
  induction tokens generalizing k with
  | nil => exact h
  | cons token tokens ih =>
      cases token with
      | char d =>
          rcases List.mem_cons.mp h with heq | h
          · exact heq ▸ List.mem_cons_self
          · exact List.mem_cons_of_mem _ (ih k h)
      | literal content =>
          rcases Bool.eq_false_or_eq_true (content.any marked) with hmarked | hmarked
          · rw [number_marked hmarked] at h
            exact List.mem_cons_of_mem _ (ih (k + 1) (by simpa using h))
          · rw [number_plain hmarked] at h
            exact List.mem_cons_of_mem _ (ih k (by simpa using h))

/-- The text is that of the tokens up to the end of a literal, and there the sign stands instead of
another character. -/
def Astray (sign : Char) (text : Chars) (tokens : List Token) : Prop :=
  ∃ before content c after rest, c ≠ sign ∧
    tokens = before ++ .literal content :: .char c :: after ∧
    text = render before ++ (quote content ++ sign :: rest)

namespace Astray

variable {sign : Char} {text : Chars} {tokens : List Token}

theorem ne (h : Astray sign text tokens) : text ≠ render tokens := by
  obtain ⟨before, content, c, after, rest, hc, rfl, rfl⟩ := h
  rw [render_append, render_literal, render_char]
  intro heq
  exact hc (List.cons.inj (List.append_cancel_left (List.append_cancel_left heq))).1.symm

/-- A gap that reads like the literal is exchanged in its place. -/
theorem of_gap {x : Chars} (hx : Content x) (hmarked : x.any marked = true) (hsign : sign ∉ x)
    {before : List Token} (hvalid : ∀ token ∈ before, token.Valid ∧ token.Plain marked)
    (hgap : x ∈ gaps before) (content after : Chars) (last : List Token) :
    Astray sign (replaceFirst (quote x) (quote (sign :: content)) (render before ++ '"' :: after))
      (before ++ last) := by
  obtain ⟨first, y, c, second, rest, rfl, hc, hreplace⟩ := replaceFirst_gap hx hmarked
    (fun token htoken => (hvalid token htoken).1) (fun token htoken => (hvalid token htoken).2) hgap
    (quote (sign :: content)) after
  have hne : c ≠ sign := by
    rintro rfl
    exact hsign hc
  refine ⟨first, y, c, second ++ last, content ++ '"' :: rest, hne, by simp, ?_⟩
  rw [hreplace]
  simp [quote]

/-- Exchanging further literals does not repair the text. -/
theorem replaceFirst (h : Astray sign text tokens)
    (hvalid : ∀ token ∈ tokens, token.Valid ∧ token.Plain marked) {x : Chars} (hx : Content x)
    (hmarked : x.any marked = true) (hsign : sign ∉ x) (hquote : sign ≠ '"') (content : Chars) :
    Astray sign (replaceFirst (quote x) (quote (sign :: content)) text) tokens := by
  obtain ⟨before, y, c, after, rest, hc, rfl, rfl⟩ := h
  have hbefore : ∀ token ∈ before, token.Valid ∧ token.Plain marked := fun token htoken =>
    hvalid token (List.mem_append_left _ htoken)
  obtain ⟨hy, hyplain⟩ := hvalid (.literal y) (by simp)
  have htext : quote y ++ sign :: rest = '"' :: (y ++ '"' :: (sign :: rest)) := by simp [quote]
  rw [htext]
  by_cases hgap : x ∈ gaps before
  · exact of_gap hx hmarked hsign hbefore hgap content _ _
  · -- neither the literal `y` nor its closing quote is the beginning of an occurrence
    have hxy : x ≠ y := by
      rintro rfl
      rw [show x.any marked = false from hyplain] at hmarked
      cases hmarked
    obtain ⟨d, tail, rfl⟩ : ∃ d tail, x = d :: tail := by
      cases x with
      | nil => simp at hmarked
      | cons d tail => exact ⟨d, tail, rfl⟩
    have hd : (d == sign) = false := beq_false_of_ne fun heq => hsign (heq ▸ List.mem_cons_self)
    have hskip : (quote (d :: tail)).isPrefixOf ('"' :: sign :: rest) = false := by
      simp [quote, List.isPrefixOf, hd]
    refine ⟨before, y, c, after,
      Text.replaceFirst (quote (d :: tail)) (quote (sign :: content)) rest, hc, rfl, ?_⟩
    rw [replaceFirst_pass hx hmarked (fun token htoken => (hbefore token htoken).1)
      (fun token htoken => (hbefore token htoken).2) hgap, replaceFirst_other hx hy hxy,
      replaceFirst_within hx hmarked hy hyplain, Text.replaceFirst, hskip, if_neg (by decide),
      replaceFirst_cons_ne hquote]
    simp [quote]

/-- No exchange repairs the text. -/
theorem exchange (hph : IsPlaceholder marked sign placeholder) (h : Astray sign text tokens)
    (hvalid : ∀ token ∈ tokens, token.Valid ∧ token.Plain marked) {contents : List Chars}
    (hcontents : ∀ x ∈ contents, Content x ∧ x.any marked = true ∧ sign ∉ x) (k : ℕ) :
    Astray sign (exchange placeholder k contents text) tokens := by
  induction contents generalizing k text with
  | nil => exact h
  | cons x rest ih =>
      obtain ⟨content, hcontent⟩ := hph.begins k
      obtain ⟨hx, hmarked, hsign⟩ := hcontents x List.mem_cons_self
      rw [Text.exchange, hcontent]
      exact ih (h.replaceFirst hvalid hx hmarked hsign hph.sign_ne content)
        (fun y hy => hcontents y (List.mem_cons_of_mem x hy)) (k + 1)

end Astray

/-- No marked literal reads like a gap between two literals before it, when some tokens stand before
all of them. -/
def DistinctFrom (marked : Char → Bool) (before tokens : List Token) : Prop :=
  ∀ first content after, tokens = first ++ .literal content :: after →
    content.any marked = true → content ∉ gaps (before ++ first)

section DistinctFrom

variable {before tokens : List Token}

theorem distinctFrom_char {c : Char} :
    DistinctFrom marked before (.char c :: tokens) ↔
      DistinctFrom marked (before ++ [.char c]) tokens := by
  constructor
  · intro h first content after htokens hmarked
    have hgaps := h (.char c :: first) content after (congrArg (.char c :: ·) htokens) hmarked
    rwa [List.append_assoc]
  · intro h first content after htokens hmarked
    cases first with
    | nil => cases htokens
    | cons token first =>
        obtain ⟨rfl, htail⟩ := List.cons.inj htokens
        have hgaps := h first content after htail hmarked
        rwa [List.append_assoc] at hgaps

theorem distinctFrom_literal {x : Chars} (y : Chars) :
    DistinctFrom marked before (.literal x :: tokens) ↔
      (x.any marked = true → x ∉ gaps before) ∧
        DistinctFrom marked (before ++ [.literal y]) tokens := by
  have hgaps : ∀ first, gaps (before ++ [.literal y] ++ first) =
      gaps (before ++ .literal x :: first) := by
    intro first
    rw [List.append_assoc]
    exact gaps_append_literal before y x first
  constructor
  · intro h
    refine ⟨fun hmarked => by simpa using h [] x tokens rfl hmarked, ?_⟩
    intro first content after htokens hmarked
    rw [hgaps]
    exact h (.literal x :: first) content after (congrArg (.literal x :: ·) htokens) hmarked
  · rintro ⟨hx, h⟩ first content after htokens hmarked
    cases first with
    | nil =>
        obtain ⟨hliteral, -⟩ := List.cons.inj htokens
        cases hliteral
        simpa using hx hmarked
    | cons token first =>
        obtain ⟨rfl, htail⟩ := List.cons.inj htokens
        have hcontent := h first content after htail hmarked
        rwa [hgaps] at hcontent

/-- The literals are checked from left to right. -/
def distinctCheck (marked : Char → Bool) (before : List Token) : List Token → Bool
  | [] => true
  | .char c :: rest => distinctCheck marked (before ++ [.char c]) rest
  | .literal x :: rest =>
      (!x.any marked || decide (x ∉ gaps before)) &&
        distinctCheck marked (before ++ [.literal x]) rest

theorem distinctCheck_iff :
    distinctCheck marked before tokens = true ↔ DistinctFrom marked before tokens := by
  induction tokens generalizing before with
  | nil =>
      refine iff_of_true rfl fun first content after hnil => ?_
      simp at hnil
  | cons token tokens ih =>
      cases token with
      | char c => rw [distinctFrom_char, ← ih, distinctCheck]
      | literal x =>
          rw [distinctFrom_literal x, ← ih, distinctCheck]
          cases x.any marked <;> simp

instance : Decidable (Distinct marked tokens) :=
  decidable_of_iff (distinctCheck marked [] tokens = true) distinctCheck_iff

end DistinctFrom

/-- The exchange from some literal on, when the ones before are exchanged. -/
theorem exchange_from {sign : Char} (hph : IsPlaceholder marked sign placeholder)
    {before tokens : List Token} (hbefore : ∀ token ∈ before, token.Valid ∧ token.Plain marked)
    (htokens : ∀ token ∈ tokens, token.Valid) (hsign : ∀ x ∈ specials marked tokens, sign ∉ x)
    (k : ℕ) :
    (DistinctFrom marked before tokens →
      exchange placeholder k (specials marked tokens) (render before ++ render tokens) =
        render (before ++ number marked placeholder k tokens)) ∧
    (¬DistinctFrom marked before tokens →
      Astray sign (exchange placeholder k (specials marked tokens)
        (render before ++ render tokens)) (before ++ number marked placeholder k tokens)) := by
  induction tokens generalizing before k with
  | nil =>
      refine ⟨fun _ => by simp [specials, literals, number, exchange], fun h => absurd ?_ h⟩
      intro first content after hnil
      simp at hnil
  | cons token tokens ih =>
      have htokens' := fun other hother => htokens other (List.mem_cons_of_mem token hother)
      have hnext : ∀ next : Token, next.Valid ∧ next.Plain marked →
          ∀ other ∈ before ++ [next], other.Valid ∧ other.Plain marked := by
        simp only [List.mem_append, List.mem_singleton]
        rintro next hvalid other (hother | rfl)
        · exact hbefore other hother
        · exact hvalid
      cases token with
      | char c =>
          have hc := htokens (.char c) List.mem_cons_self
          have hrest := ih (hnext (.char c) ⟨hc, trivial⟩) htokens' hsign k
          rw [distinctFrom_char]
          simpa using hrest
      | literal x =>
          have hx : Content x := htokens (.literal x) List.mem_cons_self
          rcases Bool.eq_false_or_eq_true (x.any marked) with hmarked | hmarked
          · have hx' := hsign x (by rw [specials_marked hmarked]; exact List.mem_cons_self)
            have hothers : ∀ y ∈ specials marked tokens, sign ∉ y := fun y hy =>
              hsign y (by rw [specials_marked hmarked]; exact List.mem_cons_of_mem x hy)
            have hrest := ih (hnext (.literal (placeholder k)) ⟨hph.content k, hph.plain k⟩)
              htokens' hothers (k + 1)
            rw [distinctFrom_literal (placeholder k), specials_marked hmarked,
              number_marked hmarked, render_literal, exchange, ← List.append_assoc]
            by_cases hgap : x ∈ gaps before
            · refine ⟨fun h => absurd hgap (h.1 hmarked), fun _ => ?_⟩
              -- the text goes astray here and stays so
              obtain ⟨content, hcontent⟩ := hph.begins k
              have htext : render before ++ quote x ++ render tokens =
                  render before ++ '"' :: (x ++ '"' :: render tokens) := by
                simp [quote]
              have hgoal : ∀ token ∈ before ++ .literal (placeholder k) ::
                  number marked placeholder (k + 1) tokens, token.Valid ∧ token.Plain marked := by
                have hnumber := number_valid hph htokens k
                rw [number_marked hmarked] at hnumber
                exact List.forall_mem_append.mpr ⟨hbefore, hnumber⟩
              have hastray := Astray.of_gap hx hmarked hx' hbefore hgap content
                (x ++ '"' :: render tokens)
                (.literal (placeholder k) :: number marked placeholder (k + 1) tokens)
              rw [← hcontent, ← htext] at hastray
              have hspecials : ∀ y ∈ specials marked tokens,
                  Content y ∧ y.any marked = true ∧ sign ∉ y := fun y hy =>
                ⟨content_of_mem_literals htokens' (List.mem_of_mem_filter hy),
                  (List.mem_filter.mp hy).2, hothers y hy⟩
              exact hastray.exchange hph hgoal hspecials (k + 1)
            · have hstep := replaceFirst_render hx hmarked
                (fun token htoken => (hbefore token htoken).1)
                (fun token htoken => (hbefore token htoken).2) hgap (quote (placeholder k))
                (render tokens)
              rw [hstep, and_iff_right fun _ => hgap]
              simpa using hrest
          · have hrest := ih (hnext (.literal x) ⟨hx, hmarked⟩) htokens'
              (by rwa [specials_plain hmarked] at hsign) k
            have hself : x.any marked = true → x ∉ gaps before := by
              rw [hmarked]
              exact fun h => absurd h Bool.false_ne_true
            rw [distinctFrom_literal x, and_iff_right hself, specials_plain hmarked,
              number_plain hmarked]
            simpa using hrest

section Exchange

variable {sign : Char} {tokens : List Token}

/-- A marked literal that reads like a gap before it leads the exchange astray. -/
theorem exchange_astray (hph : IsPlaceholder marked sign placeholder)
    (hvalid : ∀ token ∈ tokens, token.Valid) (hsign : ∀ x ∈ specials marked tokens, sign ∉ x)
    (k : ℕ) (h : ¬Distinct marked tokens) :
    Astray sign (exchange placeholder k (specials marked tokens) (render tokens))
      (number marked placeholder k tokens) :=
  (exchange_from hph (List.forall_mem_nil _) hvalid hsign k).2 h

/-- The exchange gives the text with the placeholders in place of the marked literals if and only
if no marked literal reads like a gap between two literals before it. -/
theorem exchange_eq_iff (hph : IsPlaceholder marked sign placeholder)
    (hvalid : ∀ token ∈ tokens, token.Valid) (hsign : ∀ x ∈ specials marked tokens, sign ∉ x)
    (k : ℕ) :
    exchange placeholder k (specials marked tokens) (render tokens) =
      render (number marked placeholder k tokens) ↔ Distinct marked tokens := by
  refine ⟨fun heq => ?_, (exchange_from hph (List.forall_mem_nil _) hvalid hsign k).1⟩
  by_contra hdistinct
  exact (exchange_astray hph hvalid hsign k hdistinct).ne heq

end Exchange

end Placeholders

end GnuRQi.Text
