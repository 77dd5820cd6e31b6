import GnuRQi.Renv.JsonValues

/-!
# Reading along the grammar of JSON

One lemma for each form of a value, an element and a member, and the induction on the grammar that
puts them together. `ReadsValue` holds for all parsers that wait for an operand, `ReadsArgs` for
those within a call.
-/

namespace GnuRQi.Renv

open R Text

/-- An operand may begin. -/
def Awaits (p : Parser) : Prop := p.operand = none ∧ p.slot.minus = 0

/-- The expression stands where `p` waited for one. -/
def Holds (p q : Parser) (e : Lang) : Prop :=
  q.calls = p.calls ∧ q.done = p.done ∧ q.slot.name = p.slot.name ∧
    ∃ operand, q.operand = some operand ∧ q.slot.close operand = e

/-- Reading the tokens gives an expression that has the value, unless it is `nameless`: it has a
member with an empty name. -/
def ReadsValue (tokens : List Token) (value : Value) (nameless : Bool) : Prop :=
  ∀ (k : ℕ) (r : Reader) (p : Parser), r.Ends p → r.lexeme.Fresh → Awaits p →
    Reaches k r tokens nameless fun next => ∃ q e, next.Ends q ∧ next.lexeme.Loose ∧ Holds p q e ∧
      ∀ map, IsMap map → Covers map k tokens → Evaluates map e value

/-- Reading the tokens gives one argument of a call. -/
def ReadsArg (tokens : List Token) (item : Chars × Value) (nameless : Bool) : Prop :=
  ∀ (k : ℕ) (r : Reader) (p : Parser), r.Ends p → r.lexeme.Fresh → p.calls ≠ [] → p.slot = {} →
    p.operand = none →
    Reaches k r tokens nameless fun next => ∃ q operand, next.Ends q ∧ next.lexeme.Loose ∧
      q.calls = p.calls ∧ q.done = p.done ∧ q.operand = some operand ∧
      ∀ map, IsMap map → Covers map k tokens → MeansArg map k tokens (q.slot.arg operand) item

/-- Reading the tokens gives the arguments of a call up to its closing parenthesis. -/
def ReadsArgs (tokens : List Token) (items : List (Chars × Value)) (nameless : Bool) : Prop :=
  ∀ (k : ℕ) (r : Reader) (p : Parser) (call : OpenCall) (calls : List OpenCall), r.Ends p →
    r.lexeme.Fresh → p.calls = call :: calls → p.slot = {} → p.operand = none →
    Reaches k r tokens nameless fun next => ∃ q args, next.Ends q ∧ next.lexeme.Loose ∧
      q.step .rparen = .ok { p with
        calls := calls
        slot := call.slot
        operand := some (.call call.fn (call.args ++ args)) } ∧
      ∀ map, IsMap map → Covers map k tokens → MeansArgs map k tokens args items

/-! ## Values without parts -/

theorem slot_close_of_minus {slot : Slot} (h : slot.minus = 0) (operand : Lang) :
    slot.close operand = operand := by
  rw [Slot.close, h]
  rfl

theorem Awaits.holds {p : Parser} (h : Awaits p) (operand : Lang) :
    Holds p { p with operand := some operand } operand :=
  ⟨rfl, rfl, rfl, operand, rfl, slot_close_of_minus h.2 operand⟩

/-- `true`, `false` and `null` are symbols of R. -/
theorem readsValue_word {c : Char} {rest : Chars} {value : Value} (hc : c.isAlphanum = true)
    (hdigit : c.isDigit = false) (hrest : ∀ d ∈ rest, d.isAlphanum = true)
    (hplain : ∀ d ∈ c :: rest, marked d = false) (hreserved : c :: rest ∉ reserved)
    (hvalue : ∀ map, Evaluates map (.sym (c :: rest)) value) :
    ReadsValue (chars (c :: rest)) value false := by
  intro k r p hends hfresh hp
  refine reaches_chars hplain (Reader.read_symbol hends hfresh hc hdigit hrest) ?_
  refine ⟨{ p with operand := some (.sym (c :: rest)) }, .sym (c :: rest), ?_, trivial,
    hp.holds _, fun map _ _ => hvalue map⟩
  simp [Reader.Ends, Reader.settle, Lexeme.finish, hreserved, Parser.step, Parser.push, hp.1, bind,
    Except.bind, pure, Except.pure]

/-- A number has digits, a point, and an exponent with its sign. -/
theorem mem_text {d : Decimal} {c : Char} (h : c ∈ d.text) :
    c.isDigit = true ∨ c ∈ ['.', 'e', 'E', '+', '-'] := by
  simp only [Decimal.text, List.mem_append] at h
  rcases h with h | h | h
  · exact Or.inl (d.int.isDigit c h)
  · cases hfrac : d.frac with
    | none => simp [Decimal.fracText, hfrac] at h
    | some digits =>
        simp only [Decimal.fracText, hfrac, Option.map_some, Option.getD_some, List.mem_cons] at h
        rcases h with rfl | h
        · exact Or.inr (by simp)
        · exact Or.inl (digits.isDigit c h)
  · cases hexp : d.exp with
    | none => simp [Decimal.expText, hexp] at h
    | some e =>
        simp only [Decimal.expText, hexp, Option.map_some, Option.getD_some, Exponent.text,
          List.mem_cons, List.mem_append, Option.mem_toList] at h
        rcases h with rfl | h | h
        · rcases e.letter_eq with h | h <;> exact Or.inr (by simp [h])
        · rcases e.sign_eq c h with rfl | rfl <;> exact Or.inr (by simp)
        · exact Or.inl (e.digits.isDigit c h)

theorem unmarked_text (d : Decimal) : ∀ c ∈ d.text, marked c = false := by
  have hdigit : ∀ c : Char, c.isDigit = true → marked c = false := by
    intro c hc
    have hne : ∀ x : Char, x.isDigit = false → c ≠ x := by
      rintro x hx rfl
      rw [hc] at hx
      cases hx
    simp [marked, hne '[' rfl, hne ']' rfl, hne '{' rfl, hne '}' rfl, hne ':' rfl]
  intro c hc
  rcases mem_text hc with hc | hc
  · exact hdigit c hc
  · simp only [List.mem_cons, List.not_mem_nil, or_false] at hc
    rcases hc with rfl | rfl | rfl | rfl | rfl <;> decide

/-- The number at the end of what is read. -/
theorem ends_number (d : Decimal) {p : Parser} (hp : p.operand = none) :
    Reader.Ends ⟨.number d.text, p⟩ { p with operand := some (.num d.value) } := by
  simp [Reader.Ends, Reader.settle, Lexeme.finish, d.numericValue_text, Parser.step, Parser.push,
    hp, bind, Except.bind, pure, Except.pure]

theorem readsValue_number (d : Decimal) : ReadsValue (chars d.text) (.num d.value) false := by
  intro k r p hends hfresh hp
  refine reaches_chars (unmarked_text d) (d.read_text hends hfresh) ?_
  exact ⟨_, .num d.value, ends_number d hp.1, trivial, hp.holds _,
    fun _ _ _ => ⟨.num d.value, rfl, rfl⟩⟩

theorem readsValue_negative (d : Decimal) :
    ReadsValue (chars ('-' :: d.text)) (.num (-d.value)) false := by
  intro k r p hends hfresh hp
  have hplain : ∀ c ∈ '-' :: d.text, marked c = false := by
    simp only [List.mem_cons]
    rintro c (rfl | hc)
    · rfl
    · exact unmarked_text d c hc
  let q : Parser := { p with slot := { p.slot with minus := 1 } }
  have hdash : Reader.step ⟨.none, p⟩ '-' = .ok ⟨.dash, p⟩ := rfl
  have hq : Reader.Ends ⟨.dash, p⟩ q := by
    simp [Reader.Ends, Reader.settle, Lexeme.finish, Parser.step, hp.1, hp.2, q, bind, Except.bind,
      pure, Except.pure]
  have hread : r.read ('-' :: d.text) = .ok ⟨.number d.text, q⟩ := by
    rw [Reader.read_cons_of_ends hends (hfresh.breaks (by decide) (by decide)),
      Reader.read_cons hdash]
    exact d.read_text hq trivial
  refine reaches_chars hplain hread ?_
  refine ⟨_, .call "-".toList [([], .num d.value)], ends_number d hp.1, trivial,
    ⟨rfl, rfl, rfl, .num d.value, rfl, rfl⟩, fun _ _ _ => ?_⟩
  exact ⟨.call "-".toList [([], .num d.value)], by simp [remap, remapArgs, bind, Except.bind, pure,
    Except.pure], rfl⟩

theorem readsValue_string {content value : Chars} (h : StringOf content value) :
    ReadsValue [.literal content] (.character [value]) false := by
  intro k r p hends hfresh hp
  refine reaches_literal h hends hfresh hp.1 ?_
  refine ⟨_, .str (label k content value), Reader.ends_none _, trivial, hp.holds _, ?_⟩
  intro map hmap hcovers
  refine ⟨.str value, ?_, rfl⟩
  rw [remap, lookup_label hmap hcovers h]

/-- `{}` without anything between the braces. -/
theorem readsValue_emptyObject :
    ReadsValue [.char '{', .char '}'] (.namedList []) false := by
  intro k r p hends hfresh hp
  obtain ⟨hoperand, hminus⟩ := hp
  let e : Lang := .call "names<-".toList
    [([], .call "list".toList []), ([], .call "character".toList [])]
  have hread : r.read emptyObject = .ok ⟨.none, { p with operand := some e }⟩ := by
    obtain ⟨calls, slot, operand, done⟩ := p
    cases hoperand
    show r.read ('\x60' :: "names<-\x60(list(), character())".toList) = _
    rw [Reader.read_cons_of_ends hends (hfresh.breaks (by decide) (by decide))]
    rfl
  have hholds : Holds p { p with operand := some e } e := Awaits.holds ⟨hoperand, hminus⟩ e
  have hevaluates : ∀ map, Evaluates map e (.namedList []) := fun map =>
    ⟨e, by simp [e, remap, remapArgs, bind, Except.bind, pure, Except.pure], rfl⟩
  unfold Reaches
  refine ⟨⟨.none, { p with operand := some e }⟩, ⟨_, e, Reader.ends_none _, trivial, hholds,
    fun map _ _ => hevaluates map⟩, fun rest => ?_⟩
  show r.read (transform ('{' :: '}' :: rest)) = _
  rw [transform_empty, Reader.read_append, hread]
  rfl

/-! ## Where a value begins -/

/-- The text of the tokens begins with a character that begins a token and is no equals sign. -/
def Begins (tokens : List Token) : Prop :=
  ∀ (k : ℕ) (rest : Chars), ∃ c pair text, c ≠ '=' ∧ Lexeme.start c = .ok pair ∧
    transform (render (number marked placeholder k tokens) ++ rest) = c :: text

namespace Begins

theorem append {tokens : List Token} (h : Begins tokens) (after : List Token) :
    Begins (tokens ++ after) := by
  intro k rest
  rw [number_append, render_append, List.append_assoc]
  exact h k _

/-- A character that stays as it is. -/
theorem char {c : Char} (hplain : marked c = false) (hc : c ≠ '=')
    (hstart : ∃ pair, Lexeme.start c = .ok pair) (tokens : List Token) :
    Begins (.char c :: tokens) := by
  intro k rest
  obtain ⟨pair, hpair⟩ := hstart
  have hbrace : c ≠ '{' := by
    rintro rfl
    cases hplain
  refine ⟨c, pair, transform (render (number marked placeholder k tokens) ++ rest), hc, hpair, ?_⟩
  rw [number_char, render_char, List.cons_append, transform_cons fun h => absurd h hbrace,
    translate_of_unmarked hplain]
  rfl

theorem of_blank_append {blank tokens : List Token} (hblank : Blank blank) (h : Begins tokens) :
    Begins (blank ++ tokens) := by
  cases blank with
  | nil => exact h
  | cons token blank =>
      obtain ⟨c, hc, rfl⟩ := hblank.exists_char List.mem_cons_self
      simp only [List.mem_cons, List.not_mem_nil, or_false] at hc
      rcases hc with rfl | rfl | rfl
      · exact char rfl (by decide) ⟨_, rfl⟩ _
      · exact char rfl (by decide) ⟨_, rfl⟩ _
      · exact char rfl (by decide) ⟨_, rfl⟩ _

theorem text (d : Decimal) : Begins (chars d.text) := by
  obtain ⟨c, rest, hint⟩ := List.exists_cons_of_ne_nil d.int.ne_nil
  have hdigit : c.isDigit = true := d.int.isDigit c (by simp [hint])
  have htext : d.text = c :: (rest ++ (d.fracText ++ d.expText)) := by
    rw [Decimal.text, hint]
    rfl
  have hc : c ≠ '=' := by
    rintro rfl
    cases hdigit
  have hplain : marked c = false := unmarked_text d c (by simp [htext])
  rw [htext]
  exact char hplain hc ⟨_, Reader.start_of_isAlphanum (by simp [Char.isAlphanum, hdigit])⟩ _

theorem literal (content : Chars) : Begins [.literal content] := by
  intro k rest
  have hquote : ∀ content : Chars, transform (quote content ++ rest) =
      '"' :: transform (content ++ '"' :: rest) := by
    intro content
    have hsplit : quote content ++ rest = '"' :: (content ++ '"' :: rest) := by simp [quote]
    rw [hsplit, transform_cons fun h => absurd h (by decide)]
    rfl
  rcases Bool.eq_false_or_eq_true (content.any marked) with hmarked | hmarked
  · rw [number_marked hmarked, render_literal, List.append_assoc]
    exact ⟨'"', _, _, by decide, rfl, hquote _⟩
  · rw [number_plain hmarked, render_literal, List.append_assoc]
    exact ⟨'"', _, _, by decide, rfl, hquote _⟩

/-- Brackets and braces begin a call. -/
theorem opening {c : Char} (hc : c = '[' ∨ c = '{') (tokens : List Token) :
    Begins (.char c :: tokens) := by
  intro k rest
  rw [number_char, render_char, List.cons_append]
  by_cases hempty : c = '{' ∧ ∃ text, render (number marked placeholder k tokens) ++ rest =
      '}' :: text
  · obtain ⟨rfl, text, htext⟩ := hempty
    rw [htext, transform_empty]
    exact ⟨'\x60', _, _, by decide, rfl, rfl⟩
  · have hhead : c = '{' →
        (render (number marked placeholder k tokens) ++ rest).head? ≠ some '}' := by
      rintro rfl hbrace
      obtain ⟨text, htext⟩ := List.head?_eq_some_iff.mp hbrace
      exact hempty ⟨rfl, text, htext⟩
    have hlist : translate c = "list(".toList := by
      rcases hc with rfl | rfl <;> rfl
    rw [transform_cons hhead, hlist]
    exact ⟨'l', _, _, by decide, rfl, rfl⟩

end Begins

theorem begins_of_means {tokens : List Token} {value : Value} (h : Means tokens value) :
    Begins tokens := by
  cases h with
  | null => exact .char rfl (by decide) ⟨_, rfl⟩ _
  | true => exact .char rfl (by decide) ⟨_, rfl⟩ _
  | false => exact .char rfl (by decide) ⟨_, rfl⟩ _
  | number d => exact .text d
  | negative d => exact .char rfl (by decide) ⟨_, rfl⟩ _
  | string h => exact .literal _
  | emptyArray hblank => exact .opening (Or.inl rfl) _
  | array h => exact .opening (Or.inl rfl) _
  | emptyObject hblank => exact .opening (Or.inr rfl) _
  | object h => exact .opening (Or.inr rfl) _

/-! ## Lists -/

section Lists

variable {k : ℕ} {r : Reader} {p : Parser}

/-- The parser within a call of `list` that begins where `p` waits. -/
def opened (p : Parser) : Parser :=
  { p with calls := ⟨p.slot, "list".toList, []⟩ :: p.calls, slot := {}, operand := none }

/-- A bracket or a brace opens a call of `list`. -/
theorem read_open (hends : r.Ends p) (hfresh : r.lexeme.Fresh) (hp : p.operand = none) :
    r.read "list(".toList = .ok ⟨.none, opened p⟩ := by
  obtain ⟨calls, slot, operand, done⟩ := p
  cases hp
  show r.read ('l' :: "ist(".toList) = _
  rw [Reader.read_cons_of_ends hends (hfresh.breaks (by decide) (by decide))]
  rfl

/-- Within a call line breaks do nothing. -/
theorem step_newline {p : Parser} (hp : p.calls ≠ [] ∨ p.operand = none) :
    p.step .newline = .ok p := by
  obtain ⟨calls, slot, operand, done⟩ := p
  cases calls with
  | nil =>
      obtain rfl : operand = none := by simpa using hp
      rfl
  | cons call calls => rfl

theorem reaches_blank_fresh {blank : List Token} (hblank : Blank blank)
    (hp : p.calls ≠ [] ∨ p.operand = none) (hends : r.Ends p) (hfresh : r.lexeme.Fresh) :
    Reaches k r blank false fun next => next.Ends p ∧ next.lexeme.Fresh := by
  have hline : ∀ q, q = p → ∃ q', q.step .newline = .ok q' ∧ q' = p := by
    rintro q rfl
    exact ⟨q, step_newline hp, rfl⟩
  refine (reaches_blank hblank trivial (fun _ h _ => h.breaks_blank) hline hends rfl hfresh).mono ?_
  rintro next ⟨q, hq, rfl, hnext⟩
  exact ⟨hq, hnext⟩

theorem reaches_blank_loose {blank : List Token} (hblank : Blank blank)
    (hp : p.calls ≠ [] ∨ p.operand = none) (hends : r.Ends p) (hloose : r.lexeme.Loose) :
    Reaches k r blank false fun next => next.Ends p ∧ next.lexeme.Loose := by
  have hline : ∀ q, q = p → ∃ q', q.step .newline = .ok q' ∧ q' = p := by
    rintro q rfl
    exact ⟨q, step_newline hp, rfl⟩
  refine (reaches_blank hblank trivial (fun _ h _ => h.breaks_blank) hline hends rfl hloose).mono ?_
  rintro next ⟨q, hq, rfl, hnext⟩
  exact ⟨hq, hnext⟩

theorem specials_blank {blank : List Token} (hblank : Blank blank) :
    specials marked blank = [] := by
  induction blank with
  | nil => rfl
  | cons token blank ih =>
      obtain ⟨c, -, rfl⟩ := hblank.exists_char List.mem_cons_self
      exact ih fun other hother => hblank other (List.mem_cons_of_mem _ hother)

theorem Covers.of_blank {map : List (Chars × Chars)} {blank tokens : List Token}
    (hblank : Blank blank) (h : Covers map k (blank ++ tokens)) : Covers map k tokens := by
  have hright := h.right
  rwa [specials_blank hblank] at hright

theorem placeholders_blank {blank : List Token} (hblank : Blank blank) (tokens : List Token) :
    placeholders k (blank ++ tokens) = placeholders k tokens ∧
      placeholders k (tokens ++ blank) = placeholders k tokens := by
  have hnone : ∀ k, placeholders k blank = [] := by
    intro k
    rw [placeholders, specials_blank hblank]
    rfl
  rw [placeholders_append, placeholders_append, hnone, hnone, specials_blank hblank]
  exact ⟨rfl, List.append_nil _⟩

/-- An element of an array. -/
theorem readsArg_element {before tokens after : List Token} {value : Value} {nameless : Bool}
    (hbefore : Blank before) (h : ReadsValue tokens value nameless) (hafter : Blank after) :
    ReadsArg (before ++ (tokens ++ after)) ([], value) nameless := by
  intro k r p hends hfresh hcalls hslot hoperand
  refine (reaches_blank_fresh hbefore (Or.inl hcalls) hends hfresh).append ?_
  rintro next ⟨hnext, hnextFresh⟩
  rw [specials_blank hbefore]
  refine (h _ next p hnext hnextFresh ⟨hoperand, by rw [hslot]⟩).append_named ?_
  rintro last ⟨q, e, hlast, hloose, ⟨hqcalls, hqdone, hqname, operand, hqoperand, hclose⟩, heval⟩
  refine (reaches_blank_loose hafter (Or.inl (hqcalls ▸ hcalls)) hlast hloose).mono ?_
  rintro final ⟨hfinal, hfinalLoose⟩
  refine ⟨q, operand, hfinal, hfinalLoose, hqcalls, hqdone, hqoperand, fun map hmap hcovers => ?_⟩
  have hempty : map.lookup [] = none := hmap.lookup_eq_none (by simp)
  have hname : q.slot.name.getD [] = [] := by
    rw [hqname, hslot]
    rfl
  rw [Slot.arg, hname, hclose]
  refine ⟨?_, ?_, heval map hmap (Covers.of_blank hbefore hcovers).left⟩
  · rw [hempty]
    rfl
  · rw [List.filter_cons_of_neg (by simpa using lookup_eq_none_iff.mp hempty)]
    exact List.nil_sublist _

/-- A colon makes the string before it the name of an argument. -/
theorem read_colon {name : Chars} (hends : r.Ends { p with operand := some (.str name) })
    (hloose : r.lexeme.Loose) :
    r.read (translate ':') = .ok ⟨.equals, { p with operand := some (.str name) }⟩ := by
  have hdelimiter : Lexeme.IsDelimiter '=' := by simp [Lexeme.IsDelimiter]
  show r.read ['='] = _
  rw [Reader.read_cons_of_ends hends (hloose.breaks hdelimiter)]
  rfl

theorem ends_equals {name : Chars} (hcalls : p.calls ≠ []) (hslot : p.slot = {})
    (hname : name ≠ []) :
    Reader.Ends ⟨.equals, { p with operand := some (.str name) }⟩
      { p with slot := { name := some name }, operand := none } := by
  simp [Reader.Ends, Reader.settle, Lexeme.finish, Parser.step, Parser.setName, hcalls, hslot,
    hname, bind, Except.bind, pure, Except.pure]

/-- Without a name before it the colon is an error, where the value after it begins. -/
theorem reaches_nameless {tokens : List Token} {P : Reader → Prop} (hbegins : Begins tokens)
    (hcalls : p.calls ≠ []) (hslot : p.slot = {}) :
    Reaches k ⟨.equals, { p with operand := some (.str []) }⟩ tokens true P := by
  unfold Reaches
  rw [Bool.or_true, if_pos rfl]
  refine ⟨"attempt to use zero-length variable name", fun rest => ?_⟩
  obtain ⟨c, pair, text, hc, hstart, htext⟩ := hbegins k rest
  have hstep : Reader.step ⟨.equals, { p with operand := some (.str []) }⟩ c =
      .error (.error "attempt to use zero-length variable name") := by
    simp [Reader.step, Lexeme.step, Lexeme.restart, Lexeme.finish, hc, hstart, Parser.step,
      Parser.setName, hcalls, hslot, bind, Except.bind, pure, Except.pure]
  rw [htext, Reader.read, List.foldlM_cons, hstep]
  rfl

theorem label_ne_nil {content name : Chars} (hne : name ≠ []) : label k content name ≠ [] := by
  rw [label]
  split_ifs
  · exact List.cons_ne_nil _ _
  · exact hne

/-- A member of an object. -/
theorem readsArg_member {before colon space tokens after : List Token} {content name : Chars}
    {value : Value} {nameless : Bool} (hbefore : Blank before) (hname : StringOf content name)
    (hcolon : Blank colon) (hspace : Blank space) (hbegins : Begins tokens)
    (h : ReadsValue tokens value nameless) (hafter : Blank after) :
    ReadsArg (before ++ .literal content :: (colon ++ .char ':' :: (space ++ (tokens ++ after))))
      (name, value) (name.isEmpty || nameless) := by
  intro k r p hends hfresh hcalls hslot hoperand
  -- The parts of the member in their order, with the parser after each of them.
  refine (reaches_blank_fresh hbefore (Or.inl hcalls) hends hfresh).append ?_
  rintro next ⟨hnext, hnextFresh⟩
  rw [specials_blank hbefore]
  show Reaches k next ([.literal content] ++
    (colon ++ .char ':' :: (space ++ (tokens ++ after)))) _ _
  let q : Parser := { p with operand := some (.str (label k content name)) }
  refine (reaches_literal (P := (· = ⟨.none, q⟩)) hname hnext hnextFresh hoperand rfl).append ?_
  rintro _ rfl
  refine (reaches_blank_loose (p := q) (r := ⟨.none, q⟩) hcolon (Or.inl hcalls)
    (Reader.ends_none q) trivial).append ?_
  rintro named ⟨hnamed, hnamedLoose⟩
  rw [specials_blank hcolon]
  refine Reaches.translate ?_ (by decide) (read_colon hnamed hnamedLoose)
  by_cases hne : name = []
  · obtain rfl : content = [] := hname.eq_nil_iff.mp hne
    subst hne
    exact reaches_nameless ((hbegins.append after).of_blank_append hspace) hcalls hslot
  have hnonempty : name.isEmpty = false := by simpa using hne
  rw [hnonempty, Bool.false_or]
  have hlabel : label k content name ≠ [] := label_ne_nil hne
  have hends' := ends_equals hcalls hslot hlabel
  refine (reaches_blank_fresh hspace (Or.inr rfl) hends' trivial).append ?_
  rintro start ⟨hstart, hstartFresh⟩
  rw [specials_blank hspace]
  refine (h _ start _ hstart hstartFresh ⟨rfl, rfl⟩).append_named ?_
  rintro last ⟨q, e, hlast, hloose, ⟨hqcalls, hqdone, hqname, operand, hqoperand, hclose⟩, heval⟩
  refine (reaches_blank_loose hafter (Or.inl (hqcalls ▸ hcalls)) hlast hloose).mono ?_
  rintro final ⟨hfinal, hfinalLoose⟩
  -- What is left is the meaning: the name is looked up, and the value keeps its own.
  refine ⟨q, operand, hfinal, hfinalLoose, hqcalls, hqdone, hqoperand, fun map hmap hcovers => ?_⟩
  have hrest : Covers map k ([.literal content] ++
      (colon ++ .char ':' :: (space ++ (tokens ++ after)))) := Covers.of_blank hbefore hcovers
  have hqname' : q.slot.name.getD [] = label k content name := by
    rw [hqname]
    rfl
  rw [Slot.arg, hqname', hclose]
  refine ⟨lookup_label hmap hrest.left hname, ?_, ?_⟩
  · rw [(placeholders_blank hbefore _).1]
    show List.Sublist _ (placeholders k ([.literal content] ++ (colon ++ _)))
    rw [placeholders_append]
    exact (filter_label hmap hname).trans (List.sublist_append_left _ _)
  · have hvalue := (Covers.of_blank hcolon hrest.right).of_char
    exact heval map hmap (Covers.of_blank hspace hvalue).left

/-- The last argument of a call. -/
theorem readsArgs_last {tokens : List Token} {item : Chars × Value} {nameless : Bool}
    (h : ReadsArg tokens item nameless) : ReadsArgs tokens [item] nameless := by
  intro k r p call calls hends hfresh hcalls hslot hoperand
  have hne : p.calls ≠ [] := by simp [hcalls]
  refine (h k r p hends hfresh hne hslot hoperand).mono ?_
  rintro next ⟨q, operand, hnext, hloose, hqcalls, hqdone, hqoperand, hmeans⟩
  refine ⟨q, [q.slot.arg operand], hnext, hloose, ?_, fun map hmap hcovers =>
    MeansArgs.single (hmeans map hmap hcovers)⟩
  simp [Parser.step, hqcalls, hcalls, hqoperand, hqdone]

/-- An argument of a call and the ones after it. -/
theorem readsArgs_cons {tokens rest : List Token} {item : Chars × Value}
    {items : List (Chars × Value)} {nameless later : Bool} (h : ReadsArg tokens item nameless)
    (hrest : ReadsArgs rest items later) :
    ReadsArgs (tokens ++ .char ',' :: rest) (item :: items) (nameless || later) := by
  intro k r p call calls hends hfresh hcalls hslot hoperand
  have hne : p.calls ≠ [] := by simp [hcalls]
  refine (h k r p hends hfresh hne hslot hoperand).append_or ?_
  rintro next ⟨q, operand, hnext, hloose, hqcalls, hqdone, hqoperand, hmeans⟩
  let after : Parser :=
    { q with
      calls := { call with args := call.args ++ [q.slot.arg operand] } :: calls
      slot := {}
      operand := none }
  have hcomma : q.step .comma = .ok after := by
    simp [Parser.step, hqcalls, hcalls, hqoperand, after]
  have hread : next.read (translate ',') = .ok ⟨.none, after⟩ :=
    Reader.read_delimiter hnext hloose (by simp [Lexeme.IsDelimiter]) rfl hcomma
  refine Reaches.translate ?_ (by decide) hread
  refine (hrest _ _ after _ calls (Reader.ends_none after) trivial rfl rfl rfl).mono ?_
  rintro last ⟨q', args, hlast, hlastLoose, hclose, hmeansRest⟩
  refine ⟨q', q.slot.arg operand :: args, hlast, hlastLoose, ?_, fun map hmap hcovers => ?_⟩
  · rw [hclose]
    simp [after, hqdone]
  · have hmeansRest' := hmeansRest map hmap hcovers.right.of_char
    exact MeansArgs.cons (hmeans map hmap hcovers.left) hmeansRest'.of_char

/-- A list in brackets or braces, by what is read between them. -/
theorem readsValue_brackets {opening closing : Char} {tokens : List Token} {value : Value}
    {nameless : Bool} (hopening : opening = '[' ∨ opening = '{')
    (hclosing : closing = ']' ∨ closing = '}')
    (hhead : opening = '{' → ∀ k rest, (render (number marked placeholder k tokens) ++ rest).head? ≠
      some '}')
    (h : ∀ k p, Awaits p → Reaches k ⟨.none, opened p⟩ tokens nameless fun next => ∃ e,
      next.read [')'] = .ok ⟨.none, { p with operand := some e }⟩ ∧
      ∀ map, IsMap map → Covers map k tokens → Evaluates map e value) :
    ReadsValue (.char opening :: (tokens ++ [.char closing])) value nameless := by
  intro k r p hends hfresh hp
  have hopen : r.read (translate opening) = .ok ⟨.none, opened p⟩ := by
    rcases hopening with rfl | rfl <;> exact read_open hends hfresh hp.1
  have htext : ∀ rest, transform (opening ::
      (render (number marked placeholder k (tokens ++ [.char closing])) ++ rest)) =
        translate opening ++
          transform (render (number marked placeholder k (tokens ++ [.char closing])) ++ rest) := by
    intro rest
    refine transform_cons fun hbrace => ?_
    rw [number_append, render_append, List.append_assoc]
    exact hhead hbrace k _
  refine Reaches.cons ?_ htext hopen
  refine (h k p hp).append_named ?_
  rintro next ⟨e, hread, hmeans⟩
  have hclose : closing ≠ '{' ∧ translate closing = [')'] := by
    rcases hclosing with rfl | rfl <;> exact ⟨by decide, rfl⟩
  refine Reaches.translate (reaches_nil ?_) hclose.1 (hclose.2 ▸ hread)
  exact ⟨_, e, Reader.ends_none _, trivial, hp.holds e, fun map hmap hcovers =>
    hmeans map hmap hcovers.of_char.left⟩

/-- A list with elements or members. -/
theorem readsValue_list {opening closing : Char} {tokens : List Token}
    {items : List (Chars × Value)} {nameless : Bool} (hopening : opening = '[' ∨ opening = '{')
    (hclosing : closing = ']' ∨ closing = '}')
    (hhead : opening = '{' → ∀ k rest, (render (number marked placeholder k tokens) ++ rest).head? ≠
      some '}') (h : ReadsArgs tokens items nameless) :
    ReadsValue (.char opening :: (tokens ++ [.char closing])) (listOf items) nameless := by
  refine readsValue_brackets hopening hclosing hhead fun k p hp => ?_
  refine (h k ⟨.none, opened p⟩ (opened p) _ _ (Reader.ends_none _) trivial rfl rfl rfl).mono ?_
  rintro next ⟨q, args, hnext, hloose, hclose, hmeans⟩
  have hdelimiter : Lexeme.IsDelimiter ')' := by simp [Lexeme.IsDelimiter]
  refine ⟨.call "list".toList args, Reader.read_delimiter hnext hloose hdelimiter rfl hclose, ?_⟩
  intro map hmap hcovers
  exact (hmeans map hmap hcovers).evaluates hmap hcovers.keys

/-- A list with nothing but blanks in it. -/
theorem readsValue_blank {opening closing : Char} {blank : List Token}
    (hopening : opening = '[' ∨ opening = '{') (hclosing : closing = ']' ∨ closing = '}')
    (hhead : opening = '{' → blank ≠ []) (hblank : Blank blank) :
    ReadsValue (.char opening :: (blank ++ [.char closing])) (.list []) false := by
  have hhead' : opening = '{' → ∀ k rest,
      (render (number marked placeholder k blank) ++ rest).head? ≠ some '}' := by
    intro hbrace k rest
    obtain ⟨token, tail, rfl⟩ := List.exists_cons_of_ne_nil (hhead hbrace)
    obtain ⟨c, hc, rfl⟩ := hblank.exists_char List.mem_cons_self
    have hne : c ≠ '}' := by
      rintro rfl
      simp at hc
    simpa using hne
  refine readsValue_brackets hopening hclosing hhead' fun k p _ => ?_
  refine (reaches_blank_fresh hblank (Or.inr rfl) (Reader.ends_none (opened p)) trivial).mono ?_
  rintro next ⟨hnext, hnextFresh⟩
  let e : Lang := .call "list".toList []
  refine ⟨e, ?_, fun map _ _ => ⟨e, by simp [e, remap, remapArgs, bind, Except.bind, pure,
    Except.pure], rfl⟩⟩
  rw [Reader.read_cons_of_ends hnext (hnextFresh.breaks (by decide) (by decide))]
  rfl

end Lists

end GnuRQi.Renv
