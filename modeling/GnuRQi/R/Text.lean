import GnuRQi.Text.Literals

/-!
# Text functions of R

`sub`, `gsub` and `sprintf` on the characters of a string.
-/

namespace GnuRQi.R

open Text (Chars)

/-- `sub(pattern, replacement, text, fixed = TRUE)`. -/
def sub (pattern replacement text : Chars) : Chars := Text.replaceFirst pattern replacement text

/-- `gsub(pattern, replacement, text, fixed = TRUE)`. -/
def gsub (pattern replacement : Chars) : Chars → Chars
  | [] => []
  | c :: rest =>
      if pattern.isPrefixOf (c :: rest) then
        replacement ++ gsub pattern replacement (rest.drop (pattern.length - 1))
      else c :: gsub pattern replacement rest
termination_by text => text.length
decreasing_by
  all_goals
    simp only [List.length_drop, List.length_cons]
    omega

/-- `gsub(pattern, replacement, text, perl = TRUE)` for a pattern that is a class of characters. -/
def gsubClass (members replacement text : Chars) : Chars :=
  text.flatMap fun c => if c ∈ members then replacement else [c]

/-- `sprintf("%i", n)`. -/
def formatInt (n : ℕ) : Chars := Nat.toDigits 10 n

theorem formatInt_injective : Function.Injective formatInt := by
  intro m n h
  have hvalue := congrArg (fun digits => Nat.ofDigitChars 10 digits 0) h
  simpa [formatInt] using hvalue

theorem isDigit_of_mem_formatInt {n : ℕ} {c : Char} (h : c ∈ formatInt n) : c.isDigit = true :=
  Nat.isDigit_of_mem_toDigits (by decide) (by decide) h

/-- `gsub` of a single character by another one. -/
theorem gsub_char (c d : Char) (text : Chars) :
    gsub [c] [d] text = text.map fun x => if x = c then d else x := by
  induction text with
  | nil => rw [gsub, List.map_nil]
  | cons x rest ih =>
      rw [gsub, List.map_cons, ← ih]
      by_cases h : x = c
      · subst h
        simp [List.isPrefixOf]
      · have hne : ([c].isPrefixOf (x :: rest)) = false := by
          simp [List.isPrefixOf, Ne.symm h]
        rw [hne, if_neg (by decide), if_neg h]

end GnuRQi.R
