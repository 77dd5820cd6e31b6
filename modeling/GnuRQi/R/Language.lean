import Mathlib.Algebra.Field.Rat
import Mathlib.Logic.Function.Iterate
import GnuRQi.R.Text

/-!
# Language objects of R, their parser and their values

The parser reads constants, symbols, unary minus and calls of named functions; everything else that
R accepts ends in `notModelled`. It goes through the text character by character: a `Lexeme` is the
token that is being read, and a `Parser` holds the calls that are still open.
-/

namespace GnuRQi.R

open Text (Chars)

/-- How parsing or evaluation fails: with an error of R, or at something the model leaves out. -/
inductive Failure where
  | error (message : String)
  | notModelled
  deriving DecidableEq

/-- A language object. An argument without a name has the name `""`. -/
inductive Lang where
  | str (value : Chars)
  | num (value : ℚ)
  | logical (value : Bool)
  | null
  | sym (name : Chars)
  | call (fn : Chars) (args : List (Chars × Lang))

/-- A value. A list either has no names or one for each element. -/
inductive Value where
  | null
  | logical (value : Bool)
  | num (value : ℚ)
  | character (values : List Chars)
  | list (elems : List Value)
  | namedList (items : List (Chars × Value))

/-! ## Tokens -/

/-- The tokens of the part of the language that is modelled. -/
inductive RToken where
  | str (value : Chars)
  | num (value : ℚ)
  | sym (name : Chars)
  | lparen
  | rparen
  | comma
  | eq
  | minus
  | newline

/-- The token that is being read, with its characters so far. -/
inductive Lexeme where
  | none
  | string (read : Chars)
  | escape (read : Chars)
  | unicode (read digits : Chars)
  | number (read : Chars)
  | symbol (read : Chars)
  | backquote (read : Chars)
  | equals
  | dash

/-- The character for the one after a backslash. -/
def escapeValue (c : Char) : Option Char :=
  match c with
  | 'a' => some '\x07'
  | 'b' => some '\x08'
  | 'f' => some '\x0c'
  | 'n' => some '\n'
  | 'r' => some '\r'
  | 't' => some '\t'
  | 'v' => some '\x0b'
  | '\\' | '"' | '\x27' | '\x60' | ' ' | '\n' => some c
  | _ => none

/-- The value of a hexadecimal digit. -/
def hexDigit (c : Char) : Option ℕ :=
  if c.isDigit then some (c.toNat - '0'.toNat)
  else if 'a' ≤ c ∧ c ≤ 'f' then some (c.toNat - 'a'.toNat + 10)
  else if 'A' ≤ c ∧ c ≤ 'F' then some (c.toNat - 'A'.toNat + 10)
  else none

/-- The number that hexadecimal digits stand for. -/
def hexValue (digits : Chars) : ℕ :=
  digits.foldl (fun value c => 16 * value + (hexDigit c).getD 0) 0

/-- The character with the code of an escape `\u`. -/
def unicodeValue (code : ℕ) : Except Failure Char :=
  if code = 0 then .error (.error "nul character not allowed")
  -- Such a code is half of a character.
  else if 0xd800 ≤ code ∧ code ≤ 0xdfff then .error .notModelled
  else .ok (Char.ofNat code)

/-- The part of a numeric constant after its decimal point, and what follows it. -/
def fraction : Chars → Chars × Chars
  | '.' :: rest => (rest.takeWhile Char.isDigit, rest.dropWhile Char.isDigit)
  | rest => ([], rest)

/-- The exponent at the end of a numeric constant. -/
def exponent : Chars → Option ℤ
  | [] => some 0
  | e :: rest =>
      let digits := match rest with
        | '+' :: digits | '-' :: digits => digits
        | digits => digits
      if (e = 'e' ∨ e = 'E') ∧ digits ≠ [] ∧ digits.all Char.isDigit then
        let value : ℤ := Nat.ofDigitChars 10 digits 0
        some (if rest.head? = some '-' then -value else value)
      else none

/-- The number of a numeric constant. -/
def numericValue (read : Chars) : Option ℚ :=
  let int := read.takeWhile Char.isDigit
  let (frac, rest) := fraction (read.dropWhile Char.isDigit)
  (exponent rest).map fun e =>
    Nat.ofDigitChars 10 (int ++ frac) 0 * (10 : ℚ) ^ (e - (frac.length : ℤ))

/-- Words that are no symbols. -/
def reserved : List Chars :=
  ["if", "else", "repeat", "while", "function", "for", "next", "break", "TRUE", "FALSE", "NULL",
    "Inf", "NaN", "NA", "NA_integer_", "NA_real_", "NA_complex_", "NA_character_", "in"].map
    String.toList

namespace Lexeme

/-- The tokens at the end of what is being read. -/
def finish : Lexeme → Except Failure (List RToken)
  | .none => .ok []
  | .number read =>
      match numericValue read with
      | some value => .ok [.num value]
      | Option.none => .error (.error "unexpected numeric constant")
  | .symbol read => if read ∈ reserved then .error .notModelled else .ok [.sym read]
  | .equals => .ok [.eq]
  | .dash => .ok [.minus]
  | .string _ | .escape _ | .unicode _ _ | .backquote _ =>
      .error (.error "unexpected INCOMPLETE_STRING")

/-- The first character of a token. -/
def start (c : Char) : Except Failure (Lexeme × List RToken) :=
  if c = ' ' ∨ c = '\t' then .ok (.none, [])
  else if c = '\n' then .ok (.none, [.newline])
  else if c = '(' then .ok (.none, [.lparen])
  else if c = ')' then .ok (.none, [.rparen])
  else if c = ',' then .ok (.none, [.comma])
  else if c = '=' then .ok (.equals, [])
  else if c = '-' then .ok (.dash, [])
  else if c = '"' then .ok (.string [], [])
  else if c = '\x60' then .ok (.backquote [], [])
  else if c.isDigit then .ok (.number [c], [])
  else if c.isAlpha then .ok (.symbol [c], [])
  else if c = '\x1a' then .error (.error "unexpected input")
  else .error .notModelled

/-- A token ends before the character. -/
def restart (lexeme : Lexeme) (c : Char) : Except Failure (Lexeme × List RToken) := do
  let tokens ← lexeme.finish
  let (next, more) ← start c
  return (next, tokens ++ more)

/-- The next character. -/
def step (lexeme : Lexeme) (c : Char) : Except Failure (Lexeme × List RToken) :=
  match lexeme with
  | .none => restart .none c
  | .string read =>
      if c = '"' then .ok (.none, [.str read])
      else if c = '\\' then .ok (.escape read, [])
      else .ok (.string (read ++ [c]), [])
  | .escape read =>
      match escapeValue c with
      | some value => .ok (.string (read ++ [value]), [])
      | Option.none =>
          if c = 'u' then .ok (.unicode read [], [])
          -- R has further numeric escapes.
          else if c.isDigit ∨ c = 'x' ∨ c = 'U' then .error .notModelled
          else .error (.error "unrecognized escape in character string")
  | .unicode read digits =>
      if (hexDigit c).isSome then
        if digits.length < 3 then .ok (.unicode read (digits ++ [c]), [])
        else (unicodeValue (hexValue (digits ++ [c]))).map fun value =>
          (.string (read ++ [value]), [])
      -- R takes fewer digits too, and digits between braces.
      else if digits ≠ [] ∨ c = '{' then .error .notModelled
      else .error (.error "\x27\\u\x27 used without hex digits in character string")
  | .number read =>
      -- A sign belongs to a number only directly after the mark of its exponent.
      if c.isDigit ∨ c = '.' ∨ c = 'e' ∨ c = 'E' ∨
          ((c = '+' ∨ c = '-') ∧ (read.getLast? = some 'e' ∨ read.getLast? = some 'E')) then
        .ok (.number (read ++ [c]), [])
      else if c.isAlpha then .error .notModelled
      else restart (.number read) c
  | .symbol read =>
      if c.isAlphanum ∨ c = '.' ∨ c = '_' then .ok (.symbol (read ++ [c]), [])
      -- This may be a raw string.
      else if c = '"' then .error .notModelled
      else restart (.symbol read) c
  | .backquote read =>
      if c = '\x60' then .ok (.none, [.sym read])
      else if c = '\\' then .error .notModelled
      else .ok (.backquote (read ++ [c]), [])
  | .equals => if c = '=' then .error .notModelled else restart .equals c
  | .dash => if c = '>' then .error .notModelled else restart .dash c

end Lexeme

/-! ## Expressions -/

/-- Where an expression is read: the name of the argument and the number of minus signs before. -/
structure Slot where
  name : Option Chars := none
  minus : ℕ := 0

/-- The expression with its minus signs. -/
def Slot.close (slot : Slot) (operand : Lang) : Lang :=
  (fun operand => Lang.call "-".toList [([], operand)])^[slot.minus] operand

/-- The argument for an expression. -/
def Slot.arg (slot : Slot) (operand : Lang) : Chars × Lang :=
  (slot.name.getD [], slot.close operand)

/-- A call with an open argument list: its place, the function and the arguments so far. -/
structure OpenCall where
  slot : Slot
  fn : Chars
  args : List (Chars × Lang)

/-- The open calls, innermost first, the place that is read, what stands there so far, and the
expressions that are finished. -/
structure Parser where
  calls : List OpenCall := []
  slot : Slot := {}
  operand : Option Lang := none
  done : List Lang := []

namespace Parser

/-- An operand at the place that is read. -/
def push (p : Parser) (operand : Lang) : Except Failure Parser :=
  match p.operand with
  | none => .ok { p with operand := some operand }
  | some _ => .error (.error "unexpected symbol")

/-- The name of an argument. -/
def setName (p : Parser) (name : Chars) : Except Failure Parser :=
  if p.calls = [] ∨ p.slot.name ≠ none ∨ p.slot.minus ≠ 0 then .error .notModelled
  else if name = [] then .error (.error "attempt to use zero-length variable name")
  else .ok { p with slot := { name := some name }, operand := none }

/-- The next token. A line break ends an expression at the top level only. -/
def step (p : Parser) : RToken → Except Failure Parser
  | .str value => p.push (.str value)
  | .num value => p.push (.num value)
  | .sym name => p.push (.sym name)
  | .minus =>
      match p.operand with
      | none => .ok { p with slot := { p.slot with minus := p.slot.minus + 1 } }
      | some _ => .error .notModelled
  | .eq =>
      match p.operand with
      | some (.str name) | some (.sym name) => p.setName name
      | _ => .error .notModelled
  | .lparen =>
      match p.operand with
      | some (.sym fn) =>
          .ok { p with calls := ⟨p.slot, fn, []⟩ :: p.calls, slot := {}, operand := none }
      | _ => .error .notModelled
  | .comma =>
      match p.calls, p.operand with
      | call :: calls, some operand =>
          .ok { p with
            calls := { call with args := call.args ++ [p.slot.arg operand] } :: calls
            slot := {}
            operand := none }
      | [], _ => .error (.error "unexpected ','")
      | _, none => .error .notModelled
  | .rparen =>
      match p.calls, p.operand with
      | call :: calls, some operand =>
          .ok { p with
            calls := calls
            slot := call.slot
            operand := some (.call call.fn (call.args ++ [p.slot.arg operand])) }
      | call :: calls, none =>
          if call.args = [] ∧ p.slot.name = none ∧ p.slot.minus = 0 then
            .ok { p with calls := calls, slot := call.slot, operand := some (.call call.fn []) }
          else .error .notModelled
      | [], _ => .error (.error "unexpected ')'")
  | .newline =>
      match p.calls, p.operand with
      | [], some operand => .ok { done := p.done ++ [p.slot.close operand] }
      | _, _ => .ok p

/-- The expressions at the end of the text. -/
def finish (p : Parser) : Except Failure (List Lang) :=
  match p.calls, p.operand with
  | [], some operand => .ok (p.done ++ [p.slot.close operand])
  | [], none => if p.slot.minus = 0 then .ok p.done else .error (.error "unexpected end of input")
  | _ :: _, _ => .error (.error "unexpected end of input")

end Parser

/-- The parser together with the token that is being read. -/
structure Reader where
  lexeme : Lexeme := .none
  parser : Parser := {}

namespace Reader

/-- The next character. -/
def step (r : Reader) (c : Char) : Except Failure Reader := do
  let (lexeme, tokens) ← r.lexeme.step c
  let parser ← tokens.foldlM Parser.step r.parser
  return { lexeme, parser }

/-- The parser when the token that is being read ends. -/
def settle (r : Reader) : Except Failure Parser := do
  let tokens ← r.lexeme.finish
  tokens.foldlM Parser.step r.parser

/-- The characters of a text, one after another. -/
def read (r : Reader) (text : Chars) : Except Failure Reader := text.foldlM step r

end Reader

/-- `parse(text = text)` for a single string. -/
def parse (text : Chars) : Except Failure (List Lang) := do
  let r ← Reader.read {} text
  let p ← r.settle
  p.finish

/-! ## Values -/

/-- `list(...)`, whose result has names if one of the arguments has one. -/
def listOf (args : List (Chars × Value)) : Value :=
  if ∀ arg ∈ args, arg.1 = [] then .list (args.map Prod.snd) else .namedList args

/-- Call of a function of the base package. -/
def applyFn (fn : Chars) (args : List (Chars × Value)) : Except Failure Value :=
  if fn = "list".toList then .ok (listOf args)
  else if fn = "character".toList ∧ args.length = 0 then .ok (.character [])
  else if fn = "names<-".toList then
    match args with
    | [([], .list elems), ([], .character names)] =>
        if names.length = elems.length then .ok (.namedList (names.zip elems))
        else .error .notModelled
    | _ => .error .notModelled
  else if fn = "-".toList then
    match args with
    | [([], .num x)] => .ok (.num (-x))
    | _ => .error .notModelled
  else .error .notModelled

namespace Value

/-- `length(x)`. -/
def length : Value → ℕ
  | .null => 0
  | .logical _ | .num _ => 1
  | .character values => values.length
  | .list elems => elems.length
  | .namedList items => items.length

/-- The elements that `lapply` and `vapply` go through. -/
def elements : Value → List Value
  | .null => []
  | .character values => values.map fun value => .character [value]
  | .list elems => elems
  | .namedList items => items.map Prod.snd
  | value => [value]

/-- `x$name` on a list with names: the first exact match, or else the only partial one. -/
def partialMatch (name : Chars) (items : List (Chars × Value)) : Value :=
  match items.lookup name with
  | some value => value
  | none =>
      match items.filter fun item => name.isPrefixOf item.1 with
      | [item] => item.2
      | _ => .null

/-- `x$name`. -/
def dollar (name : Chars) : Value → Except Failure Value
  | .null | .list _ => .ok .null
  | .namedList items => .ok (partialMatch name items)
  | _ => .error (.error "$ operator is invalid for atomic vectors")

/-- `x[[name]]`. -/
def elem (name : Chars) : Value → Except Failure Value
  | .null | .list _ => .ok .null
  | .namedList items => .ok ((items.lookup name).getD .null)
  | _ => .error (.error "subscript out of bounds")

/-- The value as one string, as `vapply` with `FUN.VALUE = character(1)` wants it. -/
def string : Value → Except Failure Chars
  | .character [value] => .ok value
  | _ => .error (.error "values must be length 1")

end Value

mutual

/-- `eval(expr, envir = baseenv())`. -/
def Lang.eval : Lang → Except Failure Value
  | .str value => .ok (.character [value])
  | .num value => .ok (.num value)
  | .logical value => .ok (.logical value)
  | .null => .ok .null
  | .sym _ => .error .notModelled
  | .call fn args => do
      let values ← evalArgs args
      applyFn fn values

/-- The values of arguments, with their names. -/
def evalArgs : List (Chars × Lang) → Except Failure (List (Chars × Value))
  | [] => .ok []
  | (name, arg) :: rest => do
      let value ← arg.eval
      let values ← evalArgs rest
      return (name, value) :: values

end

end GnuRQi.R
