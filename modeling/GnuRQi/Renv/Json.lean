import GnuRQi.R.Parsing
import GnuRQi.Text.Placeholders

/-!
# The JSON reader of `renv/activate.R`

`renv_json_read_default` turns a JSON text into an expression of R. Strings with a bracket, a brace
or a colon are exchanged for placeholders, so that `[`, `{`, `]`, `}` and `:` can be replaced all
over the text. R parses the result, the placeholders in the expression are exchanged back, and the
expression is evaluated.
-/

namespace GnuRQi.Renv

open R Text

/-- The characters of the class `[[\]{}:]`, which no string must have when the text is changed. -/
def marked (c : Char) : Bool := c ∈ ['[', ']', '{', '}', ':']

/-- What `sprintf('"\032%i\032"', n)` puts between quotes. -/
def placeholder (n : ℕ) : Chars := '\x1a' :: (formatInt n ++ ['\x1a'])

/-- The call that stands for an empty object. -/
def emptyObject : Chars := "`names<-`(list(), character())".toList

/-- The text that R parses: `{}`, `[` and `{`, `]` and `}`, and `:` are replaced. -/
def transform (text : Chars) : Chars :=
  let transformed := gsub ['{', '}'] emptyObject text
  let transformed := gsubClass ['[', '{'] "list(".toList transformed
  let transformed := gsubClass [']', '}'] ")".toList transformed
  gsub [':'] ['='] transformed

/-- `paste(lines, collapse = "\n")`. -/
def pasteLines (lines : List Chars) : Chars := ['\n'].intercalate lines

/-- `as.character(parse(text = strings))` for string constants. -/
def parseStrings (strings : List Chars) : Except Failure (List Chars) := do
  let exprs ← parse (pasteLines strings)
  exprs.mapM fun
    | .str value => .ok value
    | _ => .error .notModelled

/-- `names(json)[rhs] <- map[lhs]`, where `lhs` has the positions of the names in the map and `rhs`
the positions of the map's names in the names. -/
def fixNames (map : List (Chars × Chars)) (names : List Chars) : Except Failure (List Chars) :=
  let keys := map.map Prod.fst
  let lhs := names.filterMap fun name => keys.idxOf? name
  let rhs := keys.filterMap fun key => names.idxOf? key
  let values := lhs.filterMap fun i => (map[i]?).map Prod.snd
  if rhs = [] then .ok names
  else if values = [] then .error (.error "replacement has length zero")
  else .ok (rhs.zipIdx.foldl (fun names (i, j) => names.set i (values.getD (j % values.length) []))
    names)

mutual

/-- `renv_json_read_remap(json, map)`. -/
def remap (map : List (Chars × Chars)) : Lang → Except Failure Lang
  | .str value => .ok (.str ((map.lookup value).getD value))
  | .sym name =>
      if name = "true".toList then .ok (.logical true)
      else if name = "false".toList then .ok (.logical false)
      else if name = "null".toList then .ok .null
      else .ok (.sym name)
  | .call fn args => do
      -- a call without named arguments has no names, and otherwise the function has the name ""
      let names ←
        if ∀ arg ∈ args, arg.1 = [] then .ok (args.map Prod.fst)
        else (fixNames map ([] :: args.map Prod.fst)).map List.tail
      let values ← remapArgs map args
      return .call fn (names.zip values)
  | .num value => .ok (.num value)
  | .logical value => .ok (.logical value)
  | .null => .ok .null

/-- `renv_json_read_remap` for each argument of a call. -/
def remapArgs (map : List (Chars × Chars)) : List (Chars × Lang) → Except Failure (List Lang)
  | [] => .ok []
  | (_, arg) :: rest => do
      let value ← remap map arg
      let values ← remapArgs map rest
      return value :: values

end

/-- The function that `mapply` calls: `replaced <<- sub(string, replacement, replaced)`. -/
def replaceString (replaced : Chars) (pair : Chars × Chars) : Chars := sub pair.1 pair.2 replaced

/-- The placeholders for the strings of a text that have a marked character, and the text with the
first occurrence of each of these strings replaced. -/
def replaceStrings (text : Chars) : List Chars × List Chars × Chars :=
  let strings := ((findLiterals text).map quote).filter fun string => string.any marked
  let replacements := (List.range' 1 strings.length).map fun n => quote (placeholder n)
  let replaced := (strings.zip replacements).foldl replaceString text
  (strings, replacements, replaced)

/-- `renv_json_read_default(text = lines)`. -/
def renvJsonReadDefault (lines : List Chars) : Except Failure Value := do
  let (strings, replacements, replaced) := replaceStrings (pasteLines lines)
  let exprs ← parse (transform replaced)
  match exprs with
  | [] => .error (.error "subscript out of bounds")
  | json :: _ =>
      let values ← parseStrings strings
      let keys ← parseStrings replacements
      let remapped ← remap (keys.zip values) json
      remapped.eval

/-! ## JSON -/

/-- The escapes of JSON strings but `\u`. -/
def jsonEscapes : List (Char × Char) :=
  [('"', '"'), ('\\', '\\'), ('/', '/'), ('b', '\x08'), ('f', '\x0c'), ('n', '\n'), ('r', '\r'),
    ('t', '\t')]

/-- The string for what stands between two quotes. No code is half of a character or that of the
sign of placeholders. -/
inductive StringOf : Chars → Chars → Prop
  | nil : StringOf [] []
  | plain (c : Char) {content value : Chars} (hcontrol : 32 ≤ c.toNat) (hquote : c ≠ '"')
      (hescape : c ≠ '\\') (h : StringOf content value) : StringOf (c :: content) (c :: value)
  | escape (c d : Char) {content value : Chars} (hcd : (c, d) ∈ jsonEscapes)
      (h : StringOf content value) : StringOf ('\\' :: c :: content) (d :: value)
  | unicode (digits : Chars) {content value : Chars} (hlength : digits.length = 4)
      (hdigits : ∀ c ∈ digits, (hexDigit c).isSome = true)
      (hhalf : ¬(0xd800 ≤ hexValue digits ∧ hexValue digits ≤ 0xdfff))
      (hsign : hexValue digits ≠ 0x1a) (h : StringOf content value) :
      StringOf ('\\' :: 'u' :: (digits ++ content)) (Char.ofNat (hexValue digits) :: value)

/-- The tokens of characters outside of strings. -/
def chars (text : Chars) : List Token := text.map .char

/-- Blanks, tabs and line breaks. -/
def Blank (tokens : List Token) : Prop := ∀ token ∈ tokens, token ∈ chars [' ', '\t', '\n']

mutual

/-- The value that a JSON text stands for. Arrays are lists, objects lists with names. -/
inductive Means : List Token → Value → Prop
  | null : Means (chars "null".toList) .null
  | true : Means (chars "true".toList) (.logical true)
  | false : Means (chars "false".toList) (.logical false)
  | number (d : Decimal) : Means (chars d.text) (.num d.value)
  | negative (d : Decimal) : Means (chars ('-' :: d.text)) (.num (-d.value))
  | string {content value : Chars} (h : StringOf content value) :
      Means [.literal content] (.character [value])
  | emptyArray {blank : List Token} (hblank : Blank blank) :
      Means (.char '[' :: (blank ++ [.char ']'])) (.list [])
  | array {tokens : List Token} {elems : List Value} (h : Elements tokens elems) :
      Means (.char '[' :: (tokens ++ [.char ']'])) (.list elems)
  | emptyObject {blank : List Token} (hblank : Blank blank) :
      Means (.char '{' :: (blank ++ [.char '}'])) (.namedList [])
  | object {tokens : List Token} {items : List (Chars × Value)} (h : Members tokens items) :
      Means (.char '{' :: (tokens ++ [.char '}'])) (.namedList items)

/-- The elements of an array. -/
inductive Elements : List Token → List Value → Prop
  | last {before tokens after : List Token} {value : Value} (hbefore : Blank before)
      (h : Means tokens value) (hafter : Blank after) :
      Elements (before ++ (tokens ++ after)) [value]
  | cons {before tokens after rest : List Token} {value : Value} {elems : List Value}
      (hbefore : Blank before) (h : Means tokens value) (hafter : Blank after)
      (hrest : Elements rest elems) :
      Elements (before ++ (tokens ++ (after ++ .char ',' :: rest))) (value :: elems)

/-- The members of an object. -/
inductive Members : List Token → List (Chars × Value) → Prop
  | last {before colon space tokens after : List Token} {content name : Chars} {value : Value}
      (hbefore : Blank before) (hname : StringOf content name) (hcolon : Blank colon)
      (hspace : Blank space) (h : Means tokens value) (hafter : Blank after) :
      Members
        (before ++ .literal content :: (colon ++ .char ':' :: (space ++ (tokens ++ after))))
        [(name, value)]
  | cons {before colon space tokens after rest : List Token} {content name : Chars} {value : Value}
      {items : List (Chars × Value)} (hbefore : Blank before) (hname : StringOf content name)
      (hcolon : Blank colon) (hspace : Blank space) (h : Means tokens value) (hafter : Blank after)
      (hrest : Members rest items) :
      Members
        (before ++ .literal content ::
          (colon ++ .char ':' :: (space ++ (tokens ++ (after ++ .char ',' :: rest)))))
        ((name, value) :: items)

end

/-- A JSON text: a value with blanks around it. -/
def Document (tokens : List Token) (value : Value) : Prop :=
  ∃ before text after, Blank before ∧ Means text value ∧ Blank after ∧
    tokens = before ++ (text ++ after)

end GnuRQi.Renv
