import HamlFormat.Json.Basic
import HamlFormat.Number.Decimal
import HamlFormat.Text.Printable

/-!
# HamlFormat.Json.Literal

Values as messages show them: `None`, `True`, `'text'`, `[1, 'a']`,
`{'key': 1.5}`. A text is put in single quotes unless it holds a single quote
and no double quote; the quote in use, the backslash and everything unprintable
are escaped.
-/

namespace HamlFormat

/-- `n` in lower case hexadecimal, with at least `digits` digits. -/
def hexText (digits n : Nat) : Text :=
  let hex := (Nat.toDigits 16 n).map CodePoint.ofChar
  Decimal.zeros (digits - hex.length) ++ hex

namespace Text

/-- One character of a quoted text. -/
def quotedChar (quote c : CodePoint) : Text :=
  if c == quote || c == '\\' then ['\\', c]
  else if c == '\n' then "\\n"
  else if c == '\r' then "\\r"
  else if c == '\t' then "\\t"
  else if isPrintable c then [c]
  else if c.val < 0x100 then "\\x" ++ hexText 2 c.val
  else if c.val < 0x10000 then "\\u" ++ hexText 4 c.val
  else "\\U" ++ hexText 8 c.val

/-- The quote a text is shown in. -/
def quoteFor (t : Text) : CodePoint :=
  if t.contains '\'' && !t.contains '"' then '"' else '\''

/-- A text in quotes. -/
def quoted (t : Text) : Text :=
  let quote := quoteFor t
  quote :: (t.flatMap (quotedChar quote) ++ [quote])

end Text

/-- A double precision number as messages show it. -/
def Binary64.literal : Binary64 → Text
  | .finite negative index => finiteText negative index
  | .infinite negative => if negative then "-inf" else "inf"
  | .nan => "nan"

/-- An integer in decimal. -/
def intText (n : Int) : Text :=
  (if n < 0 then "-" else "") ++ Decimal.digitsOf n.natAbs

namespace Json

mutual

/-- A value as messages show it. -/
def literal : Json → Text
  | .null => "None"
  | .bool b => if b then "True" else "False"
  | .int n => intText n
  | .float x => x.literal
  | .str s => Text.quoted s
  | .arr items => "[" ++ List.intercalate ", " (itemLiterals items) ++ "]"
  | .obj fields => "\x7b" ++ List.intercalate ", " (fieldLiterals fields) ++ "\x7d"

/-- The items of an array as messages show them. -/
def itemLiterals : List Json → List Text
  | [] => []
  | item :: items => item.literal :: itemLiterals items

/-- The fields of an object as messages show them. -/
def fieldLiterals : List (Text × Json) → List Text
  | [] => []
  | (name, value) :: fields => (Text.quoted name ++ ": " ++ value.literal) :: fieldLiterals fields

end

/-- A value as text: a text is itself, anything else as messages show it. -/
def text : Json → Text
  | .str s => s
  | value => value.literal

end Json

end HamlFormat
