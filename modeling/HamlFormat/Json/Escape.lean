import HamlFormat.Json.Literal

/-!
# HamlFormat.Json.Escape

The characters of a JSON string. Quotes, backslashes and five controls have an
escape of one letter; what else must not stand in a string is written `\uXXXX`,
as two escapes (a surrogate pair) above `0xffff`.
-/

namespace HamlFormat.Json

/-- The letter that escapes a character. -/
def escapeLetter? (c : CodePoint) : Option CodePoint :=
  if c == '"' then some '"'
  else if c == '\\' then some '\\'
  else if c == '\n' then some 'n'
  else if c == '\r' then some 'r'
  else if c == '\t' then some 't'
  else if c == '\x0c' then some 'f'
  else if c == '\x08' then some 'b'
  else none

/-- One 16-bit unit as an escape. -/
def unitEscape (unit : Nat) : Text :=
  "\\u" ++ hexText 4 unit

/-- A character as one or two numeric escapes. -/
def numericEscape (c : CodePoint) : Text :=
  if c.val < 0x10000 then unitEscape c.val
  else
    let offset := c.val - 0x10000
    unitEscape (0xd800 + offset / 0x400) ++ unitEscape (0xdc00 + offset % 0x400)

/-- One character of a string, written as it is only where `keep` allows it. -/
def escapeChar (keep : CodePoint → Bool) (c : CodePoint) : Text :=
  match escapeLetter? c with
  | some letter => ['\\', letter]
  | none => if keep c then [c] else numericEscape c

/-- The characters of ASCII that print. -/
def isAsciiText (c : CodePoint) : Bool :=
  0x20 ≤ c.val && c.val ≤ 0x7e

/-- Everything but the controls that a JSON string must not hold. -/
def isStringText (c : CodePoint) : Bool :=
  0x20 ≤ c.val

/-- A JSON string, quotes included. -/
def stringText (keep : CodePoint → Bool) (s : Text) : Text :=
  "\"" ++ s.flatMap (escapeChar keep) ++ "\""

end HamlFormat.Json
