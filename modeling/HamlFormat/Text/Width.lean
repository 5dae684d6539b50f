import HamlFormat.Text.Combining
import HamlFormat.Text.Wide

/-!
# HamlFormat.Text.Width

Display width: how many terminal columns a text fills. A combining mark fills
none, a wide character two, any other character one. A text of ASCII characters
is as wide as it is long, which is read off without looking at the tables.
-/

namespace HamlFormat.Text

/-- Columns filled by one character. -/
def charWidth (c : CodePoint) : Nat :=
  if isCombining c then 0
  else if isWide c then 2
  else 1

/-- Columns filled by the characters of a text. -/
def charsWidth : Text → Nat
  | [] => 0
  | c :: cs => charWidth c + charsWidth cs

/-- Whether a character is in ASCII. -/
def isAscii (c : CodePoint) : Bool :=
  c.val < 0x80

/-- Columns filled by a text. -/
def width (t : Text) : Nat :=
  if t.all isAscii then t.length else charsWidth t

end HamlFormat.Text
