import HamlFormat.Text.Ranges

/-!
# HamlFormat.Text.Blank

White space at the ends of a text and between its words.

Two classes of white space are in use. `isBlank` holds of every Unicode white
space character and bounds words; `isIndent` holds of the space and the tab
alone, the characters that indentation is made of.
-/

namespace HamlFormat.Text

/-- Code points of white space. -/
def blankRanges : Ranges := [
  (0x9, 0xd), (0x1c, 0x20), (0x85, 0x85), (0xa0, 0xa0), (0x1680, 0x1680), (0x2000, 0x200a),
  (0x2028, 0x2029), (0x202f, 0x202f), (0x205f, 0x205f), (0x3000, 0x3000)]

/-- Whether a character is white space. -/
def isBlank (c : CodePoint) : Bool :=
  blankRanges.contains c

/-- Whether a character is a space or a tab. -/
def isIndent (c : CodePoint) : Bool :=
  c == ' ' || c == '\t'

/-! ## The ends of a text -/

/-- A text without the characters at its end that satisfy `p`. -/
def stripRight (p : CodePoint → Bool) (t : Text) : Text :=
  (t.reverse.dropWhile p).reverse

/-- A text without the characters at either end that satisfy `p`. -/
def strip (p : CodePoint → Bool) (t : Text) : Text :=
  stripRight p (t.dropWhile p)

/-! ## Lines and words -/

/-- The runs between the characters that satisfy `p`; there is always one run
more than there are such characters. -/
def splitWhere (p : CodePoint → Bool) : Text → List Text
  | [] => [[]]
  | c :: cs =>
    if p c then [] :: splitWhere p cs
    else
      match splitWhere p cs with
      | [] => [[c]]
      | run :: runs => (c :: run) :: runs

/-- The lines of a text; only `'\n'` ends a line. -/
def lines (t : Text) : List Text :=
  splitWhere (· == '\n') t

/-- The words of a text: its maximal runs free of white space. -/
def words (t : Text) : List Text :=
  (splitWhere isBlank t).filter (!·.isEmpty)

end HamlFormat.Text
