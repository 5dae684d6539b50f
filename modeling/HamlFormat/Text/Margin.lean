import HamlFormat.Text.Blank

/-!
# HamlFormat.Text.Margin

Removing the indentation that the lines of a block share. Lines of spaces and
tabs alone are emptied and do not count; the margin is the longest run of spaces
and tabs that starts every other line. A tab and a space never match.
-/

namespace HamlFormat.Text

/-- The longest common start of two texts. -/
def commonStart : Text → Text → Text
  | a :: as, b :: bs => if a == b then a :: commonStart as bs else []
  | _, _ => []

/-- The shared start of all texts; empty for none. -/
def commonStartOf : List Text → Text
  | [] => []
  | [a] => a
  | a :: rest => commonStart a (commonStartOf rest)

/-- The indentation shared by all lines that hold more than indentation. -/
def marginOf (ls : List Text) : Text :=
  commonStartOf ((ls.filter (!·.all isIndent)).map (·.takeWhile isIndent))

/-- A block's lines, blank ones emptied and the margin removed from the rest. -/
def dedentLines (ls : List Text) : List Text :=
  let margin := marginOf ls
  ls.map fun l => if l.all isIndent then [] else l.drop margin.length

/-- A block of text without its margin. -/
def dedent (t : Text) : Text :=
  List.intercalate "\n" (dedentLines (lines t))

end HamlFormat.Text
