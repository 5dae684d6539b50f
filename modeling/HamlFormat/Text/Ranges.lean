import HamlFormat.Text.Basic

/-!
# HamlFormat.Text.Ranges

Sets of code points given by a table of closed code point ranges, the form in
which character properties are published.
-/

namespace HamlFormat.Text

/-- A character property as closed ranges `(first, last)` of code points. -/
abbrev Ranges := List (Nat × Nat)

/-- Whether a code point lies in one of the ranges. -/
def Ranges.contains (ranges : Ranges) (c : CodePoint) : Bool :=
  ranges.any fun range => range.1 ≤ c.val && c.val ≤ range.2

end HamlFormat.Text
