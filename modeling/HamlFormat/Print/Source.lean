import HamlFormat.Fault
import HamlFormat.Text.Blank

/-!
# HamlFormat.Print.Source

Looking up a line of the source that a tree was parsed from.
-/

namespace HamlFormat

/-- The line of a source text with a given number, counted from one, if there is
one. Line numbers come from unchecked data: something that is not a number fails,
and so does a number with a fraction part that lies between the lines' numbers,
even a whole one. -/
def sourceLine (source : Text) (line : Json) : Except Fault (Option Text) :=
  let lines := Text.lines source
  match line, line.int? with
  | .null, _ => .ok none
  | _, some n => if n < 1 then .ok none else .ok lines[(n - 1).toNat]?
  | .float x, _ => if x.ltInt 1 || x.gtInt lines.length then .ok none else .error .mismatch
  | _, _ => .error .mismatch

end HamlFormat
