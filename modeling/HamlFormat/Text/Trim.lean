import HamlFormat.Text.Blank

/-!
# HamlFormat.Text.Trim

Trimming an output buffer: the spaces and tabs that end a sequence of text
fragments are removed, however many fragments they are spread over. A fragment
left empty goes; the fragments before the last one left are untouched.
-/

namespace HamlFormat.Text

/-- Trim a buffer whose newest fragment comes first; also counts the characters
removed. -/
def trimNewest : List Text → List Text × Nat
  | [] => ([], 0)
  | newest :: older =>
    let kept := stripRight isIndent newest
    let removed := newest.length - kept.length
    if kept.isEmpty then
      let (rest, more) := trimNewest older
      (rest, removed + more)
    else (kept :: older, removed)

/-- Trim a buffer whose newest fragment comes last; also counts the characters
removed. -/
def trimTrailing (fragments : List Text) : List Text × Nat :=
  let (rest, removed) := trimNewest fragments.reverse
  (rest.reverse, removed)

end HamlFormat.Text
