import HamlFormat.Doc.Breaks
import HamlFormat.Layout.Machine
import HamlFormat.Text.Trim

/-!
# HamlFormat.Layout.Render

From a document to text: settle which groups must break, run the layout machine,
and put its pieces together. Each line end first removes the spaces and tabs at
the end of what has been written.
-/

namespace HamlFormat.Layout

variable {α : Type}

/-- Add a piece to an output buffer whose newest fragment comes first. -/
def Piece.write (page : Page α) (buffer : List Text) : Piece → List Text
  | .text s => s :: buffer
  | .unbroken soft => if soft then buffer else " " :: buffer
  | .newline indentation => ("\n" ++ indentation.text page) :: (Text.trimNewest buffer).1

/-- The text of pieces, the oldest first. -/
def assemble (page : Page α) (pieces : List Piece) : Text :=
  ((pieces.foldl (Piece.write page) []).reverse).flatten

variable [Columns α]

/-- The pieces of a document's layout, the oldest first. -/
def pieces (page : Page α) (doc : Doc) : Except Fault (List Piece) := do
  let (settled, _) ← doc.settle
  let machine ← (Machine.start settled).run page
  return machine.pieces.reverse

/-- Lay a document out on a page. -/
def render (page : Page α) (doc : Doc) : Except Fault Text := do
  return assemble page (← pieces page doc)

end HamlFormat.Layout
