import HamlFormat.Layout.Render
import HamlFormat.Proofs.Text.Lines
import HamlFormat.Proofs.Text.Width

/-!
# HamlFormat.Proofs.Layout.Rows

The output of a layout, row by row. The pieces between two line ends make up a
row: the margin that the line end before them wrote, and what was written after
it. The text of a layout is the text of its rows, where every row that a line end
follows has lost the spaces and tabs at its end, and nothing else is removed
(`assemble_eq`). If no piece holds a line end of its own the rows are the lines of
the text (`lines_text`).
-/

namespace HamlFormat.Layout

/-! ## Rows -/

/-- What a piece writes on its line. -/
def Piece.inline : Piece → Text
  | .text s => s
  | .unbroken soft => if soft then [] else " "
  | .newline _ => []

/-- Whether a piece is a line break that did not end the line. -/
def Piece.isUnbroken : Piece → Bool
  | .unbroken _ => true
  | _ => false

/-- A row of output as it is written, with the spaces and tabs at its end. -/
structure Row where
  margin : Text
  pieces : List Piece

namespace Row

/-- What is written after the margin. -/
def body (row : Row) : Text :=
  row.pieces.flatMap Piece.inline

/-- The text of a row. -/
def text (row : Row) : Text :=
  row.margin ++ row.body

/-- The text of a row without the spaces and tabs at its end. -/
def trimmed (row : Row) : Text :=
  Text.stripRight Text.isIndent row.text

/-- Whether a row holds a line break that did not end it. -/
def isUnbroken (row : Row) : Bool :=
  row.pieces.any Piece.isUnbroken

end Row

/-- The rows of an output: those that a line end follows, and the last one. -/
structure Rows where
  finished : List Row
  last : Row

namespace Rows

/-- All rows in their order. -/
def toList (rows : Rows) : List Row :=
  rows.finished ++ [rows.last]

/-- The rows after one more piece. -/
def write (margin : Indentation → Text) (rows : Rows) : Piece → Rows
  | .newline i => ⟨rows.finished ++ [rows.last], ⟨margin i, []⟩⟩
  | piece => ⟨rows.finished, ⟨rows.last.margin, rows.last.pieces ++ [piece]⟩⟩

/-- The text of rows: each finished row is trimmed before its line end. -/
def text (rows : Rows) : Text :=
  (rows.finished.flatMap fun row => row.trimmed ++ [Text.newline]) ++ rows.last.text

/-- The lines of rows, trimmed but for the last one. -/
def lines (rows : Rows) : List Text :=
  rows.finished.map Row.trimmed ++ [rows.last.text]

end Rows

/-- The rows that pieces make up, where `margin` gives the text of an indentation. -/
def rowsOf (margin : Indentation → Text) (pieces : List Piece) : Rows :=
  pieces.foldl (Rows.write margin) ⟨[], ⟨[], []⟩⟩

variable {margin : Indentation → Text}

@[simp] theorem rowsOf_concat (pieces : List Piece) (piece : Piece) :
    rowsOf margin (pieces ++ [piece]) = (rowsOf margin pieces).write margin piece := by
  simp [rowsOf]

/-! ## The text of rows -/

/-- A piece on a row is written at its end. -/
theorem Row.text_concat (margin : Text) (pieces : List Piece) (piece : Piece) :
    (⟨margin, pieces ++ [piece]⟩ : Row).text = (⟨margin, pieces⟩ : Row).text ++ piece.inline := by
  simp [text, body]

/-- A piece that is no line end is written at the end. -/
theorem Rows.text_write_inline (rows : Rows) {piece : Piece} (h : ∀ i, piece ≠ .newline i) :
    (rows.write margin piece).text = rows.text ++ piece.inline := by
  cases piece with
  | newline i => exact absurd rfl (h i)
  | text _ | unbroken _ => simp only [write, text, Row.text_concat, List.append_assoc]

/-- The finished rows end in a line end, at which trimming stops. -/
theorem Rows.getLast?_finished (rows : List Row) :
    ∀ c ∈ (rows.flatMap fun row => row.trimmed ++ [Text.newline]).getLast?,
      Text.isIndent c = false := by
  induction rows using List.reverseRecOn with
  | nil => simp
  | append_singleton rows row _ => simp

/-- A line end trims what is written before it. -/
theorem Rows.text_write_newline (rows : Rows) (i : Indentation) :
    (rows.write margin (.newline i)).text =
      Text.stripRight Text.isIndent rows.text ++ Text.newline :: margin i := by
  rw [text, text, Text.stripRight_append_of_keep (getLast?_finished rows.finished)]
  simp [write, Row.trimmed, Row.text, Row.body]

/-- **The text of a layout is the text of its rows.** -/
theorem assemble_eq {α : Type} (page : Page α) (pieces : List Piece) :
    assemble page pieces = (rowsOf (Indentation.text page) pieces).text := by
  rw [assemble]
  induction pieces using List.reverseRecOn with
  | nil => rfl
  | append_singleton pieces piece ih =>
      rw [List.foldl_append, List.foldl_cons, List.foldl_nil, rowsOf_concat]
      cases piece with
      | text s =>
          rw [Rows.text_write_inline _ (by simp), ← ih]
          simp [Piece.write, Piece.inline]
      | unbroken soft =>
          rw [Rows.text_write_inline _ (by simp), ← ih]
          cases soft <;> simp [Piece.write, Piece.inline]
      | newline i =>
          rw [Rows.text_write_newline, ← ih, ← Text.flatten_trimNewest, Piece.write,
            List.reverse_cons, List.flatten_append, List.flatten_singleton]
          rfl

/-- What shows in the text of rows is what shows in their pieces. -/
theorem filter_text_rowsOf (hmargin : ∀ i, ∀ c ∈ margin i, Text.isIndent c = true)
    (pieces : List Piece) :
    (rowsOf margin pieces).text.filter Text.isInk =
      pieces.flatMap fun piece => piece.inline.filter Text.isInk := by
  induction pieces using List.reverseRecOn with
  | nil => rfl
  | append_singleton pieces piece ih =>
      rw [rowsOf_concat, List.flatMap_append, ← ih]
      cases piece with
      | text _ | unbroken _ =>
          rw [Rows.text_write_inline _ (by simp), List.filter_append]
          simp
      | newline i =>
          rw [Rows.text_write_newline, List.filter_append, Text.filter_stripRight]
          have hinside := Text.filter_isInk_of_indent (hmargin i)
          simp [Piece.inline, hinside, Text.isInk]

/-! ## The lines of rows -/

/-- Trimming a row leaves it on one line. -/
theorem Row.isOneLine_trimmed {row : Row} (h : row.text.isOneLine = true) :
    row.trimmed.isOneLine = true := by
  rw [Text.isOneLine, List.all_eq_true] at h ⊢
  exact fun c hc => h c ((List.rdropWhile_prefix _ _).subset hc)

/-- The lines of a text are its rows, if no row holds a line end. -/
theorem Rows.lines_text {rows : Rows} (h : ∀ row ∈ rows.toList, row.text.isOneLine = true) :
    Text.lines rows.text = rows.lines := by
  obtain ⟨finished, last⟩ := rows
  simp only [toList, List.forall_mem_append, List.forall_mem_singleton] at h
  simp only [text, lines]
  induction finished with
  | nil => exact Text.lines_of_isOneLine h.2
  | cons row finished ih =>
      obtain ⟨hrow, hfinished⟩ := List.forall_mem_cons.mp h.1
      rw [List.flatMap_cons, List.append_assoc, List.append_assoc, List.singleton_append,
        Text.lines_append (Row.isOneLine_trimmed hrow), ih ⟨hfinished, h.2⟩]
      rfl

/-- Rows hold no line ends if no piece and no margin does. -/
theorem isOneLine_rowsOf (hmargin : ∀ i, (margin i).isOneLine = true) {pieces : List Piece}
    (h : ∀ piece ∈ pieces, piece.inline.isOneLine = true) :
    ∀ row ∈ (rowsOf margin pieces).toList, row.text.isOneLine = true := by
  induction pieces using List.reverseRecOn with
  | nil => simp [rowsOf, Rows.toList, Row.text, Row.body, Text.isOneLine]
  | append_singleton pieces piece ih =>
      rw [List.forall_mem_append, List.forall_mem_singleton] at h
      have hrows := ih h.1
      rw [rowsOf_concat]
      generalize rowsOf margin pieces = rows at hrows
      obtain ⟨finished, last⟩ := rows
      rw [Rows.toList, List.forall_mem_append, List.forall_mem_singleton] at hrows
      cases piece with
      | newline i =>
          simp only [Rows.write, Rows.toList, List.forall_mem_append, List.forall_mem_singleton]
          refine ⟨hrows, ?_⟩
          simpa [Row.text, Row.body] using hmargin i
      | text _ | unbroken _ =>
          simp only [Rows.write, Rows.toList, List.forall_mem_append, List.forall_mem_singleton]
          rw [Row.text_concat, Text.isOneLine_append, Bool.and_eq_true]
          exact ⟨hrows.1, hrows.2, h.2⟩

end HamlFormat.Layout
