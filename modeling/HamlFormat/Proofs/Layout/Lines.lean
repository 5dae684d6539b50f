import HamlFormat.Proofs.Layout.Margin

/-!
# HamlFormat.Proofs.Layout.Lines

The lines of a layout, each with its indentation. `writtenLines` reads them off
the pieces: what the line end before a line says of its indentation, and what was
written after that. The output is these lines behind their margins, all but the
last without the spaces and tabs at their end (`lines_rowsOf`), with line ends
between them (`Rows.text_eq_intercalate`).

Margins are made of spaces and tabs themselves. So trimming a line takes its
margin away as well if nothing but spaces and tabs stands after it, and else
leaves the margin as it is (`Text.stripRight_margin`).
-/

namespace HamlFormat

/-- Trimming a text behind a margin empties it, or trims what stands after the
margin. -/
theorem Text.stripRight_margin {margin : Text} (h : ∀ c ∈ margin, isIndent c = true) (t : Text) :
    stripRight isIndent (margin ++ t) =
      if (stripRight isIndent t).isEmpty then [] else margin ++ stripRight isIndent t := by
  have hmargin : stripRight isIndent margin = [] := stripRight_eq_nil_iff.mpr h
  rw [stripRight_append, hmargin]

namespace Layout

/-! ## Lines of pieces -/

/-- The lines that pieces make up after what stands on the current line already,
each with its indentation. -/
def writtenLines (current : Indentation × Text) : List Piece → List (Indentation × Text)
  | [] => [current]
  | .newline i :: rest => current :: writtenLines (i, []) rest
  | .text s :: rest => writtenLines (current.1, current.2 ++ s) rest
  | .unbroken soft :: rest =>
    writtenLines (current.1, current.2 ++ (Piece.unbroken soft).inline) rest

/-- Lines behind their margins, all but the last without the spaces and tabs at
their end. -/
def trimmedLines (margin : Indentation → Text) : List (Indentation × Text) → List Text
  | [] => []
  | [last] => [margin last.1 ++ last.2]
  | line :: next :: rest =>
    Text.stripRight Text.isIndent (margin line.1 ++ line.2) :: trimmedLines margin (next :: rest)

/-- There is always a line, if an empty one. -/
theorem exists_writtenLines_eq_cons (current : Indentation × Text) (pieces : List Piece) :
    ∃ line rest, writtenLines current pieces = line :: rest := by
  induction pieces generalizing current with
  | nil => exact ⟨current, [], rfl⟩
  | cons piece pieces ih =>
      cases piece with
      | newline i => exact ⟨current, _, rfl⟩
      | text s => exact ih _
      | unbroken soft => exact ih _

theorem exists_trimmedLines_eq_cons (margin : Indentation → Text) (line : Indentation × Text)
    (rest : List (Indentation × Text)) :
    ∃ first others, trimmedLines margin (line :: rest) = first :: others := by
  cases rest <;> exact ⟨_, _, rfl⟩

/-- The rows after more pieces are those that were finished before and the lines of
the pieces. -/
theorem lines_foldl_write (margin : Indentation → Text) (pieces : List Piece)
    (finished : List Row) (i : Indentation) (written : List Piece) :
    (pieces.foldl (Rows.write margin) ⟨finished, ⟨margin i, written⟩⟩).lines =
      finished.map Row.trimmed ++
        trimmedLines margin (writtenLines (i, written.flatMap Piece.inline) pieces) := by
  induction pieces generalizing finished i written with
  | nil => simp [Rows.lines, writtenLines, trimmedLines, Row.text, Row.body]
  | cons piece pieces ih =>
      rw [List.foldl_cons]
      cases piece with
      | text s =>
          have hbody : (written ++ [Piece.text s]).flatMap Piece.inline =
              written.flatMap Piece.inline ++ s := by simp [Piece.inline]
          simp only [Rows.write, ih, hbody, writtenLines]
      | unbroken soft =>
          have hbody : (written ++ [Piece.unbroken soft]).flatMap Piece.inline =
              written.flatMap Piece.inline ++ (Piece.unbroken soft).inline := by simp
          simp only [Rows.write, ih, hbody, writtenLines]
      | newline j =>
          obtain ⟨next, rest, hnext⟩ := exists_writtenLines_eq_cons (j, []) pieces
          simp only [Rows.write, ih, writtenLines, List.flatMap_nil, hnext, trimmedLines]
          simp [Row.trimmed, Row.text, Row.body]

/-- **The lines of rows are the lines that the pieces make up**, behind their
margins. -/
theorem lines_rowsOf {margin : Indentation → Text} (hmargin : margin [] = [])
    (pieces : List Piece) :
    (rowsOf margin pieces).lines = trimmedLines margin (writtenLines ([], []) pieces) := by
  have hlines := lines_foldl_write margin pieces [] [] []
  rw [hmargin] at hlines
  exact hlines

/-- The text of rows is their lines with line ends between them. -/
theorem Rows.text_eq_intercalate (rows : Rows) :
    rows.text = List.intercalate "\n" rows.lines := by
  obtain ⟨finished, last⟩ := rows
  simp only [text, lines]
  induction finished with
  | nil => simp
  | cons row finished ih =>
      obtain ⟨next, rest, hrest⟩ : ∃ next rest,
          finished.map Row.trimmed ++ [last.text] = next :: rest :=
        List.exists_cons_of_ne_nil (by simp)
      rw [hrest] at ih
      rw [List.flatMap_cons, List.append_assoc, ih, List.map_cons, List.cons_append, hrest,
        List.intercalate_cons_cons]
      rfl

end Layout

namespace Settings

open Layout

/-- Settings that count by integers lay out the rows of the pieces. -/
theorem layout_of_whole {settings : Settings} (h : settings.isFractional = false) (doc : Doc) :
    settings.layout doc =
      (pieces (settings.page Json.int?) doc).map fun ps => (rowsOf settings.margin ps).text := by
  rw [layout, if_neg (by simp [h]), render, ← text_page_eq h]
  cases pieces (settings.page Json.int?) doc with
  | error fault => rfl
  | ok ps => exact congrArg Except.ok (assemble_eq _ ps)

/-- Settings that count by measures lay out the rows of the pieces. -/
theorem layout_of_fractional {settings : Settings} (h : settings.isFractional = true) (doc : Doc) :
    settings.layout doc =
      (pieces (settings.page Measure.ofJson?) doc).map fun ps =>
        (rowsOf settings.margin ps).text := by
  rw [layout, if_pos h, render]
  cases pieces (settings.page Measure.ofJson?) doc with
  | error fault => rfl
  | ok ps => exact congrArg Except.ok (assemble_eq _ ps)

end Settings

end HamlFormat
