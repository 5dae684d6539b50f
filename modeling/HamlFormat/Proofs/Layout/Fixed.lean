import HamlFormat.Proofs.Layout.Preservation

/-!
# HamlFormat.Proofs.Layout.Fixed

Documents that leave nothing open: every line break is hard and there is nothing
to choose. The lines of such a document can be read off its leaves (`linesFrom`),
and its layout is these lines, each with its margin and without the spaces and
tabs at its end, whatever the width of the page (`layout_eq_of_isFixed`). It fails
only for want of a level of indentation (`layout_error_of_isFixed`).
-/

namespace HamlFormat

/-- Nothing left open, and no indentation but by levels. -/
def Doc.isFixed : Doc → Bool
  | .line hard _ => hard
  | .fill _ | .ifBreak _ _ | .align _ _ | .alien _ => false
  | _ => true

/-- Not a level deeper. -/
def Doc.isFlush : Doc → Bool
  | .indent _ => false
  | _ => true

namespace Layout

/-! ## Lines of leaves -/

/-- The lines that leaves make up after what stands on the current line already,
each with its indentation. -/
def linesFrom (current : Indentation × Text) : List Leaf → List (Indentation × Text)
  | [] => [current]
  | .text s :: rest => linesFrom (current.1, current.2 ++ s) rest
  | .line _ _ i :: rest => current :: linesFrom (i, []) rest

/-- A line break ends the line before it, and a new one starts after it. -/
theorem linesFrom_append_line (current : Indentation × Text) (xs ys : List Leaf)
    (hard soft : Bool) (i : Indentation) :
    linesFrom current (xs ++ .line hard soft i :: ys) =
      linesFrom current xs ++ linesFrom (i, []) ys := by
  induction xs generalizing current with
  | nil => rfl
  | cons leaf xs ih =>
      cases leaf with
      | text s => exact ih _
      | line _ _ j =>
          rw [List.cons_append, linesFrom, linesFrom, ih, List.cons_append]

/-- Texts are written on the current line. -/
theorem linesFrom_texts (current : Indentation × Text) (texts : List Text) :
    linesFrom current (texts.map .text) = [(current.1, current.2 ++ texts.flatten)] := by
  induction texts generalizing current with
  | nil => simp [linesFrom]
  | cons s texts ih => rw [List.map_cons, linesFrom, ih]; simp

/-- The rows of pieces that stand for leaves with hard line breaks only are the
lines of the leaves. -/
theorem map_text_foldl_write (margin : Indentation → Text) {all : List Leaf} {ps : List Piece}
    (h : List.Forall₂ Leaf.Prints all ps)
    (hhard : ∀ leaf ∈ all, ∀ soft i, leaf ≠ .line false soft i) (finished : List Row)
    (i : Indentation) (written : List Piece) :
    (ps.foldl (Rows.write margin) ⟨finished, ⟨margin i, written⟩⟩).toList.map Row.text =
      finished.map Row.text ++
        (linesFrom (i, written.flatMap Piece.inline) all).map
          fun line => margin line.1 ++ line.2 := by
  induction h generalizing finished i written with
  | nil => simp [linesFrom, Rows.toList, Row.text, Row.body]
  | cons hleaf _ ih =>
      rw [List.forall_mem_cons] at hhard
      rw [List.foldl_cons]
      cases hleaf with
      | text =>
          simp only [Rows.write]
          rw [ih hhard.2, linesFrom, List.flatMap_append, List.flatMap_singleton]
          rfl
      | space | nothing => exact absurd rfl (hhard.1 _ _)
      | newline =>
          rw [Rows.write, ih hhard.2, linesFrom]
          simp [Row.text, Row.body]

/-- The text of rows, from what stands on each of them: all but the last trimmed
before their line ends. -/
theorem Rows.text_of_map_text {rows : Rows} {texts : List Text} {last : Text}
    (h : rows.toList.map Row.text = texts ++ [last]) :
    rows.text = (texts.flatMap fun t => Text.stripRight Text.isIndent t ++ [Text.newline]) ++
      last := by
  obtain ⟨finished, lastRow⟩ := rows
  rw [toList, List.map_append, List.map_singleton] at h
  obtain ⟨hfinished, hlast⟩ := List.append_inj' h rfl
  rw [text, ← hfinished, List.flatMap_map, ← List.singleton_inj.mp hlast]
  rfl

/-! ## Levels that cannot be made -/

/-- A fixed document that is laid out on a page without levels needs none. -/
theorem isFlush_of_pieces {α : Type} [Columns α] {page : Page α} {fault : Fault}
    (hlevel : page.level = .error fault) {doc : Doc} {ps : List Piece}
    (hdoc : doc.all Doc.isFixed = true) (h : pieces page doc = .ok ps) :
    doc.all Doc.isFlush = true := by
  have hplain : doc.all Doc.isPlainChoice = true := by
    refine Doc.all_mono (fun d hd => ?_) hdoc
    cases d with
    | ifBreak _ _ => cases hd
    | _ => rfl
  have hfeasible : doc.all (Doc.isFeasible false) = true := by
    refine isFeasible_of_pieces (fun level hok => ?_) hplain h
    rw [hlevel] at hok
    cases hok
  refine Doc.all_mono (fun d hd => ?_) hfeasible
  cases d with
  | indent _ => cases hd
  | _ => rfl

end Layout

namespace Settings

open Layout

/-- A fixed document can be laid out if its levels can be made or it needs none. -/
theorem isFeasible_of_isFixed {doc : Doc} {levels : Bool} (hdoc : doc.all Doc.isFixed = true)
    (hlevels : levels = true ∨ doc.all Doc.isFlush = true) :
    doc.all (Doc.isFeasible levels) = true := by
  obtain rfl | hflush := hlevels
  · refine Doc.all_mono (fun d hd => ?_) hdoc
    cases d with
    | align _ _ | alien _ => cases hd
    | _ => rfl
  · refine Doc.all_mono (fun d hd => ?_) ((Doc.all_and doc).mpr ⟨hdoc, hflush⟩)
    cases d with
    | align _ _ | alien _ | indent _ => cases hd
    | _ => rfl

/-- **A fixed document is laid out line by line.** Each line has its margin and loses
the spaces and tabs at its end if another follows; the width of the page plays no
part. -/
theorem layout_eq_of_isFixed {settings : Settings} {w t : Int}
    (hw : settings.printWidth.int? = some w) (ht : settings.tabWidth.int? = some t) {doc : Doc}
    (hdoc : doc.all Doc.isFixed = true)
    (hlevels : settings.indents t = true ∨ doc.all Doc.isFlush = true)
    {lines : List (Indentation × Text)} {last : Text}
    (hlines : linesFrom ([], []) (leaves [] doc) = lines ++ [([], last)]) :
    settings.layout doc = .ok ((lines.flatMap fun line =>
      Text.stripRight Text.isIndent (settings.margin line.1 ++ line.2) ++ [Text.newline]) ++
        last) := by
  obtain ⟨out, hout⟩ := layout_ok hw ht (isFeasible_of_isFixed hdoc hlevels)
  obtain ⟨chosen, ps, hchosen, hprints, rfl⟩ := exists_leaves_of_layout hout
  have hhard : ∀ leaf ∈ leaves [] chosen, ∀ soft i, leaf ≠ .line false soft i := by
    refine forall_mem_leaves (fun _ _ _ _ h => nomatch h) ?_ hchosen hdoc []
    rintro hard soft i rfl _ _ h
    cases h
  have hsame : doc = chosen := by
    refine eq_of_resolves hchosen (Doc.all_mono (fun d hd => ?_) hdoc)
    cases d with
    | ifBreak _ _ => cases hd
    | _ => rfl
  have htexts : (rowsOf settings.margin ps).toList.map Row.text =
      (lines.map fun line => settings.margin line.1 ++ line.2) ++ [last] := by
    have hrows := map_text_foldl_write settings.margin hprints hhard [] [] []
    rw [← hsame, List.flatMap_nil, hlines, List.map_append] at hrows
    exact hrows
  rw [hout, Rows.text_of_map_text htexts, List.flatMap_map]

/-- A fixed document with levels that cannot be made is not laid out. -/
theorem layout_error_of_isFixed {settings : Settings} {w t : Int}
    (hw : settings.printWidth.int? = some w) (ht : settings.tabWidth.int? = some t) {doc : Doc}
    (hdoc : doc.all Doc.isFixed = true) (hindents : settings.indents t = false)
    (hflush : doc.all Doc.isFlush = false) : ∃ fault, settings.layout doc = .error fault := by
  cases hout : settings.layout doc with
  | error fault => exact ⟨fault, rfl⟩
  | ok out =>
      obtain ⟨ps, hps, -⟩ := pieces_of_layout (isFractional_of_int hw ht) hout
      cases hlevel : (settings.page Json.int?).level with
      | ok level => rw [indents_of_level_page ht hlevel] at hindents; cases hindents
      | error fault => rw [isFlush_of_pieces hlevel hdoc hps] at hflush; cases hflush

end Settings

end HamlFormat
