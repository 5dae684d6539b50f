import HamlFormat.Proofs.Layout.Column
import HamlFormat.Proofs.Layout.Flat

/-!
# HamlFormat.Proofs.Layout.Position

The column that a layout reckons with is the one it stands at. The machine never looks
at what it has written: it adds the widths of the texts to a number, and takes a new
number from the indentation at each line end, while the blanks before the line end are
trimmed off what is written. At every machine that a layout goes through, the number is
nevertheless the width of the last line of what is written (`Visits.keepsCount`), and
every indentation that is still to be used counts for as many columns as its characters
fill.
-/

namespace HamlFormat.Layout

variable {α : Type} [Columns α] {page : Page α} {tab : Int}

/-! ## The last line -/

/-- Neither what is written nor what is still to be written holds a line end of its
own. -/
structure Machine.IsOneLine (machine : Machine α) : Prop where
  pieces : ∀ piece ∈ machine.pieces, piece.inline.isOneLine = true
  docs : AllDocs Doc.isOneLine machine.pending

/-- Every step keeps line ends out of what is written on a line. -/
theorem Step.isOneLine {machine next : Machine α} (h : Step page machine next)
    (hone : machine.IsOneLine) : next.IsOneLine where
  docs := h.allDocs (by simp [Doc.isOneLine]) hone.docs
  pieces := by
    cases h with
    | text =>
        have htext := (allDocs_cons.mp hone.docs).1
        simp only [Doc.all, Doc.isOneLine] at htext
        exact List.forall_mem_cons.mpr ⟨htext, hone.pieces⟩
    | joined | spaced | newline => exact List.forall_mem_cons.mpr ⟨rfl, hone.pieces⟩
    | _ => exact hone.pieces

omit [Columns α] in
/-- What is written ends in the row that is being written. -/
theorem Machine.IsOneLine.getLast?_lines {machine : Machine α} (h : machine.IsOneLine) :
    (Text.lines (assemble page machine.pieces.reverse)).getLast? =
      some (machine.rows page).last.text := by
  have hpieces : ∀ piece ∈ machine.pieces.reverse, piece.inline.isOneLine = true :=
    fun piece hpiece => h.pieces piece (List.mem_reverse.mp hpiece)
  rw [assemble_eq, Rows.lines_text (isOneLine_rowsOf (Indentation.isOneLine_text page) hpieces),
    Rows.lines, List.getLast?_concat]
  rfl

/-! ## Keeping count -/

/-- The machine knows where it stands, with a tab of a margin counted as `tab` columns. -/
structure Machine.KeepsCount (page : Page α) (tab : Int) (machine : Machine α) : Prop where
  /-- The last line of what is written is a row: a margin and what comes after it. -/
  line : (Text.lines (assemble page machine.pieces.reverse)).getLast? =
    some (machine.rows page).last.text
  /-- The column is the width of that row. -/
  column : machine.TracksColumn page tab
  /-- Every indentation counts for the columns of its characters. -/
  indentations : ∀ command ∈ machine.pending, command.indentation.columns page =
    ((marginWidth tab (command.indentation.text page) : Int) : α)

/-- **Every machine that a layout goes through keeps count** on an exact page, if the
texts of the document stay on one line. -/
theorem Visits.keepsCount [WholeColumns α] (hpage : page.IsExact tab) {doc : Doc}
    {machine : Machine α} (h : Visits page doc machine) (hone : doc.all Doc.isOneLine = true) :
    machine.KeepsCount page tab where
  line := by
    have hraised : doc.raise.all Doc.isOneLine = true :=
      (Doc.all_raise (fun d => by cases d <;> rfl) doc).mpr hone
    have hstart : (Machine.start doc.raise : Machine α).IsOneLine :=
      ⟨by simp [Machine.start], by simpa [Machine.start] using hraised⟩
    exact (h.invariant hstart Step.isOneLine).getLast?_lines
  column := h.invariant rfl (Step.tracksColumn hpage)
  indentations command _ := Indentation.columns_eq hpage command.indentation

end HamlFormat.Layout

namespace HamlFormat.Settings

open Layout

/-- **The tracked column is the real column.** Let the texts of a document stay on one
line, and let a level of indentation count for an integer of columns, not less than none;
the width of the page may be anything. A layout then goes through machines that keep
count, whether the settings make it count by integers or by measures: what is written
ends in a row whose width, a tab of its margin counted as a level, is the column of the
machine, and every indentation among the commands still to do is as wide as it counts. -/
theorem layout_keeps_count {settings : Settings} {t : Int}
    (ht : settings.tabWidth.int? = some t) (hnonneg : 0 ≤ t) {doc : Doc}
    (hproper : doc.all Doc.isProper = true) (hone : doc.all Doc.isOneLine = true) :
    (settings.isFractional = false →
      ∀ machine, Visits (settings.page Json.int?) doc machine →
        settings.layout doc = machine.output (settings.page Json.int?) ∧
          machine.KeepsCount (settings.page Json.int?) t) ∧
    (settings.isFractional = true →
      ∀ machine, Visits (settings.page Measure.ofJson?) doc machine →
        settings.layout doc = machine.output (settings.page Measure.ofJson?) ∧
          machine.KeepsCount (settings.page Measure.ofJson?) t) := by
  constructor
  · intro hwhole machine h
    rw [layout, hwhole, if_neg Bool.false_ne_true]
    exact ⟨h.render_eq hproper, h.keepsCount (isExact_page ht hnonneg) hone⟩
  · intro hfractional machine h
    rw [layout, if_pos hfractional]
    have hexact := isExact_page_of_columns ht (measure_of_int ht) hnonneg
    exact ⟨h.render_eq hproper, h.keepsCount hexact hone⟩

/-- In the middle of a line that starts with a tab and two spaces and goes on with a wide
character and a tab of its own: the first tab counts four columns and the other one. The
blank before the line end is gone, and the column does not depend on it. -/
theorem layout_keeps_count_behind_tabs :
    let settings : Settings := { tabWidth := .int 4, useTabs := .bool true }
    let page := settings.page Json.int?
    let doc : Doc :=
      .indent (.align 2 (.concat [.text "a ", .hardBreak, .text "日\t", .text "b"]))
    let i : Indentation := [.spaces 2, .level]
    let machine : Machine Int :=
      ⟨9, [.text "日\t", .newline i, .text "a "], [⟨i, .broken, .text "b"⟩]⟩
    Visits page doc machine ∧ assemble page machine.pieces.reverse = "a\n\t  日\t" ∧
      settings.layout doc = machine.output page ∧
      (Text.lines "a\n\t  日\t").getLast? = some (machine.rows page).last.text ∧
      9 = (machine.rows page).last.width 4 ∧ i.columns page = marginWidth 4 "\t  " := by
  intro settings page doc i machine
  have hvisits : Visits page doc machine :=
    .tail (.tail (.tail (.tail (.tail (.single rfl) rfl) rfl) rfl) rfl) rfl
  have hwritten : assemble page machine.pieces.reverse = "a\n\t  日\t" := by decide +kernel
  obtain ⟨hlayout, hcount⟩ :=
    (@layout_keeps_count settings 4 rfl (by decide) doc (by decide) (by decide)).1 rfl _ hvisits
  exact ⟨hvisits, hwritten, hlayout, hwritten ▸ hcount.line, hcount.column,
    hcount.indentations _ List.mem_cons_self⟩

end HamlFormat.Settings
