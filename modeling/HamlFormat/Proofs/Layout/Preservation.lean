import HamlFormat.Proofs.Layout.Completion
import HamlFormat.Proofs.Layout.Content

/-!
# HamlFormat.Proofs.Layout.Preservation

A layout loses, doubles and moves nothing. Under any settings the output is the
leaves of the document in their order, for some choice of branches, each printed
as its kind allows; spaces and tabs before a line end that the layout wrote are
all removed, and nothing else is (`layout_keeps_contents`).
-/

namespace HamlFormat.Settings

open Layout

/-- The output is the printed leaves of the document, row by row. -/
theorem exists_leaves_of_layout {settings : Settings} {doc : Doc} {out : Text}
    (h : settings.layout doc = .ok out) :
    ∃ chosen ps, doc.Resolves chosen ∧ List.Forall₂ Leaf.Prints (leaves [] chosen) ps ∧
      out = (rowsOf settings.margin ps).text := by
  obtain ⟨ps, ⟨chosen, hchosen, hprints⟩, hout⟩ := exists_pieces_of_layout h
    (P := fun ps => ∃ chosen, doc.Resolves chosen ∧
      List.Forall₂ Leaf.Prints (leaves [] chosen) ps)
    fun _ _ hps => pieces_print_leaves hps
  exact ⟨chosen, ps, hchosen, hprints, hout⟩

/-- Only documents without plain values are laid out. -/
theorem all_isProper_of_layout {settings : Settings} {doc : Doc} {out : Text}
    (h : settings.layout doc = .ok out) :
    doc.all Doc.isProper = true := by
  obtain ⟨ps, hproper, -⟩ := exists_pieces_of_layout (P := fun _ => doc.all Doc.isProper = true) h
    fun page ps hps => by
      obtain ⟨settled, hsettled, -⟩ := Fault.bind_eq_ok.mp hps
      exact Doc.all_isProper_of_settle hsettled
  exact hproper

/-- If the texts of the document stay on one line the rows are the output's lines. -/
theorem lines_of_layout {settings : Settings} {doc chosen : Doc} {ps : List Piece}
    (hchosen : doc.Resolves chosen) (hprints : List.Forall₂ Leaf.Prints (leaves [] chosen) ps)
    (hall : doc.all Doc.isOneLine = true) :
    Text.lines (rowsOf settings.margin ps).text = (rowsOf settings.margin ps).lines :=
  Rows.lines_text (isOneLine_rowsOf settings.isOneLine_margin
    (isOneLine_of_prints hprints (isOneLine_of_mem_leaves hchosen hall [])))

/-- What shows of the output is what shows of the leaves. -/
theorem filter_isInk_of_layout {settings : Settings} {chosen : Doc} {ps : List Piece}
    (hprints : List.Forall₂ Leaf.Prints (leaves [] chosen) ps) :
    (rowsOf settings.margin ps).text.filter Text.isInk = (leaves [] chosen).flatMap Leaf.ink := by
  rw [filter_text_rowsOf fun _ _ => isIndent_of_mem_margin, flatMap_ink hprints]

/-- **Layout keeps its contents.** Under any settings the output is the leaves of
the document for some choice of branches, printed in order and trimmed before each
line end that was written. Hence no line but the last ends in a space or a tab if
no text holds a line end, and what shows does not depend on the settings if there
is nothing to choose. Integer settings lay out every document that is made of
proper documents only and whose indentation can be made. -/
theorem layout_keeps_contents (doc : Doc) :
    (∀ settings out, layout settings doc = .ok out →
      ∃ chosen ps, doc.Resolves chosen ∧ List.Forall₂ Leaf.Prints (leaves [] chosen) ps ∧
        out = (rowsOf settings.margin ps).text) ∧
    (doc.all Doc.isOneLine = true → ∀ settings out, layout settings doc = .ok out →
      ∀ line ∈ (Text.lines out).dropLast, ∀ c ∈ line.getLast?, Text.isIndent c = false) ∧
    (doc.all Doc.isNoChoice = true → ∀ settings settings' out out',
      layout settings doc = .ok out → layout settings' doc = .ok out' →
      out.filter Text.isInk = out'.filter Text.isInk) ∧
    (∀ settings w t, settings.printWidth.int? = some w → settings.tabWidth.int? = some t →
      doc.all (Doc.isFeasible (settings.indents t)) = true →
      ∃ out, layout settings doc = .ok out) := by
  refine ⟨fun settings out h => exists_leaves_of_layout h, ?_, ?_,
    fun settings w t hw ht h => layout_ok hw ht h⟩
  · intro hall settings out h line hline
    obtain ⟨chosen, ps, hchosen, hprints, rfl⟩ := exists_leaves_of_layout h
    rw [lines_of_layout hchosen hprints hall, Rows.lines, List.dropLast_concat] at hline
    obtain ⟨row, -, rfl⟩ := List.mem_map.mp hline
    exact Text.getLast?_stripRight row.text
  · intro hall settings settings' out out' h h'
    obtain ⟨chosen, ps, hchosen, hprints, rfl⟩ := exists_leaves_of_layout h
    obtain ⟨chosen', ps', hchosen', hprints', rfl⟩ := exists_leaves_of_layout h'
    have hsame : chosen = chosen' :=
      (eq_of_resolves hchosen hall).symm.trans (eq_of_resolves hchosen' hall)
    rw [filter_isInk_of_layout hprints, filter_isInk_of_layout hprints', hsame]

/-- A fill that holds a broken group, on a narrow page and on a wide one with tabs. -/
theorem layout_keeps_contents_of_fill :
    let doc : Doc := .fill [.text "ab", .blankBreak,
      .group (.indent (.concat [.text "cd ", .hardBreak, .text "e"])) false,
      .concat [.text " ", .softBreak], .text "fgh", .blankBreak, .text "i"]
    let narrow : Settings := { printWidth := .int 4 }
    let wide : Settings := { useTabs := .bool true }
    narrow.layout doc = .ok "ab\ncd\n  e\nfgh\ni" ∧ wide.layout doc = .ok "ab\ncd\n\te\nfgh i" ∧
      (∃ chosen ps, doc.Resolves chosen ∧ List.Forall₂ Leaf.Prints (leaves [] chosen) ps ∧
        ("ab\ncd\n  e\nfgh\ni" : Text) = (rowsOf narrow.margin ps).text) ∧
      (∀ line ∈ (Text.lines "ab\ncd\n  e\nfgh\ni").dropLast, ∀ c ∈ line.getLast?,
        Text.isIndent c = false) ∧
      ("ab\ncd\n  e\nfgh\ni" : Text).filter Text.isInk =
        ("ab\ncd\n\te\nfgh i" : Text).filter Text.isInk ∧
      ∃ out, narrow.layout doc = .ok out := by
  intro doc narrow wide
  have hnarrow : narrow.layout doc = .ok "ab\ncd\n  e\nfgh\ni" := by decide +kernel
  have hwide : wide.layout doc = .ok "ab\ncd\n\te\nfgh i" := by decide +kernel
  obtain ⟨hleaves, hlines, hink, hfeasible⟩ := layout_keeps_contents doc
  exact ⟨hnarrow, hwide, hleaves _ _ hnarrow, hlines (by decide) _ _ hnarrow,
    hink (by decide) _ _ _ _ hnarrow hwide, hfeasible _ 4 2 rfl rfl (by decide)⟩

end HamlFormat.Settings
