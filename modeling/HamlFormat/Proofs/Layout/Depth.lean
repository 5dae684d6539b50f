import HamlFormat.Proofs.Layout.Completion
import HamlFormat.Proofs.Layout.Preservation
import HamlFormat.Proofs.Layout.Shift

/-!
# HamlFormat.Proofs.Layout.Depth

Layout does not depend on depth. A document that stands on lines of its own a
level deeper, on a page that is wider by that level, is laid out as it is by
itself: every line has one level of indentation more in front, but for blank
lines, which stay empty because they are trimmed (`layout_deeper_eq`).

The two layouts run in step (`run_shift`), the deeper one at columns moved by the
width of a level. What may not occur in the document is a part that starts anew
from the first column, as that would not move.
-/

namespace HamlFormat

/-- Lines behind a level of indentation. An empty line stays empty, but for the last
one, which no line end follows. -/
def Text.deepened (unit : Text) : List Text → List Text
  | [] => []
  | [last] => [unit ++ last]
  | line :: next :: rest =>
    (if line.isEmpty then [] else unit ++ line) :: deepened unit (next :: rest)

/-- Nothing that starts anew from the first column. -/
def Doc.isRootless : Doc → Bool
  | .root _ => false
  | _ => true

namespace Layout

/-! ## Margins a level deeper -/

theorem Indentation.text_append {α : Type} (page : Page α) (i j : Indentation) :
    text page (i ++ j) = text page j ++ text page i := by
  induction i with
  | nil => simp [text]
  | cons shift outer ih =>
      cases shift with
      | spaces count => simp [text, ih]
      | level =>
          simp only [List.cons_append, text, ih]
          cases page.level <;> simp

/-- Trimming lines behind a level: a blank line is empty with the level in front and
without. -/
theorem trimmedLines_deeper {margin : Indentation → Text} {base : Indentation} {unit : Text}
    (hunit : ∀ c ∈ unit, Text.isIndent c = true)
    (hmargin : ∀ i, margin (i ++ base) = unit ++ margin i) (lines : List (Indentation × Text)) :
    trimmedLines margin (lines.map fun line => (line.1 ++ base, line.2)) =
      Text.deepened unit (trimmedLines margin lines) := by
  induction lines with
  | nil => rfl
  | cons line rest ih =>
      cases rest with
      | nil => simp [trimmedLines, Text.deepened, hmargin]
      | cons next rest =>
          obtain ⟨first, others, hcons⟩ := exists_trimmedLines_eq_cons margin next rest
          have hline := Text.stripRight_margin hunit (margin line.1 ++ line.2)
          simp only [List.map_cons, trimmedLines, hmargin, List.append_assoc] at ih ⊢
          rw [ih, hline, hcons, Text.deepened]

end Layout

namespace Settings

open Layout

/-! ## The page wider by a level -/

/-- One level of indentation as text: a tab, or as many spaces as it has columns, if
that many can be made. -/
def unit (settings : Settings) (t : Int) : Except Fault Text :=
  if settings.useTabs.truthy then .ok "\t" else do return .repeated (← spaceCount t) ' '

/-- The level of a page is made if its text is, and fails as that does. -/
theorem level_page_cases {settings : Settings} {t : Int} (ht : settings.tabWidth.int? = some t) :
    (∃ fault, (settings.page Json.int?).level = .error fault ∧ settings.unit t = .error fault) ∨
    (settings.page Json.int?).level = .ok ⟨settings.marks t, t⟩ ∧
      settings.unit t = .ok (settings.marks t).text := by
  by_cases htabs : settings.useTabs.truthy = true
  · refine .inr ⟨level_page ht (by simp [indents, htabs]), ?_⟩
    simp [unit, marks, htabs, Marks.text]
  · simp only [page, columnsOf, ht, unit, marks, htabs, Bool.false_eq_true, if_false, Fault.ok_bind]
    cases hcount : spaceCount t with
    | error fault => exact .inl ⟨fault, rfl, rfl⟩
    | ok count =>
        rw [eq_toNat_of_spaceCount hcount]
        exact .inr ⟨rfl, rfl⟩

variable {settings : Settings} {w t : Int}

/-- Settings for a page of another width. -/
def withWidth (settings : Settings) (width : Int) : Settings :=
  { settings with printWidth := .int width }

theorem level_withWidth (width : Int) :
    ((settings.withWidth width).page Json.int?).level = (settings.page Json.int?).level :=
  rfl

theorem margin_withWidth (width : Int) (i : Indentation) :
    (settings.withWidth width).margin i = settings.margin i := by
  refine Indentation.text_congr ?_ i
  rfl

/-- Columns behind a level are moved by its width. -/
theorem columns_deeper (hlevel : (settings.page Json.int?).level = .ok ⟨settings.marks t, t⟩)
    (i : Indentation) :
    Indentation.columns ((settings.withWidth (w + t)).page Json.int?) (i ++ [.level]) =
      i.columns (settings.page Json.int?) + t := by
  have hlevel' := (level_withWidth (w + t)).trans hlevel
  induction i with
  | nil => simp [Indentation.columns, hlevel']
  | cons shift outer ih =>
      cases shift with
      | level => simp only [List.cons_append, Indentation.columns, hlevel, hlevel', ih]
      | spaces count => simp only [List.cons_append, Indentation.columns, ih]; omega

/-- **A layout can be carried over to a page wider by a level**, behind that level. -/
theorem carries_deeper (hw : settings.printWidth.int? = some w)
    (hlevel : (settings.page Json.int?).level = .ok ⟨settings.marks t, t⟩) :
    (settings.page Json.int?).Carries ((settings.withWidth (w + t)).page Json.int?) [.level]
      (· + t) where
  level h := ⟨_, h⟩
  room column := by
    have hwide : ((settings.withWidth (w + t)).page Json.int?).width = .ok (w + t) :=
      width_page rfl
    simp only [Page.room, width_page hw, hwide, Fault.ok_bind, Columns.distance]
    congr 1
    omega
  add column n := by omega
  columns _ := columns_deeper hlevel _

/-- The pieces a level deeper: a line end, and the pieces behind the level. -/
theorem pieces_deeper (hw : settings.printWidth.int? = some w)
    (hlevel : (settings.page Json.int?).level = .ok ⟨settings.marks t, t⟩) {doc : Doc}
    (hproper : doc.all Doc.isProper = true) (hrootless : doc.all Doc.isRootless = true) :
    pieces ((settings.withWidth (w + t)).page Json.int?) (.indent (.concat [.hardBreak, doc])) =
      (pieces (settings.page Json.int?) doc).map fun ps =>
        .newline [.level] :: ps.map (Piece.shift [.level]) := by
  have hmovable : doc.raise.all (isMovable [.level]) = true := by
    rw [Doc.all_raise (fun d => by cases d <;> rfl)]
    refine Doc.all_mono (fun d hd => ?_) hrootless
    cases d with
    | root contents => cases hd
    | _ => rfl
  have hdeeper : (Doc.indent (.concat [.hardBreak, doc])).all Doc.isProper = true := by
    simpa [Doc.all, Doc.listAll, Doc.isProper, Doc.hardBreak] using hproper
  -- The first steps end the line; what is left is the document behind the level.
  have hstart : (Machine.start (Doc.indent (.concat [.hardBreak, doc])).raise).run
      ((settings.withWidth (w + t)).page Json.int?) =
      ((Machine.start doc.raise).shift [.level] (· + t) [.newline [.level]]).run
        ((settings.withWidth (w + t)).page Json.int?) := by
    have hlevel' := (level_withWidth (w + t)).trans hlevel
    simp only [Machine.start, Doc.raise, Doc.listRaise, Doc.hardBreak]
    rw [Machine.run_of_work (by simp)]
    simp only [Machine.step, perform, hlevel', Fault.ok_bind]
    rw [Machine.run_of_work (by simp)]
    simp only [Machine.step, perform, Fault.ok_bind, List.map_cons, List.cons_append]
    rw [Machine.run_of_work (by simp)]
    simp [Machine.step, perform, Fault.ok_bind, Machine.shift, Command.shift, hlevel',
      Indentation.columns]
  have hmade : ∀ command ∈ (Machine.start doc.raise : Machine Int).pending,
      command.indentation.IsMade (settings.page Json.int?) := fun _ _ _ => ⟨_, hlevel⟩
  have hrun := run_shift (carries_deeper hw hlevel) [.newline [.level]] (Machine.start doc.raise)
    (by simpa [Machine.start] using hmovable) hmade
  obtain ⟨fault, hlacks, -⟩ | hrun := hrun
  · rw [hlevel] at hlacks
    cases hlacks
  · rw [pieces, pieces, Doc.settle_eq hdeeper, Doc.settle_eq hproper]
    simp only [Fault.ok_bind, hstart, hrun]
    cases (Machine.start doc.raise : Machine Int).run (settings.page Json.int?) with
    | error fault => rfl
    | ok final =>
        simp [Except.map, Machine.shift, bind, Except.bind, pure, Except.pure, List.map_reverse]

/-- Nothing is laid out a level deeper where there are no levels. -/
theorem pieces_indent_error {page : Page Int} {fault : Fault} (hlevel : page.level = .error fault)
    {contents : Doc} (h : contents.all Doc.isProper = true) :
    pieces page (.indent contents) = .error fault := by
  have hproper : (Doc.indent contents).all Doc.isProper = true := by
    simpa [Doc.all, Doc.isProper] using h
  rw [pieces, Doc.settle_eq hproper]
  simp only [Fault.ok_bind, Machine.start, Doc.raise]
  rw [Machine.run_of_work (by simp)]
  simp only [Machine.step, perform, hlevel]
  rfl

/-- The text of pieces a level deeper: a line end, and their lines behind the level. -/
theorem text_rowsOf_deeper (hlevel : (settings.page Json.int?).level = .ok ⟨settings.marks t, t⟩)
    (hwhole : settings.isFractional = false) (ps : List Piece) :
    (rowsOf settings.margin (.newline [.level] :: ps.map (Piece.shift [.level]))).text =
      "\n" ++ List.intercalate "\n"
        (Text.deepened (settings.marks t).text (rowsOf settings.margin ps).lines) := by
  have hmargin : ∀ i, settings.margin (i ++ [.level]) =
      (settings.marks t).text ++ settings.margin i := by
    intro i
    rw [← text_page_eq hwhole, Indentation.text_append]
    simp [Indentation.text, hlevel]
  have hlines : writtenLines ([.level], []) (ps.map (Piece.shift [.level])) =
      (writtenLines ([], []) ps).map fun line => (line.1 ++ [.level], line.2) :=
    writtenLines_shift [.level] [] [] ps
  obtain ⟨line, rest, hwritten⟩ := exists_writtenLines_eq_cons ([], []) ps
  rw [Rows.text_eq_intercalate, lines_rowsOf rfl, lines_rowsOf rfl, writtenLines, hlines,
    ← trimmedLines_deeper (fun _ => Marks.isIndent_of_mem) hmargin, hwritten, List.map_cons,
    trimmedLines]
  obtain ⟨first, others, htrimmed⟩ := exists_trimmedLines_eq_cons settings.margin
    (line.1 ++ [.level], line.2) (rest.map fun line => (line.1 ++ [.level], line.2))
  rw [htrimmed, List.intercalate_cons_cons]
  rfl

/-- **Layout does not depend on depth.** A document on lines of its own a level deeper,
on a page wider by that level, is laid out as by itself with the level in front of
every line, but for blank ones. Both fail alike, and also if the level cannot be
made; if it can and the document can be laid out, both succeed. -/
theorem layout_deeper_eq (hw : settings.printWidth.int? = some w)
    (ht : settings.tabWidth.int? = some t) {doc : Doc} (hproper : doc.all Doc.isProper = true)
    (hrootless : doc.all Doc.isRootless = true) (hone : doc.all Doc.isOneLine = true) :
    (settings.withWidth (w + t)).layout (.indent (.concat [.hardBreak, doc])) = (do
      let unit ← settings.unit t
      let out ← settings.layout doc
      return "\n" ++ List.intercalate "\n" (Text.deepened unit (Text.lines out))) ∧
    (settings.indents t = true → doc.all (Doc.isFeasible true) = true →
      ∃ out, settings.layout doc = .ok out ∧
        (settings.withWidth (w + t)).layout (.indent (.concat [.hardBreak, doc])) =
          .ok ("\n" ++ List.intercalate "\n"
            (Text.deepened (settings.marks t).text (Text.lines out)))) := by
  have hwhole : settings.isFractional = false := isFractional_of_int hw ht
  have hwide : (settings.withWidth (w + t)).isFractional = false := isFractional_of_int rfl ht
  have heq : (settings.withWidth (w + t)).layout (.indent (.concat [.hardBreak, doc])) = (do
      let unit ← settings.unit t
      let out ← settings.layout doc
      return "\n" ++ List.intercalate "\n" (Text.deepened unit (Text.lines out))) := by
    rw [layout_of_whole hwide, layout_of_whole hwhole]
    obtain ⟨fault, hlevel, hunit⟩ | ⟨hlevel, hunit⟩ := level_page_cases ht
    · have hcontents : (Doc.concat [.hardBreak, doc]).all Doc.isProper = true := by
        simpa [Doc.all, Doc.listAll, Doc.isProper, Doc.hardBreak] using hproper
      rw [pieces_indent_error ((level_withWidth (w + t)).trans hlevel) hcontents, hunit]
      rfl
    · rw [pieces_deeper hw hlevel hproper hrootless, hunit]
      cases hps : pieces (settings.page Json.int?) doc with
      | error fault => rfl
      | ok ps =>
          obtain ⟨chosen, hchosen, hprints⟩ := pieces_print_leaves hps
          have hlines : Text.lines (rowsOf settings.margin ps).text =
              (rowsOf settings.margin ps).lines := lines_of_layout hchosen hprints hone
          have hmargin : (settings.withWidth (w + t)).margin = settings.margin :=
            funext (margin_withWidth (w + t))
          simp only [Except.map, hmargin, text_rowsOf_deeper hlevel hwhole, ← hlines]
          rfl
  refine ⟨heq, fun hindents hfeasible => ?_⟩
  obtain ⟨out, hout⟩ := layout_ok hw ht (by rw [hindents]; exact hfeasible)
  refine ⟨out, hout, ?_⟩
  obtain ⟨fault, hlevel, -⟩ | ⟨-, hunit⟩ := level_page_cases ht
  · rw [level_page ht hindents] at hlevel
    cases hlevel
  · rw [heq, hunit, hout]
    rfl

/-- A blank line, a group that breaks at either depth, and an empty last line. -/
theorem layout_deeper_eq_broken_group :
    let settings : Settings := { printWidth := .int 5 }
    let doc : Doc := .concat [.text "ab", .hardBreak, .text " ", .hardBreak,
      .group (.indent (.concat [.text "cd", .blankBreak, .text "efg"])) false, .hardBreak]
    settings.layout doc = .ok "ab\n\ncd\n  efg\n" ∧
      (settings.withWidth 7).layout (.indent (.concat [.hardBreak, doc])) =
        .ok "\n  ab\n\n  cd\n    efg\n  " := by
  intro settings doc
  have hlayout : settings.layout doc = .ok "ab\n\ncd\n  efg\n" := by decide +kernel
  obtain ⟨heq, -⟩ := @layout_deeper_eq settings 5 2 rfl rfl doc (by decide) (by decide) (by decide)
  rw [hlayout] at heq
  exact ⟨hlayout, heq.trans (by decide +kernel)⟩

end Settings

end HamlFormat
