import HamlFormat.Proofs.Layout.Completion
import HamlFormat.Proofs.Layout.Preservation
import HamlFormat.Proofs.Layout.Shift

/-!
# HamlFormat.Proofs.Layout.Tabs

Tabs or spaces make no difference to where lines break. A level of indentation
counts for the same columns either way, so layouts with tabs and with spaces run
in step, and their pieces are the same (`pieces_eq_or_lacks`). Their lines are
therefore the same lines, each the rendering of one indentation followed by one
text, or empty in both (`layout_tabs_spaces`). Only a level of so many spaces that
they cannot be made sets the two apart.
-/

namespace HamlFormat

namespace Layout

/-! ## Lines and their renderings -/

/-- The text of an indentation with a given text for each of its levels. -/
def Indentation.rendered (level : Text) : Indentation → Text
  | [] => []
  | .level :: outer => rendered level outer ++ level
  | .spaces count :: outer => rendered level outer ++ .repeated count ' '

/-- The text of a line: its indentation and what follows, or nothing. -/
def lineText (level : Text) : Option (Indentation × Text) → Text
  | none => []
  | some (path, body) => path.rendered level ++ body

/-- What is left of written lines: nothing of a blank one, unless it is the last, and
else the line without the spaces and tabs at its end. -/
def shownLines : List (Indentation × Text) → List (Option (Indentation × Text))
  | [] => []
  | [last] => [some last]
  | line :: next :: rest =>
    let body := Text.stripRight Text.isIndent line.2
    (if body.isEmpty then none else some (line.1, body)) :: shownLines (next :: rest)

/-- Trimming a line behind its margin shows the line. -/
theorem trimmedLines_eq_map {margin : Indentation → Text} {level : Text}
    (hmargin : ∀ i, ∀ c ∈ margin i, Text.isIndent c = true) {lines : List (Indentation × Text)}
    (h : ∀ line ∈ lines, margin line.1 = line.1.rendered level) :
    trimmedLines margin lines = (shownLines lines).map (lineText level) := by
  induction lines with
  | nil => rfl
  | cons line rest ih =>
      rw [List.forall_mem_cons] at h
      cases rest with
      | nil => simp [trimmedLines, shownLines, lineText, h.1]
      | cons next rest =>
          rw [trimmedLines, shownLines, ih h.2, Text.stripRight_margin (hmargin line.1)]
          by_cases hblank : (Text.stripRight Text.isIndent line.2).isEmpty = true
          · simp [hblank, lineText]
          · simp [hblank, lineText, h.1]

/-- The indentation of a written line is that of the first one, or a line end gives
it. -/
theorem mem_writtenLines {current line : Indentation × Text} {ps : List Piece}
    (h : line ∈ writtenLines current ps) : line.1 = current.1 ∨ .newline line.1 ∈ ps := by
  induction ps generalizing current with
  | nil =>
      have hline : line = current := by simpa [writtenLines] using h
      exact .inl (by rw [hline])
  | cons piece ps ih =>
      cases piece with
      | text s =>
          have hrest := ih h
          simpa using hrest
      | unbroken soft =>
          have hrest := ih h
          simpa using hrest
      | newline i =>
          rw [writtenLines, List.mem_cons] at h
          obtain rfl | h := h
          · exact .inl rfl
          · refine .inr ?_
            obtain hfirst | hlater := ih h
            · simp [hfirst]
            · simp [hlater]

/-! ## Indentations that are made -/

variable {α : Type} [Columns α] {page page' : Page α}

/-- The text of an indentation that can be made. -/
theorem Indentation.text_eq_rendered {α : Type} {page : Page α} {text : Text}
    (hlevel : ∀ level, page.level = .ok level → level.marks.text = text) {i : Indentation}
    (h : i.IsMade page) : i.text page = i.rendered text := by
  induction i with
  | nil => rfl
  | cons shift outer ih =>
      have houter : IsMade page outer := fun hmem => h (List.mem_cons_of_mem _ hmem)
      cases shift with
      | spaces count => rw [Indentation.text, rendered, ih houter]; rfl
      | level =>
          obtain ⟨level, hok⟩ := h List.mem_cons_self
          simp only [Indentation.text, rendered, ih houter, hok, hlevel level hok]

/-- Line ends are written with indentations that can be made. -/
theorem Step.isMade_pieces {machine next : Machine α} (h : Step page machine next)
    (hmade : ∀ command ∈ machine.pending, command.indentation.IsMade page)
    (hpieces : ∀ i, .newline i ∈ machine.pieces → i.IsMade page) :
    ∀ i, .newline i ∈ next.pieces → i.IsMade page := by
  cases h with
  | newline =>
      rw [List.forall_mem_cons] at hmade
      intro j hj
      obtain hnew | hold := List.mem_cons.mp hj
      · cases hnew
        exact hmade.1
      · exact hpieces j hold
  | _ => simpa using hpieces

/-- All indentations of a layout can be made. -/
theorem isMade_of_pieces {doc : Doc} {ps : List Piece} (h : pieces page doc = .ok ps) :
    ∀ i, .newline i ∈ ps → i.IsMade page := by
  obtain ⟨final, hreaches, -, rfl⟩ := reaches_of_pieces h
  have hstart : ∀ command ∈ (Machine.start doc.raise : Machine α).pending,
      command.indentation.IsMade page := by
    simp [Machine.start, Indentation.IsMade]
  have hfinal : (∀ command ∈ final.pending, command.indentation.IsMade page) ∧
      ∀ i, .newline i ∈ final.pieces → i.IsMade page := by
    clear h
    induction hreaches with
    | refl => exact ⟨hstart, fun i hi => by cases hi⟩
    | tail _ hstep ih => exact ⟨hstep.isMade ih.1, hstep.isMade_pieces ih.1 ih.2⟩
  intro i hi
  exact hfinal.2 i (List.mem_reverse.mp hi)

/-! ## Pages with the same columns -/

theorem Machine.shift_nil {β : Type} :
    (Machine.shift [] id [] : Machine β → Machine β) = id := by
  have hpieces : Piece.shift [] = id := funext Piece.shift_nil
  have hcommands : Command.shift [] = id := funext Command.shift_nil
  funext machine
  simp [shift, hpieces, hcommands]

/-- **Pages with the same columns give the same pieces**, unless the first one lacks a
level. -/
theorem pieces_eq_or_lacks (h : page.Carries page' [] id) (doc : Doc) :
    page.Lacks (pieces page doc) ∨ pieces page' doc = pieces page doc := by
  cases hsettle : doc.settle with
  | error fault =>
      refine .inr ?_
      simp only [pieces, hsettle]
      rfl
  | ok settled =>
      have hmovable : settled.1.all (isMovable []) = true := by
        have hproper := Doc.all_isProper_of_settle hsettle
        rw [Doc.settle_eq hproper] at hsettle
        cases hsettle
        rw [Doc.all_raise (fun d => by cases d <;> rfl)]
        refine Doc.all_mono (fun d _ => ?_) hproper
        cases d <;> rfl
      have hrun := run_shift h [] (Machine.start settled.1)
        (by simpa [Machine.start] using hmovable) (by simp [Machine.start, Indentation.IsMade])
      simp only [pieces, hsettle, Fault.ok_bind]
      obtain ⟨fault, hlevel, hfails⟩ | hrun := hrun
      · refine .inl ⟨fault, hlevel, ?_⟩
        rw [hfails]
        rfl
      · refine .inr ?_
        rw [Machine.shift_nil, Except.map_id, id_eq, id_eq] at hrun
        rw [hrun]

end Layout

namespace Settings

open Layout

/-- Settings with another choice between tabs and spaces. -/
def withTabs (settings : Settings) (tabs : Json) : Settings :=
  { settings with useTabs := tabs }

theorem isFractional_withTabs {settings : Settings} {t : Int}
    (ht : settings.tabWidth.int? = some t) (tabs : Json) :
    (settings.withTabs tabs).isFractional = settings.isFractional := by
  have hfloat : ∀ x, settings.tabWidth ≠ .float x := by
    intro x hx
    rw [hx] at ht
    cases ht
  simp only [isFractional, withTabs]
  cases settings.printWidth <;> cases hwidth : settings.tabWidth <;> simp_all

theorem ofJson?_of_int {value : Json} {t : Int} (h : value.int? = some t) :
    Measure.ofJson? value = some (.whole t) := by
  cases value <;> simp_all [Json.int?, Measure.ofJson?]

section

variable {α : Type} {settings : Settings} {columns? : Json → Option α} {c : α} {t : Int}

/-- A level of spaces is made if the spaces are. -/
theorem level_page_spaces (hspaces : settings.useTabs.truthy = false)
    (ht : settings.tabWidth.int? = some t) (hc : columns? settings.tabWidth = some c) :
    (settings.page columns?).level = (spaceCount t).map fun count => ⟨.spaces count, c⟩ := by
  simp only [page, columnsOf, ht, hc, hspaces, Bool.false_eq_true, if_false, Fault.ok_bind]
  cases spaceCount t <;> rfl

/-- What a level of spaces is made of. -/
theorem exists_spaceCount_of_level (hspaces : settings.useTabs.truthy = false)
    (ht : settings.tabWidth.int? = some t) (hc : columns? settings.tabWidth = some c)
    {level : Level α} (h : (settings.page columns?).level = .ok level) :
    spaceCount t = .ok t.toNat ∧ level = ⟨.spaces t.toNat, c⟩ := by
  rw [level_page_spaces hspaces ht hc] at h
  cases hcount : spaceCount t with
  | error fault => rw [hcount] at h; cases h
  | ok count =>
      rw [hcount] at h
      cases h
      rw [eq_toNat_of_spaceCount hcount]
      exact ⟨rfl, rfl⟩

/-- A tab can always be made. -/
theorem level_page_tabs (htabs : settings.useTabs.truthy = true)
    (hc : columns? settings.tabWidth = some c) :
    (settings.page columns?).level = .ok ⟨.tab, c⟩ := by
  simp only [page, columnsOf, hc, htabs, if_true, Fault.ok_bind]
  rfl

/-- The margin of an indentation that can be made of spaces. -/
theorem margin_spaces (hspaces : settings.useTabs.truthy = false)
    (ht : settings.tabWidth.int? = some t) (hc : columns? settings.tabWidth = some c)
    {i : Indentation} (h : i.IsMade (settings.page columns?)) :
    settings.margin i = i.rendered (.repeated t.toNat ' ') := by
  have hmeasure := ofJson?_of_int ht
  refine Indentation.text_eq_rendered (fun level hok => ?_) (fun hmem => ?_)
  · rw [(exists_spaceCount_of_level hspaces ht hmeasure hok).2]
    rfl
  · obtain ⟨level, hok⟩ := h hmem
    obtain ⟨hcount, -⟩ := exists_spaceCount_of_level hspaces ht hc hok
    rw [level_page_spaces hspaces ht hmeasure, hcount]
    exact ⟨_, rfl⟩

/-- The margin of an indentation of tabs. -/
theorem margin_tabs (htabs : settings.useTabs.truthy = true)
    (ht : settings.tabWidth.int? = some t) (i : Indentation) :
    settings.margin i = i.rendered "\t" := by
  have hlevel := level_page_tabs htabs (ofJson?_of_int ht)
  refine Indentation.text_eq_rendered (fun level hok => ?_) (fun _ => ⟨_, hlevel⟩)
  rw [hlevel] at hok
  cases hok
  rfl

variable [Columns α]

/-- **A layout with spaces can be carried over to tabs**: a level counts for as many
columns. -/
theorem carries_tabs (hspaces : settings.useTabs.truthy = false) {tabs : Json}
    (htabs : tabs.truthy = true) (ht : settings.tabWidth.int? = some t)
    (hc : columns? settings.tabWidth = some c) :
    (settings.page columns?).Carries ((settings.withTabs tabs).page columns?) [] id where
  level _ := ⟨_, level_page_tabs htabs hc⟩
  room _ := rfl
  add _ _ := rfl
  columns {i} h := by
    have hlevel : ((settings.withTabs tabs).page columns?).level = .ok ⟨.tab, c⟩ :=
      level_page_tabs htabs hc
    rw [List.append_nil, id_eq]
    induction i with
    | nil => rfl
    | cons shift outer ih =>
        have houter : Indentation.IsMade (settings.page columns?) outer :=
          fun hmem => h (List.mem_cons_of_mem _ hmem)
        cases shift with
        | spaces count => rw [Indentation.columns, Indentation.columns, ih houter]
        | level =>
            obtain ⟨level, hok⟩ := h List.mem_cons_self
            have hmade := (exists_spaceCount_of_level hspaces ht hc hok).2
            simp only [Indentation.columns, hlevel, hok, hmade, ih houter]

/-- The lines of a layout whose margins are renderings. -/
theorem lines_of_pieces {page : Page α} {doc : Doc} {ps : List Piece} {level : Text}
    (h : pieces page doc = .ok ps) (hone : doc.all Doc.isOneLine = true)
    (hmargin : ∀ i : Indentation, i.IsMade page → settings.margin i = i.rendered level) :
    Text.lines (rowsOf settings.margin ps).text =
      (shownLines (writtenLines ([], []) ps)).map (lineText level) := by
  obtain ⟨chosen, hchosen, hprints⟩ := pieces_print_leaves h
  rw [lines_of_layout hchosen hprints hone, lines_rowsOf rfl]
  refine trimmedLines_eq_map (fun _ _ => isIndent_of_mem_margin) fun line hline => ?_
  refine hmargin line.1 ?_
  obtain hfirst | hnewline := mem_writtenLines hline
  · rw [hfirst]
    intro hmem
    cases hmem
  · exact isMade_of_pieces h line.1 hnewline

/-- The lines of layouts with spaces and with tabs, whatever columns are counted by. -/
theorem lines_tabs_spaces (hspaces : settings.useTabs.truthy = false) {tabs : Json}
    (htabs : tabs.truthy = true) (ht : settings.tabWidth.int? = some t)
    (hc : columns? settings.tabWidth = some c) {doc : Doc}
    (hone : doc.all Doc.isOneLine = true) :
    (∃ fault, spaceCount t = .error fault ∧
      ((pieces (settings.page columns?) doc).map fun ps =>
        (rowsOf settings.margin ps).text) = .error fault) ∨
    ∃ lines : Except Fault (List (Option (Indentation × Text))),
      ((pieces (settings.page columns?) doc).map fun ps =>
        (rowsOf settings.margin ps).text).map Text.lines =
          lines.map (List.map (lineText (.repeated t.toNat ' '))) ∧
      ((pieces ((settings.withTabs tabs).page columns?) doc).map fun ps =>
        (rowsOf (settings.withTabs tabs).margin ps).text).map Text.lines =
          lines.map (List.map (lineText "\t")) := by
  have htabsMargin : ∀ i, (settings.withTabs tabs).margin i = i.rendered "\t" :=
    @margin_tabs (settings.withTabs tabs) t htabs ht
  obtain ⟨fault, hlevel, hfails⟩ | hsame :=
    pieces_eq_or_lacks (carries_tabs hspaces htabs ht hc) doc
  · refine .inl ⟨fault, ?_, by rw [hfails]; rfl⟩
    rw [level_page_spaces hspaces ht hc] at hlevel
    cases hcount : spaceCount t with
    | error fault' => rw [hcount] at hlevel; cases hlevel; rfl
    | ok count => rw [hcount] at hlevel; cases hlevel
  · refine .inr ⟨(pieces (settings.page columns?) doc).map fun ps =>
      shownLines (writtenLines ([], []) ps), ?_⟩
    rw [hsame]
    cases hps : pieces (settings.page columns?) doc with
    | error fault => exact ⟨rfl, rfl⟩
    | ok ps =>
        have hlines := lines_of_pieces hps hone fun i => margin_spaces hspaces ht hc
        have hlinesTabs := lines_of_pieces (hsame.trans hps) hone fun i _ => htabsMargin i
        exact ⟨congrArg Except.ok hlines, congrArg Except.ok hlinesTabs⟩

end

/-- **Tabs or spaces make no difference to where lines break.** The lines with spaces
and the lines with tabs render the same list of indentations and texts, with as many
spaces for a level as it has columns or with a tab, or both layouts fail alike. Only
spaces that cannot be made set them apart; if they can and the document can be laid
out, both layouts succeed. -/
theorem layout_tabs_spaces {settings : Settings} {t : Int}
    (ht : settings.tabWidth.int? = some t) (hspaces : settings.useTabs.truthy = false)
    {tabs : Json} (htabs : tabs.truthy = true) {doc : Doc}
    (hone : doc.all Doc.isOneLine = true) :
    ((∃ fault, spaceCount t = .error fault ∧ settings.layout doc = .error fault) ∨
      ∃ lines : Except Fault (List (Option (Indentation × Text))),
        (settings.layout doc).map Text.lines =
          lines.map (List.map (lineText (.repeated t.toNat ' '))) ∧
        ((settings.withTabs tabs).layout doc).map Text.lines =
          lines.map (List.map (lineText "\t"))) ∧
    (∀ w, settings.printWidth.int? = some w → settings.indents t = true →
      doc.all (Doc.isFeasible true) = true → ∃ out out',
        settings.layout doc = .ok out ∧ (settings.withTabs tabs).layout doc = .ok out') := by
  have hsame := isFractional_withTabs ht tabs
  constructor
  · by_cases hfractional : settings.isFractional = true
    · rw [layout_of_fractional hfractional, layout_of_fractional (hsame.trans hfractional)]
      exact lines_tabs_spaces hspaces htabs ht (ofJson?_of_int ht) hone
    · have hwhole : settings.isFractional = false := by simpa using hfractional
      rw [layout_of_whole hwhole, layout_of_whole (hsame.trans hwhole)]
      exact lines_tabs_spaces hspaces htabs ht ht hone
  · intro w hw hindents hfeasible
    have htabsIndent : (settings.withTabs tabs).indents t = true := by
      simp [indents, withTabs, htabs]
    obtain ⟨out, hout⟩ := layout_ok hw ht (by rw [hindents]; exact hfeasible)
    obtain ⟨out', hout'⟩ := @layout_ok (settings.withTabs tabs) w t hw ht doc
      (by rw [htabsIndent]; exact hfeasible)
    exact ⟨out, out', hout, hout'⟩

/-- A group inside a level and an alignment that breaks with spaces and with tabs, a
blank line and an indented last line. -/
theorem layout_tabs_spaces_of_align :
    let settings : Settings := { printWidth := .int 8, tabWidth := .int 4 }
    let doc : Doc := .indent (.concat [.text "if", .hardBreak,
      .group (.align 2 (.concat [.text "ab", .blankBreak, .text "cd"])) false, .hardBreak,
      .text " ", .hardBreak])
    settings.layout doc = .ok "if\n    ab\n      cd\n\n    " ∧
      (settings.withTabs (.bool true)).layout doc = .ok "if\n\tab\n\t  cd\n\n\t" ∧
      ∃ lines : Except Fault (List (Option (Indentation × Text))),
        (settings.layout doc).map Text.lines =
          lines.map (List.map (lineText (.repeated 4 ' '))) ∧
        ((settings.withTabs (.bool true)).layout doc).map Text.lines =
          lines.map (List.map (lineText "\t")) := by
  intro settings doc
  refine ⟨by decide +kernel, by decide +kernel, ?_⟩
  obtain ⟨⟨fault, hcount, -⟩ | hlines, -⟩ :=
    @layout_tabs_spaces settings 4 rfl (by decide) (.bool true) (by decide) doc (by decide)
  · cases hcount
  · exact hlines

/-- A level of spaces that is too wide to be made fails even where no line has it, and a tab
of that width does not. -/
theorem layout_tabs_ne_spaces_of_wide_level :
    let settings : Settings := { tabWidth := .int countLimit }
    let doc : Doc := .indent (.text "a")
    0 ≤ countLimit ∧ doc.all Doc.isOneLine = true ∧ settings.layout doc = .error .overflow ∧
      (settings.withTabs (.bool true)).layout doc = .ok "a" := by
  decide +kernel

end Settings

end HamlFormat
