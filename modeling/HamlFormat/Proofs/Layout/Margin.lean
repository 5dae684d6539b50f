import HamlFormat.Proofs.Fault
import HamlFormat.Proofs.Layout.Rows
import HamlFormat.Settings

/-!
# HamlFormat.Proofs.Layout.Margin

The page that settings describe and the margins on it. Settings with a fraction
in them lay out by measures and others by integers; the margin of an indentation
is the same text either way (`text_page_eq`), made of spaces and tabs only. What
is laid out under any settings is therefore the text of rows with these margins
(`exists_pieces_of_layout`).
-/

namespace HamlFormat

open Layout

/-! ## Runs of spaces -/

/-- A run of spaces that can be made is as long as asked for. -/
theorem eq_toNat_of_spaceCount {n : Int} {count : Nat} (h : spaceCount n = .ok count) :
    count = n.toNat := by
  unfold spaceCount at h
  split at h
  · cases h
  · split at h <;> cases h
    rfl

/-- A run of spaces can be made if it fits in memory. -/
theorem spaceCount_ok {n : Int} (hlow : -countLimit ≤ n) (hhigh : n < memoryLimit) :
    spaceCount n = .ok n.toNat := by
  unfold countLimit memoryLimit at *
  rw [spaceCount, if_neg (by unfold countLimit; omega), if_neg (by unfold memoryLimit; omega)]

/-! ## Margins -/

/-- The characters of a level are spaces or tabs. -/
theorem Layout.Marks.isIndent_of_mem {marks : Marks} {c : CodePoint} (h : c ∈ marks.text) :
    Text.isIndent c = true := by
  cases marks with
  | tab =>
      have hc : c = CodePoint.ofChar '\t' := by simpa [text, Text.ofString] using h
      rw [hc]
      decide
  | spaces count =>
      rw [(List.mem_replicate.mp h).2]
      decide

/-- The characters of an indentation are spaces or tabs. -/
theorem Layout.Indentation.isIndent_of_mem {α : Type} {page : Page α} {i : Indentation}
    {c : CodePoint} (h : c ∈ i.text page) : Text.isIndent c = true := by
  induction i with
  | nil => cases h
  | cons shift outer ih =>
      cases shift with
      | level =>
          rw [text] at h
          split at h
          · exact (List.mem_append.mp h).elim ih Marks.isIndent_of_mem
          · exact ih h
      | spaces count =>
          rw [text] at h
          exact (List.mem_append.mp h).elim ih Marks.isIndent_of_mem

/-- An indentation stays on one line. -/
theorem Layout.Indentation.isOneLine_text {α : Type} (page : Page α) (i : Indentation) :
    (i.text page).isOneLine = true := by
  rw [Text.isOneLine, List.all_eq_true]
  intro c hc
  rw [bne_iff_ne]
  rintro rfl
  have := isIndent_of_mem hc
  rw [Text.isIndent_newline] at this
  cases this

/-- The text of an indentation depends on the characters of a level alone. -/
theorem Layout.Indentation.text_congr {α β : Type} {page : Page α} {page' : Page β}
    (h : page.level.map Level.marks = page'.level.map Level.marks) (i : Indentation) :
    i.text page = i.text page' := by
  induction i with
  | nil => rfl
  | cons shift outer ih =>
      cases shift with
      | spaces count => rw [text, text, ih]
      | level =>
          rw [text, text, ih]
          cases hlevel : page.level with
          | error fault =>
              cases hlevel' : page'.level with
              | error fault' => rfl
              | ok level' => rw [hlevel, hlevel'] at h; cases h
          | ok level =>
              cases hlevel' : page'.level with
              | error fault' => rw [hlevel, hlevel'] at h; cases h
              | ok level' =>
                  rw [hlevel, hlevel'] at h
                  have hmarks : level.marks = level'.marks := Except.ok.inj h
                  simp only [hmarks]

namespace Settings

/-- The text of an indentation under settings. Measures count integers as well, so
they serve for all settings. -/
def margin (settings : Settings) (i : Indentation) : Text :=
  i.text (settings.page Measure.ofJson?)

/-- Margins are made of spaces and tabs. -/
theorem isIndent_of_mem_margin {settings : Settings} {i : Indentation} {c : CodePoint}
    (h : c ∈ settings.margin i) : Text.isIndent c = true :=
  Indentation.isIndent_of_mem h

/-- A margin stays on one line. -/
theorem isOneLine_margin (settings : Settings) (i : Indentation) :
    (settings.margin i).isOneLine = true :=
  Indentation.isOneLine_text _ i

/-! ## Pages -/

/-- Whole columns and measures give a level the same characters. -/
theorem marks_page_eq {settings : Settings} (h : settings.isFractional = false) :
    (settings.page Json.int?).level.map Level.marks =
      (settings.page Measure.ofJson?).level.map Level.marks := by
  have htabs : settings.useTabs.truthy = true → ∀ x, settings.tabWidth ≠ .float x := by
    intro htabs x hx
    unfold isFractional at h
    rw [hx, htabs] at h
    split at h <;> simp_all
  simp only [page]
  split
  · next htrue =>
    have hfloat := htabs htrue
    cases hwidth : settings.tabWidth with
    | float x => exact absurd hwidth (hfloat x)
    | _ => rfl
  · cases hwidth : settings.tabWidth with
    | int n =>
        simp only [columnsOf, Json.int?, Measure.ofJson?, bind, Except.bind, Option.map]
        cases spaceCount n <;> rfl
    | bool b =>
        simp only [columnsOf, Json.int?, Measure.ofJson?, bind, Except.bind, Option.map]
        cases spaceCount _ <;> rfl
    | _ => rfl

/-- The margins of a page with whole columns are those of the settings. -/
theorem text_page_eq {settings : Settings} (h : settings.isFractional = false) :
    Indentation.text (settings.page Json.int?) = settings.margin :=
  funext fun i => Indentation.text_congr (marks_page_eq h) i

/-- Integer settings lay out by whole columns. -/
theorem isFractional_of_int {settings : Settings} {w t : Int}
    (hw : settings.printWidth.int? = some w) (ht : settings.tabWidth.int? = some t) :
    settings.isFractional = false := by
  unfold isFractional
  split
  · next hfloat => rw [hfloat] at hw; cases hw
  · next hfloat _ => rw [hfloat] at ht; cases ht
  · rfl

/-- The width of the page of integer settings. -/
theorem width_page {settings : Settings} {w : Int} (hw : settings.printWidth.int? = some w) :
    (settings.page Json.int?).width = .ok w := by
  simp only [page, columnsOf, hw]

/-- An integer is the same whole measure. -/
theorem measure_of_int {value : Json} {n : Int} (h : value.int? = some n) :
    Measure.ofJson? value = some (n : Measure) := by
  cases value with
  | float x => cases h
  | _ => simp only [Measure.ofJson?, h]; rfl

/-- The same width among measures. -/
theorem width_page_measure {settings : Settings} {w : Int}
    (hw : settings.printWidth.int? = some w) :
    (settings.page Measure.ofJson?).width = .ok (w : Measure) := by
  simp only [page, columnsOf, measure_of_int hw]

/-- Whether settings with a level of so many columns can indent: by a tab, or by
spaces that fit in memory. -/
def indents (settings : Settings) (t : Int) : Bool :=
  settings.useTabs.truthy || (-countLimit ≤ t && t < memoryLimit)

/-- The characters of a level of so many columns. -/
def marks (settings : Settings) (t : Int) : Marks :=
  if settings.useTabs.truthy then .tab else .spaces t.toNat

/-- A level of indentation of integer settings that can indent. -/
theorem level_page {settings : Settings} {t : Int} (ht : settings.tabWidth.int? = some t)
    (h : settings.indents t = true) :
    (settings.page Json.int?).level = .ok ⟨settings.marks t, t⟩ := by
  simp only [page, columnsOf, ht, marks]
  rw [indents] at h
  split
  · rfl
  · next htabs =>
    simp only [htabs, Bool.false_or, Bool.and_eq_true, decide_eq_true_eq] at h
    simp only [bind, Except.bind, spaceCount_ok h.1 h.2]
    rfl

/-- A level that is made is one that the settings can make. -/
theorem indents_of_level_page {settings : Settings} {t : Int}
    (ht : settings.tabWidth.int? = some t) {level : Level Int}
    (h : (settings.page Json.int?).level = .ok level) : settings.indents t = true := by
  simp only [page, columnsOf, ht] at h
  rw [indents]
  split at h
  · next htabs => rw [htabs]; rfl
  · rw [Fault.ok_bind] at h
    obtain ⟨count, hcount, -⟩ := Fault.bind_eq_ok.mp h
    rw [spaceCount] at hcount
    split at hcount
    · cases hcount
    · split at hcount
      · cases hcount
      · next hlimit hmemory =>
          rw [not_or] at hlimit
          simp only [Bool.or_eq_true, Bool.and_eq_true, decide_eq_true_eq]
          exact .inr ⟨by omega, by omega⟩

/-- A level of integer settings has the characters and columns that they say, whatever
columns are counted by. -/
theorem eq_of_level_page {α : Type} {columns? : Json → Option α} {settings : Settings} {t : Int}
    {columns : α} (ht : settings.tabWidth.int? = some t)
    (hcolumns : columns? settings.tabWidth = some columns) {level : Level α}
    (h : (settings.page columns?).level = .ok level) :
    level = ⟨settings.marks t, columns⟩ := by
  simp only [page, columnsOf, ht, hcolumns] at h
  rw [marks]
  split at h
  · next htabs => cases h; rw [if_pos htabs]
  · next htabs =>
    rw [if_neg htabs]
    rw [Fault.ok_bind] at h
    obtain ⟨count, hcount, h⟩ := Fault.bind_eq_ok.mp h
    cases h
    rw [eq_toNat_of_spaceCount hcount]

/-- What is laid out under settings that count by integers is the text of rows. -/
theorem pieces_of_layout {settings : Settings} (hwhole : settings.isFractional = false)
    {doc : Doc} {out : Text} (h : settings.layout doc = .ok out) :
    ∃ ps, pieces (settings.page Json.int?) doc = .ok ps ∧
      out = (rowsOf settings.margin ps).text := by
  rw [layout, hwhole] at h
  obtain ⟨ps, hps, hout⟩ := Fault.bind_eq_ok.mp h
  refine ⟨ps, hps, ?_⟩
  rw [← text_page_eq hwhole, ← assemble_eq]
  exact (Fault.pure_eq_ok.mp hout).symm

/-- **What is laid out under settings is the text of rows**, whatever the settings
count columns by. What holds of the pieces of every layout of a document holds of
theirs. -/
theorem exists_pieces_of_layout {settings : Settings} {doc : Doc} {out : Text}
    {P : List Piece → Prop} (h : settings.layout doc = .ok out)
    (hP : ∀ {α : Type} [Columns α] (page : Page α) {ps : List Piece},
      pieces page doc = .ok ps → P ps) :
    ∃ ps, P ps ∧ out = (rowsOf settings.margin ps).text := by
  by_cases hwhole : settings.isFractional
  · rw [layout, if_pos hwhole] at h
    obtain ⟨ps, hps, hout⟩ := Fault.bind_eq_ok.mp h
    have htext : assemble (settings.page Measure.ofJson?) ps = out := Fault.pure_eq_ok.mp hout
    exact ⟨ps, hP _ hps, htext.symm.trans (assemble_eq _ ps)⟩
  · obtain ⟨ps, hps, hout⟩ := pieces_of_layout (by simpa using hwhole) h
    exact ⟨ps, hP _ hps, hout⟩

end Settings

end HamlFormat
