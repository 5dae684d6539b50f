import HamlFormat.Proofs.Layout.Margin
import HamlFormat.Proofs.Layout.Step

/-!
# HamlFormat.Proofs.Layout.Column

The column that the machine stands at is the width of the row it is writing. A
tab of a margin counts for the columns of a level; every other character counts
for its display width. On a page whose levels are as wide as their characters
(`Page.IsExact`) the machine keeps this count through every step
(`Step.tracksColumn`), by whatever it counts columns, as long as that adds whole
columns as integers do (`WholeColumns`).
-/

namespace HamlFormat.Layout

/-! ## Whole columns -/

/-- What counts whole columns as integers do. -/
class WholeColumns (α : Type) [Columns α] : Prop where
  cast_add (m n : Int) : (m : α) + (n : α) = ((m + n : Int) : α)
  cast_sub (m n : Int) : (m : α) - (n : α) = ((m - n : Int) : α)
  cast_le {m n : Int} : (m : α) ≤ (n : α) ↔ m ≤ n
  distance_cast (m n : Int) : Columns.distance (m : α) (n : α) = .ok ((m - n : Int) : α)

export WholeColumns (cast_add cast_sub cast_le distance_cast)

instance : WholeColumns Int where
  cast_add _ _ := rfl
  cast_sub _ _ := rfl
  cast_le := Iff.rfl
  distance_cast _ _ := rfl

instance : WholeColumns Measure where
  cast_add _ _ := rfl
  cast_sub _ _ := rfl
  cast_le := decide_eq_true_iff
  distance_cast _ _ := rfl

/-! ## Width of margins and rows -/

/-- The columns of a margin in which a tab counts for `tab` columns. -/
def marginWidth (tab : Int) : Text → Int
  | [] => 0
  | c :: cs => (if c = CodePoint.ofChar '\t' then tab else Text.charWidth c) + marginWidth tab cs

/-- The columns that a row fills, its margin counted with tabs. -/
def Row.width (tab : Int) (row : Row) : Int :=
  marginWidth tab row.margin + Text.width row.body

@[simp] theorem marginWidth_append (tab : Int) (s t : Text) :
    marginWidth tab (s ++ t) = marginWidth tab s + marginWidth tab t := by
  induction s with
  | nil => simp [marginWidth]
  | cons c s ih => simp [marginWidth, ih, Int.add_assoc]

/-- A run of spaces is as wide as it is long. -/
theorem marginWidth_spaces (tab : Int) (count : Nat) :
    marginWidth tab (Marks.spaces count).text = count := by
  have hspace : Text.charWidth (CodePoint.ofChar ' ') = 1 := Text.charWidth_ascii (by decide)
  have htab : CodePoint.ofChar ' ' ≠ CodePoint.ofChar '\t' := by decide
  rw [Marks.text, Text.repeated]
  induction count with
  | zero => rfl
  | succ count ih =>
      rw [List.replicate_succ, marginWidth, if_neg htab, hspace, ih]
      omega

/-- A piece on a row adds the columns of what it writes. -/
theorem Row.width_concat (tab : Int) (margin : Text) (pieces : List Piece) (piece : Piece) :
    (⟨margin, pieces ++ [piece]⟩ : Row).width tab =
      (⟨margin, pieces⟩ : Row).width tab + Text.width piece.inline := by
  simp only [width, body, List.flatMap_append, List.flatMap_singleton, Text.width_append]
  omega

variable {α : Type} [Columns α]

/-- Every level of a page fills as many columns as it counts for. -/
def Page.IsExact (page : Page α) (tab : Int) : Prop :=
  ∀ level, page.level = .ok level → level.columns = ((marginWidth tab level.marks.text : Int) : α)

variable [WholeColumns α] {page : Page α} {tab : Int}

/-- On an exact page an indentation counts for the columns of its margin. -/
theorem Indentation.columns_eq (hpage : page.IsExact tab) (i : Indentation) :
    i.columns page = ((marginWidth tab (i.text page) : Int) : α) := by
  induction i with
  | nil => rfl
  | cons shift outer ih =>
      cases shift with
      | spaces count => rw [columns, text, marginWidth_append, ih, cast_add, marginWidth_spaces]
      | level =>
          rw [columns, text]
          cases hlevel : page.level with
          | error fault => exact ih
          | ok level =>
              show columns page outer + level.columns = _
              rw [marginWidth_append, ih, hpage level hlevel, cast_add]

omit [WholeColumns α] in
/-- The page of settings with integer levels is exact, if these are not narrower than
nothing, whatever columns are counted by. -/
theorem isExact_page_of_columns {settings : Settings} {columns? : Json → Option α} {t : Int}
    (ht : settings.tabWidth.int? = some t) (hcolumns : columns? settings.tabWidth = some (t : α))
    (hnonneg : 0 ≤ t) : (settings.page columns?).IsExact t := by
  intro level hlevel
  rw [Settings.eq_of_level_page ht hcolumns hlevel, Settings.marks]
  split
  · have htab : (Marks.tab.text : Text) = [CodePoint.ofChar '\t'] := rfl
    rw [htab, marginWidth, if_pos rfl, marginWidth, Int.add_zero]
  · rw [marginWidth_spaces, Int.toNat_of_nonneg hnonneg]

/-- So is the page that counts by integers. -/
theorem isExact_page {settings : Settings} {t : Int} (ht : settings.tabWidth.int? = some t)
    (hnonneg : 0 ≤ t) : (settings.page Json.int?).IsExact t :=
  isExact_page_of_columns ht ht hnonneg

/-! ## The column of the machine -/

/-- The rows that a machine has written. -/
def Machine.rows (page : Page α) (machine : Machine α) : Rows :=
  rowsOf (Indentation.text page) machine.pieces.reverse

omit [Columns α] [WholeColumns α] in
theorem Machine.rows_cons (column : α) (piece : Piece) (written : List Piece)
    (pending : List Command) :
    rows page ⟨column, piece :: written, pending⟩ =
      (rows page ⟨column, written, pending⟩).write (Indentation.text page) piece := by
  simp only [rows, List.reverse_cons, rowsOf_concat]

/-- The machine stands at the end of the row it is writing. -/
def Machine.TracksColumn (page : Page α) (tab : Int) (machine : Machine α) : Prop :=
  machine.column = (((machine.rows page).last.width tab : Int) : α)

/-- **Every step keeps count of the column.** -/
theorem Step.tracksColumn (hpage : page.IsExact tab) {machine next : Machine α}
    (h : Step page machine next) (hcolumn : machine.TracksColumn page tab) :
    next.TracksColumn page tab := by
  unfold Machine.TracksColumn at hcolumn ⊢
  cases h with
  | text | spaced =>
      rw [Machine.rows_cons]
      simp only [Rows.write, Row.width_concat, ← cast_add]
      exact congrArg (· + _) hcolumn
  | joined =>
      rw [Machine.rows_cons]
      simp only [Rows.write, Row.width_concat, Piece.inline, if_true, Text.width_nil,
        Int.natCast_zero, Int.add_zero]
      exact hcolumn
  | newline =>
      rw [Machine.rows_cons]
      simp only [Rows.write, Row.width, Row.body, List.flatMap_nil, Text.width_nil,
        Int.natCast_zero, Int.add_zero]
      exact Indentation.columns_eq hpage _
  | _ => exact hcolumn

end HamlFormat.Layout
