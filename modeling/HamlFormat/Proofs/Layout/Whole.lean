import HamlFormat.Proofs.Layout.Content
import HamlFormat.Proofs.Layout.Decision
import HamlFormat.Proofs.Layout.Failure

/-!
# HamlFormat.Proofs.Layout.Whole

Documents without levels of indentation. Nothing in them depends on what a level is, so
all columns that their layout comes to are whole, and a layout by measures goes step by
step with one by integers (`perform_cast`, `output_cast`): the integers are a part of the
measures that adding, subtracting and comparing do not lead out of. What such a document is
laid out as hangs on nothing in the settings but the width of the page
(`Settings.layout_eq_render`).
-/

namespace HamlFormat

/-- Whether a document is no level of indentation. -/
def Doc.isLevelFree : Doc → Bool
  | .indent _ => false
  | _ => true

namespace Layout

/-! ## Reading -/

section Reading

variable {α : Type} [Columns α] [WholeColumns α]

/-- What reading a document in a whole room comes to. -/
def Scan.cast : Scan Int → Scan α
  | .stop answer => .stop answer
  | .more room => .more (room : α)

theorem Scan.spend_cast (room : Int) (columns : Nat) :
    Scan.spend (room : α) columns = (Scan.spend room columns).cast := by
  by_cases hroom : (columns : Int) ≤ room <;>
    simp [Scan.spend, Scan.cast, cast_sub, cast_le, hroom]

theorem scan_cast (strict : Bool) (mode : Mode) (doc : Doc) (room : Int) :
    scan strict mode doc (room : α) = (scan strict mode doc room).map Scan.cast := by
  induction doc generalizing mode room with
  | text s => exact congrArg Except.ok (Scan.spend_cast room _)
  | concat parts ih | fill parts ih =>
      rw [scan, scan]
      induction parts generalizing room with
      | nil => rfl
      | cons part parts ihParts =>
          rw [List.forall_mem_cons] at ih
          rw [scanList, scanList, ih.1]
          rcases scan strict mode part room with fault | (answer | left)
          · rfl
          · rfl
          · exact ihParts ih.2 left
  | indent _ ih | align _ _ ih | root _ ih => exact ih mode room
  | group contents shouldBreak ih =>
      rw [scan, scan]
      split
      · rfl
      · exact ih _ room
  | ifBreak _ _ ihBroken ihFlat =>
      cases mode with
      | broken => exact ihBroken .broken room
      | flat => exact ihFlat .flat room
  | line hard soft =>
      rw [scan, scan]
      split
      · rfl
      · split
        · rfl
        · exact congrArg Except.ok (Scan.spend_cast room 1)
  | breakParent | alien _ => rfl

/-- What fits in a whole room fits, whatever the room is counted in. -/
theorem fits_cast (strict : Bool) (commands : List Command) (room : Int) :
    fits strict commands (room : α) = fits strict commands room := by
  have hscan : ∀ room : Int,
      scanCommands strict commands (room : α) = scanCommands strict commands room := by
    induction commands with
    | nil => exact fun _ => rfl
    | cons command commands ih =>
        intro room
        rw [scanCommands, scanCommands, scan_cast]
        rcases scan strict command.mode command.doc room with fault | (answer | left)
        · rfl
        · rfl
        · exact ih left
  simp only [fits, hscan, cast_le]
  rfl

theorem fillCommands_cast (i : Indentation) (mode : Mode) (parts : List Doc) (room : Int) :
    fillCommands i mode parts (room : α) = fillCommands i mode parts room := by
  unfold fillCommands
  split <;> simp only [fits_cast]

end Reading

/-! ## Indentation without levels -/

/-- Whether an indentation has no level in it. -/
def Indentation.IsLevelFree (i : Indentation) : Prop :=
  ∀ shift ∈ i, shift ≠ .level

namespace Indentation

variable {α β : Type} {i j : Indentation}

theorem isLevelFree_nil : IsLevelFree [] :=
  fun _ hshift => absurd hshift (List.not_mem_nil)

theorem IsLevelFree.align (h : i.IsLevelFree) {columns : Int} (hj : i.align columns = .ok j) :
    j.IsLevelFree := by
  rw [align_eq hj, aligned]
  split
  · exact h
  · exact List.forall_mem_cons.mpr ⟨Shift.noConfusion, h⟩

/-- Without levels the text of an indentation is the same on all pages. -/
theorem IsLevelFree.text_eq (h : i.IsLevelFree) (page : Page α) (page' : Page β) :
    i.text page = i.text page' := by
  induction i with
  | nil => rfl
  | cons shift outer ih =>
      obtain ⟨hshift, houter⟩ := List.forall_mem_cons.mp h
      cases shift with
      | level => exact absurd rfl hshift
      | spaces count => rw [text, text, ih houter]

/-- Without levels the columns of an indentation are whole. -/
theorem IsLevelFree.columns_eq [Columns α] [WholeColumns α] (h : i.IsLevelFree)
    (page : Page Int) (page' : Page α) :
    i.columns page' = ((i.columns page : Int) : α) := by
  induction i with
  | nil => rfl
  | cons shift outer ih =>
      obtain ⟨hshift, houter⟩ := List.forall_mem_cons.mp h
      cases shift with
      | level => exact absurd rfl hshift
      | spaces count => rw [columns, columns, ih houter, cast_add]; rfl

end Indentation

/-! ## Machines without levels -/

/-- A command without levels. -/
def Command.IsLevelFree (command : Command) : Prop :=
  command.indentation.IsLevelFree ∧ command.doc.all Doc.isLevelFree = true

/-- A piece without levels. -/
def Piece.IsLevelFree : Piece → Prop
  | .newline i => i.IsLevelFree
  | .text _ | .unbroken _ => True

/-- Pieces without levels make up the same text on all pages. -/
theorem assemble_congr {α β : Type} (page : Page α) (page' : Page β) {ps : List Piece}
    (hfree : ∀ piece ∈ ps, piece.IsLevelFree) : assemble page ps = assemble page' ps := by
  rw [assemble, assemble, List.foldl_ext _ _ _ fun buffer piece hpiece => ?_]
  cases piece with
  | newline i =>
      have hi : i.IsLevelFree := hfree _ hpiece
      rw [Piece.write, Piece.write, hi.text_eq page page']
  | text _ | unbroken _ => rfl

/-- A machine that has not come to a level and will not. -/
structure Machine.IsLevelFree {α : Type} (machine : Machine α) : Prop where
  pieces : ∀ piece ∈ machine.pieces, piece.IsLevelFree
  pending : ∀ command ∈ machine.pending, command.IsLevelFree

/-- A machine without levels comes to none. -/
theorem Step.isLevelFree {α : Type} [Columns α] {page : Page α} {machine next : Machine α}
    (h : Step page machine next) (hfree : machine.IsLevelFree) : next.IsLevelFree := by
  obtain ⟨hpieces, hpending⟩ := hfree
  cases h with
  | text | joined | spaced =>
      exact ⟨List.forall_mem_cons.mpr ⟨trivial, hpieces⟩, (List.forall_mem_cons.mp hpending).2⟩
  | newline =>
      obtain ⟨hfirst, hrest⟩ := List.forall_mem_cons.mp hpending
      exact ⟨List.forall_mem_cons.mpr ⟨hfirst.1, hpieces⟩, hrest⟩
  | breakParent => exact ⟨hpieces, (List.forall_mem_cons.mp hpending).2⟩
  | indent =>
      obtain ⟨hfirst, -⟩ := List.forall_mem_cons.mp hpending
      cases hfirst.2
  | concat =>
      obtain ⟨⟨hi, hdoc⟩, hrest⟩ := List.forall_mem_cons.mp hpending
      simp only [Doc.all, Bool.and_eq_true, Doc.listAll_eq_true] at hdoc
      refine ⟨hpieces, List.forall_mem_append.mpr ⟨List.forall_mem_map.mpr ?_, hrest⟩⟩
      exact fun part hpart => ⟨hi, hdoc.2 part hpart⟩
  | align hj =>
      obtain ⟨⟨hi, hdoc⟩, hrest⟩ := List.forall_mem_cons.mp hpending
      exact ⟨hpieces, List.forall_mem_cons.mpr ⟨⟨hi.align hj, hdoc⟩, hrest⟩⟩
  | root =>
      obtain ⟨⟨-, hdoc⟩, hrest⟩ := List.forall_mem_cons.mp hpending
      exact ⟨hpieces, List.forall_mem_cons.mpr ⟨⟨Indentation.isLevelFree_nil, hdoc⟩, hrest⟩⟩
  | forced | inherited | fitting | tooWide =>
      obtain ⟨⟨hi, hdoc⟩, hrest⟩ := List.forall_mem_cons.mp hpending
      exact ⟨hpieces, List.forall_mem_cons.mpr ⟨⟨hi, hdoc⟩, hrest⟩⟩
  | whenBroken | whenFlat =>
      obtain ⟨⟨hi, hdoc⟩, hrest⟩ := List.forall_mem_cons.mp hpending
      simp only [Doc.all, Bool.and_eq_true] at hdoc
      exact ⟨hpieces, List.forall_mem_cons.mpr ⟨⟨hi, by simp [hdoc]⟩, hrest⟩⟩
  | fill _ hfill =>
      obtain ⟨⟨hi, hdoc⟩, hrest⟩ := List.forall_mem_cons.mp hpending
      simp only [Doc.all, Bool.and_eq_true] at hdoc
      refine ⟨hpieces, List.forall_mem_append.mpr ⟨?_, hrest⟩⟩
      obtain ⟨rfl, rfl⟩ | ⟨content, m, rfl, rfl⟩ | ⟨content, separator, m, rfl, rfl⟩ |
        ⟨content, separator, later, others, m, n, rfl, rfl⟩ := fillCommands_cases hfill <;>
      simp_all [Command.IsLevelFree, Doc.listAll, Doc.all, Doc.isLevelFree]

/-! ## Counting in integers and otherwise -/

section Counting

variable {α : Type} [Columns α] [WholeColumns α] {page : Page Int} {page' : Page α} {w : Int}

/-- The machine that counts its columns otherwise. -/
def Machine.cast (machine : Machine Int) : Machine α :=
  ⟨(machine.column : α), machine.pieces, machine.pending⟩

/-- A command without levels is done alike, however columns are counted. -/
theorem perform_cast (hwidth : page.width = .ok w) (hwidth' : page'.width = .ok (w : α))
    (column : Int) (written : List Piece) {command : Command} (rest : List Command)
    (hfree : command.IsLevelFree) :
    perform page' (column : α) written command rest =
      (perform page column written command rest).map Machine.cast := by
  have hroom : page.room column = .ok (w - column) := Page.room_cast hwidth column
  have hroom' : page'.room (column : α) = .ok ((w - column : Int) : α) :=
    Page.room_cast hwidth' column
  obtain ⟨i, mode, doc⟩ := command
  obtain ⟨hi, hdoc⟩ := hfree
  cases doc with
  | text s =>
      simp only [perform, cast_add]
      rfl
  | indent _ => cases hdoc
  | align columns contents =>
      simp only [perform]
      cases i.align columns <;> rfl
  | group contents shouldBreak =>
      cases shouldBreak with
      | true => rfl
      | false =>
          cases mode with
          | flat => rfl
          | broken =>
              simp only [perform, hroom, hroom', Fault.ok_bind, fits_cast]
              rcases fits false (⟨i, .flat, contents⟩ :: rest) (w - column) with fault | answer
              · rfl
              · cases answer <;> rfl
  | fill parts =>
      simp only [perform, hroom, hroom', Fault.ok_bind, fillCommands_cast]
      cases fillCommands i mode parts (w - column) <;> rfl
  | ifBreak _ _ => cases mode <;> rfl
  | line hard soft =>
      simp only [perform, cast_add, hi.columns_eq page page']
      split
      · cases soft <;> rfl
      · rfl
  | concat _ | root _ | breakParent | alien _ => rfl

/-- **A machine without levels leads to the same output, however columns are counted.** -/
theorem output_cast (hwidth : page.width = .ok w) (hwidth' : page'.width = .ok (w : α))
    (machine : Machine Int) (hfree : machine.IsLevelFree) :
    (machine.cast : Machine α).output page' = machine.output page := by
  induction machine using Machine.run.induct page with
  | case1 machine hdone =>
      obtain ⟨column, written, pending⟩ := machine
      cases hdone
      rw [Machine.cast, Machine.output_nil, Machine.output_nil, assemble_congr page' page]
      simpa using hfree.pieces
  | case2 machine hwork fault hstep =>
      obtain ⟨column, written, _ | ⟨command, rest⟩⟩ := machine
      · exact absurd rfl hwork
      · have hperform : perform page column written command rest = .error fault := hstep
        rw [Machine.cast, Machine.output_cons, Machine.output_cons,
          perform_cast hwidth hwidth' _ _ _ (hfree.pending command List.mem_cons_self), hperform]
        rfl
  | case3 machine hwork next hstep ih =>
      obtain ⟨column, written, _ | ⟨command, rest⟩⟩ := machine
      · exact absurd rfl hwork
      · have hperform : perform page column written command rest = .ok next := hstep
        rw [Machine.cast, Machine.output_cons, Machine.output_cons,
          perform_cast hwidth hwidth' _ _ _ (hfree.pending command List.mem_cons_self), hperform]
        exact ih ((step_of_perform hperform).isLevelFree hfree)

/-- A document without levels is laid out alike on all pages of one width. -/
theorem render_cast (hwidth : page.width = .ok w) (hwidth' : page'.width = .ok (w : α)) {doc : Doc}
    (hdoc : doc.all Doc.isProper = true) (hfree : doc.all Doc.isLevelFree = true) :
    render page' doc = render page doc := by
  have hraised : doc.raise.all Doc.isLevelFree = true :=
    (Doc.all_raise (fun d => by cases d <;> rfl) doc).mpr hfree
  rw [render_eq, render_eq, Doc.settle_eq hdoc, Fault.ok_bind, Fault.ok_bind]
  refine output_cast hwidth hwidth' (.start doc.raise) ⟨by simp [Machine.start], ?_⟩
  exact List.forall_mem_singleton.mpr ⟨Indentation.isLevelFree_nil, hraised⟩

end Counting

end Layout

namespace Settings

open Layout

/-- **The layout of a document without levels hangs on the width of the page only.** -/
theorem layout_eq_render {settings : Settings} {w : Int} (hw : settings.printWidth.int? = some w)
    {doc : Doc} (hdoc : doc.all Doc.isProper = true) (hfree : doc.all Doc.isLevelFree = true)
    {page : Page Int} (hwidth : page.width = .ok w) : settings.layout doc = render page doc := by
  rw [layout]
  split
  · exact render_cast hwidth (width_page_measure hw) hdoc hfree
  · exact render_cast hwidth (width_page hw) hdoc hfree

/-- On a page of integer width a document without levels, whose choices are all between
texts, is laid out if its alignments fit in memory, and else fails for one that does not. -/
theorem layout_ok_iff_of_isLevelFree {settings : Settings} {w : Int}
    (hw : settings.printWidth.int? = some w) {doc : Doc} (hdoc : doc.all Doc.isProper = true)
    (hfree : doc.all Doc.isLevelFree = true) (hplain : doc.all Doc.isPlainChoice = true) :
    ((∃ out, settings.layout doc = .ok out) ↔ doc.all (Doc.isFeasible true) = true) ∧
      Fault.FailsWithin (·.isExcess) (settings.layout doc) := by
  let plain : Settings := { printWidth := .int w }
  have hwidth : plain.printWidth.int? = some w := rfl
  have htab : plain.tabWidth.int? = some 2 := rfl
  have hlayout : settings.layout doc = plain.layout doc :=
    layout_eq_render hw hdoc hfree (width_page hwidth)
  rw [hlayout]
  exact ⟨layout_ok_iff hwidth htab hplain, failsWithin_layout_of_isProper hwidth htab hdoc⟩

end Settings

end HamlFormat
