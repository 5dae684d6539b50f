import HamlFormat.Proofs.Layout.Fits
import HamlFormat.Proofs.Layout.Rows
import HamlFormat.Proofs.Doc.Shape
import HamlFormat.Proofs.Number.Rounding
import Mathlib.Data.List.Forall2

/-!
# HamlFormat.Proofs.Layout.Alike

Documents that no layout tells apart. Two lists of commands are alike on a page if
they fit in the same rooms and, from the same column and after the same text, lead
to the same output. Two documents are interchangeable if putting one or the other
in front of commands that are alike gives commands that are alike.

Interchangeable documents can stand for each other inside every document: there is
one lemma for each way to build a document, and from these every document is
interchangeable with itself (`Interchangeable.refl`). What a group must do is
settled before the layout, so at the top documents are compared by what they settle
to (`SettlesAlike`).
-/

namespace HamlFormat.Layout

/-! ## Columns -/

section

variable {α : Type} [Columns α]

/-- A number of columns that does not change when nothing is added to it or taken
off it. -/
def IsRegular (a : α) : Prop :=
  a + ((0 : Int) : α) = a ∧ a - ((0 : Int) : α) = a

end

/-- What counts columns so that every count it comes to is regular. -/
class LawfulColumns (α : Type) [Columns α] : Prop where
  isRegular_zero : IsRegular ((0 : Int) : α)
  isRegular_add (a b : α) : IsRegular (a + b)
  isRegular_sub (a b : α) : IsRegular (a - b)
  isRegular_distance {edge column room : α} (h : Columns.distance edge column = .ok room) :
    IsRegular room

export LawfulColumns (isRegular_zero isRegular_add isRegular_sub)

instance : LawfulColumns Int where
  isRegular_zero := ⟨rfl, rfl⟩
  isRegular_add _ _ := ⟨Int.add_zero _, Int.sub_zero _⟩
  isRegular_sub _ _ := ⟨Int.add_zero _, Int.sub_zero _⟩
  isRegular_distance {_ _ room} _ := ⟨Int.add_zero room, Int.sub_zero room⟩

/-- A number in double precision that zero does not change is regular. -/
theorem Measure.isRegular_fractional {x : Binary64}
    (h : ∀ negative, x + .finite negative ⟨0, by decide⟩ = x) :
    IsRegular (Measure.fractional x) := by
  constructor
  · show Measure.fractional (x + Binary64.ofInt 0) = _
    rw [Binary64.ofInt_zero, h]
  · show Measure.fractional (x - Binary64.ofInt 0) = _
    rw [Binary64.ofInt_zero]
    exact congrArg _ (h true)

theorem Measure.isRegular_whole (n : Int) : IsRegular (Measure.whole n) :=
  ⟨congrArg Measure.whole (Int.add_zero n), congrArg Measure.whole (Int.sub_zero n)⟩

theorem Measure.isRegular_add (a b : Measure) : IsRegular (a + b) := by
  cases a with
  | whole m =>
      cases b with
      | whole n => exact Measure.isRegular_whole _
      | fractional y => exact Measure.isRegular_fractional (Binary64.add_add_zero _ _)
  | fractional x => exact Measure.isRegular_fractional (Binary64.add_add_zero _ _)

theorem Measure.isRegular_sub (a b : Measure) : IsRegular (a - b) := by
  cases a with
  | whole m =>
      cases b with
      | whole n => exact Measure.isRegular_whole _
      | fractional y => exact Measure.isRegular_fractional (Binary64.add_add_zero _ _)
  | fractional x => exact Measure.isRegular_fractional (Binary64.add_add_zero _ _)

instance : LawfulColumns Measure where
  isRegular_zero := Measure.isRegular_whole 0
  isRegular_add := Measure.isRegular_add
  isRegular_sub := Measure.isRegular_sub
  isRegular_distance {edge column room} h := by
    simp only [Columns.distance] at h
    split at h
    · cases h
      exact Measure.isRegular_sub _ _
    · cases h

/-! ## Output -/

section

variable {α : Type} {page : Page α}

/-- A piece that is no line end adds what it writes to the text. -/
theorem assemble_concat_inline (pieces : List Piece) {piece : Piece}
    (h : ∀ i, piece ≠ .newline i) :
    assemble page (pieces ++ [piece]) = assemble page pieces ++ piece.inline := by
  rw [assemble_eq, assemble_eq, rowsOf_concat, Rows.text_write_inline _ h]

/-- A line end trims the text before it. -/
theorem assemble_concat_newline (pieces : List Piece) (i : Indentation) :
    assemble page (pieces ++ [.newline i]) =
      Text.stripRight Text.isIndent (assemble page pieces) ++ Text.newline :: i.text page := by
  rw [assemble_eq, assemble_eq, rowsOf_concat, Rows.text_write_newline]

/-- Pieces that make up the same text still do after one more piece. -/
theorem assemble_cons_congr {written written' : List Piece}
    (h : assemble page written.reverse = assemble page written'.reverse) (piece : Piece) :
    assemble page (piece :: written).reverse = assemble page (piece :: written').reverse := by
  rw [List.reverse_cons, List.reverse_cons]
  cases piece with
  | newline i => rw [assemble_concat_newline, assemble_concat_newline, h]
  | text _ | unbroken _ =>
      rw [assemble_concat_inline _ (by simp), assemble_concat_inline _ (by simp), h]

end

variable {α : Type} [Columns α] {page : Page α}

namespace Machine

/-- The text that a machine has written when it is done. -/
def output (page : Page α) (machine : Machine α) : Except Fault Text := do
  let final ← machine.run page
  return assemble page final.pieces.reverse

theorem output_nil (column : α) (written : List Piece) :
    output page ⟨column, written, []⟩ = .ok (assemble page written.reverse) := by
  rw [output, run, dif_pos rfl]
  rfl

/-- The output after the next command is done. -/
theorem output_cons (column : α) (written : List Piece) (command : Command)
    (rest : List Command) :
    output page ⟨column, written, command :: rest⟩ =
      perform page column written command rest >>= output page := by
  rw [output, run, dif_neg (List.cons_ne_nil _ _)]
  split
  · next fault hstep =>
    rw [show perform page column written command rest = .error fault from hstep]
    rfl
  · next machine hstep =>
    rw [show perform page column written command rest = .ok machine from hstep]
    rfl

/-- The output of a group that is told to break. -/
theorem output_forced (column : α) (written : List Piece) (i : Indentation) (mode : Mode)
    (contents : Doc) (rest : List Command) :
    output page ⟨column, written, ⟨i, mode, .group contents true⟩ :: rest⟩ =
      output page ⟨column, written, ⟨i, .broken, contents⟩ :: rest⟩ := by
  rw [output_cons]
  rfl

/-- The output of a group inside a flat one. -/
theorem output_inherited (column : α) (written : List Piece) (i : Indentation) (contents : Doc)
    (rest : List Command) :
    output page ⟨column, written, ⟨i, .flat, .group contents false⟩ :: rest⟩ =
      output page ⟨column, written, ⟨i, .flat, contents⟩ :: rest⟩ := by
  rw [output_cons]
  rfl

/-- The output of a group that has to be decided. -/
theorem output_decided (column : α) (written : List Piece) (i : Indentation) (contents : Doc)
    (rest : List Command) :
    output page ⟨column, written, ⟨i, .broken, .group contents false⟩ :: rest⟩ =
      (do let room ← page.room column
          let answer ← fits false (⟨i, .flat, contents⟩ :: rest) room
          let mode : Mode := if answer then .flat else .broken
          output page ⟨column, written, ⟨i, mode, contents⟩ :: rest⟩) := by
  rw [output_cons, perform]
  cases page.room column with
  | error fault => rfl
  | ok room =>
      simp only [Bool.false_eq_true, if_false, Fault.ok_bind]
      cases fits false (⟨i, .flat, contents⟩ :: rest) room with
      | error fault => rfl
      | ok answer => cases answer <;> rfl

end Machine

/-- A layout is the output of the machine on the document with its flags raised. -/
theorem render_eq (doc : Doc) :
    render page doc =
      doc.settle >>= fun settled => (Machine.start settled.1).output page := by
  rw [render, pieces]
  cases doc.settle with
  | error fault => rfl
  | ok settled =>
      simp only [Fault.ok_bind, Machine.output]
      cases (Machine.start settled.1).run page <;> rfl

/-- The room that a page has at a column is regular. -/
theorem isRegular_room [LawfulColumns α] {column room : α} (h : page.room column = .ok room) :
    IsRegular room := by
  rw [Page.room] at h
  obtain ⟨width, -, h⟩ := Fault.bind_eq_ok.mp h
  exact LawfulColumns.isRegular_distance h

/-- The columns of an indentation are regular. -/
theorem isRegular_columns [LawfulColumns α] (i : Indentation) : IsRegular (i.columns page) := by
  induction i with
  | nil => exact isRegular_zero
  | cons shift outer ih =>
      cases shift with
      | spaces count => exact isRegular_add _ _
      | level =>
          rw [Indentation.columns]
          split
          · exact isRegular_add _ _
          · exact ih

/-! ## Commands that are alike -/

/-- Two lists of commands that the layout does not tell apart. -/
structure Alike (page : Page α) (xs ys : List Command) : Prop where
  fits_eq (strict : Bool) {room : α} (hroom : IsRegular room) :
    fits strict xs room = fits strict ys room
  output_eq {column : α} {written written' : List Piece} (hcolumn : IsRegular column)
    (htext : assemble page written.reverse = assemble page written'.reverse) :
    Machine.output page ⟨column, written, xs⟩ = Machine.output page ⟨column, written', ys⟩

namespace Alike

theorem nil : Alike page [] [] where
  fits_eq _ _ _ := rfl
  output_eq _ htext := by rw [Machine.output_nil, Machine.output_nil, htext]

theorem symm {xs ys : List Command} (h : Alike page xs ys) : Alike page ys xs where
  fits_eq strict _ hroom := (h.fits_eq strict hroom).symm
  output_eq hcolumn htext := (h.output_eq hcolumn htext.symm).symm

theorem trans {xs ys zs : List Command} (h : Alike page xs ys) (h' : Alike page ys zs) :
    Alike page xs zs where
  fits_eq strict _ hroom := (h.fits_eq strict hroom).trans (h'.fits_eq strict hroom)
  output_eq hcolumn htext := (h.output_eq hcolumn rfl).trans (h'.output_eq hcolumn htext)

/-- A command that is replaced by others without writing anything can be left to
those. -/
theorem of_perform {command : Command} (commands : List Command) {xs ys : List Command}
    (hfits : ∀ strict (room : α),
      fits strict (command :: xs) room = fits strict (commands ++ xs) room)
    (hperform : ∀ column written,
      perform page column written command xs = .ok ⟨column, written, commands ++ xs⟩)
    (h : Alike page (commands ++ xs) ys) : Alike page (command :: xs) ys where
  fits_eq strict room hroom := (hfits strict room).trans (h.fits_eq strict hroom)
  output_eq hcolumn htext := by
    rw [Machine.output_cons, hperform, Fault.ok_bind]
    exact h.output_eq hcolumn htext

/-- A command for a list of documents can be left to a command for each. -/
theorem concat_left {i : Indentation} {mode : Mode} {parts : List Doc} {xs ys : List Command}
    (h : Alike page (parts.map (⟨i, mode, ·⟩) ++ xs) ys) :
    Alike page (⟨i, mode, .concat parts⟩ :: xs) ys :=
  of_perform _ (fun _ _ => fits_concat parts) (fun _ _ => rfl) h

theorem root_left {i : Indentation} {mode : Mode} {contents : Doc} {xs ys : List Command}
    (h : Alike page (⟨[], mode, contents⟩ :: xs) ys) :
    Alike page (⟨i, mode, .root contents⟩ :: xs) ys :=
  of_perform [⟨[], mode, contents⟩] (fun _ _ => fits_root contents) (fun _ _ => rfl) h

theorem indent_left {i : Indentation} {mode : Mode} {contents : Doc} {xs ys : List Command}
    {level : Level α} (hlevel : page.level = .ok level)
    (h : Alike page (⟨.level :: i, mode, contents⟩ :: xs) ys) :
    Alike page (⟨i, mode, .indent contents⟩ :: xs) ys :=
  of_perform [⟨.level :: i, mode, contents⟩] (fun _ _ => fits_indent contents)
    (fun _ _ => by simp only [perform, hlevel]; rfl) h

theorem align_left {i j : Indentation} {mode : Mode} {columns : Int} {contents : Doc}
    {xs ys : List Command} (hj : i.align columns = .ok j)
    (h : Alike page (⟨j, mode, contents⟩ :: xs) ys) :
    Alike page (⟨i, mode, .align columns contents⟩ :: xs) ys :=
  of_perform [⟨j, mode, contents⟩] (fun _ _ => fits_align columns contents)
    (fun _ _ => by rw [perform, hj]; rfl) h

/-- Commands that fit alike and whose first one fails alike are alike. -/
theorem of_error (fault : Fault) {x y : Command} {xs ys : List Command}
    (hfits : ∀ strict {room : α}, IsRegular room →
      fits strict (x :: xs) room = fits strict (y :: ys) room)
    (hx : ∀ column written, perform page column written x xs = .error fault)
    (hy : ∀ column written, perform page column written y ys = .error fault) :
    Alike page (x :: xs) (y :: ys) where
  fits_eq strict _ hroom := hfits strict hroom
  output_eq _ _ := by
    rw [Machine.output_cons, Machine.output_cons, hx, hy]

end Alike

/-! ## Interchangeable documents -/

/-- Two documents that can stand for each other in front of everything. -/
def Interchangeable (page : Page α) (d e : Doc) : Prop :=
  ∀ i mode {xs ys}, Alike page xs ys → Alike page (⟨i, mode, d⟩ :: xs) (⟨i, mode, e⟩ :: ys)

namespace Interchangeable

variable {d e d' e' : Doc} {ds es : List Doc}

theorem symm (h : Interchangeable page d e) : Interchangeable page e d :=
  fun i mode _ _ hrest => (h i mode hrest.symm).symm

/-- Commands for documents that are interchangeable one by one. -/
theorem map_append (h : List.Forall₂ (Interchangeable page) ds es) (i : Indentation) (mode : Mode)
    {xs ys : List Command} (hrest : Alike page xs ys) :
    Alike page (ds.map (⟨i, mode, ·⟩) ++ xs) (es.map (⟨i, mode, ·⟩) ++ ys) := by
  induction h with
  | nil => exact hrest
  | cons hhead _ ih => exact hhead i mode ih

/-- Interchangeable documents fit alike on their own. -/
theorem fits_eq (h : Interchangeable page d e) (strict : Bool) (i : Indentation) (mode : Mode)
    {room : α} (hroom : IsRegular room) :
    fits strict [⟨i, mode, d⟩] room = fits strict [⟨i, mode, e⟩] room :=
  (h i mode .nil).fits_eq strict hroom

theorem concat (h : List.Forall₂ (Interchangeable page) ds es) :
    Interchangeable page (.concat ds) (.concat es) :=
  fun i mode _ _ hrest => (map_append h i mode hrest).concat_left.symm.concat_left.symm

theorem root (h : Interchangeable page d e) : Interchangeable page (.root d) (.root e) :=
  fun _ mode _ _ hrest => (h [] mode hrest).root_left.symm.root_left.symm

theorem indent (h : Interchangeable page d e) : Interchangeable page (.indent d) (.indent e) := by
  intro i mode xs ys hrest
  have hcontents := h (.level :: i) mode hrest
  cases hlevel : page.level with
  | ok level => exact ((hcontents.indent_left hlevel).symm.indent_left hlevel).symm
  | error fault =>
      refine .of_error fault (fun strict room hroom => ?_) (fun _ _ => ?_) (fun _ _ => ?_)
      · rw [fits_indent, fits_indent]
        exact hcontents.fits_eq strict hroom
      all_goals simp only [perform, hlevel]

theorem align (columns : Int) (h : Interchangeable page d e) :
    Interchangeable page (.align columns d) (.align columns e) := by
  intro i mode xs ys hrest
  cases hj : i.align columns with
  | ok j => exact (((h j mode hrest).align_left hj).symm.align_left hj).symm
  | error fault =>
      refine .of_error fault (fun strict room hroom => ?_) (fun _ _ => ?_) (fun _ _ => ?_)
      · rw [fits_align, fits_align]
        exact (h i mode hrest).fits_eq strict hroom
      all_goals rw [perform, hj]; rfl

theorem ifBreak (hbroken : Interchangeable page d e) (hflat : Interchangeable page d' e') :
    Interchangeable page (.ifBreak d d') (.ifBreak e e') := by
  intro i mode xs ys hrest
  cases mode with
  | broken =>
      have hchosen := hbroken i .broken hrest
      have hleft := hchosen.of_perform [⟨i, .broken, d⟩] (fun _ _ => fits_whenBroken d d')
        (fun _ _ => rfl)
      exact (hleft.symm.of_perform [⟨i, .broken, e⟩] (fun _ _ => fits_whenBroken e e')
        (fun _ _ => rfl)).symm
  | flat =>
      have hchosen := hflat i .flat hrest
      have hleft := hchosen.of_perform [⟨i, .flat, d'⟩] (fun _ _ => fits_whenFlat d d')
        (fun _ _ => rfl)
      exact (hleft.symm.of_perform [⟨i, .flat, e'⟩] (fun _ _ => fits_whenFlat e e')
        (fun _ _ => rfl)).symm

/-- Groups with interchangeable contents fit alike. -/
theorem fits_group_eq (h : Interchangeable page d e) (shouldBreak strict : Bool) (i : Indentation)
    (mode : Mode) {xs ys : List Command} (hrest : Alike page xs ys) {room : α}
    (hroom : IsRegular room) :
    fits strict (⟨i, mode, .group d shouldBreak⟩ :: xs) room =
      fits strict (⟨i, mode, .group e shouldBreak⟩ :: ys) room := by
  cases shouldBreak with
  | false =>
      rw [fits_group (j := i), fits_group (j := i)]
      exact (h i mode hrest).fits_eq strict hroom
  | true =>
      cases strict with
      | true => rfl
      | false =>
          rw [fits_forced (j := i), fits_forced (j := i)]
          exact (h i .broken hrest).fits_eq false hroom

theorem group [LawfulColumns α] (shouldBreak : Bool) (h : Interchangeable page d e) :
    Interchangeable page (.group d shouldBreak) (.group e shouldBreak) := by
  intro i mode xs ys hrest
  refine ⟨fun strict room hroom => h.fits_group_eq shouldBreak strict i mode hrest hroom, ?_⟩
  intro column written written' hcolumn htext
  have hbroken := (h i .broken hrest).output_eq hcolumn htext
  have hflat := (h i .flat hrest).output_eq hcolumn htext
  cases shouldBreak with
  | true => rwa [Machine.output_forced, Machine.output_forced]
  | false =>
      cases mode with
      | flat => rwa [Machine.output_inherited, Machine.output_inherited]
      | broken =>
          rw [Machine.output_decided, Machine.output_decided]
          cases hroom : page.room column with
          | error fault => rfl
          | ok room =>
              have hfits := (h i .flat hrest).fits_eq false (isRegular_room hroom)
              simp only [Fault.ok_bind, hfits]
              cases fits false (⟨i, .flat, e⟩ :: ys) room with
              | error fault => rfl
              | ok answer =>
                  cases answer with
                  | true => exact hflat
                  | false => exact hbroken

/-- What takes columns off the room fits alike in front of what is alike. -/
theorem fits_spend_eq [LawfulColumns α] {strict : Bool} {i : Indentation} {mode : Mode} {doc : Doc}
    {room : α} {columns : Nat} {xs ys : List Command} (hrest : Alike page xs ys)
    (h : scan strict mode doc room = .ok (.spend room columns)) :
    fits strict (⟨i, mode, doc⟩ :: xs) room = fits strict (⟨i, mode, doc⟩ :: ys) room := by
  rw [fits_cons_spend h, fits_cons_spend h, hrest.fits_eq strict (isRegular_sub _ _)]

theorem text [LawfulColumns α] (s : Text) : Interchangeable page (.text s) (.text s) := by
  intro i mode xs ys hrest
  refine ⟨fun strict room hroom => fits_spend_eq hrest rfl, ?_⟩
  intro column written written' hcolumn htext
  rw [Machine.output_cons, Machine.output_cons]
  exact hrest.output_eq (isRegular_add _ _) (assemble_cons_congr htext _)

theorem line [LawfulColumns α] (hard soft : Bool) :
    Interchangeable page (.line hard soft) (.line hard soft) := by
  intro i mode xs ys hrest
  by_cases hbreak : mode = .broken ∨ hard = true
  · have hscan : ∀ strict (room : α), scan strict mode (.line hard soft) room = .ok (.stop true) :=
      fun strict room => by rw [scan, if_pos (by simpa using hbreak)]
    have hperform : ∀ (column : α) written rest,
        perform page column written ⟨i, mode, .line hard soft⟩ rest =
          .ok ⟨i.columns page, .newline i :: written, rest⟩ := by
      intro column written rest
      rw [perform, if_neg]
      rcases hbreak with rfl | rfl <;> simp
    refine ⟨fun strict room hroom => ?_, fun hcolumn htext => ?_⟩
    · simp only [fits, scanCommands, hscan]
      rfl
    · rw [Machine.output_cons, Machine.output_cons, hperform, hperform]
      exact hrest.output_eq (isRegular_columns i) (assemble_cons_congr htext _)
  · obtain ⟨rfl, rfl⟩ : mode = .flat ∧ hard = false := by
      cases mode <;> cases hard <;> simp_all
    cases soft with
    | true =>
        refine ⟨fun strict room hroom => hrest.fits_eq strict hroom, fun hcolumn htext => ?_⟩
        rw [Machine.output_cons, Machine.output_cons]
        exact hrest.output_eq hcolumn (assemble_cons_congr htext _)
    | false =>
        refine ⟨fun strict room hroom => fits_spend_eq hrest rfl, fun hcolumn htext => ?_⟩
        rw [Machine.output_cons, Machine.output_cons]
        exact hrest.output_eq (isRegular_add _ _) (assemble_cons_congr htext _)

theorem breakParent : Interchangeable page .breakParent .breakParent :=
  fun _ _ _ _ hrest => ⟨fun strict _ hroom => hrest.fits_eq strict hroom,
    fun hcolumn htext => by
      rw [Machine.output_cons, Machine.output_cons]
      exact hrest.output_eq hcolumn htext⟩

theorem alien (value : Json) : Interchangeable page (.alien value) (.alien value) :=
  fun _ _ _ _ _ => .of_error (.unexpectedDoc value) (fun _ _ _ => rfl) (fun _ _ => rfl)
    (fun _ _ => rfl)

/-- Fills of documents that are interchangeable one by one lead to the same output,
if their rests do. -/
theorem output_fill_eq [LawfulColumns α] (h : List.Forall₂ (Interchangeable page) ds es)
    (hnext : ∀ {c s c' s' ds' es'}, ds = c :: s :: ds' → es = c' :: s' :: es' →
      Interchangeable page (.fill ds') (.fill es'))
    (i : Indentation) (mode : Mode) {xs ys : List Command} (hrest : Alike page xs ys) {column : α}
    {written written' : List Piece} (hcolumn : IsRegular column)
    (htext : assemble page written.reverse = assemble page written'.reverse) :
    Machine.output page ⟨column, written, ⟨i, mode, .fill ds⟩ :: xs⟩ =
      Machine.output page ⟨column, written', ⟨i, mode, .fill es⟩ :: ys⟩ := by
  rw [Machine.output_cons, Machine.output_cons, perform, perform]
  cases hroom : page.room column with
  | error fault => rfl
  | ok room =>
      have hregular : IsRegular room := isRegular_room hroom
      simp only [Fault.ok_bind]
      cases h with
      | nil => exact hrest.output_eq hcolumn htext
      | cons hcontent hmore =>
          cases hmore with
          | nil =>
              rw [fillCommands, fillCommands, hcontent.fits_eq true i .flat hregular]
              cases fits true [⟨i, .flat, _⟩] room with
              | error fault => rfl
              | ok contentFits => exact (hcontent i _ hrest).output_eq hcolumn htext
          | cons hseparator hmore =>
              cases hmore with
              | nil =>
                  rw [fillCommands, fillCommands, hcontent.fits_eq true i .flat hregular]
                  cases fits true [⟨i, .flat, _⟩] room with
                  | error fault => rfl
                  | ok contentFits =>
                      exact (hcontent i _ (hseparator i _ hrest)).output_eq hcolumn htext
              | cons hthird hothers =>
                  have hpair := concat (.cons hcontent (.cons hseparator (.cons hthird .nil)))
                  have hfill := hnext rfl rfl
                  rw [fillCommands, fillCommands, hcontent.fits_eq true i .flat hregular,
                    hpair.fits_eq true i .flat hregular]
                  cases fits true [⟨i, .flat, _⟩] room with
                  | error fault => rfl
                  | ok contentFits =>
                      cases fits true [⟨i, .flat, .concat _⟩] room with
                      | error fault => rfl
                      | ok pairFits =>
                          exact (hcontent i _ (hseparator i _ (hfill i mode hrest))).output_eq
                            hcolumn htext

theorem fill [LawfulColumns α] (h : List.Forall₂ (Interchangeable page) ds es) :
    Interchangeable page (.fill ds) (.fill es) := by
  -- a fill that is begun leaves the fill of its third part and those after it
  induction hlength : ds.length using Nat.strong_induction_on generalizing ds es with
  | _ length ih =>
      intro i mode xs ys hrest
      refine ⟨fun strict room hroom => ?_, fun hcolumn htext => ?_⟩
      · rw [fits_fill, fits_fill]
        exact (map_append h i mode hrest).fits_eq strict hroom
      · refine output_fill_eq h (fun {c s c' s' ds' es'} hds hes => ?_) i mode hrest hcolumn htext
        subst hds hes
        cases h with
        | cons _ hothers =>
            cases hothers with
            | cons _ hothers =>
                refine ih ds'.length ?_ hothers rfl
                simp only [← hlength, List.length_cons]
                omega

/-- **Every document is interchangeable with itself**: what was written before it
matters for its text only. -/
theorem refl [LawfulColumns α] (doc : Doc) : Interchangeable page doc doc := by
  induction doc with
  | text s => exact text s
  | concat parts ih => exact concat (List.forall₂_same.mpr ih)
  | group contents shouldBreak ih => exact ih.group shouldBreak
  | indent contents ih => exact ih.indent
  | align columns contents ih => exact ih.align columns
  | fill parts ih => exact fill (List.forall₂_same.mpr ih)
  | ifBreak whenBroken whenFlat ihBroken ihFlat => exact ihBroken.ifBreak ihFlat
  | line hard soft => exact line hard soft
  | breakParent => exact breakParent
  | root contents ih => exact ih.root
  | alien value => exact alien value

end Interchangeable

/-- Commands are alike to themselves. -/
theorem Alike.refl [LawfulColumns α] (xs : List Command) : Alike page xs xs := by
  induction xs with
  | nil => exact .nil
  | cons command xs ih => exact Interchangeable.refl command.doc command.indentation command.mode ih

/-! ## Documents that settle alike -/

/-- Two documents that settle to interchangeable ones and force the same on the
groups around them, or that fail alike. -/
def SettlesAlike (page : Page α) (d e : Doc) : Prop :=
  Fault.Related (fun d e => d.2 = e.2 ∧ Interchangeable page d.1 e.1) d.settle e.settle

/-- Two lists of documents that settle to interchangeable ones, or that fail
alike. -/
def ListSettlesAlike (page : Page α) (ds es : List Doc) : Prop :=
  Fault.Related (fun ds es => ds.2 = es.2 ∧ List.Forall₂ (Interchangeable page) ds.1 es.1)
    (Doc.settleList ds) (Doc.settleList es)

/-- Documents that settle alike one by one settle alike as a list. -/
theorem ListSettlesAlike.of_forall₂ {ds es : List Doc}
    (h : List.Forall₂ (SettlesAlike page) ds es) : ListSettlesAlike page ds es := by
  induction h with
  | nil => exact .ok ⟨rfl, .nil⟩
  | cons hhead _ ih =>
      exact hhead.bind fun (_, _) (_, _) ⟨hforces, hhead⟩ =>
        ih.bind fun (_, _) (_, _) ⟨halso, htail⟩ =>
          .ok ⟨congrArg₂ or hforces halso, .cons hhead htail⟩

namespace SettlesAlike

variable {d e d' e' : Doc} {ds es : List Doc}

theorem refl [LawfulColumns α] (doc : Doc) : SettlesAlike page doc doc :=
  Fault.Related.refl (fun settled => ⟨rfl, .refl settled.1⟩) _

theorem symm (h : SettlesAlike page d e) : SettlesAlike page e d :=
  Fault.Related.flip h fun _ _ ⟨hforces, h⟩ => ⟨hforces.symm, h.symm⟩

theorem forall₂_refl [LawfulColumns α] (docs : List Doc) :
    List.Forall₂ (SettlesAlike page) docs docs :=
  List.forall₂_same.mpr fun doc _ => refl doc

theorem group [LawfulColumns α] (shouldBreak : Bool) (h : SettlesAlike page d e) :
    SettlesAlike page (.group d shouldBreak) (.group e shouldBreak) :=
  h.bind fun (_, _) (_, _) ⟨hforces, h⟩ => by
    cases hforces
    exact .ok ⟨rfl, h.group _⟩

theorem indent (h : SettlesAlike page d e) : SettlesAlike page (.indent d) (.indent e) :=
  h.bind fun _ _ ⟨hforces, h⟩ => .ok ⟨hforces, h.indent⟩

theorem align (columns : Int) (h : SettlesAlike page d e) :
    SettlesAlike page (.align columns d) (.align columns e) :=
  h.bind fun _ _ ⟨hforces, h⟩ => .ok ⟨hforces, h.align columns⟩

theorem root (h : SettlesAlike page d e) : SettlesAlike page (.root d) (.root e) :=
  h.bind fun _ _ ⟨hforces, h⟩ => .ok ⟨hforces, h.root⟩

theorem concat (h : ListSettlesAlike page ds es) : SettlesAlike page (.concat ds) (.concat es) :=
  h.bind fun _ _ ⟨hforces, h⟩ => .ok ⟨hforces, .concat h⟩

theorem fill [LawfulColumns α] (h : ListSettlesAlike page ds es) :
    SettlesAlike page (.fill ds) (.fill es) :=
  h.bind fun _ _ ⟨hforces, h⟩ => .ok ⟨hforces, .fill h⟩

theorem ifBreak (hbroken : SettlesAlike page d e) (hflat : SettlesAlike page d' e') :
    SettlesAlike page (.ifBreak d d') (.ifBreak e e') :=
  hbroken.bind fun _ _ ⟨hforces, hbroken⟩ => hflat.bind fun _ _ ⟨halso, hflat⟩ =>
    .ok ⟨congrArg₂ or halso hforces, hbroken.ifBreak hflat⟩

/-- **Documents that settle alike are laid out alike.** -/
theorem render_eq [LawfulColumns α] (h : SettlesAlike page d e) :
    render page d = render page e := by
  rw [Layout.render_eq, Layout.render_eq]
  exact h.bind_eq fun _ _ ⟨_, h⟩ => (h [] .broken .nil).output_eq isRegular_zero rfl

end SettlesAlike

end HamlFormat.Layout
