import HamlFormat.Proofs.Layout.Column
import HamlFormat.Proofs.Layout.Flat
import HamlFormat.Proofs.Layout.Normalize

/-!
# HamlFormat.Proofs.Layout.Decision

Which groups are laid flat, and as what. The flat form of a document is a text
(`Doc.flatText`): its line breaks are spaces, or nothing if they are soft, and of two
branches it takes the flat one. A document that forces nothing is read as its flat text
(`fits_flat`), and once it is laid flat with room for all of it, it is written as that
text, whatever stands in it (`runsFlat`): a fill inside decides again at every part, and
each time finds room.

So a document in a group is written as its flat text if it forces nothing and its flat
text is no wider than the page, and otherwise as it would be without the group
(`layout_group`). Flat documents still make the indentation that they ask for, and fail
where it cannot be made (`Doc.isFlatFeasible`).
-/

namespace HamlFormat

namespace Doc

open Layout

/-! ## The flat text -/

mutual

/-- The text of a document's flat form. -/
def flatText : Doc → Text
  | .text s => s
  | .concat parts | .fill parts => listFlatText parts
  | .group contents _ | .indent contents | .align _ contents | .root contents =>
    flatText contents
  | .ifBreak _ whenFlat => flatText whenFlat
  | .line _ soft => if soft then [] else " "
  | .breakParent | .alien _ => []

/-- The text of the flat forms of documents one after another. -/
def listFlatText : List Doc → Text
  | [] => []
  | part :: parts => flatText part ++ listFlatText parts

end

/-- The flat text is as wide as the flat form. -/
theorem width_flatText (doc : Doc) : Text.width doc.flatText = doc.flatWidth := by
  induction doc with
  | concat parts ih | fill parts ih =>
      rw [flatText, flatWidth]
      induction parts with
      | nil => rfl
      | cons part parts ihParts =>
          rw [List.forall_mem_cons] at ih
          rw [listFlatText, listFlatWidth, Text.width_append, ih.1, ihParts ih.2]
  | group _ _ ih | indent _ ih | align _ _ ih | root _ ih => exact ih
  | ifBreak _ _ _ ihFlat => exact ihFlat
  | line hard soft => cases soft <;> rfl
  | text _ | breakParent | alien _ => rfl

mutual

/-- Making the indentation that a flat document asks for, in the order in which it comes. -/
def flatDemand {α : Type} (page : Page α) : Doc → Except Fault Unit
  | .text _ | .line _ _ | .breakParent | .alien _ => .ok ()
  | .concat parts | .fill parts => listFlatDemand page parts
  | .group contents _ | .root contents => flatDemand page contents
  | .indent contents => do
    let _ ← page.level
    flatDemand page contents
  | .align columns contents => do
    let _ ← Indentation.align [] columns
    flatDemand page contents
  | .ifBreak _ whenFlat => flatDemand page whenFlat

/-- Making the indentation that flat documents ask for. -/
def listFlatDemand {α : Type} (page : Page α) : List Doc → Except Fault Unit
  | [] => .ok ()
  | part :: parts => do
    flatDemand page part
    listFlatDemand page parts

end

mutual

/-- Whether a flat document asks for no indentation that cannot be made. -/
def isFlatFeasible (levels : Bool) : Doc → Bool
  | .text _ | .line _ _ | .breakParent | .alien _ => true
  | .concat parts | .fill parts => listIsFlatFeasible levels parts
  | .group contents _ | .root contents => isFlatFeasible levels contents
  | .indent contents => levels && isFlatFeasible levels contents
  | .align columns contents => columns < memoryLimit && isFlatFeasible levels contents
  | .ifBreak _ whenFlat => isFlatFeasible levels whenFlat

/-- Whether flat documents ask for no indentation that cannot be made. -/
def listIsFlatFeasible (levels : Bool) : List Doc → Bool
  | [] => true
  | part :: parts => isFlatFeasible levels part && listIsFlatFeasible levels parts

end

/-- What can be laid out can be laid flat. -/
theorem isFlatFeasible_of_all {levels : Bool} {doc : Doc}
    (h : doc.all (isFeasible levels) = true) : doc.isFlatFeasible levels = true := by
  induction doc with
  | concat parts ih | fill parts ih =>
      simp only [all, Bool.and_eq_true, listAll_eq_true] at h
      have hparts := h.2
      clear h
      rw [isFlatFeasible]
      induction parts with
      | nil => rfl
      | cons part parts ihParts =>
          rw [List.forall_mem_cons] at ih hparts
          rw [listIsFlatFeasible, ih.1 hparts.1, ihParts ih.2 hparts.2]
          rfl
  | group _ _ ih | root _ ih =>
      simp only [all, Bool.and_eq_true] at h
      exact ih h.2
  | indent _ ih | align _ _ ih =>
      simp only [all, isFeasible, Bool.and_eq_true] at h
      simp only [isFlatFeasible, Bool.and_eq_true]
      exact ⟨h.1, ih h.2⟩
  | ifBreak _ _ _ ihFlat =>
      simp only [all, Bool.and_eq_true] at h
      exact ihFlat h.2.2
  | text _ | line _ _ | breakParent | alien _ => rfl

/-- A document that forces nothing has no flag to raise. -/
theorem raise_eq_self {doc : Doc} (h : doc.forces = false) : doc.raise = doc := by
  induction doc with
  | concat parts ih | fill parts ih =>
      rw [forces, listForces_eq_false] at h
      rw [raise, listRaise_eq_map, List.map_congr_left fun d hd => ih d hd (h d hd), List.map_id']
  | group contents shouldBreak ih =>
      simp only [forces, Bool.or_eq_false_iff] at h
      rw [raise, ih h.1, h.1, h.2, Bool.or_false]
  | indent _ ih | align _ _ ih | root _ ih => rw [raise, ih h]
  | ifBreak _ _ ihBroken ihFlat =>
      simp only [forces, Bool.or_eq_false_iff] at h
      rw [raise, ihBroken h.1, ihFlat h.2]
  | text _ | line _ _ | breakParent | alien _ => rfl

end Doc

namespace Layout

/-! ## Whole columns -/

variable {α : Type} [Columns α] [WholeColumns α]

theorem isRegular_cast (n : Int) : IsRegular (n : α) := by
  constructor
  · rw [cast_add, Int.add_zero]
  · rw [cast_sub, Int.sub_zero]

/-- The room at a whole column of a page of whole width. -/
theorem Page.room_cast {page : Page α} {w : Int} (hwidth : page.width = .ok (w : α))
    (column : Int) : page.room (column : α) = .ok ((w - column : Int) : α) := by
  rw [Page.room, hwidth]
  exact distance_cast w column

/-! ## Reading flat documents -/

/-- Nothing fits in less than no room. -/
theorem fits_of_neg {strict : Bool} {commands : List Command} {room : Int} (h : room < 0) :
    fits strict commands (room : α) = .ok false := by
  rw [fits, if_neg (by rw [cast_le]; omega)]

/-- What takes columns off a whole room fits if the rest fits in what is left. -/
theorem fits_cast_spend {strict : Bool} {i : Indentation} {mode : Mode} {doc : Doc}
    {rest : List Command} {room : Int} {columns : Nat}
    (h : scan strict mode doc (room : α) = .ok (.spend (room : α) columns)) :
    fits strict (⟨i, mode, doc⟩ :: rest) (room : α) =
      fits strict rest ((room - columns : Int) : α) := by
  rw [fits_cons_spend h, cast_sub]
  by_cases hroom : 0 ≤ room
  · rw [if_pos (cast_le.mpr hroom)]
  · rw [if_neg (by rwa [cast_le]), fits_of_neg (by omega)]

/-- **A flat document that forces nothing takes the columns of its flat form off the
room.** -/
theorem fits_flat {strict : Bool} {i : Indentation} {doc : Doc} {rest : List Command} {room : Int}
    (hproper : doc.all Doc.isProper = true) (hforces : doc.forces = false) :
    fits strict (⟨i, .flat, doc⟩ :: rest) (room : α) =
      fits strict rest ((room - doc.flatWidth : Int) : α) := by
  induction doc generalizing i rest room with
  | text s => exact fits_cast_spend rfl
  | alien value => cases hproper
  | breakParent => cases hforces
  | concat parts ih | fill parts ih =>
      simp only [Doc.all, Bool.and_eq_true, Doc.listAll_eq_true] at hproper
      rw [Doc.forces, Doc.listForces_eq_false] at hforces
      first | rw [fits_concat] | rw [fits_fill]
      rw [Doc.flatWidth]
      have hparts := hproper.2
      clear hproper
      induction parts generalizing room with
      | nil => simp [Doc.listFlatWidth]
      | cons part parts ihParts =>
          rw [List.forall_mem_cons] at hparts hforces ih
          rw [List.map_cons, List.cons_append, ih.1 hparts.1 hforces.1,
            ihParts ih.2 hforces.2 hparts.2, Doc.listFlatWidth, Int.natCast_add, Int.sub_sub]
  | group contents shouldBreak ih =>
      simp only [Doc.forces, Bool.or_eq_false_iff] at hforces
      simp only [Doc.all, Bool.and_eq_true] at hproper
      obtain ⟨hcontents, rfl⟩ := hforces
      rw [fits_group (j := i)]
      exact ih hproper.2 hcontents
  | indent _ ih =>
      simp only [Doc.all, Bool.and_eq_true] at hproper
      rw [fits_indent (j := i)]
      exact ih hproper.2 hforces
  | align _ _ ih =>
      simp only [Doc.all, Bool.and_eq_true] at hproper
      rw [fits_align (j := i)]
      exact ih hproper.2 hforces
  | root _ ih =>
      simp only [Doc.all, Bool.and_eq_true] at hproper
      rw [fits_root (j := i)]
      exact ih hproper.2 hforces
  | ifBreak whenBroken whenFlat _ ihFlat =>
      simp only [Doc.all, Bool.and_eq_true] at hproper
      simp only [Doc.forces, Bool.or_eq_false_iff] at hforces
      rw [fits_whenFlat (j := i)]
      exact ihFlat hproper.2.2 hforces.2
  | line hard soft =>
      have hhard : hard = false := hforces
      subst hhard
      cases soft with
      | true => rw [fits_joined, Doc.flatWidth, if_pos rfl, Int.natCast_zero, Int.sub_zero]
      | false => exact fits_cast_spend rfl

/-- A flat document that forces nothing fits on its own if its flat form is no wider than
the room. -/
theorem fits_flat_alone {strict : Bool} {i : Indentation} {doc : Doc} {room : Int}
    (hproper : doc.all Doc.isProper = true) (hforces : doc.forces = false) :
    fits strict [⟨i, .flat, doc⟩] (room : α) = .ok (decide ((doc.flatWidth : Int) ≤ room)) := by
  rw [fits_flat hproper hforces]
  by_cases hroom : (doc.flatWidth : Int) ≤ room
  · rw [fits, if_pos (cast_le.mpr (by omega)), decide_eq_true hroom]
    rfl
  · rw [fits_of_neg (by omega), decide_eq_false hroom]

/-! ## Running flat documents -/

/-- Making an alignment does not depend on what it is made in. -/
theorem Indentation.align_congr (i : Indentation) (columns : Int) :
    (Indentation.align i columns).map (fun _ => ()) =
      (Indentation.align [] columns).map fun _ => () := by
  rw [Indentation.align, Indentation.align]
  split
  · rfl
  · cases spaceCount columns <;> rfl

namespace Machine

variable [LawfulColumns α] {page : Page α}

/-- The output once a text has been written. -/
def outputAfter (page : Page α) (column : Int) (written : List Piece) (s : Text)
    (rest : List Command) : Except Fault Text :=
  output page ⟨((column + Text.width s : Int) : α), .text s :: written, rest⟩

omit [LawfulColumns α] in
theorem output_text (column : Int) (written : List Piece) (i : Indentation) (mode : Mode) (s : Text)
    (rest : List Command) :
    output page ⟨(column : α), written, ⟨i, mode, .text s⟩ :: rest⟩ =
      outputAfter page column written s rest := by
  rw [output_cons, perform, Fault.ok_bind, cast_add, outputAfter]

/-- What was written before matters for its text only. -/
theorem output_congr (column : Int) {written written' : List Piece} (rest : List Command)
    (h : assemble page written.reverse = assemble page written'.reverse) :
    output page ⟨(column : α), written, rest⟩ = output page ⟨(column : α), written', rest⟩ :=
  (Alike.refl rest).output_eq (isRegular_cast column) h

@[simp] theorem outputAfter_nil (column : Int) (written : List Piece) (rest : List Command) :
    outputAfter page column written [] rest = output page ⟨(column : α), written, rest⟩ := by
  rw [outputAfter, Text.width_nil, Int.natCast_zero, Int.add_zero]
  refine output_congr column rest ?_
  rw [List.reverse_cons, assemble_concat_inline _ (by simp)]
  exact List.append_nil _

/-- A text after a text is the text of both. -/
theorem outputAfter_append (column : Int) (written : List Piece) (s t : Text)
    (rest : List Command) :
    outputAfter page (column + Text.width s) (.text s :: written) t rest =
      outputAfter page column written (s ++ t) rest := by
  rw [outputAfter, outputAfter, Text.width_append, Int.natCast_add, Int.add_assoc]
  refine output_congr _ rest ?_
  simp only [List.reverse_cons, List.append_assoc]
  rw [← List.append_assoc, assemble_concat_inline _ (by simp), assemble_concat_inline _ (by simp),
    assemble_concat_inline _ (by simp), List.append_assoc]
  rfl

end Machine

open Machine

variable [LawfulColumns α] {page : Page α} {w : Int}

/-- Where a document has room on a line it is written as its flat text, once the
indentation that it asks for is made. -/
def RunsFlat (page : Page α) (w : Int) (doc : Doc) : Prop :=
  ∀ (i : Indentation) (column : Int) (written : List Piece) (rest : List Command),
    column + doc.flatWidth ≤ w →
      output page ⟨(column : α), written, ⟨i, .flat, doc⟩ :: rest⟩ =
        doc.flatDemand page >>= fun _ => outputAfter page column written doc.flatText rest

/-- A flat document after a text on its line. -/
theorem RunsFlat.after {doc : Doc} (h : RunsFlat page w doc) (i : Indentation) {column : Int}
    (written : List Piece) {s : Text} (rest : List Command)
    (hroom : column + Text.width s + doc.flatWidth ≤ w) :
    outputAfter page column written s (⟨i, .flat, doc⟩ :: rest) =
      doc.flatDemand page >>= fun _ =>
        outputAfter page column written (s ++ doc.flatText) rest := by
  rw [outputAfter, h i _ _ rest hroom]
  simp only [outputAfter_append]

/-- Flat documents after a text on their line. -/
theorem RunsFlat.list_after {parts : List Doc} (h : ∀ part ∈ parts, RunsFlat page w part)
    (i : Indentation) {column : Int} (written : List Piece) {s : Text} (rest : List Command)
    (hroom : column + Text.width s + Doc.listFlatWidth parts ≤ w) :
    outputAfter page column written s (parts.map (⟨i, .flat, ·⟩) ++ rest) =
      Doc.listFlatDemand page parts >>= fun _ =>
        outputAfter page column written (s ++ Doc.listFlatText parts) rest := by
  induction parts generalizing s with
  | nil => rw [Doc.listFlatDemand, Fault.ok_bind, Doc.listFlatText, List.append_nil]; rfl
  | cons part parts ih =>
      rw [List.forall_mem_cons] at h
      rw [Doc.listFlatWidth, Int.natCast_add, ← Int.add_assoc] at hroom
      have hparts : column + Text.width (s ++ part.flatText) + Doc.listFlatWidth parts ≤ w := by
        rw [Text.width_append, Doc.width_flatText, Int.natCast_add]
        omega
      rw [List.map_cons, List.cons_append, h.1.after i written _ (by omega), Doc.listFlatDemand,
        Doc.listFlatText]
      simp only [ih h.2 hparts, bind_assoc, List.append_assoc]

omit [LawfulColumns α] in
/-- A part of a fill has been found to fit if there is room for it. -/
theorem fits_part {i : Indentation} {doc : Doc} {room : Int}
    (hproper : doc.all Doc.isProper = true) (hforces : doc.forces = false)
    (hroom : (doc.flatWidth : Int) ≤ room) :
    fits true [⟨i, .flat, doc⟩] (room : α) = .ok true := by
  rw [fits_flat_alone hproper hforces, decide_eq_true hroom]

omit [LawfulColumns α] in
/-- A fill with room for its parts lays its first content and separator flat. -/
theorem fillCommands_flat {i : Indentation} {parts : List Doc} {room : Int}
    (hproper : ∀ part ∈ parts, part.all Doc.isProper = true)
    (hforces : ∀ part ∈ parts, part.forces = false)
    (hroom : (Doc.listFlatWidth parts : Int) ≤ room) :
    fillCommands i .flat parts (room : α) =
      .ok ((parts.take 2).map (⟨i, .flat, ·⟩) ++
        if (parts.drop 2).isEmpty then [] else [⟨i, .flat, .fill (parts.drop 2)⟩]) := by
  match parts with
  | [] => rfl
  | [content] =>
      simp only [List.forall_mem_singleton] at hproper hforces
      simp only [Doc.listFlatWidth] at hroom
      rw [fillCommands, fits_part hproper hforces (by omega)]
      rfl
  | [content, separator] =>
      simp only [List.forall_mem_cons] at hproper hforces
      simp only [Doc.listFlatWidth] at hroom
      rw [fillCommands, fits_part hproper.1 hforces.1 (by omega)]
      rfl
  | content :: separator :: next :: others =>
      simp only [List.forall_mem_cons] at hproper hforces
      simp only [Doc.listFlatWidth] at hroom
      rw [fillCommands, fits_part hproper.1 hforces.1 (by omega), fits_part]
      · rfl
      · simp [Doc.all, Doc.isProper, hproper]
      · simp [Doc.forces, hforces]
      · simp only [Doc.flatWidth, Doc.listFlatWidth]
        omega

omit [LawfulColumns α] in
/-- The output of a flat fill with room for its parts. -/
theorem outputAfter_fill (hwidth : page.width = .ok (w : α)) {parts : List Doc}
    (hproper : ∀ part ∈ parts, part.all Doc.isProper = true)
    (hforces : ∀ part ∈ parts, part.forces = false) (i : Indentation) {column : Int}
    (written : List Piece) {s : Text} (rest : List Command)
    (hroom : column + Text.width s + Doc.listFlatWidth parts ≤ w) :
    outputAfter page column written s (⟨i, .flat, .fill parts⟩ :: rest) =
      outputAfter page column written s ((parts.take 2).map (⟨i, .flat, ·⟩) ++
        (if (parts.drop 2).isEmpty then [] else [⟨i, .flat, .fill (parts.drop 2)⟩]) ++ rest) := by
  rw [outputAfter, output_cons, perform, Page.room_cast hwidth, Fault.ok_bind,
    fillCommands_flat hproper hforces (by omega), Fault.ok_bind]
  rfl

/-- A flat fill with room for all its parts lays them all flat. -/
theorem RunsFlat.fill_after (hwidth : page.width = .ok (w : α)) {parts : List Doc}
    (hproper : ∀ part ∈ parts, part.all Doc.isProper = true)
    (hforces : ∀ part ∈ parts, part.forces = false) (h : ∀ part ∈ parts, RunsFlat page w part)
    (i : Indentation) {column : Int} (written : List Piece) {s : Text} (rest : List Command)
    (hroom : column + Text.width s + Doc.listFlatWidth parts ≤ w) :
    outputAfter page column written s (⟨i, .flat, .fill parts⟩ :: rest) =
      Doc.listFlatDemand page parts >>= fun _ =>
        outputAfter page column written (s ++ Doc.listFlatText parts) rest := by
  induction parts using Doc.fillIsMeasured.induct generalizing s with
  | case1 | case2 content | case3 content separator =>
      rw [outputAfter_fill hwidth hproper hforces i written rest hroom]
      exact list_after h i written rest hroom
  | case4 content separator next others ih =>
      rw [outputAfter_fill hwidth hproper hforces i written rest hroom]
      simp only [List.forall_mem_cons] at hproper hforces h
      simp only [Doc.listFlatWidth, Int.natCast_add] at hroom
      have hpair : ∀ part ∈ [content, separator], RunsFlat page w part := by simp [h]
      have hfirst := list_after hpair i written (⟨i, .flat, .fill (next :: others)⟩ :: rest)
        (show column + Text.width s + _ ≤ w by simp only [Doc.listFlatWidth]; omega)
      have hothers := ih (s := s ++ Doc.listFlatText [content, separator])
        (List.forall_mem_cons.mpr hproper.2.2) (List.forall_mem_cons.mpr hforces.2.2)
        (List.forall_mem_cons.mpr h.2.2) (by
          simp only [Doc.listFlatText, Doc.listFlatWidth, Text.width_append, Doc.width_flatText,
            Text.width_nil, Int.natCast_add]
          omega)
      refine hfirst.trans ?_
      rw [hothers]
      simp only [Doc.listFlatDemand, Doc.listFlatText, bind_assoc, Fault.ok_bind, List.append_assoc,
        List.append_nil]

/-- **A document that forces nothing is written as its flat text** where it is laid flat
with room for all of it. -/
theorem runsFlat (hwidth : page.width = .ok (w : α)) {doc : Doc}
    (hproper : doc.all Doc.isProper = true) (hforces : doc.forces = false) :
    RunsFlat page w doc := by
  induction doc with
  | text s =>
      intro i column written rest _
      rw [output_text]
      rfl
  | alien value => cases hproper
  | breakParent => cases hforces
  | concat parts ih =>
      simp only [Doc.all, Bool.and_eq_true, Doc.listAll_eq_true] at hproper
      rw [Doc.forces, Doc.listForces_eq_false] at hforces
      intro i column written rest hroom
      have hparts := RunsFlat.list_after (s := [])
        (fun part hpart => ih part hpart (hproper.2 part hpart) (hforces part hpart)) i written rest
        (by simpa [Doc.flatWidth] using hroom)
      rw [outputAfter_nil] at hparts
      rw [output_cons]
      exact hparts
  | fill parts ih =>
      simp only [Doc.all, Bool.and_eq_true, Doc.listAll_eq_true] at hproper
      rw [Doc.forces, Doc.listForces_eq_false] at hforces
      intro i column written rest hroom
      have hparts := RunsFlat.fill_after (s := []) hwidth hproper.2 hforces
        (fun part hpart => ih part hpart (hproper.2 part hpart) (hforces part hpart)) i written rest
        (by simpa [Doc.flatWidth] using hroom)
      rwa [outputAfter_nil] at hparts
  | group contents shouldBreak ih =>
      simp only [Doc.forces, Bool.or_eq_false_iff] at hforces
      simp only [Doc.all, Bool.and_eq_true] at hproper
      obtain ⟨hcontents, rfl⟩ := hforces
      intro i column written rest hroom
      rw [output_inherited]
      exact ih hproper.2 hcontents i column written rest hroom
  | indent contents ih =>
      simp only [Doc.all, Bool.and_eq_true] at hproper
      intro i column written rest hroom
      rw [output_cons, perform, Doc.flatDemand]
      cases page.level with
      | error fault => rfl
      | ok level => exact ih hproper.2 hforces _ column written rest hroom
  | align columns contents ih =>
      simp only [Doc.all, Bool.and_eq_true] at hproper
      intro i column written rest hroom
      have hmade := Indentation.align_congr i columns
      rw [output_cons, perform, Doc.flatDemand]
      cases hi : Indentation.align i columns with
      | error fault =>
          cases hnil : Indentation.align [] columns with
          | error fault' =>
              rw [hi, hnil] at hmade
              exact congrArg Except.error (Except.error.inj hmade)
          | ok j => rw [hi, hnil] at hmade; cases hmade
      | ok j =>
          cases hnil : Indentation.align [] columns with
          | error fault => rw [hi, hnil] at hmade; cases hmade
          | ok _ => exact ih hproper.2 hforces j column written rest hroom
  | root contents ih =>
      simp only [Doc.all, Bool.and_eq_true] at hproper
      intro i column written rest hroom
      rw [output_cons]
      exact ih hproper.2 hforces [] column written rest hroom
  | ifBreak whenBroken whenFlat _ ihFlat =>
      simp only [Doc.all, Bool.and_eq_true] at hproper
      simp only [Doc.forces, Bool.or_eq_false_iff] at hforces
      intro i column written rest hroom
      rw [output_cons]
      exact ihFlat hproper.2.2 hforces.2 i column written rest hroom
  | line hard soft =>
      have hhard : hard = false := hforces
      subst hhard
      intro i column written rest _
      have hstep : output page ⟨(column : α), written, ⟨i, .flat, .line false soft⟩ :: rest⟩ =
          output page ⟨((column + (Doc.line false soft).flatWidth : Int) : α),
            .unbroken soft :: written, rest⟩ := by
        rw [output_cons]
        cases soft with
        | true => rw [Doc.flatWidth, if_pos rfl, Int.natCast_zero, Int.add_zero]; rfl
        | false => exact congrArg (fun c => output page ⟨c, _, rest⟩) (cast_add column 1)
      rw [hstep, Doc.flatDemand, Fault.ok_bind, outputAfter, Doc.width_flatText]
      refine output_congr _ rest ?_
      simp only [List.reverse_cons]
      rw [assemble_concat_inline _ (by simp), assemble_concat_inline _ (by simp)]
      rfl

/-! ## Groups -/

section

variable {α : Type} {page : Page α}

/-- An alignment can be made if it fits in memory. -/
theorem Indentation.isOk_align (i : Indentation) (columns : Int) :
    (i.align columns).isOk = decide (columns < memoryLimit) := by
  by_cases h : columns < memoryLimit
  · obtain ⟨j, hj⟩ := i.align_ok h
    rw [hj, decide_eq_true h]
    rfl
  · rw [decide_eq_false h]
    cases hj : i.align columns with
    | error fault => rfl
    | ok j => exact absurd (lt_memoryLimit_of_align hj) h

theorem isOk_bind {β : Type} (x : Except Fault β) (y : Except Fault Unit) :
    (x >>= fun _ => y).isOk = (x.isOk && y.isOk) := by
  cases x <;> rfl

/-- The indentation that a flat document asks for can be made if its levels and its
alignments can. -/
theorem isOk_flatDemand (doc : Doc) :
    (doc.flatDemand page).isOk = doc.isFlatFeasible page.level.isOk := by
  induction doc with
  | concat parts ih | fill parts ih =>
      rw [Doc.flatDemand, Doc.isFlatFeasible]
      induction parts with
      | nil => rfl
      | cons part parts ihParts =>
          rw [List.forall_mem_cons] at ih
          rw [Doc.listFlatDemand, isOk_bind, ih.1, ihParts ih.2, Doc.listIsFlatFeasible]
  | group _ _ ih | root _ ih => exact ih
  | indent contents ih => rw [Doc.flatDemand, isOk_bind, ih, Doc.isFlatFeasible]
  | align columns contents ih =>
      rw [Doc.flatDemand, isOk_bind, ih, Doc.isFlatFeasible, Indentation.isOk_align]
  | ifBreak _ _ _ ihFlat => exact ihFlat
  | text _ | line _ _ | breakParent | alien _ => rfl

end

omit [WholeColumns α] [LawfulColumns α] in
/-- A document that has to break is laid out as it is without a group around it. -/
theorem render_group_of_forces {doc : Doc} (hproper : doc.all Doc.isProper = true)
    {shouldBreak : Bool} (h : (doc.forces || shouldBreak) = true) :
    render page (.group doc shouldBreak) = render page doc := by
  have hgroup : (Doc.group doc shouldBreak).all Doc.isProper = true := by
    simpa [Doc.all, Doc.isProper] using hproper
  rw [render_eq, render_eq, Doc.settle_eq hgroup, Doc.settle_eq hproper, Doc.raise, h]
  exact output_forced _ _ _ _ _ _

/-- A document that need not break, in a group, is measured from the first column. -/
theorem render_group_of_not_forces (hwidth : page.width = .ok (w : α)) {doc : Doc}
    (hproper : doc.all Doc.isProper = true) (hforces : doc.forces = false) :
    render page (.group doc false) =
      if (Text.width doc.flatText : Int) ≤ w then
        doc.flatDemand page >>= fun _ => .ok doc.flatText
      else render page doc := by
  have hgroup : (Doc.group doc false).all Doc.isProper = true := by
    simpa [Doc.all, Doc.isProper] using hproper
  have hroom : page.room ((0 : Int) : α) = .ok ((w - 0 : Int) : α) := Page.room_cast hwidth 0
  rw [render_eq, render_eq, Doc.settle_eq hgroup, Doc.settle_eq hproper, Doc.raise, hforces,
    Doc.raise_eq_self hforces, Fault.ok_bind, Fault.ok_bind, start, Bool.or_false, output_decided,
    hroom, Fault.ok_bind, fits_flat_alone hproper hforces, Fault.ok_bind, Doc.width_flatText,
    Int.sub_zero]
  by_cases hfits : (doc.flatWidth : Int) ≤ w
  · rw [if_pos hfits, decide_eq_true hfits]
    refine (runsFlat hwidth hproper hforces [] 0 [] [] (by omega)).trans ?_
    simp only [outputAfter, output_nil, List.reverse_singleton]
    rw [← List.nil_append [Piece.text doc.flatText], assemble_concat_inline _ (by simp)]
    rfl
  · rw [if_neg hfits, decide_eq_false hfits]
    rfl

/-- **A group is decided by the width of its flat text.** The indentation that the text
asks for is made where the group is flat, and the layout fails where it cannot be. -/
theorem render_group_eq (hwidth : page.width = .ok (w : α)) {doc : Doc}
    (hproper : doc.all Doc.isProper = true) (shouldBreak : Bool) :
    render page (.group doc shouldBreak) =
      if shouldBreak = false ∧ doc.forces = false ∧ (Text.width doc.flatText : Int) ≤ w then
        doc.flatDemand page >>= fun _ => .ok doc.flatText
      else render page doc := by
  cases hforces : doc.forces || shouldBreak with
  | true =>
      rw [render_group_of_forces hproper hforces, if_neg]
      rintro ⟨rfl, hnone, -⟩
      rw [hnone] at hforces
      cases hforces
  | false =>
      rw [Bool.or_eq_false_iff] at hforces
      obtain ⟨hforces, rfl⟩ := hforces
      rw [render_group_of_not_forces hwidth hproper hforces]
      simp only [hforces, true_and]

end Layout

namespace Settings

open Layout

variable {settings : Settings} {w : Int}

/-- What settings with an integer width make of a group, on the page that they lay out
on. -/
theorem exists_layout_group (hw : settings.printWidth.int? = some w) {doc : Doc}
    (hdoc : doc.all Doc.isProper = true) (shouldBreak : Bool) :
    ∃ demand : Except Fault Unit, demand.isOk = doc.isFlatFeasible settings.canIndent ∧
      settings.layout (.group doc shouldBreak) =
        if shouldBreak = false ∧ doc.forces = false ∧ (Text.width doc.flatText : Int) ≤ w then
          demand >>= fun _ => .ok doc.flatText
        else settings.layout doc := by
  cases hfraction : settings.isFractional with
  | true =>
      refine ⟨doc.flatDemand (settings.page Measure.ofJson?), isOk_flatDemand doc, ?_⟩
      simp only [layout, hfraction, if_true]
      exact render_group_eq (width_page_measure hw) hdoc shouldBreak
  | false =>
      refine ⟨doc.flatDemand (settings.page Json.int?), ?_, ?_⟩
      · rw [isOk_flatDemand, isOk_level_page hfraction]
      · simp only [layout, hfraction, Bool.false_eq_true, if_false]
        exact render_group_eq (width_page hw) hdoc shouldBreak

/-- **A group is laid flat exactly if it can be and fits.** Settings with an integer width
lay a document in a group out as its flat text if the group is not told to break, nothing
in the document forces it to, and the text is no wider than the page; an indentation on
the way that cannot be made is a failure. In every other case the document is laid out as
without the group. -/
theorem layout_group (hw : settings.printWidth.int? = some w) {doc : Doc}
    (hdoc : doc.all Doc.isProper = true) (shouldBreak : Bool) :
    (shouldBreak = false ∧ doc.forces = false ∧ (Text.width doc.flatText : Int) ≤ w →
      (doc.isFlatFeasible settings.canIndent = true →
        settings.layout (.group doc shouldBreak) = .ok doc.flatText) ∧
      (doc.isFlatFeasible settings.canIndent = false →
        ∃ fault, settings.layout (.group doc shouldBreak) = .error fault)) ∧
    (¬(shouldBreak = false ∧ doc.forces = false ∧ (Text.width doc.flatText : Int) ≤ w) →
      settings.layout (.group doc shouldBreak) = settings.layout doc) := by
  obtain ⟨demand, hdemand, hlayout⟩ := exists_layout_group hw hdoc shouldBreak
  refine ⟨fun hflat => ?_, fun hbroken => by rw [hlayout, if_neg hbroken]⟩
  rw [hlayout, if_pos hflat, ← hdemand]
  cases demand with
  | ok _ => exact ⟨fun _ => rfl, fun h => absurd h Bool.true_eq_false.mp⟩
  | error fault => exact ⟨fun h => absurd h Bool.false_ne_true, fun _ => ⟨fault, rfl⟩⟩

/-- A group with a fill and a choice inside is laid flat on a page as wide as its flat
text, and not on one that is a column narrower or if one of the branches forces a break. -/
theorem layout_group_at_edge :
    let flat := Doc.concat [.text "(", .fill [.text "日本", .blankBreak, .text "c"],
      .ifBreak (.text ",") .softBreak, .text ")"]
    let forced := Doc.concat [.text "(", .ifBreak .hardBreak (.text "a"), .text ")"]
    Settings.layout { printWidth := .int 8 } (.group flat false) = .ok "(日本 c)" ∧
    Settings.layout { printWidth := .int 7 } (.group flat false) =
      Settings.layout { printWidth := .int 7 } flat ∧
    Settings.layout { printWidth := .int 8 } (.group forced false) =
      Settings.layout { printWidth := .int 8 } forced := by
  intro flat forced
  let wide : Settings := { printWidth := .int 8 }
  let narrow : Settings := { printWidth := .int 7 }
  have hwide : wide.printWidth.int? = some 8 := rfl
  have hnarrow : narrow.printWidth.int? = some 7 := rfl
  refine ⟨((layout_group hwide ?_ false).1 ?_).1 ?_, (layout_group hnarrow ?_ false).2 ?_,
    (layout_group hwide ?_ false).2 ?_⟩ <;> decide +kernel

/-- A group whose flat text fits is not laid out if that asks for an alignment that cannot
be made. -/
theorem layout_group_eq_error_of_wide_align :
    let doc := Doc.align countLimit (.text "a")
    doc.all Doc.isProper = true ∧ doc.forces = false ∧ (Text.width doc.flatText : Int) ≤ 80 ∧
      Settings.layout {} (.group doc false) = .error .overflow := by
  decide +kernel

end Settings

end HamlFormat
