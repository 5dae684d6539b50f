import HamlFormat.Proofs.Layout.Alike
import HamlFormat.Proofs.Layout.Completion

/-!
# HamlFormat.Proofs.Layout.Flat

Whether the groups that are laid flat fit. A group whose turn comes in a broken
document is measured, with what follows it, and laid flat if it fits. A group inside
something flat is laid flat without a look; it fits if what it is in was measured,
and measured as far as this group.

A fill does not always measure that far. The separator after its last content is
laid flat if that content fits, however wide the separator is. And a part of a fill
is read up to its first hard line break only, which does not keep the part from
being laid flat. `Doc.isMeasured` says of a fill that no group stands where it is
not measured. In documents with such fills only, every group that is laid flat fits
on its line (`Step.measured`, `Measured.column_add_flatWidth_le`).
-/

namespace HamlFormat

namespace Doc

/-! ## The flat form -/

mutual

/-- The columns of a document's flat form. -/
def flatWidth : Doc → Nat
  | .text s => Text.width s
  | .concat parts | .fill parts => listFlatWidth parts
  | .group contents _ | .indent contents | .align _ contents | .root contents =>
    flatWidth contents
  | .ifBreak _ whenFlat => flatWidth whenFlat
  | .line _ soft => if soft then 0 else 1
  | .breakParent | .alien _ => 0

/-- The columns of the flat forms of documents one after another. -/
def listFlatWidth : List Doc → Nat
  | [] => 0
  | part :: parts => flatWidth part + listFlatWidth parts

end

/-- What a reader of a flat document has to know of, besides its text. -/
inductive Mark where
  /-- A group that is not told to break. -/
  | group
  /-- A hard line break. -/
  | hard
  /-- A group that is told to break. -/
  | forced
  deriving DecidableEq

mutual

/-- The marks of a flat document in the order in which they are read. What is in a
group that is told to break is not flat. -/
def marks : Doc → List Mark
  | .text _ | .breakParent | .alien _ => []
  | .concat parts | .fill parts => listMarks parts
  | .group contents shouldBreak => if shouldBreak then [.forced] else .group :: marks contents
  | .indent contents | .align _ contents | .root contents => marks contents
  | .ifBreak _ whenFlat => marks whenFlat
  | .line hard _ => if hard then [.hard] else []

/-- The marks of flat documents one after another. -/
def listMarks : List Doc → List Mark
  | [] => []
  | part :: parts => marks part ++ listMarks parts

end

/-- Whether groups come only where they are measured. Reading ends at a hard line
break, and what is read up to there may fit; reading that comes to a group that is
told to break never fits. -/
def isCovered : List Mark → Bool
  | [] => true
  | .group :: marks => isCovered marks
  | .hard :: marks => !marks.contains .group
  | .forced :: _ => true

/-- Whether the groups in the parts of a fill come only where they are measured. The
last separator, if no content follows it, is not measured at all. -/
def fillIsMeasured : List Doc → Bool
  | [] => true
  | [content] => isCovered content.marks
  | [content, separator] => isCovered content.marks && !separator.marks.contains .group
  | content :: separator :: next :: rest =>
    isCovered (content.marks ++ separator.marks) && fillIsMeasured (next :: rest)

/-- Not a fill with a group that it does not measure. -/
def isMeasured : Doc → Bool
  | .fill parts => fillIsMeasured parts
  | _ => true

theorem isMeasured_fill_rest (content separator : Doc) (parts : List Doc)
    (h : isMeasured (.fill (content :: separator :: parts)) = true) :
    isMeasured (.fill parts) = true := by
  cases parts with
  | nil => rfl
  | cons next rest =>
      simp only [isMeasured, fillIsMeasured, Bool.and_eq_true] at h
      exact h.2

theorem isCovered_append_left {front back : List Mark} (h : isCovered (front ++ back) = true) :
    isCovered front = true := by
  induction front with
  | nil => rfl
  | cons mark front ih =>
      cases mark with
      | group => exact ih h
      | hard => simp_all [isCovered]
      | forced => rfl

/-- A document that forces nothing has no marks but its groups. -/
theorem eq_group_of_mem_marks {doc : Doc} (h : doc.forces = false) :
    ∀ mark ∈ doc.marks, mark = .group := by
  induction doc with
  | text _ | alien _ => simp [marks]
  | breakParent => cases h
  | concat parts ih | fill parts ih =>
      rw [forces, listForces_eq_false] at h
      rw [marks]
      induction parts with
      | nil => simp [listMarks]
      | cons part parts ihParts =>
          rw [listMarks, List.forall_mem_append]
          rw [List.forall_mem_cons] at h ih
          exact ⟨ih.1 h.1, ihParts ih.2 h.2⟩
  | group contents shouldBreak ih =>
      simp only [forces, Bool.or_eq_false_iff] at h
      obtain ⟨hcontents, rfl⟩ := h
      rw [marks, if_neg Bool.false_ne_true, List.forall_mem_cons]
      exact ⟨rfl, ih hcontents⟩
  | indent _ ih | align _ _ ih | root _ ih => exact ih h
  | ifBreak whenBroken whenFlat _ ihFlat =>
      simp only [forces, Bool.or_eq_false_iff] at h
      exact ihFlat h.2
  | line hard soft =>
      have hhard : hard = false := h
      simp [marks, hhard]

/-- Marks that are all groups are covered. -/
theorem isCovered_of_forall {marks : List Mark} (h : ∀ mark ∈ marks, mark = .group) :
    isCovered marks = true := by
  induction marks with
  | nil => rfl
  | cons mark marks ih =>
      rw [List.forall_mem_cons] at h
      rw [h.1, isCovered]
      exact ih h.2

end Doc

namespace Layout

open Relation (ReflTransGen)

/-! ## Reading ahead -/

section

variable {α : Type} [Columns α] {strict : Bool} {room : α}

/-- What fits has room. -/
theorem nonneg_of_fits {commands : List Command} (h : fits strict commands room = .ok true) :
    ((0 : Int) : α) ≤ room := by
  rw [fits] at h
  split at h
  · assumption
  · cases h

/-- Commands fit if they do with others after them. -/
theorem fits_of_fits_append {xs ys : List Command}
    (h : fits strict (xs ++ ys) room = .ok true) : fits strict xs room = .ok true := by
  have hroom := nonneg_of_fits h
  rw [fits, if_pos hroom] at h ⊢
  clear hroom
  induction xs generalizing room with
  | nil => rfl
  | cons x xs ih =>
      rw [List.cons_append, scanCommands] at h
      rw [scanCommands]
      obtain ⟨result, hscan, h⟩ := Fault.bind_eq_ok.mp h
      rw [hscan, Fault.ok_bind]
      cases result with
      | stop answer => exact h
      | more left => exact ih h

/-- Commands after others can be replaced by some that are read alike. -/
theorem fits_append_congr (xs : List Command) {ys zs : List Command}
    (h : ∀ room : α, scanCommands strict ys room = scanCommands strict zs room) :
    fits strict (xs ++ ys) room = fits strict (xs ++ zs) room := by
  have hscan : ∀ room : α,
      scanCommands strict (xs ++ ys) room = scanCommands strict (xs ++ zs) room := by
    induction xs with
    | nil => exact h
    | cons x xs ih =>
        intro room
        simp only [List.cons_append, scanCommands, ih]
  rw [fits, fits, hscan]

/-- Reading a document that forces nothing does not depend on whether groups may
break. -/
theorem scan_eq_of_forces {doc : Doc} (h : doc.forces = false) (strict : Bool) (mode : Mode)
    (room : α) : scan strict mode doc room = scan false mode doc room := by
  induction doc generalizing mode room with
  | text _ | line _ _ | breakParent | alien _ => rfl
  | concat parts ih | fill parts ih =>
      rw [Doc.forces, Doc.listForces_eq_false] at h
      rw [scan, scan]
      induction parts generalizing room with
      | nil => rfl
      | cons part parts ihParts =>
          rw [List.forall_mem_cons] at h ih
          simp only [scanList, ih.1 h.1, ihParts ih.2 h.2]
  | group contents shouldBreak ih =>
      simp only [Doc.forces, Bool.or_eq_false_iff] at h
      obtain ⟨hcontents, rfl⟩ := h
      simp only [scan, Bool.and_false, Bool.false_eq_true, if_false, ih hcontents]
  | indent _ ih | align _ _ ih | root _ ih => exact ih h mode room
  | ifBreak whenBroken whenFlat ihBroken ihFlat =>
      simp only [Doc.forces, Bool.or_eq_false_iff] at h
      cases mode with
      | broken => exact ihBroken h.1 .broken room
      | flat => exact ihFlat h.2 .flat room

end

/-- Reading a flat document that forces nothing takes the columns of its flat form off
the room. -/
theorem fits_sub_flatWidth {strict : Bool} {i : Indentation} {doc : Doc} {rest : List Command}
    {room : Int} (hforces : doc.forces = false)
    (h : fits strict (⟨i, .flat, doc⟩ :: rest) room = .ok true) :
    fits strict rest (room - doc.flatWidth) = .ok true := by
  induction doc generalizing i rest room with
  | text s => rwa [fits_text] at h
  | alien value =>
      rw [fits] at h
      split at h <;> cases h
  | breakParent => cases hforces
  | concat parts ih | fill parts ih =>
      rw [Doc.forces, Doc.listForces_eq_false] at hforces
      first | rw [fits_concat] at h | rw [fits_fill] at h
      rw [Doc.flatWidth]
      induction parts generalizing room with
      | nil => simpa [Doc.listFlatWidth] using h
      | cons part parts ihParts =>
          rw [List.forall_mem_cons] at hforces ih
          have hparts := ihParts ih.2 hforces.2 (ih.1 hforces.1 h)
          rwa [Doc.listFlatWidth, Int.natCast_add, ← Int.sub_sub]
  | group contents shouldBreak ih =>
      simp only [Doc.forces, Bool.or_eq_false_iff] at hforces
      obtain ⟨hcontents, rfl⟩ := hforces
      rw [fits_group (j := i)] at h
      exact ih hcontents h
  | indent _ ih => rw [fits_indent (j := i)] at h; exact ih hforces h
  | align _ _ ih => rw [fits_align (j := i)] at h; exact ih hforces h
  | root _ ih => rw [fits_root (j := i)] at h; exact ih hforces h
  | ifBreak whenBroken whenFlat _ ihFlat =>
      simp only [Doc.forces, Bool.or_eq_false_iff] at hforces
      rw [fits_whenFlat (j := i)] at h
      exact ihFlat hforces.2 h
  | line hard soft =>
      have hhard : hard = false := hforces
      subst hhard
      cases soft with
      | true => simpa [Doc.flatWidth, fits_joined] using h
      | false => rwa [fits_spaced] at h

/-! ## Measured commands -/

/-- The marks of flat commands in the order in which they are read. -/
def marksOf (commands : List Command) : List Doc.Mark :=
  commands.flatMap fun command => command.doc.marks

theorem marksOf_map (i : Indentation) (mode : Mode) (parts : List Doc) :
    marksOf (parts.map (⟨i, mode, ·⟩)) = Doc.listMarks parts := by
  induction parts with
  | nil => rfl
  | cons part parts ih => rw [List.map_cons, Doc.listMarks, ← ih]; rfl

/-- Flat commands that have been found to fit, with groups only where they were
measured. -/
structure Found (commands : List Command) (room : Int) : Prop where
  flat : ∀ command ∈ commands, command.mode = .flat
  fits_eq : fits true commands room = .ok true
  covered : Doc.isCovered (marksOf commands) = true

/-- One part that has been found to fit. -/
theorem found_single {i : Indentation} {doc : Doc} {room : Int}
    (hfits : fits true [⟨i, .flat, doc⟩] room = .ok true)
    (hcovered : Doc.isCovered doc.marks = true) : Found [⟨i, .flat, doc⟩] room where
  flat := by simp
  fits_eq := hfits
  covered := by simpa [marksOf] using hcovered

/-- Commands without groups to lay flat. -/
def Ungrouped (commands : List Command) : Prop :=
  ∀ command ∈ commands, command.mode = .flat → .group ∉ command.doc.marks

theorem ungrouped_cons {command : Command} {commands : List Command} :
    Ungrouped (command :: commands) ↔
      (command.mode = .flat → .group ∉ command.doc.marks) ∧ Ungrouped commands :=
  List.forall_mem_cons

theorem ungrouped_append {xs ys : List Command} :
    Ungrouped (xs ++ ys) ↔ Ungrouped xs ∧ Ungrouped ys :=
  List.forall_mem_append

/-- Commands without groups among their marks have none to lay flat. -/
theorem ungrouped_of_marksOf {commands : List Command} (h : .group ∉ marksOf commands) :
    Ungrouped commands :=
  fun command hcommand _ hgroup => h (List.mem_flatMap.mpr ⟨command, hcommand, hgroup⟩)

/-- Broken commands have no groups to lay flat. -/
theorem ungrouped_of_broken {commands : List Command}
    (h : ∀ command ∈ commands, command.mode = .broken) : Ungrouped commands := by
  intro command hcommand hflat
  rw [h command hcommand] at hflat
  cases hflat

/-- Commands that lay no group flat without having measured it: those in front have
been found to fit, if there are any, and those behind have no groups to lay flat. -/
def Measured (commands : List Command) (room : Int) : Prop :=
  ∃ front back, commands = front ++ back ∧ (front = [] ∨ Found front room) ∧ Ungrouped back

theorem Ungrouped.measured {commands : List Command} {room : Int} (h : Ungrouped commands) :
    Measured commands room :=
  ⟨[], commands, rfl, .inl rfl, h⟩

theorem Measured.append {xs ys : List Command} {room : Int} (h : Measured xs room)
    (hys : Ungrouped ys) : Measured (xs ++ ys) room := by
  obtain ⟨front, back, rfl, hfront, hback⟩ := h
  refine ⟨front, back ++ ys, List.append_assoc _ _ _, hfront, ?_⟩
  exact ungrouped_append.mpr ⟨hback, hys⟩

/-- The next command has either been found to fit with others after it, or has no group
to lay flat, nor have all those after it. -/
theorem Measured.cases {command : Command} {rest : List Command} {room : Int}
    (h : Measured (command :: rest) room) :
    (∃ front back, rest = front ++ back ∧ Found (command :: front) room ∧ Ungrouped back) ∨
      Ungrouped (command :: rest) := by
  obtain ⟨front, back, hcommands, hfront, hback⟩ := h
  cases front with
  | nil =>
      rw [List.nil_append] at hcommands
      exact .inr (hcommands ▸ hback)
  | cons first front =>
      rw [List.cons_append, List.cons.injEq] at hcommands
      obtain ⟨rfl, rfl⟩ := hcommands
      exact .inl ⟨front, back, rfl, hfront.resolve_left (List.cons_ne_nil _ _), hback⟩

theorem Ungrouped.cons_broken {rest : List Command} (h : Ungrouped rest) (i : Indentation)
    (doc : Doc) : Ungrouped (⟨i, .broken, doc⟩ :: rest) :=
  ungrouped_cons.mpr ⟨(fun hflat => by cases hflat), h⟩

/-- A broken command has not been found to fit. -/
theorem Measured.ungrouped {i : Indentation} {doc : Doc} {rest : List Command} {room : Int}
    (h : Measured (⟨i, .broken, doc⟩ :: rest) room) : Ungrouped rest := by
  rcases h.cases with ⟨front, back, -, hfound, -⟩ | hback
  · cases hfound.flat _ List.mem_cons_self
  · exact (ungrouped_cons.mp hback).2

/-- The next command can be replaced by others of its mode that are read alike and have
no marks but its own. -/
theorem Measured.replace {command : Command} (commands : List Command) {rest : List Command}
    {room left : Int} (h : Measured (command :: rest) room)
    (hmode : ∀ other ∈ commands, other.mode = command.mode)
    (hfits : command.mode = .flat → ∀ front,
      fits true (command :: front) room = fits true (commands ++ front) left)
    (hcovered : ∀ marks, Doc.isCovered (command.doc.marks ++ marks) = true →
      Doc.isCovered (marksOf commands ++ marks) = true)
    (hgroup : command.mode = .flat → .group ∉ command.doc.marks → .group ∉ marksOf commands) :
    Measured (commands ++ rest) left := by
  rcases h.cases with ⟨front, back, rfl, hfound, hback⟩ | hback
  · have hflat := hfound.flat command List.mem_cons_self
    refine ⟨commands ++ front, back, (List.append_assoc _ _ _).symm, .inr ⟨?_, ?_, ?_⟩, hback⟩
    · refine List.forall_mem_append.mpr ⟨fun other hother => (hmode other hother).trans hflat, ?_⟩
      exact fun other hother => hfound.flat other (List.mem_cons_of_mem _ hother)
    · rw [← hfits hflat]
      exact hfound.fits_eq
    · have := hfound.covered
      rw [marksOf, List.flatMap_append]
      exact hcovered _ this
  · obtain ⟨hcommand, hrest⟩ := ungrouped_cons.mp hback
    refine Ungrouped.measured (ungrouped_append.mpr ⟨fun other hother hflat => ?_, hrest⟩)
    have hmode : command.mode = .flat := (hmode other hother).symm.trans hflat
    exact ungrouped_of_marksOf (hgroup hmode (hcommand hmode)) other hother hflat

/-- A group that is told to break is not among what has been found to fit. -/
theorem Measured.forced {i : Indentation} {mode : Mode} {contents : Doc} {rest : List Command}
    {room : Int} (h : Measured (⟨i, mode, .group contents true⟩ :: rest) room) :
    Measured (⟨i, .broken, contents⟩ :: rest) room := by
  rcases h.cases with ⟨front, back, -, hfound, -⟩ | hback
  · have hfits := hfound.fits_eq
    rw [fits] at hfits
    split at hfits <;> cases hfits
  · exact ((ungrouped_cons.mp hback).2.cons_broken _ _).measured

/-- After a line break that prints there are no groups to lay flat. -/
theorem Measured.newline {i : Indentation} {mode : Mode} {hard soft : Bool} {rest : List Command}
    {room : Int} (h : Measured (⟨i, mode, .line hard soft⟩ :: rest) room)
    (hbreak : mode = .broken ∨ hard = true) : Ungrouped rest := by
  rcases h.cases with ⟨front, back, rfl, hfound, hback⟩ | hback
  · have hmode : mode = .flat := hfound.flat _ List.mem_cons_self
    have hhard : hard = true := hbreak.resolve_left (by simp [hmode])
    have hcovered := hfound.covered
    simp only [marksOf, List.flatMap_cons, Doc.marks, hhard, if_true, List.singleton_append,
      Doc.isCovered, Bool.not_eq_true', List.contains_eq_mem, decide_eq_false_iff_not] at hcovered
    exact ungrouped_append.mpr ⟨ungrouped_of_marksOf hcovered, hback⟩
  · exact (ungrouped_cons.mp hback).2

/-- What a group holds has been found to fit if the group has been measured. -/
theorem Ungrouped.measured_of_fits {i : Indentation} {contents : Doc} {rest : List Command}
    {room : Int} (h : Ungrouped rest) (hforces : contents.forces = false)
    (hfits : fits false (⟨i, .flat, contents⟩ :: rest) room = .ok true) :
    Measured (⟨i, .flat, contents⟩ :: rest) room := by
  have halone : fits true [⟨i, .flat, contents⟩] room = .ok true := by
    have hfalse : fits false [⟨i, .flat, contents⟩] room = .ok true := fits_of_fits_append hfits
    simpa only [fits, scanCommands, scan_eq_of_forces hforces true] using hfalse
  have hcovered := Doc.isCovered_of_forall (Doc.eq_group_of_mem_marks hforces)
  exact ⟨[_], rest, rfl, .inr (found_single halone hcovered), h⟩

/-- **A group that is laid flat inside something flat fits.** -/
theorem Measured.flatWidth_le {i : Indentation} {contents : Doc} {rest : List Command} {room : Int}
    (h : Measured (⟨i, .flat, .group contents false⟩ :: rest) room)
    (hforces : contents.forces = false) : (contents.flatWidth : Int) ≤ room := by
  rcases h.cases with ⟨front, back, rfl, hfound, -⟩ | hback
  · have hfits := hfound.fits_eq
    rw [fits_group (j := i)] at hfits
    have hroom := nonneg_of_fits (fits_sub_flatWidth hforces hfits)
    simp only [Int.cast_id] at hroom
    omega
  · have hgroup := hback _ List.mem_cons_self rfl
    simp [Doc.marks] at hgroup

/-! ## Fills -/

/-- A fill in a broken document measures its groups. -/
theorem measured_fillCommands {i : Indentation} {parts : List Doc} {room : Int}
    {commands : List Command} (hparts : Doc.fillIsMeasured parts = true)
    (h : fillCommands i .broken parts room = .ok commands) : Measured commands room := by
  unfold fillCommands at h
  split at h
  · cases h
    exact Ungrouped.measured (by simp [Ungrouped])
  · next content =>
    obtain ⟨contentFits, hcontent, h⟩ := Fault.bind_eq_ok.mp h
    cases h
    cases contentFits with
    | true => exact ⟨_, [], rfl, .inr (found_single hcontent hparts), by simp [Ungrouped]⟩
    | false => exact (ungrouped_of_broken (by simp)).measured
  · next content separator =>
    obtain ⟨contentFits, hcontent, h⟩ := Fault.bind_eq_ok.mp h
    cases h
    simp only [Doc.fillIsMeasured, Bool.and_eq_true, Bool.not_eq_true'] at hparts
    cases contentFits with
    | true =>
        refine ⟨[_], [_], rfl, .inr (found_single hcontent hparts.1), ?_⟩
        simpa [Ungrouped] using hparts.2
    | false => exact (ungrouped_of_broken (by simp)).measured
  · next content separator next rest =>
    obtain ⟨contentFits, hcontent, h⟩ := Fault.bind_eq_ok.mp h
    obtain ⟨pairFits, hpair, h⟩ := Fault.bind_eq_ok.mp h
    cases h
    simp only [Doc.fillIsMeasured, Bool.and_eq_true] at hparts
    cases pairFits with
    | true =>
        -- reading the content and the separator is the start of reading the pair
        rw [fits_concat] at hpair
        have hfits : fits true [⟨i, .flat, content⟩, ⟨i, .flat, separator⟩] room = .ok true :=
          fits_of_fits_append hpair
        refine ⟨[_, _], [_], rfl, .inr ⟨by simp, hfits, ?_⟩, ungrouped_of_broken (by simp)⟩
        simpa [marksOf] using hparts.1
    | false =>
        cases contentFits with
        | true =>
            exact ⟨[_], [_, _], rfl,
              .inr (found_single hcontent (Doc.isCovered_append_left hparts.1)),
              ungrouped_of_broken (by simp)⟩
        | false => exact (ungrouped_of_broken (by simp)).measured

/-- A fill that has been found to fit lays its parts flat, and they have been found to
fit. -/
theorem Found.fillCommands {i : Indentation} {parts : List Doc} {front commands : List Command}
    {room : Int} (hfound : Found (⟨i, .flat, .fill parts⟩ :: front) room)
    (h : fillCommands i .flat parts room = .ok commands) : Found (commands ++ front) room := by
  have hfits := hfound.fits_eq
  have hfront : ∀ command ∈ front, command.mode = .flat := fun command hcommand =>
    hfound.flat command (List.mem_cons_of_mem _ hcommand)
  have hcovered : Doc.isCovered (Doc.listMarks parts ++ marksOf front) = true := hfound.covered
  rw [fits_fill] at hfits
  match parts with
  | [] =>
      cases h
      exact ⟨hfront, hfits, hcovered⟩
  | [content] =>
      have hcontent : fits true [⟨i, .flat, content⟩] room = .ok true := fits_of_fits_append hfits
      rw [Layout.fillCommands, hcontent] at h
      cases h
      exact ⟨by simpa using hfront, hfits, by simpa [marksOf, Doc.listMarks] using hcovered⟩
  | [content, separator] =>
      have hcontent : fits true [⟨i, .flat, content⟩] room = .ok true := fits_of_fits_append hfits
      rw [Layout.fillCommands, hcontent] at h
      cases h
      exact ⟨by simpa using hfront, hfits, by simpa [marksOf, Doc.listMarks] using hcovered⟩
  | content :: separator :: next :: rest =>
      have hcontent : fits true [⟨i, .flat, content⟩] room = .ok true := fits_of_fits_append hfits
      have hpair : fits true [⟨i, .flat, .concat [content, separator, next]⟩] room = .ok true := by
        rw [fits_concat]
        exact fits_of_fits_append hfits
      rw [Layout.fillCommands, hcontent, hpair] at h
      cases h
      refine ⟨by simpa using hfront, ?_,
        by simpa [marksOf, Doc.marks, Doc.listMarks] using hcovered⟩
      rw [← hfits]
      refine fits_append_congr [⟨i, .flat, content⟩, ⟨i, .flat, separator⟩] fun left => ?_
      exact (scanCommands_map_append (next :: rest) left).symm

/-- A fill without groups has none to lay flat. -/
theorem ungrouped_fillCommands {i : Indentation} {mode : Mode} {parts : List Doc} {room : Int}
    {commands : List Command} (hparts : .group ∉ (Doc.fill parts).marks)
    (h : fillCommands i mode parts room = .ok commands) : Ungrouped commands := by
  obtain ⟨rfl, rfl⟩ | ⟨content, m, rfl, rfl⟩ | ⟨content, separator, m, rfl, rfl⟩ |
    ⟨content, separator, next, rest, m, n, rfl, rfl⟩ := fillCommands_cases h
  all_goals
    simp only [Doc.marks, Doc.listMarks, List.mem_append, not_or, List.not_mem_nil,
      not_false_eq_true] at hparts
    simp [Ungrouped, Doc.marks, Doc.listMarks, hparts]

/-- A fill keeps groups from being laid flat without having been measured. -/
theorem Measured.fill {i : Indentation} {mode : Mode} {parts : List Doc} {rest : List Command}
    {room : Int} {commands : List Command} (h : Measured (⟨i, mode, .fill parts⟩ :: rest) room)
    (hparts : Doc.fillIsMeasured parts = true)
    (hfill : fillCommands i mode parts room = .ok commands) : Measured (commands ++ rest) room := by
  cases mode with
  | broken => exact (measured_fillCommands hparts hfill).append h.ungrouped
  | flat =>
      rcases h.cases with ⟨front, back, rfl, hfound, hback⟩ | hback
      · exact ⟨_, back, (List.append_assoc _ _ _).symm, .inr (hfound.fillCommands hfill), hback⟩
      · obtain ⟨hcommand, hrest⟩ := ungrouped_cons.mp hback
        have hcommands := ungrouped_fillCommands (hcommand rfl) hfill
        exact Ungrouped.measured (ungrouped_append.mpr ⟨hcommands, hrest⟩)

/-! ## Runs -/

section

variable {α : Type} [Columns α] {page : Page α} {doc : Doc} {machine : Machine α}

/-- The machines that the layout of a document goes through on a page. -/
def Visits (page : Page α) (doc : Doc) (machine : Machine α) : Prop :=
  ReflTransGen (fun before after => before.step page = .ok after) (.start doc.raise) machine

/-- What holds at the start and is kept by every step holds of every machine that a
layout goes through. -/
theorem Visits.invariant {P : Machine α → Prop} (h : Visits page doc machine)
    (hstart : P (.start doc.raise))
    (hstep : ∀ {before after}, Step page before after → P before → P after) : P machine := by
  induction h with
  | refl => exact hstart
  | @tail before after _ h ih =>
      obtain ⟨column, written, pending⟩ := before
      cases pending with
      | nil => cases h; exact ih
      | cons command rest => exact hstep (step_of_perform h) ih

/-- A layout comes to what each machine on its way comes to. -/
theorem Visits.render_eq (h : Visits page doc machine) (hdoc : doc.all Doc.isProper = true) :
    render page doc = machine.output page := by
  rw [Layout.render_eq, Doc.settle_eq hdoc]
  induction h with
  | refl => rfl
  | @tail before after _ h ih =>
      rw [ih]
      obtain ⟨column, written, pending⟩ := before
      cases pending with
      | nil => cases h; rfl
      | cons command rest =>
          have hperform : perform page column written command rest = .ok after := h
          rw [Machine.output_cons, hperform, Fault.ok_bind]

/-- What holds of every document inside a document holds of those still to lay out, if
a fill without its first two parts still has it. -/
theorem Visits.allDocs {p : Doc → Bool} (h : Visits page doc machine)
    (hp : ∀ content separator parts, p (.fill (content :: separator :: parts)) = true →
      p (.fill parts) = true)
    (hdoc : doc.raise.all p = true) : AllDocs p machine.pending :=
  h.invariant (P := fun machine => AllDocs p machine.pending)
    (by simpa [Machine.start] using hdoc) fun hstep hall => hstep.allDocs hp hall

end

/-- Settled, and not a fill with a group that it does not measure. -/
def isSound (doc : Doc) : Bool :=
  doc.isMeasured && doc.isSettled

variable {page : Page Int} {w : Int}

/-- A settled group that is not told to break has contents that force nothing. -/
theorem forces_contents {contents : Doc}
    (h : (Doc.group contents false).all Doc.isSettled = true) : contents.forces = false := by
  simp only [Doc.all, Doc.isSettled, Bool.false_or, Bool.and_eq_true, Bool.not_eq_true'] at h
  exact h.1

/-- **Every step keeps groups from being laid flat without having been measured.** -/
theorem Step.measured (hwidth : page.width = .ok w) {machine next : Machine Int}
    (h : Step page machine next) (hdocs : AllDocs isSound machine.pending)
    (hmeasured : Measured machine.pending (w - machine.column)) :
    Measured next.pending (w - next.column) := by
  have hroom : ∀ {column room}, page.room column = .ok room → room = w - column := by
    intro column room h
    rw [Page.room, hwidth] at h
    cases h
    rfl
  cases h with
  | @text _ _ _ _ s _ =>
      rw [← Int.sub_sub]
      exact hmeasured.replace [] (by simp) (fun _ _ => fits_text s) (fun _ h => h)
        (by simp [marksOf])
  | joined =>
      exact hmeasured.replace [] (by simp) (fun _ _ => fits_joined) (fun _ h => h)
        (by simp [marksOf])
  | spaced =>
      rw [← Int.sub_sub]
      exact hmeasured.replace [] (by simp) (fun _ _ => fits_spaced) (fun _ h => h)
        (by simp [marksOf])
  | breakParent =>
      exact hmeasured.replace [] (by simp) (fun _ _ => fits_breakParent) (fun _ h => h)
        (by simp [marksOf])
  | @concat _ _ i mode parts _ =>
      refine hmeasured.replace (parts.map (⟨i, mode, ·⟩)) (by simp) (fun _ _ => fits_concat parts)
        ?_ ?_ <;> simp [marksOf_map, Doc.marks]
  | indent =>
      refine hmeasured.replace [_] (by simp) (fun _ _ => fits_indent _) ?_ ?_ <;>
        simp [marksOf, Doc.marks]
  | align =>
      refine hmeasured.replace [_] (by simp) (fun _ _ => fits_align _ _) ?_ ?_ <;>
        simp [marksOf, Doc.marks]
  | root =>
      refine hmeasured.replace [_] (by simp) (fun _ _ => fits_root _) ?_ ?_ <;>
        simp [marksOf, Doc.marks]
  | inherited =>
      refine hmeasured.replace [_] (by simp) (fun _ _ => fits_group _) ?_ ?_ <;>
        simp [marksOf, Doc.marks, Doc.isCovered]
  | whenFlat =>
      refine hmeasured.replace [_] (by simp) (fun _ _ => fits_whenFlat _ _) ?_ ?_ <;>
        simp [marksOf, Doc.marks]
  | whenBroken | tooWide => exact (hmeasured.ungrouped.cons_broken _ _).measured
  | forced => exact hmeasured.forced
  | newline hbreak => exact (hmeasured.newline hbreak).measured
  | fitting hpage hfits =>
      rw [hroom hpage] at hfits
      have hforces := forces_contents ((Doc.all_and _).mp (allDocs_cons.mp hdocs).1).2
      exact hmeasured.ungrouped.measured_of_fits hforces hfits
  | fill hpage hfill =>
      rw [hroom hpage] at hfill
      have hfillDoc := ((Doc.all_and _).mp (allDocs_cons.mp hdocs).1).1
      rw [Doc.all, Bool.and_eq_true] at hfillDoc
      exact hmeasured.fill hfillDoc.1 hfill

/-- Every machine that the layout of a document goes through has measured the groups
that it lays flat, if the fills in the document do. -/
theorem Visits.measured (hwidth : page.width = .ok w) {doc : Doc} {machine : Machine Int}
    (h : Visits page doc machine) (hdoc : doc.raise.all Doc.isMeasured = true) :
    Measured machine.pending (w - machine.column) := by
  have hsound : doc.raise.all isSound = true :=
    (Doc.all_and _).mpr ⟨hdoc, Doc.all_isSettled_raise doc⟩
  have hrest : ∀ content separator parts, isSound (.fill (content :: separator :: parts)) = true →
      isSound (.fill parts) = true := by
    intro content separator parts hfill
    rw [isSound, Bool.and_eq_true] at hfill ⊢
    exact ⟨Doc.isMeasured_fill_rest _ _ _ hfill.1, rfl⟩
  have hboth : AllDocs isSound machine.pending ∧ Measured machine.pending (w - machine.column) :=
    h.invariant
      (P := fun machine => AllDocs isSound machine.pending ∧
        Measured machine.pending (w - machine.column))
      ⟨by simpa [Machine.start] using hsound,
        (ungrouped_of_broken (by simp [Machine.start])).measured⟩
      fun hstep hall => ⟨hstep.allDocs hrest hall.1, hstep.measured hwidth hall.1 hall.2⟩
  exact hboth.2

end Layout

namespace Settings

open Layout

/-- **A group that is laid flat fits, where it has been measured.** Let the layout of a
document without plain values, under settings with widths in whole columns, come to a
group that is not told to break. It lays the group flat or, if it is not inside
something flat and does not fit with what follows it up to the next line break, broken.
If it is laid flat then its flat form ends within the print width, unless it is inside
something flat and the document has a fill with a group that it does not measure. -/
theorem column_add_flatWidth_le {settings : Settings} {w : Int}
    (hw : settings.printWidth.int? = some w) (hwhole : settings.isFractional = false)
    {doc : Doc} (hdoc : doc.all Doc.isProper = true) {column : Int} {written : List Piece}
    {i : Indentation} {mode : Mode} {contents : Doc} {rest : List Command}
    (hvisits : Visits (settings.page Json.int?) doc
      ⟨column, written, ⟨i, mode, .group contents false⟩ :: rest⟩) :
    let page := settings.page Json.int?
    let machine : Machine Int := ⟨column, written, ⟨i, mode, .group contents false⟩ :: rest⟩
    settings.layout doc = machine.output page ∧
    ((machine.step page = .ok ⟨column, written, ⟨i, .flat, contents⟩ :: rest⟩ ∧
      (mode = .broken ∨ doc.raise.all Doc.isMeasured = true → column + contents.flatWidth ≤ w)) ∨
    (machine.step page = .ok ⟨column, written, ⟨i, .broken, contents⟩ :: rest⟩ ∧
      mode = .broken ∧ fits false (⟨i, .flat, contents⟩ :: rest) (w - column) = .ok false)) := by
  intro page machine
  have hwidth : page.width = .ok w := width_page hw
  have hforces : contents.forces = false :=
    forces_contents (allDocs_cons.mp
      (hvisits.allDocs (fun _ _ _ _ => rfl) (Doc.all_isSettled_raise doc))).1
  have hlayout : settings.layout doc = machine.output page := by
    rw [layout, if_neg (by simp [hwhole])]
    exact hvisits.render_eq hdoc
  refine ⟨hlayout, ?_⟩
  cases mode with
  | flat =>
      refine .inl ⟨rfl, fun hmeasured => ?_⟩
      have hwide : (contents.flatWidth : Int) ≤ w - column :=
        ((hvisits.measured hwidth) (hmeasured.resolve_left (by simp))).flatWidth_le hforces
      omega
  | broken =>
      have hroom : page.room column = .ok (w - column) := by rw [Page.room, hwidth]; rfl
      have hproper : AllDocs Doc.isProper (⟨i, .broken, .group contents false⟩ :: rest) :=
        hvisits.allDocs (fun _ _ _ _ => rfl)
          ((Doc.all_raise (fun d => by cases d <;> rfl) doc).mpr hdoc)
      obtain ⟨answer, hfits⟩ := fits_ok false (⟨i, .flat, contents⟩ :: rest) (w - column)
        (by simpa [Doc.all, Doc.isProper] using hproper)
      have hstep : machine.step page =
          .ok ⟨column, written, ⟨i, if answer then .flat else .broken, contents⟩ :: rest⟩ := by
        simp only [Machine.step, machine, perform, hroom, hfits, Fault.ok_bind]
        cases answer <;> rfl
      cases answer with
      | true =>
          refine .inl ⟨hstep, fun _ => ?_⟩
          have hwide := nonneg_of_fits (fits_sub_flatWidth hforces hfits)
          simp only [Int.cast_id] at hwide
          omega
      | false => exact .inr ⟨hstep, rfl, hfits⟩

theorem column_add_flatWidth_le_in_fill :
    let settings : Settings := { printWidth := .int 7 }
    let contents : Doc := .concat [.text "ab", .softBreak, .text "c"]
    let doc : Doc := .fill [.text "xy", .blankBreak, .group contents false, .blankBreak]
    doc.raise.all Doc.isMeasured = true ∧ settings.layout doc = .ok "xy abc " ∧
      (3 : Int) + contents.flatWidth ≤ 7 := by
  intro settings contents doc
  have hmeasured : doc.raise.all Doc.isMeasured = true := by decide
  have hvisits : Visits (settings.page Json.int?) doc
      ⟨3, [.unbroken false, .text "xy"], [⟨[], .flat, .group contents false⟩,
        ⟨[], .flat, .blankBreak⟩]⟩ :=
    .tail (.tail (.tail (.single rfl) rfl) rfl) rfl
  rcases (column_add_flatWidth_le rfl rfl (by decide) hvisits).2 with ⟨-, hwide⟩ | ⟨-, hmode, -⟩
  · exact ⟨hmeasured, by decide +kernel, hwide (.inr hmeasured)⟩
  · cases hmode

-- after the last content of a fill, a group that is too wide is laid flat
example :
    let settings : Settings := { printWidth := .int 3 }
    let wide : Doc := .group (.concat [.text "bbbb", .blankBreak, .text "c"]) false
    settings.layout (.fill [.text "a", wide]) = .ok "abbbb c" ∧
      (Doc.fill [.text "a", wide]).isMeasured = false := by
  decide +kernel

end Settings
end HamlFormat
