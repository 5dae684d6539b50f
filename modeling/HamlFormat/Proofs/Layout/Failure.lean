import HamlFormat.Proofs.Layout.Completion

/-!
# HamlFormat.Proofs.Layout.Failure

What a layout fails with. A document that holds a plain value is not settled. Once it
is settled, a step fails only for want of room on the page, of a level or of an
alignment (`perform_error`), so a run fails only as the page does or for a number
that is too large (`failsWithin_run`). Integer settings therefore lay out a document
without plain values or meet such a number (`failsWithin_layout_of_isProper`).
-/

namespace HamlFormat

open Fault (FailsWithin)

/-! ## Numbers that are too large -/

/-- Whether a number was too large for what it was used for. -/
def Fault.isExcess : Fault → Bool
  | .overflow | .outOfMemory => true
  | _ => false

theorem failsWithin_spaceCount (n : Int) :
    FailsWithin (·.isExcess) (spaceCount n) := by
  unfold spaceCount
  split
  · exact .error rfl
  · split
    · exact .error rfl
    · exact .ok _

namespace Layout

theorem Indentation.failsWithin_align (i : Indentation) (columns : Int) :
    FailsWithin (·.isExcess) (i.align columns) := by
  unfold align
  split
  · exact .ok i
  · exact .bind (failsWithin_spaceCount columns) fun count _ => .ok _

/-! ## Steps and runs -/

variable {α : Type} [Columns α] {page : Page α} {P : Fault → Prop}

/-- **What a step fails with.** Where no document is a plain value, looking ahead does not
fail. -/
theorem perform_error {column : α} {written : List Piece} {command : Command}
    {rest : List Command} {fault : Fault} (hproper : AllDocs Doc.isProper (command :: rest))
    (h : perform page column written command rest = .error fault) :
    page.room column = .error fault ∨ page.level = .error fault ∨ fault.isExcess = true := by
  rw [allDocs_cons] at hproper
  obtain ⟨i, mode, doc⟩ := command
  cases doc with
  | alien value => cases hproper.1
  | text _ | concat _ | root _ | breakParent | ifBreak _ _ => cases h
  | line hard soft => cases mode <;> cases hard <;> cases soft <;> cases h
  | indent contents =>
      cases hlevel : page.level with
      | error other =>
          simp only [perform, hlevel] at h
          cases h
          exact .inr (.inl rfl)
      | ok level =>
          simp only [perform, hlevel] at h
          cases h
  | align columns contents =>
      cases halign : i.align columns with
      | error other =>
          simp only [perform, halign, bind, Except.bind] at h
          cases h
          exact .inr (.inr (i.failsWithin_align columns _ halign))
      | ok j =>
          simp only [perform, halign, bind, Except.bind] at h
          cases h
  | group contents shouldBreak =>
      cases shouldBreak with
      | true => cases h
      | false =>
          cases mode with
          | flat => cases h
          | broken =>
              cases hroom : page.room column with
              | error other =>
                  simp only [perform, hroom, bind, Except.bind] at h
                  cases h
                  exact .inl rfl
              | ok room =>
                  have hcontents : contents.all Doc.isProper = true := by
                    have := hproper.1
                    rw [Doc.all, Bool.and_eq_true] at this
                    exact this.2
                  obtain ⟨answer, hanswer⟩ := fits_ok false (⟨i, .flat, contents⟩ :: rest) room
                    (allDocs_cons.mpr ⟨hcontents, hproper.2⟩)
                  simp only [perform, hroom, hanswer, bind, Except.bind] at h
                  cases answer <;> cases h
  | fill parts =>
      cases hroom : page.room column with
      | error other =>
          simp only [perform, hroom, bind, Except.bind] at h
          cases h
          exact .inl rfl
      | ok room =>
          obtain ⟨commands, hcommands⟩ := fillCommands_ok i mode room hproper.1
          simp only [perform, hroom, hcommands, bind, Except.bind] at h
          cases h

/-- A run fails as the page does, or for a number that is too large. -/
theorem failsWithin_run (hroom : ∀ column, FailsWithin P (page.room column))
    (hlevel : FailsWithin P page.level) (hexcess : ∀ fault, fault.isExcess = true → P fault)
    (machine : Machine α) (h : AllDocs Doc.isProper machine.pending) :
    FailsWithin P (machine.run page) := by
  fun_induction Machine.run page machine with
  | case1 machine hdone => exact .ok machine
  | case2 machine hwork fault hstep =>
      obtain ⟨column, written, pending⟩ := machine
      cases pending with
      | nil => exact absurd rfl hwork
      | cons command rest =>
          refine .error ?_
          obtain hfault | hfault | hfault := perform_error h hstep
          · exact hroom column fault hfault
          · exact hlevel fault hfault
          · exact hexcess fault hfault
  | case3 machine hwork next hstep ih =>
      obtain ⟨column, written, pending⟩ := machine
      cases pending with
      | nil => exact absurd rfl hwork
      | cons command rest =>
          exact ih ((step_of_perform hstep).allDocs (fun _ _ _ _ => rfl) h)

end Layout

/-! ## Settling -/

namespace Doc

theorem failsWithin_settleList {P : Fault → Prop} {parts : List Doc}
    (h : ∀ part ∈ parts, FailsWithin P part.settle) : FailsWithin P (settleList parts) := by
  induction parts with
  | nil => exact .ok _
  | cons part parts ih =>
      rw [List.forall_mem_cons] at h
      rw [settleList]
      exact .bind h.1 fun _ _ => .bind (ih h.2) fun _ _ => .ok _

/-- A document is settled unless it holds a plain value. -/
theorem failsWithin_settle (doc : Doc) :
    FailsWithin (fun fault => ∃ value, fault = .unexpectedDoc value) doc.settle := by
  induction doc with
  | text _ | line _ _ | breakParent => exact .ok _
  | concat parts ih | fill parts ih =>
      rw [settle]
      exact .bind (failsWithin_settleList ih) fun _ _ => .ok _
  | group contents _ ih | indent contents ih | align _ contents ih | root contents ih =>
      rw [settle]
      exact .bind ih fun _ _ => .ok _
  | ifBreak whenBroken whenFlat ihBroken ihFlat =>
      rw [settle]
      exact .bind ihBroken fun _ _ => .bind ihFlat fun _ _ => .ok _
  | alien value => exact .error ⟨value, rfl⟩

end Doc

/-- A layout fails for a plain value in the document, or as a run does. -/
theorem Layout.failsWithin_render {α : Type} [Columns α] {page : Page α} {P : Fault → Prop}
    (hroom : ∀ column, FailsWithin P (page.room column)) (hlevel : FailsWithin P page.level)
    (hexcess : ∀ fault, fault.isExcess = true → P fault) (doc : Doc)
    (hvalue : doc.all Doc.isProper = true ∨ ∀ value, P (.unexpectedDoc value)) :
    FailsWithin P (render page doc) := by
  have hpieces : FailsWithin P (pieces page doc) := by
    by_cases hproper : doc.all Doc.isProper = true
    · have hraised : doc.raise.all Doc.isProper = true :=
        (Doc.all_raise (fun d => by cases d <;> rfl) doc).mpr hproper
      have hrun := failsWithin_run hroom hlevel hexcess (.start doc.raise)
        (by simpa [Machine.start] using hraised)
      rw [pieces, Doc.settle_eq hproper, Fault.ok_bind]
      exact .bind hrun fun _ _ => .ok _
    · refine .bind ?_ fun settled hsettled => ?_
      · refine (Doc.failsWithin_settle doc).mono ?_
        rintro _ ⟨value, rfl⟩
        exact (hvalue.resolve_left hproper) value
      · exact absurd (Doc.all_isProper_of_settle hsettled) hproper
  exact .bind hpieces fun _ _ => .ok _

/-! ## Settings -/

/-- Whether a fault is one that a layout can fail with: a plain value in the document, a
setting that is no number, or a number that is too large. -/
def Fault.isLayoutFault : Fault → Bool
  | .unexpectedDoc _ | .mismatch => true
  | fault => fault.isExcess

theorem Fault.isLayoutFault_of_isExcess {fault : Fault} (h : fault.isExcess = true) :
    fault.isLayoutFault = true := by
  cases fault with
  | overflow | outOfMemory => rfl
  | _ => cases h

namespace Settings

variable {α : Type} {settings : Settings} {w t : Int}

theorem failsWithin_columnsOf (columns? : Json → Option α) (value : Json) :
    FailsWithin (·.isLayoutFault) (columnsOf columns? value) := by
  unfold columnsOf
  split
  · exact .ok _
  · exact .error rfl

theorem failsWithin_level (settings : Settings) (columns? : Json → Option α) :
    FailsWithin (·.isLayoutFault) (settings.page columns?).level := by
  have hcolumns := failsWithin_columnsOf columns? settings.tabWidth
  have hspaces := failsWithin_columnsOf Json.int? settings.tabWidth
  simp only [page]
  split
  · exact .bind hcolumns fun _ _ => .ok _
  · refine .bind hspaces fun n _ => .bind ?_ fun _ _ => .bind hcolumns fun _ _ => .ok _
    exact (failsWithin_spaceCount n).mono fun _ => Fault.isLayoutFault_of_isExcess

/-- **What a layout fails with**, whatever the settings and the document. -/
theorem failsWithin_layout (settings : Settings) (doc : Doc) :
    FailsWithin (·.isLayoutFault) (settings.layout doc) := by
  unfold layout
  split
  · refine Layout.failsWithin_render (fun column => ?_) (failsWithin_level settings _)
      (fun _ => Fault.isLayoutFault_of_isExcess) doc (.inr fun _ => rfl)
    refine .bind (failsWithin_columnsOf _ _) fun width _ => ?_
    simp only [Layout.Columns.distance]
    split
    · exact .ok _
    · exact .error rfl
  · refine Layout.failsWithin_render (fun column => ?_) (failsWithin_level settings _)
      (fun _ => Fault.isLayoutFault_of_isExcess) doc (.inr fun _ => rfl)
    exact .bind (failsWithin_columnsOf _ _) fun width _ => .ok _

/-- Integer settings lay out a document without plain values, or meet a number that is too
large. -/
theorem failsWithin_layout_of_isProper (hw : settings.printWidth.int? = some w)
    (ht : settings.tabWidth.int? = some t) {doc : Doc} (hdoc : doc.all Doc.isProper = true) :
    FailsWithin (·.isExcess) (settings.layout doc) := by
  rw [layout, if_neg (by simp [isFractional_of_int hw ht])]
  refine Layout.failsWithin_render (fun column => ?_) ?_ (fun _ h => h) doc (.inl hdoc)
  · rw [Layout.Page.room, width_page hw]
    exact .ok _
  · simp only [page, columnsOf, ht]
    split
    · exact .ok _
    · rw [Fault.ok_bind]
      exact .bind (failsWithin_spaceCount t) fun _ _ => .ok _

end Settings

end HamlFormat
