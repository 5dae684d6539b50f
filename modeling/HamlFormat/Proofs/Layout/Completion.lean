import HamlFormat.Proofs.Layout.Margin
import HamlFormat.Proofs.Layout.Step

/-!
# HamlFormat.Proofs.Layout.Completion

When a layout succeeds. On a page that has a width in whole columns the only
things that can go wrong are a plain value in the document and an indentation that
cannot be made: a level that the settings do not give, or more columns than fit in
memory. A document without these is laid out (`layout_ok`), and no other one, if it
has no choices but between texts (`layout_ok_iff`).
-/

namespace HamlFormat

/-- Whether a document can be laid out as far as it goes itself, where `levels`
says whether a level of indentation can be made. -/
def Doc.isFeasible (levels : Bool) : Doc → Bool
  | .alien _ => false
  | .indent _ => levels
  | .align columns _ => columns < memoryLimit
  | _ => true

/-- No choice but between two texts. -/
def Doc.isPlainChoice : Doc → Bool
  | .ifBreak (.text _) (.text _) => true
  | .ifBreak _ _ => false
  | _ => true

theorem Doc.isPlainChoice_raise (doc : Doc) : doc.raise.isPlainChoice = doc.isPlainChoice := by
  cases doc with
  | ifBreak whenBroken whenFlat => cases whenBroken <;> cases whenFlat <;> rfl
  | _ => rfl

theorem Doc.isFeasible_raise (levels : Bool) (doc : Doc) :
    doc.raise.isFeasible levels = doc.isFeasible levels := by
  cases doc <;> rfl

/-- What can be laid out holds no plain values. -/
theorem Doc.isProper_of_isFeasible {levels : Bool} {doc : Doc}
    (h : doc.isFeasible levels = true) : doc.isProper = true := by
  cases doc with
  | alien value => cases h
  | _ => rfl

namespace Layout

open Relation (ReflTransGen)

variable {α : Type} [Columns α]

/-! ## Reading ahead -/

/-- Reading a list ahead succeeds if reading each of its documents does. -/
theorem scanList_ok {strict : Bool} {mode : Mode} {parts : List Doc}
    (h : ∀ part ∈ parts, ∀ room : α, ∃ result, scan strict mode part room = .ok result)
    (room : α) : ∃ result, scanList strict mode parts room = .ok result := by
  induction parts generalizing room with
  | nil => exact ⟨_, rfl⟩
  | cons part parts ih =>
      obtain ⟨result, hresult⟩ := h part (by simp) room
      rw [scanList, hresult]
      cases result with
      | stop answer => exact ⟨_, rfl⟩
      | more left => exact ih (fun d hd => h d (by simp [hd])) left

/-- Reading ahead succeeds on every document without plain values. -/
theorem scan_ok (strict : Bool) (mode : Mode) {doc : Doc} (h : doc.all Doc.isProper = true)
    (room : α) : ∃ result, scan strict mode doc room = .ok result := by
  induction doc generalizing mode room with
  | text s => exact ⟨_, rfl⟩
  | concat parts ih | fill parts ih =>
      simp only [Doc.all, Bool.and_eq_true, Doc.listAll_eq_true] at h
      rw [scan]
      exact scanList_ok (fun d hd room => ih d hd mode (h.2 d hd) room) room
  | group contents shouldBreak ih =>
      simp only [Doc.all, Bool.and_eq_true] at h
      rw [scan]
      split
      · exact ⟨_, rfl⟩
      · exact ih _ h.2 room
  | indent contents ih | align _ contents ih | root contents ih =>
      simp only [Doc.all, Bool.and_eq_true] at h
      rw [scan]
      exact ih _ h.2 room
  | ifBreak whenBroken whenFlat ihBroken ihFlat =>
      simp only [Doc.all, Bool.and_eq_true] at h
      cases mode with
      | broken => rw [scan]; exact ihBroken _ h.2.1 room
      | flat => rw [scan]; exact ihFlat _ h.2.2 room
  | line hard soft =>
      rw [scan]
      split
      · exact ⟨_, rfl⟩
      · split <;> exact ⟨_, rfl⟩
  | breakParent => exact ⟨_, rfl⟩
  | alien value => cases h

/-- Whether commands fit can be told if they hold no plain values. -/
theorem fits_ok (strict : Bool) (commands : List Command) (room : α)
    (h : AllDocs Doc.isProper commands) : ∃ answer, fits strict commands room = .ok answer := by
  rw [fits]
  split
  · clear * - h
    induction commands generalizing room with
    | nil => exact ⟨_, rfl⟩
    | cons command commands ih =>
        rw [allDocs_cons] at h
        obtain ⟨result, hresult⟩ := scan_ok strict command.mode h.1 room
        rw [scanCommands, hresult]
        cases result with
        | stop answer => exact ⟨_, rfl⟩
        | more left => exact ih left h.2
  · exact ⟨_, rfl⟩

/-- The commands for a fill can be told if it holds no plain values. -/
theorem fillCommands_ok (i : Indentation) (mode : Mode) {parts : List Doc} (room : α)
    (h : (Doc.fill parts).all Doc.isProper = true) :
    ∃ commands, fillCommands i mode parts room = .ok commands := by
  simp only [Doc.all, Bool.and_eq_true] at h
  unfold fillCommands
  split
  · exact ⟨_, rfl⟩
  · next content =>
    obtain ⟨answer, hanswer⟩ := fits_ok true [⟨i, .flat, content⟩] room
      (by simpa [Doc.listAll] using h.2)
    rw [hanswer]
    exact ⟨_, rfl⟩
  · next content separator =>
    simp only [Doc.listAll, Bool.and_eq_true] at h
    obtain ⟨answer, hanswer⟩ := fits_ok true [⟨i, .flat, content⟩] room (by simpa using h.2.1)
    rw [hanswer]
    exact ⟨_, rfl⟩
  · next content separator next rest =>
    simp only [Doc.listAll, Bool.and_eq_true] at h
    obtain ⟨answer, hanswer⟩ := fits_ok true [⟨i, .flat, content⟩] room (by simpa using h.2.1)
    obtain ⟨both, hboth⟩ := fits_ok true [⟨i, .flat, .concat [content, separator, next]⟩] room
      (by simp [Doc.all, Doc.listAll, Doc.isProper, h.2.1, h.2.2.1, h.2.2.2.1])
    rw [hanswer, hboth]
    exact ⟨_, rfl⟩

/-! ## Runs -/

/-- A number of columns that fits in memory can be aligned by. -/
theorem Indentation.align_ok (i : Indentation) {columns : Int} (h : columns < memoryLimit) :
    ∃ j, i.align columns = .ok j := by
  rw [align]
  split
  · exact ⟨_, rfl⟩
  · next hpos =>
    rw [spaceCount_ok (by unfold countLimit; omega) h]
    exact ⟨_, rfl⟩

variable {page : Page Int} {levels : Bool}

/-- On a page with a width the next command can be done, if its documents can be
laid out. -/
theorem perform_ok {width : Int} (hwidth : page.width = .ok width)
    (hlevels : levels = true → ∃ level, page.level = .ok level)
    (column : Int) (written : List Piece) {command : Command} {rest : List Command}
    (h : AllDocs (Doc.isFeasible levels) (command :: rest)) :
    ∃ next, perform page column written command rest = .ok next := by
  have hroom : page.room column = .ok (width - column) := by rw [Page.room, hwidth]; rfl
  have hproper : AllDocs Doc.isProper (command :: rest) := fun c hc =>
    Doc.all_mono (fun _ => Doc.isProper_of_isFeasible) (h c hc)
  rw [allDocs_cons] at h hproper
  obtain ⟨i, mode, doc⟩ := command
  cases doc with
  | alien value => cases h.1
  | text _ | concat _ | root _ | breakParent => exact ⟨_, rfl⟩
  | ifBreak _ _ => cases mode <;> exact ⟨_, rfl⟩
  | line hard soft => cases mode <;> cases hard <;> cases soft <;> exact ⟨_, rfl⟩
  | indent contents =>
      have hlevel : levels = true := by
        have := h.1
        rw [Doc.all, Bool.and_eq_true] at this
        exact this.1
      obtain ⟨level, hlevel⟩ := hlevels hlevel
      simp only [perform, hlevel]
      exact ⟨_, rfl⟩
  | align columns contents =>
      have hcolumns : columns < memoryLimit := by
        have := h.1
        rw [Doc.all, Bool.and_eq_true] at this
        simpa [Doc.isFeasible] using this.1
      obtain ⟨j, hj⟩ := i.align_ok hcolumns
      simp only [perform, hj]
      exact ⟨_, rfl⟩
  | group contents shouldBreak =>
      cases shouldBreak with
      | true => exact ⟨_, rfl⟩
      | false =>
          cases mode with
          | flat => exact ⟨_, rfl⟩
          | broken =>
              have hcontents : contents.all Doc.isProper = true := by
                have := hproper.1
                rw [Doc.all, Bool.and_eq_true] at this
                exact this.2
              obtain ⟨answer, hanswer⟩ := fits_ok false (⟨i, .flat, contents⟩ :: rest)
                (width - column) (allDocs_cons.mpr ⟨hcontents, hproper.2⟩)
              simp only [perform, hroom, hanswer, bind, Except.bind]
              cases answer <;> exact ⟨_, rfl⟩
  | fill parts =>
      obtain ⟨commands, hcommands⟩ := fillCommands_ok i mode (width - column) hproper.1
      simp only [perform, hroom, hcommands, bind, Except.bind]
      exact ⟨_, rfl⟩

/-- A run succeeds on a page with a width, if its documents can be laid out. -/
theorem run_ok {width : Int} (hwidth : page.width = .ok width)
    (hlevels : levels = true → ∃ level, page.level = .ok level) (machine : Machine Int)
    (h : AllDocs (Doc.isFeasible levels) machine.pending) :
    ∃ final, machine.run page = .ok final := by
  fun_induction Machine.run page machine with
  | case1 machine hdone => exact ⟨_, rfl⟩
  | case2 machine hwork fault hstep =>
      obtain ⟨column, written, pending⟩ := machine
      cases pending with
      | nil => exact absurd rfl hwork
      | cons command rest =>
          obtain ⟨next, hnext⟩ := perform_ok hwidth hlevels column written h
          simp only [Machine.step, hnext] at hstep
          cases hstep
  | case3 machine hwork next hstep ih =>
      obtain ⟨column, written, pending⟩ := machine
      cases pending with
      | nil => exact absurd rfl hwork
      | cons command rest =>
          exact ih ((step_of_perform hstep).allDocs (fun _ _ _ _ => rfl) h)

/-- **A document that can be laid out is laid out**, on every page with a width. -/
theorem pieces_ok {width : Int} (hwidth : page.width = .ok width)
    (hlevels : levels = true → ∃ level, page.level = .ok level) {doc : Doc}
    (h : doc.all (Doc.isFeasible levels) = true) : ∃ ps, pieces page doc = .ok ps := by
  have hsettle := Doc.settle_eq (Doc.all_mono (fun _ => Doc.isProper_of_isFeasible) h)
  have hraised : doc.raise.all (Doc.isFeasible levels) = true :=
    (Doc.all_raise (Doc.isFeasible_raise levels) doc).mpr h
  obtain ⟨final, hfinal⟩ := run_ok hwidth hlevels (.start doc.raise)
    (by simpa [Machine.start] using hraised)
  rw [pieces, hsettle]
  simp only [bind, Except.bind, hfinal]
  exact ⟨_, rfl⟩

/-! ## Runs that succeed -/

/-- Whether the documents still to lay out, where all their choices are between texts,
can be laid out. -/
def FeasibleIfPlain (levels : Bool) (commands : List Command) : Prop :=
  ∀ command ∈ commands, command.doc.all Doc.isPlainChoice = true →
    command.doc.all (Doc.isFeasible levels) = true

/-- An alignment that is made fits in memory. -/
theorem Indentation.lt_memoryLimit_of_align {i j : Indentation} {columns : Int}
    (h : i.align columns = .ok j) : columns < memoryLimit := by
  rw [align] at h
  split at h
  · unfold memoryLimit
    omega
  · obtain ⟨count, hcount, -⟩ := Fault.bind_eq_ok.mp h
    rw [spaceCount] at hcount
    split at hcount
    · cases hcount
    · split at hcount
      · cases hcount
      · omega

/-- What is laid out before a step can be laid out if what is laid out after it can: the
step would have failed otherwise. -/
theorem Step.feasibleIfPlain {α : Type} [Columns α] {page : Page α} {machine next : Machine α}
    {levels : Bool} (hlevels : ∀ level, page.level = .ok level → levels = true)
    (h : Step page machine next) (hnext : FeasibleIfPlain levels next.pending) :
    FeasibleIfPlain levels machine.pending := by
  cases h with
  | text | joined | spaced | newline | breakParent =>
      exact List.forall_mem_cons.mpr ⟨fun _ => rfl, hnext⟩
  | concat =>
      obtain ⟨hparts, hrest⟩ := List.forall_mem_append.mp hnext
      refine List.forall_mem_cons.mpr ⟨fun hplain => ?_, hrest⟩
      rw [List.forall_mem_map] at hparts
      simp only [Doc.all, Bool.and_eq_true, Doc.listAll_eq_true] at hplain ⊢
      exact ⟨rfl, fun part hpart => hparts part hpart (hplain.2 part hpart)⟩
  | indent hlevel =>
      obtain ⟨hcontents, hrest⟩ := List.forall_mem_cons.mp hnext
      refine List.forall_mem_cons.mpr ⟨fun hplain => ?_, hrest⟩
      simp only [Doc.all, Bool.and_eq_true] at hplain ⊢
      exact ⟨hlevels _ hlevel, hcontents hplain.2⟩
  | align hj =>
      obtain ⟨hcontents, hrest⟩ := List.forall_mem_cons.mp hnext
      refine List.forall_mem_cons.mpr ⟨fun hplain => ?_, hrest⟩
      simp only [Doc.all, Bool.and_eq_true] at hplain ⊢
      exact ⟨decide_eq_true (Indentation.lt_memoryLimit_of_align hj), hcontents hplain.2⟩
  | root | forced | inherited | fitting | tooWide =>
      obtain ⟨hcontents, hrest⟩ := List.forall_mem_cons.mp hnext
      refine List.forall_mem_cons.mpr ⟨fun hplain => ?_, hrest⟩
      simp only [Doc.all, Bool.and_eq_true] at hplain ⊢
      exact ⟨rfl, hcontents hplain.2⟩
  | whenBroken | whenFlat =>
      -- the text that was not chosen can be laid out as well
      obtain ⟨-, hrest⟩ := List.forall_mem_cons.mp hnext
      refine List.forall_mem_cons.mpr ⟨fun hplain => ?_, hrest⟩
      simp only [Doc.all, Bool.and_eq_true] at hplain
      obtain ⟨hchoice, -⟩ := hplain
      unfold Doc.isPlainChoice at hchoice
      split at hchoice
      · next htexts =>
          cases htexts
          rfl
      · cases hchoice
      · next hno => exact absurd rfl (hno _ _)
  | fill _ hfill =>
      obtain ⟨hparts, hrest⟩ := List.forall_mem_append.mp hnext
      refine List.forall_mem_cons.mpr ⟨fun hplain => ?_, hrest⟩
      simp only [Doc.all, Bool.and_eq_true] at hplain ⊢
      refine ⟨rfl, ?_⟩
      obtain ⟨rfl, rfl⟩ | ⟨content, m, rfl, rfl⟩ | ⟨content, separator, m, rfl, rfl⟩ |
        ⟨content, separator, later, others, m, n, rfl, rfl⟩ := fillCommands_cases hfill
      · rfl
      · simp_all [Doc.listAll]
      · simp_all [Doc.listAll]
      · simp_all [Doc.listAll, Doc.all, Doc.isPlainChoice]

/-- A document that is laid out, whose choices are all between texts, can be laid out as
far as it goes itself. -/
theorem isFeasible_of_pieces {α : Type} [Columns α] {page : Page α} {levels : Bool}
    (hlevels : ∀ level, page.level = .ok level → levels = true) {doc : Doc} {ps : List Piece}
    (hplain : doc.all Doc.isPlainChoice = true) (h : pieces page doc = .ok ps) :
    doc.all (Doc.isFeasible levels) = true := by
  obtain ⟨final, hreaches, hdone, -⟩ := reaches_of_pieces h
  have hrun : ∀ machine, ReflTransGen (Step page) machine final →
      FeasibleIfPlain levels machine.pending := by
    intro machine hmachine
    induction hmachine using ReflTransGen.head_induction_on with
    | refl =>
        rw [hdone]
        intro command hcommand
        cases hcommand
    | head hstep _ ih => exact hstep.feasibleIfPlain hlevels ih
  have hraised : doc.raise.all (Doc.isFeasible levels) = true := by
    refine hrun _ hreaches _ List.mem_cons_self ?_
    exact (Doc.all_raise Doc.isPlainChoice_raise doc).mpr hplain
  exact (Doc.all_raise (Doc.isFeasible_raise levels) doc).mp hraised

end Layout

namespace Settings

variable {settings : Settings} {w t : Int}

/-- Integer settings lay out every document that can be laid out. -/
theorem layout_ok (hw : settings.printWidth.int? = some w) (ht : settings.tabWidth.int? = some t)
    {doc : Doc} (h : doc.all (Doc.isFeasible (settings.indents t)) = true) :
    ∃ out, settings.layout doc = .ok out := by
  obtain ⟨ps, hps⟩ := Layout.pieces_ok (width_page hw)
    (fun hindents => ⟨_, level_page ht hindents⟩) h
  rw [layout, if_neg (by simp [isFractional_of_int hw ht]), Layout.render, hps]
  exact ⟨_, rfl⟩

/-- **Integer settings lay out the documents that can be laid out and no others**, among
those whose choices are all between texts. -/
theorem layout_ok_iff (hw : settings.printWidth.int? = some w)
    (ht : settings.tabWidth.int? = some t) {doc : Doc}
    (hplain : doc.all Doc.isPlainChoice = true) :
    (∃ out, settings.layout doc = .ok out) ↔
      doc.all (Doc.isFeasible (settings.indents t)) = true := by
  constructor
  · rintro ⟨out, hout⟩
    obtain ⟨ps, hps, -⟩ := pieces_of_layout (isFractional_of_int hw ht) hout
    exact Layout.isFeasible_of_pieces (fun level => indents_of_level_page ht) hplain hps
  · exact layout_ok hw ht

end Settings

end HamlFormat
