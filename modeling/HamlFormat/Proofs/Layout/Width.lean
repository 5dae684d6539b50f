import HamlFormat.Proofs.Layout.Column
import HamlFormat.Proofs.Layout.Fits
import HamlFormat.Proofs.Layout.Preservation
import HamlFormat.Proofs.Print.Ruby

/-!
# HamlFormat.Proofs.Layout.Width

Rows with a line break that was left unbroken are not too wide. A group is laid
flat if its contents and what follows them fit up to the next line break that is
expected to print. Later decisions may differ from what was expected: a group
that was read as broken may turn out flat. But such a group has then been found to
fit together with everything after it, which answers for the whole row again. So
as long as a row has an unbroken line break on it, or has flat work to do, what is
still to do fits (`Machine.Sound`); the row ends with the room not used up.

This needs documents without fills, which look at their own parts alone.
-/

namespace HamlFormat.Layout

open Relation (ReflTransGen)

/-- Not a fill, and nothing forced inside a group that may be laid flat. -/
def isOrderly (doc : Doc) : Bool :=
  doc.isNoFill && doc.isSettled

/-- Commands in the order in which the machine keeps them: no flat one after a
broken one, and nothing in a flat one that forces a break. -/
def Orderly : List Command → Prop
  | [] => True
  | command :: rest =>
    (command.mode = .flat → command.doc.forces = false) ∧
      (command.mode = .broken → ∀ other ∈ rest, other.mode = .broken) ∧ Orderly rest

/-- Commands of one mode in front keep the order, if they force nothing where flat. -/
theorem Orderly.map_append {i : Indentation} {mode : Mode} {parts : List Doc}
    {rest : List Command} (hrest : Orderly rest)
    (hflat : mode = .flat → ∀ part ∈ parts, part.forces = false)
    (hbroken : mode = .broken → ∀ other ∈ rest, other.mode = .broken) :
    Orderly (parts.map (⟨i, mode, ·⟩) ++ rest) := by
  induction parts with
  | nil => exact hrest
  | cons part parts ih =>
      refine ⟨fun hmode => hflat hmode part (by simp), fun hmode other hother => ?_,
        ih fun hmode d hd => hflat hmode d (by simp [hd])⟩
      obtain hpart | hother := List.mem_append.mp hother
      · obtain ⟨d, -, rfl⟩ := List.mem_map.mp hpart
        exact hmode
      · exact hbroken hmode other hother

variable {page : Page Int} {w tab : Int}

/-- Every step keeps the commands in order. -/
theorem Step.orderly {machine next : Machine Int} (h : Step page machine next)
    (hdocs : AllDocs isOrderly machine.pending) (horder : Orderly machine.pending) :
    Orderly next.pending := by
  cases h with
  | text | joined | spaced | newline | breakParent => exact horder.2.2
  | concat =>
      obtain ⟨hflat, hbroken, hrest⟩ := horder
      refine hrest.map_append (fun hmode => ?_) hbroken
      simpa [Doc.forces] using hflat hmode
  | indent | align | root => exact ⟨horder.1, horder.2⟩
  | inherited | tooWide =>
      refine ⟨fun hmode => ?_, horder.2⟩
      simpa [Doc.forces] using horder.1 hmode
  | @forced _ _ _ mode _ _ =>
      -- nothing flat is told to break, so the group was in a broken one
      refine ⟨(fun hmode => by cases hmode), fun _ => horder.2.1 ?_, horder.2.2⟩
      cases mode with
      | broken => rfl
      | flat => simpa [Doc.forces] using horder.1 rfl
  | fitting =>
      refine ⟨fun _ => ?_, (fun hmode => by cases hmode), horder.2.2⟩
      have hgroup := (allDocs_cons.mp hdocs).1
      simp only [Doc.all, isOrderly, Doc.isNoFill, Doc.isSettled, Bool.true_and, Bool.false_or,
        Bool.and_eq_true, Bool.not_eq_true'] at hgroup
      exact hgroup.1
  | fill => simp [allDocs_cons, Doc.all, isOrderly, Doc.isNoFill] at hdocs
  | whenBroken => exact ⟨(fun hmode => by cases hmode), horder.2⟩
  | whenFlat =>
      refine ⟨fun hmode => ?_, (fun hmode => by cases hmode), horder.2.2⟩
      have hforces := horder.1 hmode
      simp only [Doc.forces, Bool.or_eq_false_iff] at hforces
      exact hforces.2

/-- What the machine keeps up on a page of width `w`: finished rows with an unbroken
line break are not too wide, and while the current row has one, or has flat work
to do, all that is still to do fits up to the next line break. -/
structure Machine.Sound (page : Page Int) (w tab : Int) (machine : Machine Int) : Prop where
  docs : AllDocs isOrderly machine.pending
  order : Orderly machine.pending
  column : machine.TracksColumn page tab
  finished : ∀ row ∈ (machine.rows page).finished, row.isUnbroken = true → row.width tab ≤ w
  current : (machine.rows page).last.isUnbroken = true ∨
      (∃ command ∈ machine.pending, command.mode = .flat) →
    fits false machine.pending (w - machine.column) = .ok true

/-- In order, a line break that prints leaves nothing flat to do. -/
theorem Orderly.not_flat {i : Indentation} {mode : Mode} {hard soft : Bool} {rest : List Command}
    (horder : Orderly (⟨i, mode, .line hard soft⟩ :: rest))
    (hbreak : mode = .broken ∨ hard = true) : ¬ ∃ command ∈ rest, command.mode = .flat := by
  have hmode : mode = .broken := by
    cases mode with
    | broken => rfl
    | flat =>
        have hforces : hard = false := horder.1 rfl
        simp [hforces] at hbreak
  rintro ⟨command, hcommand, hflat⟩
  have := horder.2.1 hmode command hcommand
  rw [hflat] at this
  cases this

/-- A row that is written up to the room's end is not too wide. -/
theorem Machine.Sound.width_le {machine : Machine Int} (h : machine.Sound page w tab)
    (hfits : fits false machine.pending (w - machine.column) =
      .ok (decide (0 ≤ w - machine.column)))
    (hunbroken : (machine.rows page).last.isUnbroken = true) :
    (machine.rows page).last.width tab ≤ w := by
  have htrue := h.current (.inl hunbroken)
  rw [hfits] at htrue
  have hroom : 0 ≤ w - machine.column := by simpa using htrue
  have hcolumn : machine.column = (machine.rows page).last.width tab := h.column
  omega

/-- A step that finishes a row leaves no row too wide. -/
theorem Step.finished {machine next : Machine Int} (h : Step page machine next)
    (hsound : machine.Sound page w tab) :
    ∀ row ∈ (next.rows page).finished, row.isUnbroken = true → row.width tab ≤ w := by
  cases h with
  | newline hbreak =>
      rw [Machine.rows_cons, Rows.write, List.forall_mem_append, List.forall_mem_singleton]
      exact ⟨hsound.finished, hsound.width_le (fits_newline hbreak)⟩
  | text | joined | spaced => rw [Machine.rows_cons]; exact hsound.finished
  | _ => exact hsound.finished

/-- A step that writes nothing and only puts other commands in place of some, which
fit as those did, keeps what was known of the current row. -/
theorem Machine.Sound.current_of_fits_eq {column : Int} {written : List Piece}
    {before after : List Command} (h : Sound page w tab ⟨column, written, before⟩)
    (hfits : fits false before (w - column) = fits false after (w - column))
    (hflat : (∃ command ∈ after, command.mode = .flat) → ∃ command ∈ before, command.mode = .flat)
    (hafter : (rowsOf (Indentation.text page) written.reverse).last.isUnbroken = true ∨
      ∃ command ∈ after, command.mode = .flat) :
    fits false after (w - column) = .ok true := by
  rw [← hfits]
  exact h.current (hafter.imp_right hflat)

/-- After a step, while the row has an unbroken line break or flat work to do, what
is still to do fits: by what was known before the step or, for a group that is laid
flat, by the decision itself. -/
theorem Step.current (hwidth : page.width = .ok w) {machine next : Machine Int}
    (h : Step page machine next) (hsound : machine.Sound page w tab) :
    (next.rows page).last.isUnbroken = true ∨ (∃ command ∈ next.pending, command.mode = .flat) →
      fits false next.pending (w - next.column) = .ok true := by
  cases h with
  | text =>
      rintro (hunbroken | ⟨command, hcommand, hflat⟩)
      · rw [Machine.rows_cons] at hunbroken
        simp only [Rows.write, Row.isUnbroken, List.any_append, List.any_cons, List.any_nil,
          Piece.isUnbroken, Bool.or_false] at hunbroken
        have hfits := hsound.current (.inl hunbroken)
        rwa [fits_text, Int.sub_sub] at hfits
      · have hfits := hsound.current (.inr ⟨command, List.mem_cons_of_mem _ hcommand, hflat⟩)
        rwa [fits_text, Int.sub_sub] at hfits
  | joined =>
      intro _
      have hfits := hsound.current (.inr ⟨_, List.mem_cons_self, rfl⟩)
      rwa [fits_joined] at hfits
  | spaced =>
      intro _
      have hfits := hsound.current (.inr ⟨_, List.mem_cons_self, rfl⟩)
      rwa [fits_spaced, Int.sub_sub] at hfits
  | newline hbreak =>
      rintro (hunbroken | hflat)
      · rw [Machine.rows_cons] at hunbroken
        cases hunbroken
      · exact absurd hflat (hsound.order.not_flat hbreak)
  | fitting hroom hfits =>
      rw [Page.room, hwidth] at hroom
      cases hroom
      exact fun _ => hfits
  | fill =>
      have hdocs := (allDocs_cons.mp hsound.docs).1
      simp [Doc.all, isOrderly, Doc.isNoFill] at hdocs
  | concat =>
      refine hsound.current_of_fits_eq (fits_concat _) ?_
      rintro ⟨command, hcommand, hflat⟩
      obtain hpart | hrest := List.mem_append.mp hcommand
      · obtain ⟨part, -, rfl⟩ := List.mem_map.mp hpart
        exact ⟨_, List.mem_cons_self, hflat⟩
      · exact ⟨command, List.mem_cons_of_mem _ hrest, hflat⟩
  | breakParent => exact hsound.current_of_fits_eq fits_breakParent (by simp +contextual)
  | forced => exact hsound.current_of_fits_eq (fits_forced _) (by simp +contextual)
  | indent => exact hsound.current_of_fits_eq (fits_indent _) (by simp)
  | align => exact hsound.current_of_fits_eq (fits_align _ _) (by simp)
  | root => exact hsound.current_of_fits_eq (fits_root _) (by simp)
  | inherited | tooWide => exact hsound.current_of_fits_eq (fits_group _) (by simp)
  | whenBroken => exact hsound.current_of_fits_eq (fits_whenBroken _ _) (by simp)
  | whenFlat => exact hsound.current_of_fits_eq (fits_whenFlat _ _) (by simp)

/-- **Every step keeps rows with an unbroken line break from being too wide.** -/
theorem Step.sound (hwidth : page.width = .ok w) (hpage : page.IsExact tab)
    {machine next : Machine Int} (h : Step page machine next) (hsound : machine.Sound page w tab) :
    next.Sound page w tab where
  docs := h.allDocs (by simp [isOrderly, Doc.isNoFill]) hsound.docs
  order := h.orderly hsound.docs hsound.order
  column := h.tracksColumn hpage hsound.column
  finished := h.finished hsound
  current := h.current hwidth hsound

/-! ## Runs -/

/-- A machine about to lay out a document without fills, its flags raised, is
sound: it has written nothing and nothing is flat. -/
theorem Machine.Sound.start {doc : Doc} (hdoc : doc.all Doc.isNoFill = true) :
    (Machine.start doc.raise).Sound page w tab where
  docs := by
    have hfill : doc.raise.all Doc.isNoFill = true :=
      (Doc.all_raise (fun d => by cases d <;> rfl) doc).mpr hdoc
    have horderly : doc.raise.all isOrderly = true :=
      (Doc.all_and _).mpr ⟨hfill, Doc.all_isSettled_raise doc⟩
    simpa [Machine.start] using horderly
  order := ⟨nofun, (fun _ _ h => nomatch h), trivial⟩
  column := by
    rw [TracksColumn, Row.width]
    rfl
  finished := nofun
  current := by
    rintro (hunbroken | ⟨command, hcommand, hflat⟩)
    · cases hunbroken
    · rw [List.mem_singleton.mp hcommand] at hflat
      cases hflat

/-- Every machine that a run reaches is sound. -/
theorem Machine.Sound.of_reaches (hwidth : page.width = .ok w) (hpage : page.IsExact tab)
    {machine final : Machine Int} (h : ReflTransGen (Step page) machine final)
    (hsound : machine.Sound page w tab) : final.Sound page w tab := by
  induction h with
  | refl => exact hsound
  | tail _ hstep ih => exact hstep.sound hwidth hpage ih

/-- **On a page of width `w` no row with an unbroken line break is wider than `w`.** -/
theorem width_le_of_pieces (hwidth : page.width = .ok w) (hpage : page.IsExact tab) {doc : Doc}
    {ps : List Piece} (hdoc : doc.all Doc.isNoFill = true) (h : pieces page doc = .ok ps) :
    ∀ row ∈ (rowsOf (Indentation.text page) ps).toList,
      row.isUnbroken = true → row.width tab ≤ w := by
  obtain ⟨final, hreaches, hdone, rfl⟩ := reaches_of_pieces h
  have hsound : final.Sound page w tab :=
    Machine.Sound.of_reaches hwidth hpage hreaches (Machine.Sound.start hdoc)
  have hlast : fits false final.pending (w - final.column) =
      .ok (decide (0 ≤ w - final.column)) := by
    rw [hdone, fits_nil]
  rw [Rows.toList, List.forall_mem_append, List.forall_mem_singleton]
  exact ⟨hsound.finished, hsound.width_le hlast⟩

end HamlFormat.Layout

namespace HamlFormat.Settings

open Layout

/-- **A line that is too wide has no break left to take.** Let a document without
fills, with texts on one line, be laid out under an integer print width and
levels that are not narrower than nothing. Its output's lines are then the rows
that were written, and a row that holds a line break printed as a space or as
nothing, with all that was written on it, is not wider than the print width. The
documents of Ruby expressions on one line are of this kind. -/
theorem width_le_of_unbroken {settings : Settings} {w t : Int}
    (hw : settings.printWidth.int? = some w) (ht : settings.tabWidth.int? = some t)
    (hnonneg : 0 ≤ t) :
    (∀ doc out, doc.all Doc.isNoFill = true → doc.all Doc.isOneLine = true →
      settings.layout doc = .ok out →
      ∃ ps, pieces (settings.page Json.int?) doc = .ok ps ∧
        Text.lines out = (rowsOf settings.margin ps).lines ∧
        ∀ row ∈ (rowsOf settings.margin ps).toList, row.isUnbroken = true → row.width t ≤ w) ∧
    (∀ (r : Ruby) source doc, r.isOneLine = true → r.toDoc (settings.style source) = .ok doc →
      doc.all Doc.isNoFill = true ∧ doc.all Doc.isOneLine = true) := by
  refine ⟨fun doc out hfill hone h => ?_, fun r source doc hr h => ?_⟩
  · have hwhole : settings.isFractional = false := isFractional_of_int hw ht
    obtain ⟨ps, hps, rfl⟩ := pieces_of_layout hwhole h
    obtain ⟨chosen, hchosen, hprints⟩ := pieces_print_leaves hps
    refine ⟨ps, hps, lines_of_layout hchosen hprints hone, ?_⟩
    rw [← text_page_eq hwhole]
    exact width_le_of_pieces (width_page hw) (isExact_page ht hnonneg) hfill hps
  · exact (Doc.all_and doc).mp (Ruby.all_toDoc hr h)

/-- An array that is broken over lines indented with tabs, around one that fits the
twelve columns and keeps its line break unbroken. -/
theorem width_le_of_unbroken_nested_arrays :
    let settings : Settings :=
      { printWidth := .int 12, tabWidth := .int 4, useTabs := .bool true }
    let array : Ruby := .array (some [.token ⟨.str "@ident", "first", .int 1⟩,
      .array (some [.token ⟨.str "@int", "10", .int 1⟩, .token ⟨.str "@int", "2", .int 1⟩])
        .null]) .null
    ∃ doc, array.toDoc (settings.style "") = .ok doc ∧
      settings.layout doc = .ok "[\n\tfirst,\n\t[10, 2]\n]" ∧
      ∃ ps, pieces (settings.page Json.int?) doc = .ok ps ∧
        (rowsOf settings.margin ps).lines = ["[", "\tfirst,", "\t[10, 2]", "]"] ∧
        ∀ row ∈ (rowsOf settings.margin ps).toList, row.isUnbroken = true → row.width 4 ≤ 12 := by
  intro settings array
  have hsound := @width_le_of_unbroken settings 12 4 rfl rfl (by decide)
  refine ⟨_, rfl, by decide +kernel, ?_⟩
  obtain ⟨hfill, hone⟩ := hsound.2 array "" _ (by decide) rfl
  obtain ⟨ps, hps, hlines, hrows⟩ := hsound.1 _ "[\n\tfirst,\n\t[10, 2]\n]" hfill hone
    (by decide +kernel)
  exact ⟨ps, hps, hlines ▸ by decide +kernel, hrows⟩

end HamlFormat.Settings
