import HamlFormat.Proofs.Doc.Preorder
import HamlFormat.Proofs.Layout.Content
import HamlFormat.Proofs.Layout.Flat

/-!
# HamlFormat.Proofs.Layout.Obedience

Forced breaks are obeyed. `Lays` says what may become of a document in a mode, with what
must break as the only thing that binds it: a group that must break has its contents laid
out broken, whatever mode it is met in, and a hard line break ends the line. Every layout
is of this kind (`lays_of_pieces`). The mode it is met in may well be flat: a fill lays a
part flat that fits up to its first line break, with whatever stands behind that.

A layout works on the document with its flags raised. What it comes to is inside that
document, or is the rest of a fill inside it (`Within`), so a flag that it finds raised is
the flag of a group that must break.
-/

namespace HamlFormat

namespace Doc

/-- The documents inside a document with its flags raised are those inside the document,
with their flags raised. -/
theorem subdocs_raise (doc : Doc) : doc.raise.subdocs = doc.subdocs.map raise := by
  induction doc with
  | concat parts ih | fill parts ih =>
      simp only [raise, subdocs, listRaise_eq_map, listSubdocs_eq_flatMap, List.map_cons,
        List.flatMap_map, List.map_flatMap]
      exact congrArg _ (List.flatMap_congr ih)
  | group _ _ ih | indent _ ih | align _ _ ih | root _ ih => simp [raise, subdocs, ih]
  | ifBreak _ _ ihBroken ihFlat => simp [raise, subdocs, ihBroken, ihFlat]
  | text _ | line _ _ | breakParent | alien _ => rfl

/-- Raising flags changes nothing about which groups must break. -/
theorem mustBreak_raise {contents : Doc} {shouldBreak : Bool} :
    MustBreak contents.raise (contents.forces || shouldBreak) ↔
      MustBreak contents shouldBreak := by
  rw [← forces_or_iff, ← forces_or_iff, forces_raise]
  cases contents.forces <;> simp

/-- A group that is told nothing and holds nothing that forces it need not break. -/
theorem not_mustBreak {contents : Doc} (h : contents.forces = false) :
    ¬MustBreak contents false := by
  rw [← forces_or_iff, h]
  exact Bool.false_ne_true

/-- A document of which another is made, as it is or as the rest of a fill. -/
def Within (whole d : Doc) : Prop :=
  d ∈ whole.subdocs ∨ ∃ front others, .fill (front ++ others) ∈ whole.subdocs ∧ d = .fill others

theorem Within.self (whole : Doc) : Within whole whole :=
  .inl whole.mem_subdocs_self

/-- What is inside a rest of a fill is inside the fill. -/
theorem Within.inside {whole d e : Doc} (h : Within whole d) (he : e ∈ d.subdocs.tail) :
    Within whole e := by
  obtain h | ⟨front, others, h, rfl⟩ := h
  · exact .inl (mem_subdocs_trans (List.mem_of_mem_tail he) h)
  · refine .inl (mem_subdocs_trans ?_ h)
    simp only [subdocs, listSubdocs_eq_flatMap, List.tail_cons] at he ⊢
    rw [List.flatMap_append]
    exact List.mem_cons_of_mem _ (List.mem_append_right _ he)

/-- The rest of a fill after its first content and separator. -/
theorem Within.rest {whole content separator : Doc} {parts : List Doc}
    (h : Within whole (.fill (content :: separator :: parts))) : Within whole (.fill parts) := by
  obtain h | ⟨front, others, h, heq⟩ := h
  · exact .inr ⟨[content, separator], parts, h, rfl⟩
  · refine .inr ⟨front ++ [content, separator], parts, ?_, rfl⟩
    rw [← fill.inj heq] at h
    simpa using h

/-- What is told to break or not is a group of the document, and is told so if it must
break. -/
theorem exists_group_of_within {doc contents : Doc} {flag : Bool}
    (h : Within doc.raise (.group contents flag)) :
    ∃ g ∈ doc.groups, contents = g.1.raise ∧ (flag = true ↔ MustBreak g.1 g.2) := by
  obtain h | ⟨front, others, -, heq⟩ := h
  · rw [subdocs_raise, List.mem_map] at h
    obtain ⟨d, hd, hraise⟩ := h
    cases d with
    | group inner shouldBreak =>
        cases hraise
        exact ⟨(inner, shouldBreak), List.mem_filterMap.mpr ⟨_, hd, rfl⟩, rfl,
          forces_or_iff inner shouldBreak⟩
    | _ => cases hraise
  · cases heq

end Doc

namespace Layout

open Relation (ReflTransGen)
open Doc (MustBreak Within)

/-! ## What a layout comes to -/

variable {α : Type} [Columns α] {page : Page α}

/-- Every step goes on with documents of which the whole is made. -/
theorem Step.within {whole : Doc} {machine next : Machine α} (h : Step page machine next)
    (hall : ∀ command ∈ machine.pending, Within whole command.doc) :
    ∀ command ∈ next.pending, Within whole command.doc := by
  cases h with
  | text | joined | spaced | newline | breakParent => exact (List.forall_mem_cons.mp hall).2
  | concat =>
      obtain ⟨hfirst, hrest⟩ := List.forall_mem_cons.mp hall
      refine List.forall_mem_append.mpr ⟨List.forall_mem_map.mpr fun part hpart => ?_, hrest⟩
      refine hfirst.inside ?_
      simp only [Doc.subdocs, Doc.listSubdocs_eq_flatMap, List.tail_cons]
      exact List.mem_flatMap.mpr ⟨part, hpart, part.mem_subdocs_self⟩
  | indent | align | root | forced | inherited | fitting | tooWide =>
      obtain ⟨hfirst, hrest⟩ := List.forall_mem_cons.mp hall
      exact List.forall_mem_cons.mpr ⟨hfirst.inside (Doc.mem_subdocs_self _), hrest⟩
  | whenBroken =>
      obtain ⟨hfirst, hrest⟩ := List.forall_mem_cons.mp hall
      refine List.forall_mem_cons.mpr ⟨hfirst.inside ?_, hrest⟩
      exact List.mem_append_left _ (Doc.mem_subdocs_self _)
  | whenFlat =>
      obtain ⟨hfirst, hrest⟩ := List.forall_mem_cons.mp hall
      refine List.forall_mem_cons.mpr ⟨hfirst.inside ?_, hrest⟩
      exact List.mem_append_right _ (Doc.mem_subdocs_self _)
  | @fill _ _ _ _ parts _ _ _ _ hfill =>
      obtain ⟨hfirst, hrest⟩ := List.forall_mem_cons.mp hall
      refine List.forall_mem_append.mpr ⟨?_, hrest⟩
      have hpart : ∀ part ∈ parts, Within whole part := by
        intro part hpart
        refine hfirst.inside ?_
        simp only [Doc.subdocs, Doc.listSubdocs_eq_flatMap, List.tail_cons]
        exact List.mem_flatMap.mpr ⟨part, hpart, part.mem_subdocs_self⟩
      obtain ⟨rfl, rfl⟩ | ⟨content, m, rfl, rfl⟩ | ⟨content, separator, m, rfl, rfl⟩ |
        ⟨content, separator, next, others, m, n, rfl, rfl⟩ := fillCommands_cases hfill
      · simp
      · simpa using hpart
      · simpa using hpart
      · simp only [List.forall_mem_cons] at hpart ⊢
        exact ⟨hpart.1, hpart.2.1, hfirst.rest, by simp⟩

/-- A layout comes to documents of which the document is made, with its flags raised. -/
theorem Visits.within {doc : Doc} {machine : Machine α} (h : Visits page doc machine) :
    ∀ command ∈ machine.pending, Within doc.raise command.doc :=
  h.invariant (P := fun machine => ∀ command ∈ machine.pending, Within doc.raise command.doc)
    (by simpa [Machine.start] using Within.self _) Step.within

/-! ## What becomes of a document -/

mutual

/-- What may become of a document at an indentation and in a mode. A group that must break
has its contents laid out broken; another one is broken or flat, and flat in something
flat. The parts of a fill are each in a mode of their own. -/
inductive Lays : Indentation → Mode → Doc → List Piece → Prop where
  | text {i mode s} : Lays i mode (.text s) [.text s]
  | concat {i mode parts ps} : LaysAll i (parts.map (mode, ·)) ps → Lays i mode (.concat parts) ps
  | forced {i mode contents shouldBreak ps} : MustBreak contents shouldBreak →
    Lays i .broken contents ps → Lays i mode (.group contents shouldBreak) ps
  | free {i mode inner contents shouldBreak ps} : ¬MustBreak contents shouldBreak →
    (mode = .flat → inner = .flat) → Lays i inner contents ps →
    Lays i mode (.group contents shouldBreak) ps
  | indent {i mode contents ps} : Lays (.level :: i) mode contents ps →
    Lays i mode (.indent contents) ps
  | align {i mode columns contents ps} : Lays (i.aligned columns) mode contents ps →
    Lays i mode (.align columns contents) ps
  | fill {i mode parts ps} (modes : List Mode) : modes.length = parts.length →
    LaysAll i (modes.zip parts) ps → Lays i mode (.fill parts) ps
  | whenBroken {i whenBroken whenFlat ps} : Lays i .broken whenBroken ps →
    Lays i .broken (.ifBreak whenBroken whenFlat) ps
  | whenFlat {i whenBroken whenFlat ps} : Lays i .flat whenFlat ps →
    Lays i .flat (.ifBreak whenBroken whenFlat) ps
  | unbroken {i soft} : Lays i .flat (.line false soft) [.unbroken soft]
  | newline {i mode hard soft} : mode = .broken ∨ hard = true →
    Lays i mode (.line hard soft) [.newline i]
  | breakParent {i mode} : Lays i mode .breakParent []
  | root {i mode contents ps} : Lays [] mode contents ps → Lays i mode (.root contents) ps

/-- What may become of documents one after another, each in its mode. -/
inductive LaysAll : Indentation → List (Mode × Doc) → List Piece → Prop where
  | nil {i} : LaysAll i [] []
  | cons {i mode doc docs ps qs} : Lays i mode doc ps → LaysAll i docs qs →
    LaysAll i ((mode, doc) :: docs) (ps ++ qs)

end

/-- What may become of commands. -/
inductive PendingLays : List Command → List Piece → Prop where
  | nil : PendingLays [] []
  | cons {i mode doc commands ps qs} : Lays i mode doc ps → PendingLays commands qs →
    PendingLays (⟨i, mode, doc⟩ :: commands) (ps ++ qs)

namespace PendingLays

/-- The first command may be replaced by one that may become the same. -/
theorem head {i j : Indentation} {m n : Mode} {doc whole : Doc} {commands : List Command}
    {all : List Piece} (h : PendingLays (⟨i, m, doc⟩ :: commands) all)
    (hdoc : ∀ ps, Lays i m doc ps → Lays j n whole ps) :
    PendingLays (⟨j, n, whole⟩ :: commands) all := by
  cases h with
  | cons hfirst hrest => exact .cons (hdoc _ hfirst) hrest

theorem of_append {xs ys : List Command} {all : List Piece} (h : PendingLays (xs ++ ys) all) :
    ∃ front back, PendingLays xs front ∧ PendingLays ys back ∧ all = front ++ back := by
  induction xs generalizing all with
  | nil => exact ⟨[], all, .nil, h, rfl⟩
  | cons command xs ih =>
      cases h with
      | cons hfirst hrest =>
          obtain ⟨front, back, hfront, hback, rfl⟩ := ih hrest
          exact ⟨_, back, .cons hfirst hfront, hback, (List.append_assoc _ _ _).symm⟩

/-- Commands at one indentation are documents one after another. -/
theorem laysAll {i : Indentation} (docs : List (Mode × Doc)) {all : List Piece}
    (h : PendingLays (docs.map fun d => ⟨i, d.1, d.2⟩) all) : LaysAll i docs all := by
  induction docs generalizing all with
  | nil => cases h; exact .nil
  | cons d docs ih =>
      cases h with
      | cons hfirst hrest => exact .cons hfirst (ih hrest)

/-- The commands for a fill become what the fill may become: each of its parts is in the
mode that its command has. -/
theorem of_fillCommands {i : Indentation} {mode : Mode} {parts : List Doc} {room : α}
    {commands : List Command} (hfill : fillCommands i mode parts room = .ok commands)
    {all : List Piece} (h : PendingLays commands all) : Lays i mode (.fill parts) all := by
  obtain ⟨rfl, rfl⟩ | ⟨content, m, rfl, rfl⟩ | ⟨content, separator, m, rfl, rfl⟩ |
    ⟨content, separator, next, rest, m, n, rfl, rfl⟩ := fillCommands_cases hfill
  · exact .fill [] rfl (laysAll [] h)
  · exact .fill [m] rfl (laysAll [(m, content)] h)
  · exact .fill [m, m] rfl (laysAll [(m, content), (m, separator)] h)
  · obtain _ | ⟨hcontent, _ | ⟨hseparator, _ | ⟨hrest, _ | _⟩⟩⟩ := h
    cases hrest with
    | fill modes hlength hall =>
        refine .fill (m :: n :: modes) (by simpa using hlength) ?_
        rw [List.append_nil]
        exact .cons hcontent (.cons hseparator hall)

end PendingLays

/-- What may become of the commands after a step may become of those before it, with the
piece that the step has written. -/
theorem Step.pendingLays {machine next : Machine α} (h : Step page machine next)
    (hsettled : AllDocs Doc.isSettled machine.pending) {rest : List Piece}
    (hrest : PendingLays next.pending rest) :
    ∃ added, next.pieces = added.reverse ++ machine.pieces ∧
      PendingLays machine.pending (added ++ rest) := by
  cases h with
  | text => exact ⟨[_], rfl, .cons .text hrest⟩
  | joined => exact ⟨[_], rfl, .cons .unbroken hrest⟩
  | spaced => exact ⟨[_], rfl, .cons .unbroken hrest⟩
  | newline hbreak => exact ⟨[_], rfl, .cons (.newline hbreak) hrest⟩
  | breakParent => exact ⟨[], rfl, .cons .breakParent hrest⟩
  | @concat _ _ i mode parts _ =>
      obtain ⟨front, back, hfront, hback, rfl⟩ := hrest.of_append
      have hparts : LaysAll i (parts.map (mode, ·)) front :=
        PendingLays.laysAll _ (by simpa [Function.comp_def] using hfront)
      refine ⟨[], rfl, ?_⟩
      rw [List.nil_append]
      exact .cons (.concat hparts) hback
  | fill _ hfill =>
      obtain ⟨front, back, hfront, hback, rfl⟩ := hrest.of_append
      refine ⟨[], rfl, ?_⟩
      rw [List.nil_append]
      exact .cons (hfront.of_fillCommands hfill) hback
  | align hj =>
      rw [Indentation.align_eq hj] at hrest
      exact ⟨[], rfl, hrest.head fun _ h => .align h⟩
  | indent => exact ⟨[], rfl, hrest.head fun _ h => .indent h⟩
  | root => exact ⟨[], rfl, hrest.head fun _ h => .root h⟩
  | forced => exact ⟨[], rfl, hrest.head fun _ h => .forced (.inl rfl) h⟩
  | inherited | fitting | tooWide =>
      have hfree := Doc.not_mustBreak (forces_contents (allDocs_cons.mp hsettled).1)
      exact ⟨[], rfl, hrest.head fun _ h => .free hfree (by simp) h⟩
  | whenBroken => exact ⟨[], rfl, hrest.head fun _ h => .whenBroken h⟩
  | whenFlat => exact ⟨[], rfl, hrest.head fun _ h => .whenFlat h⟩

/-- A run writes what may become of the commands it starts with. -/
theorem pendingLays_of_reaches {machine final : Machine α}
    (h : ReflTransGen (Step page) machine final) (hdone : final.pending = [])
    (hsettled : AllDocs Doc.isSettled machine.pending) :
    ∃ added, final.pieces = added.reverse ++ machine.pieces ∧
      PendingLays machine.pending added := by
  induction h using ReflTransGen.head_induction_on with
  | refl =>
      rw [hdone]
      exact ⟨[], rfl, .nil⟩
  | head hstep _ ih =>
      obtain ⟨later, hlater, hpending⟩ := ih (hstep.allDocs (fun _ _ _ _ => rfl) hsettled)
      obtain ⟨added, hadded, hlays⟩ := hstep.pendingLays hsettled hpending
      refine ⟨added ++ later, ?_, hlays⟩
      rw [hlater, hadded, List.reverse_append, List.append_assoc]

/-! ## Flags that are not raised -/

/-- What may become of documents with their flags raised may become of the documents. -/
theorem LaysAll.of_raise {i : Indentation} {docs : List (Mode × Doc)} {ps : List Piece}
    (h : LaysAll i (docs.map fun d => (d.1, d.2.raise)) ps)
    (ih : ∀ d ∈ docs, ∀ ps, Lays i d.1 d.2.raise ps → Lays i d.1 d.2 ps) : LaysAll i docs ps := by
  induction docs generalizing ps with
  | nil => cases h; exact .nil
  | cons d docs ihDocs =>
      rw [List.forall_mem_cons] at ih
      cases h with
      | cons hfirst hrest => exact .cons (ih.1 _ hfirst) (ihDocs hrest ih.2)

/-- Raising flags lets nothing become of a document that may not become of it anyway. -/
theorem Lays.of_raise {i : Indentation} {mode : Mode} {doc : Doc} {ps : List Piece}
    (h : Lays i mode doc.raise ps) : Lays i mode doc ps := by
  induction doc generalizing i mode ps with
  | text _ | line _ _ | breakParent | alien _ => exact h
  | concat parts ih =>
      rw [Doc.raise, Doc.listRaise_eq_map] at h
      cases h with
      | concat hparts =>
          refine .concat (LaysAll.of_raise ?_ ?_)
          · simpa [Function.comp_def] using hparts
          · simpa using fun part hpart ps => ih part hpart
  | fill parts ih =>
      rw [Doc.raise, Doc.listRaise_eq_map] at h
      cases h with
      | fill modes hlength hparts =>
          refine .fill modes (by simpa using hlength) (LaysAll.of_raise ?_ ?_)
          · rw [List.zip_map_right] at hparts
            exact hparts
          · exact fun d hd ps => ih d.2 (List.of_mem_zip hd).2
  | group contents shouldBreak ih =>
      rw [Doc.raise] at h
      cases h with
      | forced hmust hcontents => exact .forced (Doc.mustBreak_raise.mp hmust) (ih hcontents)
      | free hmust hmode hcontents =>
          exact .free (Doc.mustBreak_raise.not.mp hmust) hmode (ih hcontents)
  | indent contents ih =>
      cases h with
      | indent hcontents => exact .indent (ih hcontents)
  | align columns contents ih =>
      cases h with
      | align hcontents => exact .align (ih hcontents)
  | root contents ih =>
      cases h with
      | root hcontents => exact .root (ih hcontents)
  | ifBreak whenBroken whenFlat ihBroken ihFlat =>
      cases h with
      | whenBroken hbroken => exact .whenBroken (ihBroken hbroken)
      | whenFlat hflat => exact .whenFlat (ihFlat hflat)

/-- **Every layout obeys what must break.** -/
theorem lays_of_pieces {doc : Doc} {ps : List Piece} (h : pieces page doc = .ok ps) :
    Lays [] .broken doc ps := by
  obtain ⟨final, hreaches, hdone, rfl⟩ := reaches_of_pieces h
  obtain ⟨added, hadded, hlays⟩ := pendingLays_of_reaches hreaches hdone
    (by simpa [Machine.start] using Doc.all_isSettled_raise doc)
  have hpieces : final.pieces.reverse = added := by
    rw [hadded]
    simp [Machine.start]
  rw [hpieces]
  cases hlays with
  | cons hdoc hnil =>
      cases hnil
      rw [List.append_nil]
      exact hdoc.of_raise

end Layout

namespace Settings

open Layout
open Doc (MustBreak)

/-- **What must break is known exactly and breaks.** The groups of a document that are found
to be forced are those that must break: their own flag is raised, or a hard line break, a
`breakParent` or a group with a raised flag stands in them at any depth. A layout that comes
to such a group lays its contents out broken, in whatever mode it comes to it, and a hard
line break that it comes to ends the line. So all that is laid out under any settings is
what may become of a document in which this is so. -/
theorem layout_obeys_forced {doc : Doc} (hdoc : doc.all Doc.isProper = true) :
    (∃ flags, doc.forcedGroups = .ok flags ∧
      List.Forall₂ (fun g flag => flag = true ↔ MustBreak g.1 g.2) doc.groups flags) ∧
    (∀ (α : Type) [Columns α] (page : Page α) (column : α) (written : List Piece)
      (i : Indentation) (mode : Mode) (rest : List Command),
      (∀ contents flag,
        Visits page doc ⟨column, written, ⟨i, mode, .group contents flag⟩ :: rest⟩ →
        ∃ g ∈ doc.groups, contents = g.1.raise ∧ (flag = true ↔ MustBreak g.1 g.2) ∧
          (MustBreak g.1 g.2 →
            Machine.step page ⟨column, written, ⟨i, mode, .group contents flag⟩ :: rest⟩ =
              .ok ⟨column, written, ⟨i, .broken, contents⟩ :: rest⟩)) ∧
      (∀ soft, Visits page doc ⟨column, written, ⟨i, mode, .line true soft⟩ :: rest⟩ →
        Machine.step page ⟨column, written, ⟨i, mode, .line true soft⟩ :: rest⟩ =
          .ok ⟨i.columns page, .newline i :: written, rest⟩)) ∧
    ∀ (settings : Settings) (out : Text), settings.layout doc = .ok out →
      ∃ ps, Lays [] .broken doc ps ∧ out = (rowsOf settings.margin ps).text := by
  refine ⟨Doc.forcedGroups_eq hdoc, fun α _ page column written i mode rest =>
    ⟨fun contents flag hvisits => ?_, fun soft _ => ?_⟩, fun settings out hout => ?_⟩
  · obtain ⟨g, hg, hcontents, hflag⟩ :=
      Doc.exists_group_of_within (hvisits.within _ List.mem_cons_self)
    refine ⟨g, hg, hcontents, hflag, fun hmust => ?_⟩
    rw [hflag.mpr hmust]
    rfl
  · cases mode <;> rfl
  · exact exists_pieces_of_layout hout fun _ _ hps => lays_of_pieces hps

/-- A fill lays a part flat that fits up to its first line break, and the group behind that
line break is still broken, as are the ones that hold it. -/
theorem layout_obeys_forced_in_fill :
    let settings : Settings := {}
    let inner : Doc := .concat [.text "b", .blankBreak, .text "c"]
    let doc : Doc := .group (.fill [.concat [.text "a", .hardBreak, .group inner true]]) false
    doc.all Doc.isProper = true ∧ doc.forcedGroups = .ok [true, true] ∧
      Visits (settings.page Json.int?) doc
        ⟨0, [.newline [], .text "a"], [⟨[], .flat, .group inner true⟩]⟩ ∧
      Machine.step (settings.page Json.int?)
        ⟨0, [.newline [], .text "a"], [⟨[], .flat, .group inner true⟩]⟩ =
          .ok ⟨0, [.newline [], .text "a"], [⟨[], .broken, inner⟩]⟩ ∧
      settings.layout doc = .ok "a\nb\nc" := by
  intro settings inner doc
  have hproper : doc.all Doc.isProper = true := by decide
  have hvisits : Visits (settings.page Json.int?) doc
      ⟨0, [.newline [], .text "a"], [⟨[], .flat, .group inner true⟩]⟩ :=
    .tail (.tail (.tail (.tail (.single rfl) rfl) rfl) rfl) rfl
  obtain ⟨g, -, -, hflag, hobeyed⟩ :=
    ((layout_obeys_forced hproper).2.1 Int _ _ _ _ _ _).1 _ _ hvisits
  exact ⟨hproper, by decide +kernel, hvisits, hobeyed (hflag.mp rfl), by decide +kernel⟩

end Settings

end HamlFormat
