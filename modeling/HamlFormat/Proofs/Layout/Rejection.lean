import HamlFormat.Doc.Describe
import HamlFormat.Proofs.Doc.Preorder
import HamlFormat.Proofs.Layout.Failure
import HamlFormat.Proofs.Layout.Flat

/-!
# HamlFormat.Proofs.Layout.Rejection

Documents that hold plain values are refused, whoever walks them. Finding the forced
groups, describing and laying out a document all come to its plain values in the same
order and fail at the first of them (`StopsAtFirst`), though a layout reads only part of
the document and in another order: it settles the whole document before it starts.

So a layout that has started comes to no plain value any more. Every document that is
still to be laid out is a proper one, and the questions that a step asks about what fits
(`Asks`) are all answered (`Asks.answered`).

All of this is about documents of any depth: a bound on how deep the walks may go is not
part of it.
-/

namespace HamlFormat

namespace Doc

/-! ## Plain values -/

/-- The plain value that a document is. -/
def alien? : Doc → Option Json
  | .alien value => some value
  | _ => none

/-- The plain values in a document, in the order in which it is read. -/
def aliens (doc : Doc) : List Json :=
  doc.subdocs.filterMap alien?

section

variable (parts : List Doc) (contents whenBroken whenFlat : Doc) (shouldBreak : Bool)
  (columns : Int) (value : Json)

theorem aliens_of_parts : (listSubdocs parts).filterMap alien? = parts.flatMap aliens := by
  rw [listSubdocs_eq_flatMap, List.filterMap_flatMap]
  rfl

@[simp] theorem aliens_concat : (concat parts).aliens = parts.flatMap aliens :=
  aliens_of_parts parts

@[simp] theorem aliens_fill : (fill parts).aliens = parts.flatMap aliens :=
  aliens_of_parts parts

@[simp] theorem aliens_group : (group contents shouldBreak).aliens = contents.aliens := rfl

@[simp] theorem aliens_indent : (indent contents).aliens = contents.aliens := rfl

@[simp] theorem aliens_align : (align columns contents).aliens = contents.aliens := rfl

@[simp] theorem aliens_root : (root contents).aliens = contents.aliens := rfl

@[simp] theorem aliens_ifBreak :
    (ifBreak whenBroken whenFlat).aliens = whenBroken.aliens ++ whenFlat.aliens :=
  List.filterMap_append

end

/-- A document without plain values is made of proper documents only. -/
theorem aliens_eq_nil_iff {doc : Doc} : doc.aliens = [] ↔ doc.all isProper = true := by
  rw [all_eq, List.all_eq_true, aliens, List.filterMap_eq_nil_iff]
  refine forall₂_congr fun d _ => ?_
  cases d <;> simp [alien?, isProper]

/-! ## Walks that stop at a plain value -/

/-- A walk that comes to plain values in their order: it fails at the first of them, and
succeeds if there is none. -/
inductive StopsAtFirst {β : Type} : List Json → Except Fault β → Prop where
  | ok (b : β) : StopsAtFirst [] (.ok b)
  | error (value : Json) (others : List Json) :
    StopsAtFirst (value :: others) (.error (.unexpectedDoc value))

namespace StopsAtFirst

variable {β γ : Type} {values more : List Json} {x : Except Fault β} {f : β → Except Fault γ}

/-- A walk that is gone on with comes to the plain values of both parts. -/
theorem bind (h : StopsAtFirst values x) (hrest : ∀ b, StopsAtFirst more (f b)) :
    StopsAtFirst (values ++ more) (x >>= f) := by
  cases h with
  | ok b => exact hrest b
  | error value others => exact .error value (others ++ more)

/-- What is made of the result of a walk changes nothing about where it stops. -/
theorem finish (h : StopsAtFirst values x) (hrest : ∀ b, StopsAtFirst [] (f b)) :
    StopsAtFirst values (x >>= f) := by
  simpa using h.bind hrest

end StopsAtFirst

theorem stopsAtFirst_settleList {parts : List Doc}
    (h : ∀ part ∈ parts, StopsAtFirst part.aliens part.settle) :
    StopsAtFirst (parts.flatMap aliens) (settleList parts) := by
  induction parts with
  | nil => exact .ok _
  | cons part parts ih =>
      rw [List.forall_mem_cons] at h
      rw [settleList, List.flatMap_cons]
      exact h.1.bind fun _ => (ih h.2).finish fun _ => .ok _

/-- **Settling stops at the first plain value.** -/
theorem stopsAtFirst_settle (doc : Doc) : StopsAtFirst doc.aliens doc.settle := by
  induction doc with
  | text _ | line _ _ | breakParent => exact .ok _
  | concat parts ih | fill parts ih =>
      simp only [settle, aliens_concat, aliens_fill]
      exact (stopsAtFirst_settleList ih).finish fun _ => .ok _
  | group _ _ ih | indent _ ih | align _ _ ih | root _ ih =>
      rw [settle]
      exact ih.finish fun _ => .ok _
  | ifBreak _ _ ihBroken ihFlat =>
      rw [settle, aliens_ifBreak]
      exact ihBroken.bind fun _ => ihFlat.finish fun _ => .ok _
  | alien value => exact .error value []

theorem stopsAtFirst_describeList {parts : List Doc}
    (h : ∀ part ∈ parts, StopsAtFirst part.aliens part.describe) :
    StopsAtFirst (parts.flatMap aliens) (describeList parts) := by
  induction parts with
  | nil => exact .ok _
  | cons part parts ih =>
      rw [List.forall_mem_cons] at h
      rw [describeList, List.flatMap_cons]
      exact h.1.bind fun _ => (ih h.2).finish fun _ => .ok _

/-- **Describing stops at the first plain value.** -/
theorem stopsAtFirst_describe (doc : Doc) : StopsAtFirst doc.aliens doc.describe := by
  induction doc with
  | text _ | breakParent => exact .ok _
  | line hard soft => cases hard <;> cases soft <;> exact .ok _
  | concat parts ih | fill parts ih =>
      simp only [describe, aliens_concat, aliens_fill]
      exact (stopsAtFirst_describeList ih).finish fun _ => .ok _
  | group contents shouldBreak ih =>
      cases shouldBreak <;> rw [describe] <;> exact ih.finish fun _ => .ok _
  | indent _ ih | align _ _ ih | root _ ih =>
      rw [describe]
      exact ih.finish fun _ => .ok _
  | ifBreak whenBroken whenFlat ihBroken ihFlat =>
      rw [describe, aliens_ifBreak]
      refine ihBroken.bind fun _ => ?_
      -- a flat branch that is left out is a text
      split
      · next hempty =>
          cases whenFlat with
          | text s => exact .ok _
          | _ => cases hempty
      · exact ihFlat.finish fun _ => .ok _
  | alien value => exact .error value []

theorem stopsAtFirst_forcedGroups (doc : Doc) : StopsAtFirst doc.aliens doc.forcedGroups :=
  (stopsAtFirst_settle doc).finish fun _ => .ok _

/-- A document with a plain value is not laid out, whatever the page is. -/
theorem render_eq_error {α : Type} [Layout.Columns α] (page : Layout.Page α) {doc : Doc}
    {value : Json} {others : List Json} (h : doc.aliens = value :: others) :
    Layout.render page doc = .error (.unexpectedDoc value) := by
  have hsettle := stopsAtFirst_settle doc
  rw [h] at hsettle
  rw [Layout.render, Layout.pieces]
  generalize doc.settle = result at hsettle ⊢
  cases hsettle
  rfl

end Doc

namespace Layout

/-! ## Questions about what fits -/

variable {α : Type} [Columns α] {page : Page α}

/-- What a step asks before it does its command: whether these commands fit in a room, and
whether they must be flat for that. A group is read with all that follows it; a fill asks
about its first content and about its first two contents with the separator. -/
inductive Asks (page : Page α) : Machine α → Bool → List Command → α → Prop where
  | group {column written i contents rest room} (hroom : page.room column = .ok room) :
    Asks page ⟨column, written, ⟨i, .broken, .group contents false⟩ :: rest⟩
      false (⟨i, .flat, contents⟩ :: rest) room
  | content {column written i mode content parts rest room} (hroom : page.room column = .ok room) :
    Asks page ⟨column, written, ⟨i, mode, .fill (content :: parts)⟩ :: rest⟩
      true [⟨i, .flat, content⟩] room
  | pair {column written i mode content separator next parts rest room}
    (hroom : page.room column = .ok room) :
    Asks page ⟨column, written,
        ⟨i, mode, .fill (content :: separator :: next :: parts)⟩ :: rest⟩
      true [⟨i, .flat, .concat [content, separator, next]⟩] room

/-- Every question about proper documents is answered. -/
theorem Asks.answered {machine : Machine α} {strict : Bool} {commands : List Command} {room : α}
    (h : Asks page machine strict commands room)
    (hproper : AllDocs Doc.isProper machine.pending) :
    ∃ answer, fits strict commands room = .ok answer := by
  refine fits_ok strict commands room ?_
  cases h with
  | group =>
      simpa [Doc.all, Doc.isProper] using hproper
  | content =>
      simp only [allDocs_cons, Doc.all, Doc.listAll, Bool.and_eq_true] at hproper
      exact allDocs_cons.mpr ⟨hproper.1.2.1, allDocs_nil⟩
  | pair =>
      simp only [allDocs_cons, Doc.all, Doc.listAll, Bool.and_eq_true] at hproper
      obtain ⟨hcontent, hseparator, hnext, -⟩ := hproper.1.2
      exact allDocs_cons.mpr
        ⟨by simp [Doc.all, Doc.listAll, Doc.isProper, hcontent, hseparator, hnext], allDocs_nil⟩

/-- A layout that has started comes to proper documents only. -/
theorem Visits.isProper {doc : Doc} {machine : Machine α} (h : Visits page doc machine)
    (hdoc : doc.all Doc.isProper = true) : AllDocs Doc.isProper machine.pending :=
  h.allDocs (fun _ _ _ _ => rfl) ((Doc.all_raise (fun d => by cases d <;> rfl) doc).mpr hdoc)

end Layout

namespace Doc

open Layout
open Fault (FailsWithin)

/-- **All walks refuse a document alike.** A document without plain values has its forced
groups found, is described, and under integer settings is laid out, unless a number in it
or in the settings is too large for an indentation; on the way a layout comes to no plain
value, neither as its next document nor in a question about what fits. A document with
plain values is refused for the first of them, in the order in which it is read, by each of
the three and under all settings. A bound on how deep a document may be nested is not part of
this. -/
theorem refused_alike (doc : Doc) :
    (doc.aliens = [] →
      (∃ flags, doc.forcedGroups = .ok flags) ∧ (∃ text, doc.describe = .ok text) ∧
      (∀ (settings : Settings) (w t : Int), settings.printWidth.int? = some w →
        settings.tabWidth.int? = some t →
        FailsWithin (·.isExcess) (settings.layout doc) ∧
        (doc.all (isFeasible (settings.indents t)) = true →
          ∃ out, settings.layout doc = .ok out)) ∧
      (∀ (α : Type) [Columns α] (page : Page α) (machine : Machine α), Visits page doc machine →
        (∀ command ∈ machine.pending.head?, ∀ value, command.doc ≠ .alien value) ∧
        ∀ strict commands room, Asks page machine strict commands room →
          ∃ answer, fits strict commands room = .ok answer)) ∧
    (∀ value others, doc.aliens = value :: others →
      doc.forcedGroups = .error (.unexpectedDoc value) ∧
      doc.describe = .error (.unexpectedDoc value) ∧
      (∀ settings : Settings, settings.layout doc = .error (.unexpectedDoc value)) ∧
      (Fault.unexpectedDoc value).message? = some ("Unexpected doc: " ++ value.literal)) := by
  have hgroups := stopsAtFirst_forcedGroups doc
  have hdescribe := stopsAtFirst_describe doc
  refine ⟨fun hnone => ?_, fun value others hsome => ?_⟩
  · have hproper := aliens_eq_nil_iff.mp hnone
    rw [hnone] at hgroups hdescribe
    refine ⟨?_, ?_, fun settings w t hw ht => ?_, fun α _ page machine hvisits => ?_⟩
    · generalize doc.forcedGroups = result at hgroups ⊢
      cases hgroups with
      | ok flags => exact ⟨flags, rfl⟩
    · generalize doc.describe = result at hdescribe ⊢
      cases hdescribe with
      | ok text => exact ⟨text, rfl⟩
    · exact ⟨Settings.failsWithin_layout_of_isProper hw ht hproper, Settings.layout_ok hw ht⟩
    · have hpending := hvisits.isProper hproper
      refine ⟨fun command hcommand value halien => ?_,
        fun strict commands room hasks => hasks.answered hpending⟩
      have hhead := hpending command (List.mem_of_mem_head? hcommand)
      rw [halien] at hhead
      cases hhead
  · rw [hsome] at hgroups hdescribe
    refine ⟨?_, ?_, fun settings => ?_, rfl⟩
    · generalize doc.forcedGroups = result at hgroups ⊢
      cases hgroups
      rfl
    · generalize doc.describe = result at hdescribe ⊢
      cases hdescribe
      rfl
    · rw [Settings.layout]
      split <;> exact render_eq_error _ hsome

/-- A value behind a hard line break, in a branch that is not taken, is found before one in a
fill after it; a fill with an indented group is laid out, and what it asks is answered. -/
theorem refused_alike_in_flat_branch :
    let refused : Doc := .concat [.text "a", .hardBreak,
      .group (.ifBreak (.text "b") (.alien (.int 5))) true, .fill [.alien .null]]
    let proper : Doc := .fill [.text "a", .blankBreak,
      .group (.indent (.concat [.hardBreak, .text "b"])) false]
    refused.aliens = [.int 5, .null] ∧ proper.aliens = [] ∧
      refused.forcedGroups = .error (.unexpectedDoc (.int 5)) ∧
      refused.describe = .error (.unexpectedDoc (.int 5)) ∧
      (∀ settings : Settings, settings.layout refused = .error (.unexpectedDoc (.int 5))) ∧
      (∃ flags, proper.forcedGroups = .ok flags) ∧ (∃ text, proper.describe = .ok text) ∧
      (∃ out, Settings.layout {} proper = .ok out) ∧
      ∃ answer, fits true [⟨[], .flat, .text "a"⟩] (80 : Int) = .ok answer := by
  intro refused proper
  have hrefused : refused.aliens = [.int 5, .null] := by decide +kernel
  have hproper : proper.aliens = [] := by decide +kernel
  obtain ⟨hgroups, hdescribe, hlayout, -⟩ := (refused_alike refused).2 _ _ hrefused
  obtain ⟨hflags, htext, hlaidOut, hasked⟩ := (refused_alike proper).1 hproper
  have hvisits : Visits (Settings.page {} Json.int?) proper (.start proper.raise) := .refl
  exact ⟨hrefused, hproper, hgroups, hdescribe, hlayout, hflags, htext,
    (hlaidOut {} 80 2 rfl rfl).2 (by decide),
    (hasked Int _ _ hvisits).2 _ _ _ (.content rfl)⟩

/-- A document without plain values is not laid out if a level of indentation in it cannot be
made. -/
theorem layout_eq_error_of_wide_level :
    let doc : Doc := .indent (.text "a")
    let settings : Settings := { tabWidth := .int countLimit }
    doc.aliens = [] ∧ settings.printWidth.int? = some 80 ∧
      settings.tabWidth.int? = some countLimit ∧ settings.layout doc = .error .overflow := by
  decide +kernel

end Doc

end HamlFormat
