import HamlFormat.Proofs.Layout.Margin
import HamlFormat.Proofs.Layout.Step
import Mathlib.Data.List.Forall2

/-!
# HamlFormat.Proofs.Layout.Content

What a layout writes. With one branch chosen for every `ifBreak`, a document is a
sequence of leaves: its texts and its line breaks. The pieces of a layout stand
for these leaves one by one and in order (`pieces_print_leaves`): a text for
itself, a line break for a space, for nothing or for a line end, as its kind
allows. So a layout loses nothing, writes nothing twice and moves nothing, however
often a fill is split and pushed back.
-/

namespace HamlFormat

/-! ## Leaves -/

namespace Doc

/-- One branch chosen for every `ifBreak` of a document. -/
inductive Resolves : Doc → Doc → Prop where
  | text {s} : Resolves (.text s) (.text s)
  | concat {parts chosen} : List.Forall₂ Resolves parts chosen →
    Resolves (.concat parts) (.concat chosen)
  | group {contents chosen shouldBreak} : Resolves contents chosen →
    Resolves (.group contents shouldBreak) (.group chosen shouldBreak)
  | indent {contents chosen} : Resolves contents chosen →
    Resolves (.indent contents) (.indent chosen)
  | align {columns contents chosen} : Resolves contents chosen →
    Resolves (.align columns contents) (.align columns chosen)
  | fill {parts chosen} : List.Forall₂ Resolves parts chosen →
    Resolves (.fill parts) (.fill chosen)
  | whenBroken {whenBroken whenFlat chosen} : Resolves whenBroken chosen →
    Resolves (.ifBreak whenBroken whenFlat) chosen
  | whenFlat {whenBroken whenFlat chosen} : Resolves whenFlat chosen →
    Resolves (.ifBreak whenBroken whenFlat) chosen
  | line {hard soft} : Resolves (.line hard soft) (.line hard soft)
  | breakParent : Resolves .breakParent .breakParent
  | root {contents chosen} : Resolves contents chosen →
    Resolves (.root contents) (.root chosen)

end Doc

namespace Layout

/-- A text of a document, or a line break with the indentation it stands at. -/
inductive Leaf where
  | text (s : Text)
  | line (hard soft : Bool) (indentation : Indentation)

/-- The indentation so many columns deeper; none or less changes nothing. -/
def Indentation.aligned (i : Indentation) (columns : Int) : Indentation :=
  if columns ≤ 0 then i else .spaces columns.toNat :: i

mutual

/-- The leaves of a document that stands at an indentation. -/
def leaves (i : Indentation) : Doc → List Leaf
  | .text s => [.text s]
  | .concat parts | .fill parts => listLeaves i parts
  | .group contents _ => leaves i contents
  | .indent contents => leaves (.level :: i) contents
  | .align columns contents => leaves (i.aligned columns) contents
  | .ifBreak whenBroken whenFlat => leaves i whenBroken ++ leaves i whenFlat
  | .line hard soft => [.line hard soft i]
  | .breakParent | .alien _ => []
  | .root contents => leaves [] contents

/-- The leaves of documents one after another. -/
def listLeaves (i : Indentation) : List Doc → List Leaf
  | [] => []
  | part :: parts => leaves i part ++ listLeaves i parts

end

@[simp] theorem listLeaves_eq_flatMap (i : Indentation) (parts : List Doc) :
    listLeaves i parts = parts.flatMap (leaves i) := by
  induction parts with
  | nil => rfl
  | cons part parts ih => rw [listLeaves, List.flatMap_cons, ih]

/-- How a leaf may be printed. A hard line break always ends the line; another one
ends it too, or else is a space, or nothing if it is soft. -/
inductive Leaf.Prints : Leaf → Piece → Prop where
  | text {s} : Prints (.text s) (.text s)
  | space {i} : Prints (.line false false i) (.unbroken false)
  | nothing {i} : Prints (.line false true i) (.unbroken true)
  | newline {hard soft i} : Prints (.line hard soft i) (.newline i)

/-! ## The leaves of the commands still to do -/

/-- The leaves of commands, for some choice of branches. -/
inductive Pending : List Command → List Leaf → Prop where
  | nil : Pending [] []
  | cons {i mode doc chosen commands rest} : doc.Resolves chosen → Pending commands rest →
    Pending (⟨i, mode, doc⟩ :: commands) (leaves i chosen ++ rest)

/-- The first command may be replaced by one for a document with the same leaves. -/
theorem Pending.head {i j : Indentation} {m n : Mode} {doc whole : Doc} {commands : List Command}
    {all : List Leaf} (h : Pending (⟨i, m, doc⟩ :: commands) all)
    (hdoc : ∀ chosen, doc.Resolves chosen →
      ∃ wholeChosen, whole.Resolves wholeChosen ∧ leaves j wholeChosen = leaves i chosen) :
    Pending (⟨j, n, whole⟩ :: commands) all := by
  cases h with
  | cons hchosen hrest =>
      obtain ⟨wholeChosen, hwhole, hleaves⟩ := hdoc _ hchosen
      rw [← hleaves]
      exact .cons hwhole hrest

/-- Commands one after another have their leaves one after another. -/
theorem Pending.of_append {xs ys : List Command} {all : List Leaf} (h : Pending (xs ++ ys) all) :
    ∃ front back, Pending xs front ∧ Pending ys back ∧ all = front ++ back := by
  induction xs generalizing all with
  | nil => exact ⟨[], all, .nil, h, rfl⟩
  | cons command xs ih =>
      cases h with
      | cons hdoc hrest =>
          obtain ⟨front, back, hfront, hback, rfl⟩ := ih hrest
          exact ⟨_, back, .cons hdoc hfront, hback, (List.append_assoc _ _ _).symm⟩

/-- Commands for the parts of a list at one indentation choose branches part by
part. -/
theorem Pending.of_map (i : Indentation) (mode : Mode) (parts : List Doc) {all : List Leaf}
    (h : Pending (parts.map (⟨i, mode, ·⟩)) all) :
    ∃ chosen, List.Forall₂ Doc.Resolves parts chosen ∧ all = listLeaves i chosen := by
  induction parts generalizing all with
  | nil => cases h; exact ⟨[], .nil, rfl⟩
  | cons part parts ih =>
      cases h with
      | cons hdoc hrest =>
          obtain ⟨chosen, hchosen, rfl⟩ := ih hrest
          exact ⟨_ :: chosen, .cons hdoc hchosen, rfl⟩

/-- The commands for a fill have the leaves of the fill: the rest that is pushed
back starts where the commands before it end. -/
theorem Pending.of_fillCommands {α : Type} [Columns α] {i : Indentation} {mode : Mode}
    {parts : List Doc} {room : α} {commands : List Command}
    (hfill : fillCommands i mode parts room = .ok commands) {all : List Leaf}
    (h : Pending commands all) :
    ∃ chosen, List.Forall₂ Doc.Resolves parts chosen ∧ all = listLeaves i chosen := by
  obtain ⟨rfl, rfl⟩ | ⟨content, m, rfl, rfl⟩ | ⟨content, separator, m, rfl, rfl⟩ |
    ⟨content, separator, next, rest, m, n, rfl, rfl⟩ := fillCommands_cases hfill
  · exact Pending.of_map i mode [] h
  · exact Pending.of_map i m [content] h
  · exact Pending.of_map i m [content, separator] h
  · obtain _ | ⟨hcontent, _ | ⟨hseparator, _ | ⟨hrest, _ | _⟩⟩⟩ := h
    cases hrest with
    | fill hrest =>
        refine ⟨_, .cons hcontent (.cons hseparator hrest), ?_⟩
        simp [leaves]

/-- Aligning that succeeds goes so many columns deeper. -/
theorem Indentation.align_eq {i j : Indentation} {columns : Int} (h : i.align columns = .ok j) :
    j = i.aligned columns := by
  rw [align] at h
  rw [aligned]
  split at h
  · next hle => cases h; rw [if_pos hle]
  · next hlt =>
    rw [if_neg hlt]
    obtain ⟨count, hcount, h⟩ := Fault.bind_eq_ok.mp h
    cases h
    rw [eq_toNat_of_spaceCount hcount]

variable {α : Type} [Columns α] {page : Page α}

/-- A step either keeps the leaves still to print and writes nothing, or writes a
piece for the first of them. -/
theorem Step.pending {machine next : Machine α} (h : Step page machine next) {rest : List Leaf}
    (hrest : Pending next.pending rest) :
    (next.pieces = machine.pieces ∧ Pending machine.pending rest) ∨
    (∃ leaf piece, next.pieces = piece :: machine.pieces ∧ leaf.Prints piece ∧
      Pending machine.pending (leaf :: rest)) := by
  cases h with
  | text => exact .inr ⟨_, _, rfl, .text, .cons .text hrest⟩
  | joined => exact .inr ⟨_, _, rfl, .nothing, .cons .line hrest⟩
  | spaced => exact .inr ⟨_, _, rfl, .space, .cons .line hrest⟩
  | newline => exact .inr ⟨_, _, rfl, .newline, .cons .line hrest⟩
  | breakParent => exact .inl ⟨rfl, .cons .breakParent hrest⟩
  | concat =>
      obtain ⟨front, back, hfront, hback, rfl⟩ := hrest.of_append
      obtain ⟨chosen, hchosen, rfl⟩ := hfront.of_map
      exact .inl ⟨rfl, .cons (.concat hchosen) hback⟩
  | fill _ hfill =>
      obtain ⟨front, back, hfront, hback, rfl⟩ := hrest.of_append
      obtain ⟨chosen, hchosen, rfl⟩ := hfront.of_fillCommands hfill
      exact .inl ⟨rfl, .cons (.fill hchosen) hback⟩
  | align hj =>
      rw [Indentation.align_eq hj] at hrest
      exact .inl ⟨rfl, hrest.head fun _ h => ⟨_, .align h, rfl⟩⟩
  | indent => exact .inl ⟨rfl, hrest.head fun _ h => ⟨_, .indent h, rfl⟩⟩
  | root => exact .inl ⟨rfl, hrest.head fun _ h => ⟨_, .root h, rfl⟩⟩
  | forced | inherited | fitting | tooWide =>
      exact .inl ⟨rfl, hrest.head fun _ h => ⟨_, .group h, rfl⟩⟩
  | whenBroken => exact .inl ⟨rfl, hrest.head fun _ h => ⟨_, .whenBroken h, rfl⟩⟩
  | whenFlat => exact .inl ⟨rfl, hrest.head fun _ h => ⟨_, .whenFlat h, rfl⟩⟩

/-- A run writes one piece for each leaf of the commands it starts with. -/
theorem pending_of_reaches {machine final : Machine α}
    (h : Relation.ReflTransGen (Step page) machine final) (hdone : final.pending = []) :
    ∃ all added, Pending machine.pending all ∧ List.Forall₂ Leaf.Prints all added ∧
      final.pieces = added.reverse ++ machine.pieces := by
  induction h using Relation.ReflTransGen.head_induction_on with
  | refl =>
      rw [hdone]
      exact ⟨[], [], .nil, .nil, rfl⟩
  | head hstep _ ih =>
      obtain ⟨rest, added, hrest, hprints, hpieces⟩ := ih
      obtain ⟨hsame, hpending⟩ | ⟨leaf, piece, hnew, hleaf, hpending⟩ := hstep.pending hrest
      · exact ⟨rest, added, hpending, hprints, by rw [hpieces, hsame]⟩
      · refine ⟨leaf :: rest, piece :: added, hpending, .cons hleaf hprints, ?_⟩
        rw [hpieces, hnew, List.reverse_cons, List.append_assoc, List.singleton_append]

/-! ## The pieces of a layout -/

/-- Branches of a list with raised flags can be chosen in the list itself. -/
theorem resolves_of_listRaise {parts chosen : List Doc}
    (ih : ∀ part ∈ parts, ∀ chosen, part.raise.Resolves chosen →
      ∃ plain, part.Resolves plain ∧ ∀ i, leaves i plain = leaves i chosen)
    (h : List.Forall₂ Doc.Resolves (parts.map Doc.raise) chosen) :
    ∃ plain, List.Forall₂ Doc.Resolves parts plain ∧
      ∀ i, listLeaves i plain = listLeaves i chosen := by
  induction parts generalizing chosen with
  | nil => cases h; exact ⟨[], .nil, fun _ => rfl⟩
  | cons part parts ihParts =>
      cases h with
      | cons hpart hparts =>
          obtain ⟨first, hfirst, hfirstLeaves⟩ := ih part (by simp) _ hpart
          obtain ⟨rest, hrest, hrestLeaves⟩ := ihParts (fun d hd => ih d (by simp [hd])) hparts
          refine ⟨first :: rest, .cons hfirst hrest, fun i => ?_⟩
          rw [listLeaves, listLeaves, hfirstLeaves, hrestLeaves]

/-- Raised flags change neither the branches to choose from nor the leaves. -/
theorem resolves_of_raise {doc chosen : Doc} (h : doc.raise.Resolves chosen) :
    ∃ plain, doc.Resolves plain ∧ ∀ i, leaves i plain = leaves i chosen := by
  induction doc generalizing chosen with
  | text s => cases h; exact ⟨_, .text, fun _ => rfl⟩
  | line hard soft => cases h; exact ⟨_, .line, fun _ => rfl⟩
  | breakParent => cases h; exact ⟨_, .breakParent, fun _ => rfl⟩
  | alien value => cases h
  | concat parts ih =>
      rw [Doc.raise, Doc.listRaise_eq_map] at h
      cases h with
      | concat hparts =>
          obtain ⟨plain, hplain, hleaves⟩ :=
            resolves_of_listRaise (fun d hd _ => ih d hd) hparts
          exact ⟨_, .concat hplain, hleaves⟩
  | fill parts ih =>
      rw [Doc.raise, Doc.listRaise_eq_map] at h
      cases h with
      | fill hparts =>
          obtain ⟨plain, hplain, hleaves⟩ :=
            resolves_of_listRaise (fun d hd _ => ih d hd) hparts
          exact ⟨_, .fill hplain, hleaves⟩
  | group contents shouldBreak ih =>
      cases h with
      | group hcontents =>
          obtain ⟨plain, hplain, hleaves⟩ := ih hcontents
          exact ⟨_, .group hplain, hleaves⟩
  | indent contents ih =>
      cases h with
      | indent hcontents =>
          obtain ⟨plain, hplain, hleaves⟩ := ih hcontents
          exact ⟨_, .indent hplain, fun i => hleaves (.level :: i)⟩
  | align columns contents ih =>
      cases h with
      | align hcontents =>
          obtain ⟨plain, hplain, hleaves⟩ := ih hcontents
          exact ⟨_, .align hplain, fun i => hleaves (i.aligned columns)⟩
  | root contents ih =>
      cases h with
      | root hcontents =>
          obtain ⟨plain, hplain, hleaves⟩ := ih hcontents
          exact ⟨_, .root hplain, fun _ => hleaves []⟩
  | ifBreak whenBroken whenFlat ihBroken ihFlat =>
      cases h with
      | whenBroken hbroken =>
          obtain ⟨plain, hplain, hleaves⟩ := ihBroken hbroken
          exact ⟨_, .whenBroken hplain, hleaves⟩
      | whenFlat hflat =>
          obtain ⟨plain, hplain, hleaves⟩ := ihFlat hflat
          exact ⟨_, .whenFlat hplain, hleaves⟩

/-- **The pieces of a layout stand for the leaves of the document**, one by one and
in order, for some choice of branches. -/
theorem pieces_print_leaves {doc : Doc} {ps : List Piece} (h : pieces page doc = .ok ps) :
    ∃ chosen, doc.Resolves chosen ∧ List.Forall₂ Leaf.Prints (leaves [] chosen) ps := by
  obtain ⟨final, hreaches, hdone, rfl⟩ := reaches_of_pieces h
  obtain ⟨all, added, hall, hprints, hpieces⟩ := pending_of_reaches hreaches hdone
  cases hall with
  | cons hdoc hnil =>
      cases hnil
      obtain ⟨plain, hplain, hleaves⟩ := resolves_of_raise hdoc
      refine ⟨plain, hplain, ?_⟩
      rw [hleaves, hpieces]
      simpa [Machine.start] using hprints

/-! ## What the leaves hold -/

/-- What follows from being chosen for some part of a list holds of every document
chosen for it. -/
theorem forall_mem_of_resolves {parts chosen : List Doc} {P : Doc → Prop}
    (h : List.Forall₂ Doc.Resolves parts chosen)
    (hP : ∀ part ∈ parts, ∀ first, part.Resolves first → P first) : ∀ first ∈ chosen, P first := by
  induction h with
  | nil => simp
  | cons hpart _ ih =>
      rw [List.forall_mem_cons]
      exact ⟨hP _ (by simp) _ hpart, ih fun d hd => hP d (by simp [hd])⟩

/-- What holds of a leaf for a property of the document it is made of holds of all
leaves, if every document inside has the property. -/
theorem forall_mem_leaves {p : Doc → Bool} {Q : Leaf → Prop}
    (htext : ∀ s, p (.text s) = true → Q (.text s))
    (hline : ∀ hard soft i, p (.line hard soft) = true → Q (.line hard soft i))
    {doc chosen : Doc} (h : doc.Resolves chosen) (hall : doc.all p = true) (i : Indentation) :
    ∀ leaf ∈ leaves i chosen, Q leaf := by
  induction doc generalizing chosen i with
  | text s =>
      cases h
      rw [leaves, List.forall_mem_singleton]
      exact htext s hall
  | line hard soft =>
      cases h
      rw [leaves, List.forall_mem_singleton]
      exact hline hard soft i hall
  | breakParent => cases h; simp [leaves]
  | alien value => cases h
  | concat parts ih | fill parts ih =>
      simp only [Doc.all, Bool.and_eq_true, Doc.listAll_eq_true] at hall
      obtain _ | hparts | _ | _ | _ | hparts := h
      simp only [leaves, listLeaves_eq_flatMap, List.mem_flatMap]
      rintro leaf ⟨first, hfirst, hleaf⟩
      exact forall_mem_of_resolves hparts (fun d hd _ hd' => ih d hd hd' (hall.2 d hd) i)
        first hfirst leaf hleaf
  | group contents _ ih | indent contents ih | align _ contents ih | root contents ih =>
      simp only [Doc.all, Bool.and_eq_true] at hall
      cases h
      next hcontents => exact ih hcontents hall.2 _
  | ifBreak whenBroken whenFlat ihBroken ihFlat =>
      simp only [Doc.all, Bool.and_eq_true] at hall
      cases h with
      | whenBroken hbroken => exact ihBroken hbroken hall.2.1 i
      | whenFlat hflat => exact ihFlat hflat hall.2.2 i

/-- The texts among the leaves stay on one line if those of the document do. -/
theorem isOneLine_of_mem_leaves {doc chosen : Doc} (h : doc.Resolves chosen)
    (hall : doc.all Doc.isOneLine = true) (i : Indentation) :
    ∀ s, Leaf.text s ∈ leaves i chosen → s.isOneLine = true := by
  have hleaves : ∀ leaf ∈ leaves i chosen, ∀ s, leaf = .text s → s.isOneLine = true := by
    refine forall_mem_leaves (fun s hs t ht => ?_) (fun _ _ _ _ _ ht => nomatch ht) h hall i
    cases ht
    exact hs
  exact fun s hs => hleaves _ hs s rfl

/-- Where nothing is to choose the only choice is the document itself. -/
theorem eq_of_resolves {doc chosen : Doc} (h : doc.Resolves chosen)
    (hall : doc.all Doc.isNoChoice = true) : doc = chosen := by
  induction doc generalizing chosen with
  | text _ | line _ _ | breakParent => cases h; rfl
  | alien value => cases h
  | concat parts ih | fill parts ih =>
      simp only [Doc.all, Bool.and_eq_true, Doc.listAll_eq_true] at hall
      obtain _ | hparts | _ | _ | _ | hparts := h
      have hunique : ∀ d ∈ parts, ∀ first, d.Resolves first → d = first :=
        fun d hd _ hfirst => ih d hd hfirst (hall.2 d hd)
      have hsame : List.Forall₂ (· = ·) parts _ :=
        ((List.forall₂_and_left _ _).mpr (And.intro hunique hparts)).imp
          fun d first hd => hd.1 first hd.2
      rw [List.forall₂_eq_eq_eq] at hsame
      rw [hsame]
  | group contents _ ih | indent contents ih | align _ contents ih | root contents ih =>
      simp only [Doc.all, Bool.and_eq_true] at hall
      cases h
      next hcontents => rw [ih hcontents hall.2]
  | ifBreak _ _ _ _ => simp [Doc.all, Doc.isNoChoice] at hall

/-- What shows of a leaf. -/
def Leaf.ink : Leaf → Text
  | .text s => s.filter Text.isInk
  | .line _ _ _ => []

/-- What shows of pieces is what shows of the leaves they stand for. -/
theorem flatMap_ink {all : List Leaf} {ps : List Piece} (h : List.Forall₂ Leaf.Prints all ps) :
    (ps.flatMap fun piece => piece.inline.filter Text.isInk) = all.flatMap Leaf.ink := by
  induction h with
  | nil => rfl
  | cons hleaf _ ih =>
      rw [List.flatMap_cons, List.flatMap_cons, ih]
      cases hleaf <;> rfl

/-- Pieces stay on one line if the leaves they stand for do. -/
theorem isOneLine_of_prints {all : List Leaf} {ps : List Piece}
    (h : List.Forall₂ Leaf.Prints all ps)
    (hall : ∀ s, Leaf.text s ∈ all → s.isOneLine = true) :
    ∀ piece ∈ ps, piece.inline.isOneLine = true := by
  induction h with
  | nil => simp
  | cons hleaf _ ih =>
      rw [List.forall_mem_cons]
      refine ⟨?_, ih fun s hs => hall s (by simp [hs])⟩
      cases hleaf with
      | text => exact hall _ List.mem_cons_self
      | space | nothing | newline => rfl

end Layout

end HamlFormat
