import HamlFormat.Proofs.Doc.Shape
import Mathlib.Data.List.Forall2

/-!
# HamlFormat.Proofs.Doc.Preorder

The documents inside a document, in the order in which they are read: each before what it
holds, left before right, and of a choice the broken branch before the flat one. What is
said of a document by recursion is here said of this list: whether every document inside
has a property (`all_eq`), and whether one of them breaks the groups around it
(`forces_eq`).

A group must break if its own flag says so or if something inside it breaks the groups
around it (`MustBreak`). The groups of a document that are found to be forced are exactly
those (`forcedGroups_eq`).
-/

namespace HamlFormat.Doc

/-! ## The documents inside -/

mutual

/-- A document and the documents inside it, outer before inner and left before right. -/
def subdocs : Doc → List Doc
  | .text s => [.text s]
  | .concat parts => .concat parts :: listSubdocs parts
  | .group contents shouldBreak => .group contents shouldBreak :: subdocs contents
  | .indent contents => .indent contents :: subdocs contents
  | .align columns contents => .align columns contents :: subdocs contents
  | .fill parts => .fill parts :: listSubdocs parts
  | .ifBreak whenBroken whenFlat =>
    .ifBreak whenBroken whenFlat :: (subdocs whenBroken ++ subdocs whenFlat)
  | .line hard soft => [.line hard soft]
  | .breakParent => [.breakParent]
  | .root contents => .root contents :: subdocs contents
  | .alien value => [.alien value]

/-- Several documents, each with the documents inside it. -/
def listSubdocs : List Doc → List Doc
  | [] => []
  | part :: parts => subdocs part ++ listSubdocs parts

end

@[simp] theorem listSubdocs_eq_flatMap (parts : List Doc) :
    listSubdocs parts = parts.flatMap subdocs := by
  induction parts with
  | nil => rfl
  | cons part parts ih => rw [listSubdocs, List.flatMap_cons, ih]

/-- A document comes first among the documents inside it. -/
theorem mem_subdocs_self (doc : Doc) : doc ∈ doc.subdocs := by
  cases doc <;> simp [subdocs]

/-- What is inside something inside a document is inside the document. -/
theorem mem_subdocs_trans {d e doc : Doc} (hd : d ∈ e.subdocs) (he : e ∈ doc.subdocs) :
    d ∈ doc.subdocs := by
  induction doc with
  | concat parts ih | fill parts ih =>
      simp only [subdocs, listSubdocs_eq_flatMap, List.mem_cons, List.mem_flatMap] at he ⊢
      obtain rfl | ⟨part, hpart, he⟩ := he
      · simpa [subdocs] using hd
      · exact .inr ⟨part, hpart, ih part hpart he⟩
  | group _ _ ih | indent _ ih | align _ _ ih | root _ ih =>
      simp only [subdocs, List.mem_cons] at he ⊢
      obtain rfl | he := he
      · simpa [subdocs] using hd
      · exact .inr (ih he)
  | ifBreak _ _ ihBroken ihFlat =>
      simp only [subdocs, List.mem_cons, List.mem_append] at he ⊢
      obtain rfl | he | he := he
      · simpa [subdocs] using hd
      · exact .inr (.inl (ihBroken he))
      · exact .inr (.inr (ihFlat he))
  | text _ | line _ _ | breakParent | alien _ =>
      rw [subdocs, List.mem_singleton] at he
      exact he ▸ hd

/-- A property of every document inside, by the list of them. -/
theorem all_eq (p : Doc → Bool) (doc : Doc) : doc.all p = doc.subdocs.all p := by
  induction doc with
  | concat parts ih | fill parts ih =>
      rw [all, subdocs, listSubdocs_eq_flatMap, List.all_cons, List.all_flatMap]
      congr 1
      induction parts with
      | nil => rfl
      | cons part parts ihParts =>
          rw [List.forall_mem_cons] at ih
          rw [listAll, ih.1, ihParts ih.2, List.all_cons]
  | group _ _ ih | indent _ ih | align _ _ ih | root _ ih => rw [all, ih, subdocs, List.all_cons]
  | ifBreak _ _ ihBroken ihFlat =>
      rw [all, ihBroken, ihFlat, subdocs, List.all_cons, List.all_append]
  | text _ | line _ _ | breakParent | alien _ => simp [all, subdocs]

/-! ## Groups that must break -/

/-- Whether a document by itself breaks every group around it. -/
def isBreaker : Doc → Bool
  | .line hard _ => hard
  | .breakParent => true
  | .group _ shouldBreak => shouldBreak
  | _ => false

/-- A document forces a break if one of the documents inside it does. -/
theorem forces_eq (doc : Doc) : doc.forces = doc.subdocs.any isBreaker := by
  induction doc with
  | concat parts ih | fill parts ih =>
      rw [forces, subdocs, listSubdocs_eq_flatMap, List.any_cons, List.any_flatMap]
      simp only [isBreaker, Bool.false_or]
      induction parts with
      | nil => rfl
      | cons part parts ihParts =>
          rw [List.forall_mem_cons] at ih
          rw [listForces, ih.1, ihParts ih.2, List.any_cons]
  | group _ _ ih => rw [forces, ih, subdocs, List.any_cons, isBreaker, Bool.or_comm]
  | indent _ ih | align _ _ ih | root _ ih => rw [forces, ih, subdocs, List.any_cons]; rfl
  | ifBreak _ _ ihBroken ihFlat =>
      rw [forces, ihBroken, ihFlat, subdocs, List.any_cons, List.any_append]
      rfl
  | text _ | line _ _ | breakParent | alien _ => simp [forces, subdocs, isBreaker]

/-- A group must break if it is told to, or if something in it, in whichever branch of a
choice, breaks the groups around it. -/
def MustBreak (contents : Doc) (shouldBreak : Bool) : Prop :=
  shouldBreak = true ∨ ∃ d ∈ contents.subdocs, d.isBreaker = true

theorem forces_or_iff (contents : Doc) (shouldBreak : Bool) :
    (contents.forces || shouldBreak) = true ↔ MustBreak contents shouldBreak := by
  rw [forces_eq, Bool.or_eq_true, List.any_eq_true, MustBreak, or_comm]

/-- The contents and the flag of a document that is a group. -/
def group? : Doc → Option (Doc × Bool)
  | .group contents shouldBreak => some (contents, shouldBreak)
  | _ => none

/-- The groups of a document, each with its contents and its flag. -/
def groups (doc : Doc) : List (Doc × Bool) :=
  doc.subdocs.filterMap group?

/-- The raised flags are those of the groups that must break. -/
theorem groupFlags_raise (doc : Doc) :
    doc.raise.groupFlags = doc.groups.map fun g => g.1.forces || g.2 := by
  rw [groups]
  induction doc with
  | concat parts ih | fill parts ih =>
      rw [raise, listRaise_eq_map, groupFlags, subdocs, listSubdocs_eq_flatMap,
        List.filterMap_cons_none rfl]
      induction parts with
      | nil => rfl
      | cons part parts ihParts =>
          rw [List.forall_mem_cons] at ih
          rw [List.map_cons, listFlags, ih.1, ihParts ih.2, List.flatMap_cons,
            List.filterMap_append, List.map_append]
  | group contents shouldBreak ih =>
      rw [raise, groupFlags, ih, subdocs]
      rfl
  | indent _ ih | align _ _ ih | root _ ih =>
      rw [raise, groupFlags, ih, subdocs, List.filterMap_cons_none rfl]
  | ifBreak _ _ ihBroken ihFlat =>
      rw [raise, groupFlags, ihBroken, ihFlat, subdocs, List.filterMap_cons_none rfl,
        List.filterMap_append, List.map_append]
  | text _ | line _ _ | breakParent | alien _ => rfl

/-- **The forced groups are those that must break**, one by one, on every document without
plain values. -/
theorem forcedGroups_eq {doc : Doc} (h : doc.all isProper = true) :
    ∃ flags, doc.forcedGroups = .ok flags ∧
      List.Forall₂ (fun g flag => flag = true ↔ MustBreak g.1 g.2) doc.groups flags := by
  refine ⟨doc.raise.groupFlags, ?_, ?_⟩
  · rw [forcedGroups, settle_eq h]
    rfl
  · rw [groupFlags_raise, List.forall₂_map_right_iff]
    exact List.forall₂_same.mpr fun g _ => forces_or_iff g.1 g.2

end HamlFormat.Doc
