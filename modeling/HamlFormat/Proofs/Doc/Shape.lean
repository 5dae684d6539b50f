import HamlFormat.Doc.Breaks
import HamlFormat.Proofs.Fault
import HamlFormat.Proofs.Text.Lines

/-!
# HamlFormat.Proofs.Doc.Shape

What documents are made of, and what settling does to them. `Doc.all` says that
every document inside a document has some property of its own; the properties in
use are that it is no plain value (`isProper`), no fill, no `ifBreak`, and that
its text stays on one line.

Settling succeeds exactly on documents without plain values. It then raises the
flag of every group that holds a hard line break, a `breakParent` or a raised
flag, and changes nothing else (`settle_eq`). A settled document is one in which
the contents of every group that is not told to break force nothing
(`all_isSettled_raise`).
-/

namespace HamlFormat.Doc

/-- Induction over documents: the parts of a list are all smaller. -/
@[induction_eliminator]
theorem induct {motive : Doc → Prop}
    (text : ∀ s, motive (.text s))
    (concat : ∀ parts, (∀ part ∈ parts, motive part) → motive (.concat parts))
    (group : ∀ contents shouldBreak, motive contents → motive (.group contents shouldBreak))
    (indent : ∀ contents, motive contents → motive (.indent contents))
    (align : ∀ columns contents, motive contents → motive (.align columns contents))
    (fill : ∀ parts, (∀ part ∈ parts, motive part) → motive (.fill parts))
    (ifBreak : ∀ whenBroken whenFlat, motive whenBroken → motive whenFlat →
      motive (.ifBreak whenBroken whenFlat))
    (line : ∀ hard soft, motive (.line hard soft))
    (breakParent : motive .breakParent)
    (root : ∀ contents, motive contents → motive (.root contents))
    (alien : ∀ value, motive (.alien value)) (doc : Doc) : motive doc :=
  @Doc.rec motive (fun parts => ∀ part ∈ parts, motive part) text concat group indent align fill
    ifBreak line breakParent root alien (fun _ h => absurd h List.not_mem_nil)
    (fun _ _ hpart hparts _ h => (List.mem_cons.mp h).elim (· ▸ hpart) (hparts _)) doc

/-! ## Properties of every document inside -/

mutual

/-- Whether `p` holds of a document and of every document inside it. -/
def all (p : Doc → Bool) : Doc → Bool
  | .text s => p (.text s)
  | .concat parts => p (.concat parts) && listAll p parts
  | .group contents shouldBreak => p (.group contents shouldBreak) && all p contents
  | .indent contents => p (.indent contents) && all p contents
  | .align columns contents => p (.align columns contents) && all p contents
  | .fill parts => p (.fill parts) && listAll p parts
  | .ifBreak whenBroken whenFlat =>
    p (.ifBreak whenBroken whenFlat) && (all p whenBroken && all p whenFlat)
  | .line hard soft => p (.line hard soft)
  | .breakParent => p .breakParent
  | .root contents => p (.root contents) && all p contents
  | .alien value => p (.alien value)

/-- Whether `p` holds of every document inside the documents of a list. -/
def listAll (p : Doc → Bool) : List Doc → Bool
  | [] => true
  | part :: parts => all p part && listAll p parts

end

variable {p q : Doc → Bool}

@[simp] theorem listAll_eq_true {parts : List Doc} :
    listAll p parts = true ↔ ∀ part ∈ parts, part.all p = true := by
  induction parts with
  | nil => simp [listAll]
  | cons part parts ih => simp [listAll, ih]

/-- A weaker property holds of every document inside as well. -/
theorem all_mono (hpq : ∀ doc, p doc = true → q doc = true) {doc : Doc}
    (h : doc.all p = true) : doc.all q = true := by
  induction doc with
  | concat parts ih | fill parts ih =>
      simp only [all, Bool.and_eq_true, listAll_eq_true] at h ⊢
      exact ⟨hpq _ h.1, fun d hd => ih d hd (h.2 d hd)⟩
  | group contents _ ih | indent contents ih | align _ contents ih | root contents ih =>
      simp only [all, Bool.and_eq_true] at h ⊢
      exact ⟨hpq _ h.1, ih h.2⟩
  | ifBreak whenBroken whenFlat ihBroken ihFlat =>
      simp only [all, Bool.and_eq_true] at h ⊢
      exact ⟨hpq _ h.1, ihBroken h.2.1, ihFlat h.2.2⟩
  | text _ | line _ _ | breakParent | alien _ => exact hpq _ h

/-- Properties of every document inside can be joined. -/
theorem all_and (doc : Doc) :
    doc.all (fun d => p d && q d) = true ↔ doc.all p = true ∧ doc.all q = true := by
  induction doc with
  | concat parts ih | fill parts ih =>
      simp only [all, Bool.and_eq_true, listAll_eq_true]
      constructor
      · rintro ⟨⟨hp, hq⟩, h⟩
        exact ⟨⟨hp, fun d hd => ((ih d hd).mp (h d hd)).1⟩,
          hq, fun d hd => ((ih d hd).mp (h d hd)).2⟩
      · rintro ⟨⟨hp, hps⟩, hq, hqs⟩
        exact ⟨⟨hp, hq⟩, fun d hd => (ih d hd).mpr ⟨hps d hd, hqs d hd⟩⟩
  | group contents _ ih | indent contents ih | align _ contents ih | root contents ih =>
      simp only [all, Bool.and_eq_true, ih]
      tauto
  | ifBreak whenBroken whenFlat ihBroken ihFlat =>
      simp only [all, Bool.and_eq_true, ihBroken, ihFlat]
      tauto
  | text _ | line _ _ | breakParent | alien _ => simp only [all, Bool.and_eq_true]

/-- What holds of a separator and of documents holds of the documents with the
separator between them. -/
theorem forall_mem_separate {P : Doc → Prop} {separator : Doc} (hseparator : P separator)
    (parts : List Doc) :
    (∀ part ∈ separate separator parts, P part) ↔ ∀ part ∈ parts, P part := by
  fun_induction separate separator parts with
  | case1 => exact Iff.rfl
  | case2 part => exact Iff.rfl
  | case3 part parts hne ih =>
      rw [List.forall_mem_cons, List.forall_mem_cons, List.forall_mem_cons, ih]
      exact ⟨fun h => ⟨h.1, h.2.2⟩, fun h => ⟨h.1, hseparator, h.2⟩⟩

/-- Not a plain value. -/
def isProper : Doc → Bool
  | .alien _ => false
  | _ => true

/-- Not a fill. -/
def isNoFill : Doc → Bool
  | .fill _ => false
  | _ => true

/-- Not a choice between two documents. -/
def isNoChoice : Doc → Bool
  | .ifBreak _ _ => false
  | _ => true

/-- No text with a line end in it. -/
def isOneLine : Doc → Bool
  | .text s => s.isOneLine
  | _ => true

/-! ## Forced breaks -/

mutual

/-- Whether a document holds something that breaks every group around it: a hard
line break, a `breakParent` or a group that is told to break. -/
def forces : Doc → Bool
  | .text _ | .alien _ => false
  | .concat parts | .fill parts => listForces parts
  | .group contents shouldBreak => forces contents || shouldBreak
  | .indent contents | .align _ contents | .root contents => forces contents
  | .ifBreak whenBroken whenFlat => forces whenBroken || forces whenFlat
  | .line hard _ => hard
  | .breakParent => true

/-- Whether one of several documents holds something that breaks every group
around it. -/
def listForces : List Doc → Bool
  | [] => false
  | part :: parts => forces part || listForces parts

end

@[simp] theorem listForces_eq_false {parts : List Doc} :
    listForces parts = false ↔ ∀ part ∈ parts, part.forces = false := by
  induction parts with
  | nil => simp [listForces]
  | cons part parts ih => simp [listForces, ih]

mutual

/-- The document with the flag of every group raised that must break. -/
def raise : Doc → Doc
  | .text s => .text s
  | .concat parts => .concat (listRaise parts)
  | .group contents shouldBreak => .group (raise contents) (contents.forces || shouldBreak)
  | .indent contents => .indent (raise contents)
  | .align columns contents => .align columns (raise contents)
  | .fill parts => .fill (listRaise parts)
  | .ifBreak whenBroken whenFlat => .ifBreak (raise whenBroken) (raise whenFlat)
  | .line hard soft => .line hard soft
  | .breakParent => .breakParent
  | .root contents => .root (raise contents)
  | .alien value => .alien value

/-- Several documents with the flags raised. -/
def listRaise : List Doc → List Doc
  | [] => []
  | part :: parts => raise part :: listRaise parts

end

@[simp] theorem listRaise_eq_map (parts : List Doc) : listRaise parts = parts.map raise := by
  induction parts with
  | nil => rfl
  | cons part parts ih => rw [listRaise, List.map_cons, ih]

/-- A group that is not told to break has contents that force nothing. -/
def isSettled : Doc → Bool
  | .group contents shouldBreak => shouldBreak || !contents.forces
  | _ => true

/-- Raising flags changes no property that does not look at them. -/
theorem all_raise (hp : ∀ doc, p (raise doc) = p doc) (doc : Doc) :
    doc.raise.all p = true ↔ doc.all p = true := by
  induction doc with
  | concat parts ih | fill parts ih =>
      have hhead := hp (.concat parts)
      have hfill := hp (.fill parts)
      simp only [raise, listRaise_eq_map] at hhead hfill ⊢
      simp only [all, hhead, hfill, Bool.and_eq_true, listAll_eq_true, List.forall_mem_map]
      exact and_congr_right fun _ => forall₂_congr ih
  | group contents shouldBreak ih =>
      have hhead := hp (.group contents shouldBreak)
      simp only [raise] at hhead ⊢
      simp only [all, hhead, Bool.and_eq_true, ih]
  | indent contents ih =>
      have hhead := hp (.indent contents)
      simp only [raise] at hhead ⊢
      simp only [all, hhead, Bool.and_eq_true, ih]
  | align columns contents ih =>
      have hhead := hp (.align columns contents)
      simp only [raise] at hhead ⊢
      simp only [all, hhead, Bool.and_eq_true, ih]
  | root contents ih =>
      have hhead := hp (.root contents)
      simp only [raise] at hhead ⊢
      simp only [all, hhead, Bool.and_eq_true, ih]
  | ifBreak whenBroken whenFlat ihBroken ihFlat =>
      have hhead := hp (.ifBreak whenBroken whenFlat)
      simp only [raise] at hhead ⊢
      simp only [all, hhead, Bool.and_eq_true, ihBroken, ihFlat]
  | text _ | line _ _ | breakParent | alien _ => rfl

/-- What a document forces does not change when flags are raised. -/
@[simp] theorem forces_raise (doc : Doc) : doc.raise.forces = doc.forces := by
  induction doc with
  | concat parts ih | fill parts ih =>
      simp only [raise, forces, listRaise_eq_map]
      induction parts with
      | nil => rfl
      | cons part parts ihParts =>
          rw [List.map_cons, listForces, listForces, ih part (by simp),
            ihParts fun d hd => ih d (by simp [hd])]
  | group contents shouldBreak ih =>
      rw [raise, forces, forces, ih]
      cases contents.forces <;> simp
  | indent _ ih | align _ _ ih | root _ ih => simp only [raise, forces, ih]
  | ifBreak _ _ ihBroken ihFlat => simp only [raise, forces, ihBroken, ihFlat]
  | text _ | line _ _ | breakParent | alien _ => rfl

/-- A document with its flags raised is settled. -/
theorem all_isSettled_raise (doc : Doc) : doc.raise.all isSettled = true := by
  induction doc with
  | concat parts ih | fill parts ih =>
      simp only [raise, listRaise_eq_map, all, isSettled, Bool.true_and, listAll_eq_true,
        List.forall_mem_map]
      exact ih
  | group contents shouldBreak ih =>
      simp only [raise, all, isSettled, forces_raise, ih, Bool.and_true]
      cases contents.forces <;> simp
  | indent _ ih | align _ _ ih | root _ ih => simp only [raise, all, isSettled, ih, Bool.and_self]
  | ifBreak _ _ ihBroken ihFlat =>
      simp only [raise, all, isSettled, ihBroken, ihFlat, Bool.and_self]
  | text _ | line _ _ | breakParent | alien _ => rfl

/-! ## Settling -/

/-- Settling a list of documents that can each be settled. -/
theorem settleList_eq {parts : List Doc}
    (h : ∀ part ∈ parts, part.settle = .ok (part.raise, part.forces)) :
    settleList parts = .ok (parts.map raise, listForces parts) := by
  induction parts with
  | nil => rfl
  | cons part parts ih =>
      rw [settleList, h part (by simp), ih fun d hd => h d (by simp [hd])]
      rfl

/-- **Settling raises flags and does nothing else**, on every document without
plain values. -/
theorem settle_eq {doc : Doc} (h : doc.all isProper = true) :
    doc.settle = .ok (doc.raise, doc.forces) := by
  induction doc with
  | concat parts ih | fill parts ih =>
      simp only [all, Bool.and_eq_true, listAll_eq_true] at h
      rw [settle, settleList_eq fun d hd => ih d hd (h.2 d hd), raise, listRaise_eq_map]
      rfl
  | group contents shouldBreak ih =>
      simp only [all, Bool.and_eq_true] at h
      rw [settle, ih h.2]
      rfl
  | indent _ ih | align _ _ ih | root _ ih =>
      simp only [all, Bool.and_eq_true] at h
      rw [settle, ih h.2]
      rfl
  | ifBreak whenBroken whenFlat ihBroken ihFlat =>
      simp only [all, Bool.and_eq_true] at h
      rw [settle, ihBroken h.2.1, ihFlat h.2.2]
      simp [bind, Except.bind, pure, Except.pure, raise, forces, Bool.or_comm]
  | text _ | line _ _ | breakParent => rfl
  | alien value => simp [all, isProper] at h

/-- The parts of a list that is settled are all settled. -/
theorem settle_ok_of_settleList {parts : List Doc} {result : List Doc × Bool}
    (h : settleList parts = .ok result) : ∀ part ∈ parts, ∃ r, part.settle = .ok r := by
  induction parts generalizing result with
  | nil => simp
  | cons part parts ih =>
      rw [settleList] at h
      obtain ⟨r, hpart, h⟩ := Fault.bind_eq_ok.mp h
      obtain ⟨rs, hparts, -⟩ := Fault.bind_eq_ok.mp h
      exact List.forall_mem_cons.mpr ⟨⟨r, hpart⟩, ih hparts⟩

/-- Only documents without plain values can be settled. -/
theorem all_isProper_of_settle {doc : Doc} {result : Doc × Bool} (h : doc.settle = .ok result) :
    doc.all isProper = true := by
  induction doc generalizing result with
  | concat parts ih | fill parts ih =>
      simp only [all, isProper, Bool.true_and, listAll_eq_true]
      rw [settle] at h
      obtain ⟨rs, hparts, -⟩ := Fault.bind_eq_ok.mp h
      intro d hd
      obtain ⟨r, hr⟩ := settle_ok_of_settleList hparts d hd
      exact ih d hd hr
  | group contents _ ih | indent contents ih | align _ contents ih | root contents ih =>
      rw [settle] at h
      obtain ⟨r, hcontents, -⟩ := Fault.bind_eq_ok.mp h
      simp only [all, isProper, ih hcontents, Bool.and_self]
  | ifBreak whenBroken whenFlat ihBroken ihFlat =>
      rw [settle] at h
      obtain ⟨r, hfirst, h⟩ := Fault.bind_eq_ok.mp h
      obtain ⟨s, hsecond, -⟩ := Fault.bind_eq_ok.mp h
      simp only [all, isProper, ihBroken hfirst, ihFlat hsecond, Bool.and_self]
  | text _ | line _ _ | breakParent => rfl
  | alien value => cases h

end HamlFormat.Doc
