import HamlFormat.Proofs.Doc.Shape

/-!
# HamlFormat.Proofs.Doc.Sharing

Settling documents that share parts. One document may stand in several places, and a pass
that keeps what it found out about each document by the name of the document visits it
only once. Here every document but a text has a name (`Labelled`); one that stands in
several places has the same name in all of them, so a store gives the document of each name
(`Labelled.IsStored`).

The pass keeps a memo of results and the names of the groups that must break
(`Labelled.visit`). A group is then laid out as one that must break if its own flag says so
or its name is among these (`Labelled.resolve`). This comes to the same as settling the
document with every part in its place, failures included (`Labelled.related_visit_settle`).
-/

namespace HamlFormat

/-- A document in which every part but a text has a name. -/
inductive Labelled where
  | text (s : Text)
  | concat (name : Nat) (parts : List Labelled)
  | group (name : Nat) (contents : Labelled) (shouldBreak : Bool)
  | indent (name : Nat) (contents : Labelled)
  | align (name : Nat) (columns : Int) (contents : Labelled)
  | fill (name : Nat) (parts : List Labelled)
  | ifBreak (name : Nat) (whenBroken whenFlat : Labelled)
  | line (name : Nat) (hard soft : Bool)
  | breakParent (name : Nat)
  | root (name : Nat) (contents : Labelled)
  | alien (value : Json)

namespace Labelled

/-- The name of a document. A plain value needs none: nothing is kept of it. -/
def name? : Labelled → Option Nat
  | .text _ | .alien _ => none
  | .concat name _ | .group name _ _ | .indent name _ | .align name _ _ | .fill name _
  | .ifBreak name _ _ | .line name _ _ | .breakParent name | .root name _ => some name

mutual

/-- The document without its names, and with the flags raised of the groups whose names are
among some. -/
def resolve (broken : List Nat) : Labelled → Doc
  | .text s => .text s
  | .concat _ parts => .concat (listResolve broken parts)
  | .group name contents shouldBreak =>
    .group (resolve broken contents) (shouldBreak || broken.contains name)
  | .indent _ contents => .indent (resolve broken contents)
  | .align _ columns contents => .align columns (resolve broken contents)
  | .fill _ parts => .fill (listResolve broken parts)
  | .ifBreak _ whenBroken whenFlat =>
    .ifBreak (resolve broken whenBroken) (resolve broken whenFlat)
  | .line _ hard soft => .line hard soft
  | .breakParent _ => .breakParent
  | .root _ contents => .root (resolve broken contents)
  | .alien value => .alien value

/-- Several documents without their names. -/
def listResolve (broken : List Nat) : List Labelled → List Doc
  | [] => []
  | part :: parts => resolve broken part :: listResolve broken parts

end

/-- The document without its names. -/
def erase (doc : Labelled) : Doc :=
  doc.resolve []

/-! ## The pass -/

/-- What a pass has found out: results by name, and the names of groups that must break. -/
structure Memo where
  results : List (Nat × Bool) := []
  broken : List Nat := []

/-- Look a name up, or find out what it stands for and keep that. -/
def Memo.remember (name : Nat) (find : Memo → Except Fault (Bool × Memo)) (memo : Memo) :
    Except Fault (Bool × Memo) :=
  match memo.results.lookup name with
  | some result => .ok (result, memo)
  | none => do
    let (result, memo) ← find memo
    return (result, { memo with results := (name, result) :: memo.results })

/-- A group has been found to break or not. -/
def Memo.mark (memo : Memo) (name : Nat) (breaks : Bool) : Memo :=
  if breaks then { memo with broken := name :: memo.broken } else memo

mutual

/-- Whether a document forces the groups around it to break; each document is visited once. -/
def visit : Labelled → Memo → Except Fault (Bool × Memo)
  | .text _ => fun memo => .ok (false, memo)
  | .concat name parts | .fill name parts => Memo.remember name (visitList parts)
  | .group name contents shouldBreak => Memo.remember name fun memo => do
    let (forces, memo) ← visit contents memo
    return (forces || shouldBreak, memo.mark name (forces || shouldBreak))
  | .indent name contents | .align name _ contents | .root name contents =>
    Memo.remember name (visit contents)
  | .ifBreak name whenBroken whenFlat => Memo.remember name fun memo => do
    let (forces, memo) ← visit whenBroken memo
    let (alsoForces, memo) ← visit whenFlat memo
    return (alsoForces || forces, memo)
  | .line name hard _ => Memo.remember name fun memo => .ok (hard, memo)
  | .breakParent name => Memo.remember name fun memo => .ok (true, memo)
  | .alien value => fun _ => .error (.unexpectedDoc value)

/-- Whether one of several documents forces the groups around it to break. -/
def visitList : List Labelled → Memo → Except Fault (Bool × Memo)
  | [], memo => .ok (false, memo)
  | part :: parts, memo => do
    let (forces, memo) ← visit part memo
    let (alsoForce, memo) ← visitList parts memo
    return (alsoForce || forces, memo)

end

/-! ## Names that name one document -/

mutual

/-- Whether `p` holds of a document and of every document inside it. -/
def All (p : Labelled → Prop) : Labelled → Prop
  | .text s => p (.text s)
  | .concat name parts => p (.concat name parts) ∧ ListAll p parts
  | .group name contents shouldBreak => p (.group name contents shouldBreak) ∧ All p contents
  | .indent name contents => p (.indent name contents) ∧ All p contents
  | .align name columns contents => p (.align name columns contents) ∧ All p contents
  | .fill name parts => p (.fill name parts) ∧ ListAll p parts
  | .ifBreak name whenBroken whenFlat =>
    p (.ifBreak name whenBroken whenFlat) ∧ All p whenBroken ∧ All p whenFlat
  | .line name hard soft => p (.line name hard soft)
  | .breakParent name => p (.breakParent name)
  | .root name contents => p (.root name contents) ∧ All p contents
  | .alien value => p (.alien value)

/-- Whether `p` holds of every document inside the documents of a list. -/
def ListAll (p : Labelled → Prop) : List Labelled → Prop
  | [] => True
  | part :: parts => All p part ∧ ListAll p parts

end

mutual

/-- A weaker property holds of every document inside as well. -/
theorem All.mono {p q : Labelled → Prop} (hpq : ∀ doc, p doc → q doc) :
    ∀ doc : Labelled, doc.All p → doc.All q
  | .text _, h | .line _ _ _, h | .breakParent _, h | .alien _, h => hpq _ h
  | .concat _ parts, h | .fill _ parts, h => ⟨hpq _ h.1, ListAll.mono hpq parts h.2⟩
  | .group _ contents _, h | .indent _ contents, h | .align _ _ contents, h
  | .root _ contents, h => ⟨hpq _ h.1, All.mono hpq contents h.2⟩
  | .ifBreak _ whenBroken whenFlat, h =>
      ⟨hpq _ h.1, All.mono hpq whenBroken h.2.1, All.mono hpq whenFlat h.2.2⟩

theorem ListAll.mono {p q : Labelled → Prop} (hpq : ∀ doc, p doc → q doc) :
    ∀ parts : List Labelled, ListAll p parts → ListAll q parts
  | [], _ => trivial
  | part :: parts, h => ⟨All.mono hpq part h.1, ListAll.mono hpq parts h.2⟩

end

/-- Whether a document is what a store has under its name. -/
def IsAt (store : Nat → Labelled) (doc : Labelled) : Prop :=
  ∀ name, doc.name? = some name → store name = doc

/-- Whether the name of a document is among some if it is a group that must break. -/
def IsMarked (broken : List Nat) : Labelled → Prop
  | .group name contents shouldBreak =>
    (contents.erase.forces || shouldBreak) = true → name ∈ broken
  | _ => True

/-- What a pass may rely on: the names of groups are those of groups that must break, and a
result is kept only of a document that was visited to its end. -/
structure Memo.IsSound (memo : Memo) (store : Nat → Labelled) : Prop where
  forces_of_mem : ∀ name ∈ memo.broken, (store name).erase.forces = true
  of_lookup : ∀ name result, memo.results.lookup name = some result →
    (store name).erase.all Doc.isProper = true ∧ result = (store name).erase.forces ∧
      (store name).All (IsMarked memo.broken)

/-- What a visit comes to. -/
structure Visited (store : Nat → Labelled) (before : Memo) (doc : Labelled)
    (outcome : Bool × Memo) : Prop where
  result_eq : outcome.1 = doc.erase.forces
  sound : outcome.2.IsSound store
  grows : before.broken ⊆ outcome.2.broken
  marked : doc.All (IsMarked outcome.2.broken)

variable {store : Nat → Labelled} {memo : Memo} {doc : Labelled}

theorem IsMarked.mono {broken more : List Nat} (hsub : broken ⊆ more) (h : doc.IsMarked broken) :
    doc.IsMarked more := by
  cases doc with
  | group name contents shouldBreak => exact fun hforces => hsub (h hforces)
  | _ => trivial

/-- More names of groups that must break do no harm. -/
theorem Memo.IsSound.mark (h : memo.IsSound store) {name : Nat} {breaks : Bool}
    (hname : breaks = true → (store name).erase.forces = true) :
    (memo.mark name breaks).IsSound store ∧ memo.broken ⊆ (memo.mark name breaks).broken := by
  cases breaks with
  | false => exact ⟨h, fun _ hn => hn⟩
  | true =>
      have hsub : memo.broken ⊆ name :: memo.broken := List.subset_cons_self _ _
      refine ⟨⟨?_, fun other result hlookup => ?_⟩, hsub⟩
      · exact List.forall_mem_cons.mpr ⟨hname rfl, h.forces_of_mem⟩
      · obtain ⟨hproper, hresult, hmarked⟩ := h.of_lookup other result hlookup
        exact ⟨hproper, hresult, All.mono (fun _ => IsMarked.mono hsub) _ hmarked⟩

/-- One more result may be kept of a document that was visited to its end. -/
theorem Visited.keep {before after : Memo} {name : Nat} {result : Bool} (hat : store name = doc)
    (hproper : doc.erase.all Doc.isProper = true) (h : Visited store before doc (result, after)) :
    Visited store before doc
      (result, { after with results := (name, result) :: after.results }) := by
  refine ⟨h.result_eq, ⟨h.sound.forces_of_mem, fun other found hlookup => ?_⟩, h.grows, h.marked⟩
  rw [List.lookup_cons] at hlookup
  split at hlookup
  · next hname =>
      rw [beq_iff_eq] at hname
      cases hlookup
      rw [hname, hat]
      exact ⟨hproper, h.result_eq, h.marked⟩
  · exact h.sound.of_lookup other found hlookup

/-- A visit may be looked up: what was kept is what it comes to. -/
theorem related_remember {name : Nat} {find : Memo → Except Fault (Bool × Memo)}
    (hat : store name = doc) (hsound : memo.IsSound store)
    (h : Fault.Related (fun outcome _ => Visited store memo doc outcome) (find memo)
      doc.erase.settle) :
    Fault.Related (fun outcome _ => Visited store memo doc outcome) (memo.remember name find)
      doc.erase.settle := by
  rw [Memo.remember]
  cases hlookup : memo.results.lookup name with
  | some result =>
      obtain ⟨hproper, hresult, hmarked⟩ := hsound.of_lookup name result hlookup
      rw [hat] at hproper hresult hmarked
      rw [Doc.settle_eq hproper]
      exact .ok ⟨hresult, hsound, List.Subset.refl _, hmarked⟩
  | none =>
      generalize hsettle : doc.erase.settle = settled at h
      generalize find memo = found at h
      cases h with
      | error fault => exact .error fault
      | ok hvisited => exact .ok (hvisited.keep hat (Doc.all_isProper_of_settle hsettle))

/-- What visiting several documents comes to. -/
structure ListVisited (store : Nat → Labelled) (before : Memo) (parts : List Labelled)
    (outcome : Bool × Memo) : Prop where
  result_eq : outcome.1 = Doc.listForces (listResolve [] parts)
  sound : outcome.2.IsSound store
  grows : before.broken ⊆ outcome.2.broken
  marked : ListAll (IsMarked outcome.2.broken) parts

mutual

/-- **A visit finds out what settling does**, and fails as it does. -/
theorem related_visit : ∀ (doc : Labelled) (memo : Memo), doc.All (IsAt store) →
    memo.IsSound store → Fault.Related (fun outcome _ => Visited store memo doc outcome)
      (doc.visit memo) doc.erase.settle
  | .text _, _, _, hsound => .ok ⟨rfl, hsound, List.Subset.refl _, trivial⟩
  | .concat name parts, memo, hat, hsound | .fill name parts, memo, hat, hsound => by
      refine related_remember (hat.1 name rfl) hsound ?_
      refine (related_visitList parts memo hat.2 hsound).bind_ok fun outcome _ h => ?_
      exact ⟨h.result_eq, h.sound, h.grows, trivial, h.marked⟩
  | .indent name contents, memo, hat, hsound | .align name _ contents, memo, hat, hsound
  | .root name contents, memo, hat, hsound => by
      refine related_remember (hat.1 name rfl) hsound ?_
      refine (related_visit contents memo hat.2 hsound).bind_ok fun outcome _ h => ?_
      exact ⟨h.result_eq, h.sound, h.grows, trivial, h.marked⟩
  | .group name contents shouldBreak, memo, hat, hsound => by
      have hname := hat.1 name rfl
      refine related_remember hname hsound ?_
      refine (related_visit contents memo hat.2 hsound).bind ?_
      rintro ⟨forces, after⟩ settled h
      obtain rfl : forces = contents.erase.forces := h.result_eq
      have hself : (store name).erase.forces = (contents.erase.forces || shouldBreak) := by
        simp [hname, erase, resolve, Doc.forces]
      obtain ⟨hmark, hsub⟩ := h.sound.mark (fun hbreaks => hself.trans hbreaks)
      refine .ok ⟨hname ▸ hself.symm, hmark, List.Subset.trans h.grows hsub, fun hbreaks => ?_, ?_⟩
      · simp [Memo.mark, hbreaks]
      · exact All.mono (fun _ => IsMarked.mono hsub) contents h.marked
  | .ifBreak name whenBroken whenFlat, memo, hat, hsound => by
      refine related_remember (hat.1 name rfl) hsound ?_
      refine (related_visit whenBroken memo hat.2.1 hsound).bind ?_
      rintro ⟨forces, middle⟩ settled h
      refine (related_visit whenFlat middle hat.2.2 h.sound).bind ?_
      rintro ⟨alsoForces, after⟩ settled' h'
      have hmarked := All.mono (fun _ => IsMarked.mono h'.grows) whenBroken h.marked
      refine .ok ⟨?_, h'.sound, List.Subset.trans h.grows h'.grows, trivial, hmarked, h'.marked⟩
      exact (congrArg₂ _ h'.result_eq h.result_eq).trans (Bool.or_comm _ _)
  | .line name hard soft, memo, hat, hsound => by
      refine related_remember (hat name rfl) hsound (.ok ?_)
      exact ⟨rfl, hsound, List.Subset.refl _, trivial⟩
  | .breakParent name, memo, hat, hsound => by
      refine related_remember (hat name rfl) hsound (.ok ?_)
      exact ⟨rfl, hsound, List.Subset.refl _, trivial⟩
  | .alien _, _, _, _ => .error _

theorem related_visitList : ∀ (parts : List Labelled) (memo : Memo), ListAll (IsAt store) parts →
    memo.IsSound store → Fault.Related (fun outcome _ => ListVisited store memo parts outcome)
      (visitList parts memo) (Doc.settleList (listResolve [] parts))
  | [], _, _, hsound => .ok ⟨rfl, hsound, List.Subset.refl _, trivial⟩
  | part :: parts, memo, hat, hsound => by
      refine (related_visit part memo hat.1 hsound).bind ?_
      rintro ⟨forces, middle⟩ settled h
      refine (related_visitList parts middle hat.2 h.sound).bind ?_
      rintro ⟨alsoForce, after⟩ settled' h'
      have hmarked := All.mono (fun _ => IsMarked.mono h'.grows) part h.marked
      refine .ok ⟨?_, h'.sound, List.Subset.trans h.grows h'.grows, hmarked, h'.marked⟩
      exact (congrArg₂ _ h'.result_eq h.result_eq).trans (Bool.or_comm _ _)

end

mutual

/-- If the groups that must break are marked and no others are, the flags that a document is
laid out with are those that settling raises. -/
theorem resolve_eq_raise {broken : List Nat} (hforces : ∀ name ∈ broken,
    (store name).erase.forces = true) : ∀ doc : Labelled, doc.All (IsAt store) →
      doc.All (IsMarked broken) → doc.resolve broken = doc.erase.raise
  | .text _, _, _ | .line _ _ _, _, _ | .breakParent _, _, _ | .alien _, _, _ => rfl
  | .concat _ parts, hat, hmarked =>
      congrArg Doc.concat (listResolve_eq_listRaise hforces parts hat.2 hmarked.2)
  | .fill _ parts, hat, hmarked =>
      congrArg Doc.fill (listResolve_eq_listRaise hforces parts hat.2 hmarked.2)
  | .indent _ contents, hat, hmarked =>
      congrArg Doc.indent (resolve_eq_raise hforces contents hat.2 hmarked.2)
  | .align _ columns contents, hat, hmarked =>
      congrArg (Doc.align columns) (resolve_eq_raise hforces contents hat.2 hmarked.2)
  | .root _ contents, hat, hmarked =>
      congrArg Doc.root (resolve_eq_raise hforces contents hat.2 hmarked.2)
  | .ifBreak _ whenBroken whenFlat, hat, hmarked =>
      congrArg₂ Doc.ifBreak (resolve_eq_raise hforces whenBroken hat.2.1 hmarked.2.1)
        (resolve_eq_raise hforces whenFlat hat.2.2 hmarked.2.2)
  | .group name contents shouldBreak, hat, hmarked => by
      refine congrArg₂ Doc.group (resolve_eq_raise hforces contents hat.2 hmarked.2) ?_
      have hself := hforces name
      rw [hat.1 name rfl] at hself
      have hother := hmarked.1
      simp only [IsMarked, erase, resolve, Doc.forces, List.contains_nil, Bool.or_false,
        Bool.or_eq_true] at hself hother ⊢
      rw [Bool.eq_iff_iff, Bool.or_eq_true, Bool.or_eq_true, List.contains_iff_mem]
      tauto

theorem listResolve_eq_listRaise {broken : List Nat} (hforces : ∀ name ∈ broken,
    (store name).erase.forces = true) : ∀ parts : List Labelled, ListAll (IsAt store) parts →
      ListAll (IsMarked broken) parts →
        listResolve broken parts = Doc.listRaise (listResolve [] parts)
  | [], _, _ => rfl
  | part :: parts, hat, hmarked =>
      congrArg₂ List.cons (resolve_eq_raise hforces part hat.1 hmarked.1)
        (listResolve_eq_listRaise hforces parts hat.2 hmarked.2)

end

/-! ## Settling by names -/

/-- **Settling a document whose parts are shared needs one visit of each part.** If a name
always stands for the same document, the pass fails as settling fails; else it finds out
whether the document forces the groups around it, and the document laid out with the names it
found is the settled one. -/
theorem related_visit_settle (doc : Labelled) (h : doc.All (IsAt store)) :
    Fault.Related (fun outcome settled =>
        outcome.1 = settled.2 ∧ doc.resolve outcome.2.broken = settled.1)
      (doc.visit {}) doc.erase.settle := by
  have hempty : ({} : Memo).IsSound store := ⟨by simp, by simp⟩
  have hvisit := related_visit doc {} h hempty
  generalize hsettle : doc.erase.settle = settled at hvisit
  generalize doc.visit {} = found at hvisit
  cases hvisit with
  | error fault => exact .error fault
  | ok hvisited =>
      rw [Doc.settle_eq (Doc.all_isProper_of_settle hsettle)] at hsettle
      cases hsettle
      exact .ok ⟨hvisited.result_eq,
        resolve_eq_raise hvisited.sound.forces_of_mem doc h hvisited.marked⟩

/-- Which groups of a document must break can be read off the names found. -/
theorem forcedGroups_erase (doc : Labelled) (h : doc.All (IsAt store)) :
    doc.erase.forcedGroups = (doc.visit {}).map fun outcome =>
      (doc.resolve outcome.2.broken).groupFlags := by
  have hvisit := related_visit_settle doc h
  rw [Doc.forcedGroups]
  generalize doc.erase.settle = settled at hvisit
  generalize doc.visit {} = found at hvisit
  cases hvisit with
  | error fault => rfl
  | ok hfound =>
      rw [Fault.ok_bind, Except.map, hfound.2]
      rfl

/-- A group that stands in two places is found once. -/
example :
    let shared : Labelled := .group 1 (.line 2 true false) false
    let doc : Labelled := .concat 0 [.group 3 (.text "a") false, shared, .indent 4 shared]
    (doc.visit {}).map (fun outcome => outcome.2.broken) = .ok [1] ∧
      doc.erase.forcedGroups = .ok [false, true, true] := by
  exact ⟨rfl, rfl⟩

end Labelled

end HamlFormat
