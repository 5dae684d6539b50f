import HamlFormat.Proofs.Layout.Content
import HamlFormat.Proofs.Layout.Decision

/-!
# HamlFormat.Proofs.Layout.Outcome

What a layout makes of each document in a document. `Yields` takes a run apart along the
documents: what is written for a command, given the column it is met at and the commands
that follow it, which decide whether a group fits. It covers everything but fills, and every
run is of this kind (`yieldsAll_of_reaches`).
-/

namespace HamlFormat.Layout

open Relation (ReflTransGen)

variable {α : Type} [Columns α]

mutual

/-- What is written for a command in front of others, from one column to another. -/
inductive Yields (page : Page α) : List Command → α → Command → List Piece → α → Prop where
  | text {rest column i mode s} :
    Yields page rest column ⟨i, mode, .text s⟩ [.text s]
      (column + (((Text.width s : Nat) : Int) : α))
  | concat {rest column i mode parts ps after}
    (h : YieldsAll page rest column (parts.map (⟨i, mode, ·⟩)) ps after) :
    Yields page rest column ⟨i, mode, .concat parts⟩ ps after
  | indent {rest column i mode contents ps after}
    (h : Yields page rest column ⟨.level :: i, mode, contents⟩ ps after) :
    Yields page rest column ⟨i, mode, .indent contents⟩ ps after
  | align {rest column i mode columns contents j ps after} (hj : i.align columns = .ok j)
    (h : Yields page rest column ⟨j, mode, contents⟩ ps after) :
    Yields page rest column ⟨i, mode, .align columns contents⟩ ps after
  | root {rest column i mode contents ps after}
    (h : Yields page rest column ⟨[], mode, contents⟩ ps after) :
    Yields page rest column ⟨i, mode, .root contents⟩ ps after
  | forced {rest column i mode contents ps after}
    (h : Yields page rest column ⟨i, .broken, contents⟩ ps after) :
    Yields page rest column ⟨i, mode, .group contents true⟩ ps after
  | inherited {rest column i contents ps after}
    (h : Yields page rest column ⟨i, .flat, contents⟩ ps after) :
    Yields page rest column ⟨i, .flat, .group contents false⟩ ps after
  | fitting {rest column i contents room ps after} (hroom : page.room column = .ok room)
    (hfits : fits false (⟨i, .flat, contents⟩ :: rest) room = .ok true)
    (h : Yields page rest column ⟨i, .flat, contents⟩ ps after) :
    Yields page rest column ⟨i, .broken, .group contents false⟩ ps after
  | tooWide {rest column i contents room ps after} (hroom : page.room column = .ok room)
    (hfits : fits false (⟨i, .flat, contents⟩ :: rest) room = .ok false)
    (h : Yields page rest column ⟨i, .broken, contents⟩ ps after) :
    Yields page rest column ⟨i, .broken, .group contents false⟩ ps after
  | whenBroken {rest column i whenBroken whenFlat ps after}
    (h : Yields page rest column ⟨i, .broken, whenBroken⟩ ps after) :
    Yields page rest column ⟨i, .broken, .ifBreak whenBroken whenFlat⟩ ps after
  | whenFlat {rest column i whenBroken whenFlat ps after}
    (h : Yields page rest column ⟨i, .flat, whenFlat⟩ ps after) :
    Yields page rest column ⟨i, .flat, .ifBreak whenBroken whenFlat⟩ ps after
  | joined {rest column i} :
    Yields page rest column ⟨i, .flat, .line false true⟩ [.unbroken true] column
  | spaced {rest column i} :
    Yields page rest column ⟨i, .flat, .line false false⟩ [.unbroken false]
      (column + ((1 : Int) : α))
  | newline {rest column i mode hard soft} (hbreak : mode = .broken ∨ hard = true) :
    Yields page rest column ⟨i, mode, .line hard soft⟩ [.newline i] (i.columns page)
  | breakParent {rest column i mode} : Yields page rest column ⟨i, mode, .breakParent⟩ [] column

/-- What is written for commands one after another. -/
inductive YieldsAll (page : Page α) : List Command → α → List Command → List Piece → α → Prop where
  | nil {rest column} : YieldsAll page rest column [] [] column
  | cons {rest column command commands ps middle qs after}
    (h : Yields page (commands ++ rest) column command ps middle)
    (hrest : YieldsAll page rest middle commands qs after) :
    YieldsAll page rest column (command :: commands) (ps ++ qs) after

end

namespace YieldsAll

variable {page : Page α} {rest : List Command} {column after : α} {all : List Piece}

/-- The first command may be replaced by one that yields the same. -/
theorem head {command whole : Command} {commands : List Command}
    (h : YieldsAll page rest column (command :: commands) all after)
    (hcommand : ∀ {ps middle}, Yields page (commands ++ rest) column command ps middle →
      Yields page (commands ++ rest) column whole ps middle) :
    YieldsAll page rest column (whole :: commands) all after := by
  cases h with
  | cons hfirst hrest => exact .cons (hcommand hfirst) hrest

theorem of_append {xs ys : List Command} (h : YieldsAll page rest column (xs ++ ys) all after) :
    ∃ front middle back, YieldsAll page (ys ++ rest) column xs front middle ∧
      YieldsAll page rest middle ys back after ∧ all = front ++ back := by
  induction xs generalizing column all with
  | nil => exact ⟨[], column, all, .nil, h, rfl⟩
  | cons command xs ih =>
      rw [List.cons_append] at h
      cases h with
      | cons hfirst hrest =>
          obtain ⟨front, middle, back, hfront, hback, rfl⟩ := ih hrest
          rw [List.append_assoc] at hfirst
          exact ⟨_, middle, back, .cons hfirst hfront, hback, (List.append_assoc _ _ _).symm⟩

end YieldsAll

variable {page : Page α}

/-- What the commands after a step yield, the commands before it yield with the piece that the
step has written. -/
theorem Step.yieldsAll {machine next : Machine α} (h : Step page machine next)
    (hfill : AllDocs Doc.isNoFill machine.pending) {rest : List Piece} {after : α}
    (hrest : YieldsAll page [] next.column next.pending rest after) :
    ∃ added, next.pieces = added.reverse ++ machine.pieces ∧
      YieldsAll page [] machine.column machine.pending (added ++ rest) after := by
  cases h with
  | text => exact ⟨[_], rfl, .cons .text hrest⟩
  | joined => exact ⟨[_], rfl, .cons .joined hrest⟩
  | spaced => exact ⟨[_], rfl, .cons .spaced hrest⟩
  | newline hbreak => exact ⟨[_], rfl, .cons (.newline hbreak) hrest⟩
  | breakParent => exact ⟨[], rfl, .cons .breakParent hrest⟩
  | concat =>
      obtain ⟨front, middle, back, hfront, hback, rfl⟩ := hrest.of_append
      refine ⟨[], rfl, ?_⟩
      rw [List.nil_append]
      exact .cons (.concat hfront) hback
  | fill => cases (allDocs_cons.mp hfill).1
  | align hj => exact ⟨[], rfl, hrest.head (.align hj)⟩
  | indent => exact ⟨[], rfl, hrest.head .indent⟩
  | root => exact ⟨[], rfl, hrest.head .root⟩
  | forced => exact ⟨[], rfl, hrest.head .forced⟩
  | inherited => exact ⟨[], rfl, hrest.head .inherited⟩
  | fitting hroom hfits =>
      exact ⟨[], rfl, hrest.head (.fitting hroom (by rwa [List.append_nil]))⟩
  | tooWide hroom hfits =>
      exact ⟨[], rfl, hrest.head (.tooWide hroom (by rwa [List.append_nil]))⟩
  | whenBroken => exact ⟨[], rfl, hrest.head .whenBroken⟩
  | whenFlat => exact ⟨[], rfl, hrest.head .whenFlat⟩

/-- **A run writes what the commands it starts with yield.** -/
theorem yieldsAll_of_reaches {machine final : Machine α}
    (h : ReflTransGen (Step page) machine final) (hdone : final.pending = [])
    (hfill : AllDocs Doc.isNoFill machine.pending) :
    ∃ added after, final.pieces = added.reverse ++ machine.pieces ∧
      YieldsAll page [] machine.column machine.pending added after := by
  induction h using ReflTransGen.head_induction_on with
  | refl =>
      rw [hdone]
      exact ⟨[], _, rfl, .nil⟩
  | head hstep _ ih =>
      have hnext := hstep.allDocs (p := Doc.isNoFill) (fun _ _ _ h => h) hfill
      obtain ⟨later, after, hlater, hyields⟩ := ih hnext
      obtain ⟨added, hadded, hall⟩ := hstep.yieldsAll hfill hyields
      refine ⟨added ++ later, after, ?_, hall⟩
      rw [hlater, hadded, List.reverse_append, List.append_assoc]

/-- What is written for a document that forces nothing and holds no fill. -/
theorem yields_of_pieces {doc : Doc} (hforces : doc.forces = false)
    (hfill : doc.all Doc.isNoFill = true) {ps : List Piece} (h : pieces page doc = .ok ps) :
    ∃ after, Yields page [] ((0 : Int) : α) ⟨[], .broken, doc⟩ ps after := by
  obtain ⟨final, hreaches, hdone, rfl⟩ := reaches_of_pieces h
  rw [Doc.raise_eq_self hforces] at hreaches
  obtain ⟨added, after, hadded, hyields⟩ := yieldsAll_of_reaches hreaches hdone
    (by simpa [Machine.start] using hfill)
  have hpieces : final.pieces.reverse = added := by
    rw [hadded]
    simp [Machine.start]
  rw [hpieces]
  cases hyields with
  | cons hdoc hnil =>
      cases hnil
      rw [List.append_nil]
      exact ⟨_, hdoc⟩

/-! ## What is written for a document -/

/-- Whether a piece does not end a line. -/
def Piece.isInline : Piece → Bool
  | .newline _ => false
  | _ => true

variable {rest : List Command} {column after : α} {i : Indentation} {mode : Mode}
  {ps : List Piece}

/-- What is flat and forces nothing is written without line ends. -/
theorem Yields.isInline {doc : Doc} (hforces : doc.forces = false)
    (h : Yields page rest column ⟨i, .flat, doc⟩ ps after) : ∀ p ∈ ps, p.isInline = true := by
  induction doc generalizing rest column i ps after with
  | text s =>
      cases h
      exact List.forall_mem_singleton.mpr rfl
  | concat parts ih =>
      rw [Doc.forces, Doc.listForces_eq_false] at hforces
      cases h with
      | concat hparts =>
          induction parts generalizing column ps with
          | nil => cases hparts; simp
          | cons part parts ihParts =>
              rw [List.forall_mem_cons] at hforces ih
              rw [List.map_cons] at hparts
              cases hparts with
              | cons hfirst hrest =>
                  exact List.forall_mem_append.mpr
                    ⟨ih.1 hforces.1 hfirst, ihParts ih.2 hforces.2 hrest⟩
  | group contents shouldBreak ih =>
      simp only [Doc.forces, Bool.or_eq_false_iff] at hforces
      obtain ⟨hcontents, rfl⟩ := hforces
      cases h with
      | inherited h => exact ih hcontents h
  | indent _ ih =>
      cases h with
      | indent h => exact ih hforces h
  | align _ _ ih =>
      cases h with
      | align _ h => exact ih hforces h
  | root _ ih =>
      cases h with
      | root h => exact ih hforces h
  | ifBreak _ _ _ ihFlat =>
      simp only [Doc.forces, Bool.or_eq_false_iff] at hforces
      cases h with
      | whenFlat h => exact ihFlat hforces.2 h
  | line hard soft =>
      have hhard : hard = false := hforces
      subst hhard
      cases h with
      | joined | spaced => exact List.forall_mem_singleton.mpr rfl
      | newline hbreak => simp at hbreak
  | breakParent => cases hforces
  | fill _ _ | alien _ => cases h

/-- What is written for a document is its leaves, for some choice of branches. -/
theorem Yields.prints {doc : Doc} (h : Yields page rest column ⟨i, mode, doc⟩ ps after) :
    ∃ chosen, doc.Resolves chosen ∧ List.Forall₂ Leaf.Prints (leaves i chosen) ps := by
  induction doc generalizing rest column i mode ps after with
  | text s =>
      cases h
      exact ⟨_, .text, .cons .text .nil⟩
  | concat parts ih =>
      cases h with
      | concat hparts =>
          have hall : ∃ chosen, List.Forall₂ Doc.Resolves parts chosen ∧
              List.Forall₂ Leaf.Prints (listLeaves i chosen) ps := by
            induction parts generalizing column ps with
            | nil =>
                cases hparts
                exact ⟨[], .nil, .nil⟩
            | cons part parts ihParts =>
                rw [List.forall_mem_cons] at ih
                rw [List.map_cons] at hparts
                cases hparts with
                | cons hfirst hrest =>
                    obtain ⟨chosen, hchosen, hprints⟩ := ih.1 hfirst
                    obtain ⟨others, hothers, hprintsOthers⟩ := ihParts ih.2 hrest
                    exact ⟨chosen :: others, .cons hchosen hothers,
                      List.rel_append hprints hprintsOthers⟩
          obtain ⟨chosen, hchosen, hprints⟩ := hall
          exact ⟨.concat chosen, .concat hchosen, hprints⟩
  | group contents shouldBreak ih =>
      have hcontents : ∃ inner, Yields page rest column ⟨i, inner, contents⟩ ps after := by
        cases h with
        | forced h | inherited h | fitting _ _ h | tooWide _ _ h => exact ⟨_, h⟩
      obtain ⟨inner, hcontents⟩ := hcontents
      obtain ⟨chosen, hchosen, hprints⟩ := ih hcontents
      exact ⟨.group chosen shouldBreak, .group hchosen, hprints⟩
  | indent _ ih =>
      cases h with
      | indent h =>
          obtain ⟨chosen, hchosen, hprints⟩ := ih h
          exact ⟨.indent chosen, .indent hchosen, hprints⟩
  | align columns _ ih =>
      cases h with
      | align hj h =>
          obtain ⟨chosen, hchosen, hprints⟩ := ih h
          rw [Indentation.align_eq hj] at hprints
          exact ⟨.align columns chosen, .align hchosen, hprints⟩
  | root _ ih =>
      cases h with
      | root h =>
          obtain ⟨chosen, hchosen, hprints⟩ := ih h
          exact ⟨.root chosen, .root hchosen, hprints⟩
  | ifBreak _ _ ihBroken ihFlat =>
      cases h with
      | whenBroken h =>
          obtain ⟨chosen, hchosen, hprints⟩ := ihBroken h
          exact ⟨chosen, .whenBroken hchosen, hprints⟩
      | whenFlat h =>
          obtain ⟨chosen, hchosen, hprints⟩ := ihFlat h
          exact ⟨chosen, .whenFlat hchosen, hprints⟩
  | line hard soft =>
      refine ⟨_, .line, ?_⟩
      cases h with
      | joined => exact .cons .nothing .nil
      | spaced => exact .cons .space .nil
      | newline _ => exact .cons .newline .nil
  | breakParent =>
      cases h
      exact ⟨_, .breakParent, .nil⟩
  | fill _ _ | alien _ => cases h

theorem Yields.of_concat {parts : List Doc}
    (h : Yields page rest column ⟨i, mode, .concat parts⟩ ps after) :
    YieldsAll page rest column (parts.map (⟨i, mode, ·⟩)) ps after := by
  cases h with
  | concat h => exact h

theorem Yields.of_indent {contents : Doc}
    (h : Yields page rest column ⟨i, mode, .indent contents⟩ ps after) :
    Yields page rest column ⟨.level :: i, mode, contents⟩ ps after := by
  cases h with
  | indent h => exact h

/-- A line break in a mode. -/
def lineBreak (mode : Mode) (soft : Bool) (i : Indentation) : Piece :=
  match mode with
  | .flat => .unbroken soft
  | .broken => .newline i

/-- A line break is written as its mode says, and starts a line if that is broken. -/
theorem Yields.line_eq {soft : Bool}
    (h : Yields page rest column ⟨i, mode, .line false soft⟩ ps after) :
    ps = [lineBreak mode soft i] ∧ (mode = .broken → after = i.columns page) := by
  cases h with
  | joined | spaced => exact ⟨rfl, fun hmode => by cases hmode⟩
  | newline hbreak =>
      obtain rfl | hhard := hbreak
      · exact ⟨rfl, fun _ => rfl⟩
      · cases hhard

/-- A group is written as its contents in one mode, which is flat in something flat. -/
theorem Yields.exists_of_group {contents : Doc}
    (h : Yields page rest column ⟨i, mode, .group contents false⟩ ps after) :
    ∃ inner, (mode = .flat → inner = .flat) ∧
      Yields page rest column ⟨i, inner, contents⟩ ps after := by
  cases h with
  | inherited h => exact ⟨.flat, fun _ => rfl, h⟩
  | fitting _ _ h => exact ⟨.flat, fun _ => rfl, h⟩
  | tooWide _ _ h => exact ⟨.broken, fun hmode => hmode, h⟩

/-- A broken group in front of a line end is broken again if its flat form is too wide for the
rest of the line, and only then. -/
theorem Yields.exists_of_group_broken {page : Page Int} {column after w : Int} {contents : Doc}
    (hwidth : page.width = .ok w) (hproper : contents.all Doc.isProper = true)
    (hforces : contents.forces = false)
    (hrest : ∀ room : Int, fits false rest room = .ok (decide (0 ≤ room)))
    (h : Yields page rest column ⟨i, .broken, .group contents false⟩ ps after) :
    ∃ inner, (inner = .broken ↔ w < column + contents.flatWidth) ∧
      Yields page rest column ⟨i, inner, contents⟩ ps after := by
  have hdecided : ∀ {room : Int} {answer : Bool}, page.room column = .ok room →
      fits false (⟨i, .flat, contents⟩ :: rest) room = .ok answer →
      (answer = false ↔ w < column + contents.flatWidth) := by
    intro room answer hroom hfits
    have hrow : page.room column = .ok (w - column) := by
      rw [Page.room, hwidth]
      rfl
    rw [hrow] at hroom
    cases hroom
    have hflat : fits false (⟨i, .flat, contents⟩ :: rest) (w - column) =
        fits false rest (w - column - contents.flatWidth) := fits_flat hproper hforces
    rw [hflat, hrest] at hfits
    cases hfits
    rw [decide_eq_false_iff_not]
    omega
  cases h with
  | fitting hroom hfits h =>
      refine ⟨.flat, ?_, h⟩
      have hiff := hdecided hroom hfits
      simpa using hiff
  | tooWide hroom hfits h =>
      refine ⟨.broken, ?_, h⟩
      have hiff := hdecided hroom hfits
      simpa using hiff

end HamlFormat.Layout
