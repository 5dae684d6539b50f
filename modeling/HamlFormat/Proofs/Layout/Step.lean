import HamlFormat.Layout.Render
import HamlFormat.Proofs.Doc.Shape
import Mathlib.Logic.Relation

/-!
# HamlFormat.Proofs.Layout.Step

The layout machine as a step relation. `Step` lists everything that one step can
do, guards included, and a run that succeeds is a sequence of steps to a machine
with nothing left to do (`reaches_of_run`). What holds of the machine at the start
and is kept by every step therefore holds of every machine on the way.
-/

namespace HamlFormat.Layout

open Relation (ReflTransGen)

variable {α : Type} [Columns α] {page : Page α}

/-- What a step of the layout machine does, by the document of its next command. -/
inductive Step (page : Page α) : Machine α → Machine α → Prop where
  | text {column written i mode s rest} :
    Step page ⟨column, written, ⟨i, mode, .text s⟩ :: rest⟩
      ⟨column + (((Text.width s : Nat) : Int) : α), .text s :: written, rest⟩
  | concat {column written i mode parts rest} :
    Step page ⟨column, written, ⟨i, mode, .concat parts⟩ :: rest⟩
      ⟨column, written, parts.map (⟨i, mode, ·⟩) ++ rest⟩
  | indent {column written i mode contents rest level} (hlevel : page.level = .ok level) :
    Step page ⟨column, written, ⟨i, mode, .indent contents⟩ :: rest⟩
      ⟨column, written, ⟨.level :: i, mode, contents⟩ :: rest⟩
  | align {column written i mode columns contents rest j} (hj : i.align columns = .ok j) :
    Step page ⟨column, written, ⟨i, mode, .align columns contents⟩ :: rest⟩
      ⟨column, written, ⟨j, mode, contents⟩ :: rest⟩
  | root {column written i mode contents rest} :
    Step page ⟨column, written, ⟨i, mode, .root contents⟩ :: rest⟩
      ⟨column, written, ⟨[], mode, contents⟩ :: rest⟩
  /-- A group that is told to break. -/
  | forced {column written i mode contents rest} :
    Step page ⟨column, written, ⟨i, mode, .group contents true⟩ :: rest⟩
      ⟨column, written, ⟨i, .broken, contents⟩ :: rest⟩
  /-- A group inside a flat one. -/
  | inherited {column written i contents rest} :
    Step page ⟨column, written, ⟨i, .flat, .group contents false⟩ :: rest⟩
      ⟨column, written, ⟨i, .flat, contents⟩ :: rest⟩
  | fitting {column written i contents rest room} (hroom : page.room column = .ok room)
    (hfits : fits false (⟨i, .flat, contents⟩ :: rest) room = .ok true) :
    Step page ⟨column, written, ⟨i, .broken, .group contents false⟩ :: rest⟩
      ⟨column, written, ⟨i, .flat, contents⟩ :: rest⟩
  | tooWide {column written i contents rest room} (hroom : page.room column = .ok room)
    (hfits : fits false (⟨i, .flat, contents⟩ :: rest) room = .ok false) :
    Step page ⟨column, written, ⟨i, .broken, .group contents false⟩ :: rest⟩
      ⟨column, written, ⟨i, .broken, contents⟩ :: rest⟩
  | fill {column written i mode parts rest room commands} (hroom : page.room column = .ok room)
    (hfill : fillCommands i mode parts room = .ok commands) :
    Step page ⟨column, written, ⟨i, mode, .fill parts⟩ :: rest⟩
      ⟨column, written, commands ++ rest⟩
  | whenBroken {column written i whenBroken whenFlat rest} :
    Step page ⟨column, written, ⟨i, .broken, .ifBreak whenBroken whenFlat⟩ :: rest⟩
      ⟨column, written, ⟨i, .broken, whenBroken⟩ :: rest⟩
  | whenFlat {column written i whenBroken whenFlat rest} :
    Step page ⟨column, written, ⟨i, .flat, .ifBreak whenBroken whenFlat⟩ :: rest⟩
      ⟨column, written, ⟨i, .flat, whenFlat⟩ :: rest⟩
  /-- A soft line break that does not end the line. -/
  | joined {column written i rest} :
    Step page ⟨column, written, ⟨i, .flat, .line false true⟩ :: rest⟩
      ⟨column, .unbroken true :: written, rest⟩
  /-- A plain line break that does not end the line. -/
  | spaced {column written i rest} :
    Step page ⟨column, written, ⟨i, .flat, .line false false⟩ :: rest⟩
      ⟨column + ((1 : Int) : α), .unbroken false :: written, rest⟩
  | newline {column written i mode hard soft rest} (hbreak : mode = .broken ∨ hard = true) :
    Step page ⟨column, written, ⟨i, mode, .line hard soft⟩ :: rest⟩
      ⟨i.columns page, .newline i :: written, rest⟩
  | breakParent {column written i mode rest} :
    Step page ⟨column, written, ⟨i, mode, .breakParent⟩ :: rest⟩ ⟨column, written, rest⟩

/-- Doing a command is a step. -/
theorem step_of_perform {column : α} {written : List Piece} {command : Command}
    {rest : List Command} {next : Machine α}
    (h : perform page column written command rest = .ok next) :
    Step page ⟨column, written, command :: rest⟩ next := by
  obtain ⟨i, mode, doc⟩ := command
  cases doc with
  | text s => cases h; exact .text
  | concat parts => cases h; exact .concat
  | root contents => cases h; exact .root
  | breakParent => cases h; exact .breakParent
  | alien value => cases h
  | indent contents =>
      cases hlevel : page.level with
      | error fault => simp only [perform, hlevel] at h; cases h
      | ok level => simp only [perform, hlevel] at h; cases h; exact .indent hlevel
  | align columns contents =>
      rw [perform] at h
      obtain ⟨j, hj, h⟩ := Fault.bind_eq_ok.mp h
      cases h
      exact .align hj
  | group contents shouldBreak =>
      cases shouldBreak with
      | true => cases h; exact .forced
      | false =>
          cases mode with
          | flat => cases h; exact .inherited
          | broken =>
              rw [perform] at h
              obtain ⟨room, hroom, h⟩ := Fault.bind_eq_ok.mp h
              obtain ⟨answer, hfits, h⟩ := Fault.bind_eq_ok.mp h
              cases answer with
              | true => cases h; exact .fitting hroom hfits
              | false => cases h; exact .tooWide hroom hfits
  | fill parts =>
      rw [perform] at h
      obtain ⟨room, hroom, h⟩ := Fault.bind_eq_ok.mp h
      obtain ⟨commands, hfill, h⟩ := Fault.bind_eq_ok.mp h
      cases h
      exact .fill hroom hfill
  | ifBreak whenBroken whenFlat =>
      cases mode with
      | broken => cases h; exact .whenBroken
      | flat => cases h; exact .whenFlat
  | line hard soft =>
      cases mode with
      | broken => cases h; exact .newline (.inl rfl)
      | flat =>
          cases hard with
          | true => cases h; exact .newline (.inr rfl)
          | false =>
              cases soft with
              | true => cases h; exact .joined
              | false => cases h; exact .spaced

/-- The commands for a fill take its parts in order: the first two in modes of their
own, and the rest as a shorter fill. -/
theorem fillCommands_cases {i : Indentation} {mode : Mode} {parts : List Doc} {room : α}
    {commands : List Command} (h : fillCommands i mode parts room = .ok commands) :
    (parts = [] ∧ commands = []) ∨
    (∃ content m, parts = [content] ∧ commands = [⟨i, m, content⟩]) ∨
    (∃ content separator m, parts = [content, separator] ∧
      commands = [⟨i, m, content⟩, ⟨i, m, separator⟩]) ∨
    (∃ content separator next rest m n, parts = content :: separator :: next :: rest ∧
      commands = [⟨i, m, content⟩, ⟨i, n, separator⟩, ⟨i, mode, .fill (next :: rest)⟩]) := by
  unfold fillCommands at h
  split at h
  · cases h
    exact .inl ⟨rfl, rfl⟩
  · next content =>
      obtain ⟨fitting, -, h⟩ := Fault.bind_eq_ok.mp h
      cases h
      exact .inr (.inl ⟨content, _, rfl, rfl⟩)
  · next content separator =>
      obtain ⟨fitting, -, h⟩ := Fault.bind_eq_ok.mp h
      cases h
      exact .inr (.inr (.inl ⟨content, separator, _, rfl, rfl⟩))
  · next content separator next rest =>
      obtain ⟨fitting, -, h⟩ := Fault.bind_eq_ok.mp h
      obtain ⟨bothFitting, -, h⟩ := Fault.bind_eq_ok.mp h
      cases h
      exact .inr (.inr (.inr ⟨content, separator, next, rest, _, _, rfl, rfl⟩))

/-- **A run is a sequence of steps** that ends with nothing left to do. -/
theorem reaches_of_run {machine final : Machine α} (h : machine.run page = .ok final) :
    ReflTransGen (Step page) machine final ∧ final.pending = [] := by
  fun_induction Machine.run page machine with
  | case1 machine hdone =>
      cases h
      exact ⟨.refl, hdone⟩
  | case2 machine _ fault hstep => cases h
  | case3 machine hwork next hstep ih =>
      obtain ⟨hreaches, hdone⟩ := ih h
      refine ⟨.head ?_ hreaches, hdone⟩
      obtain ⟨column, written, pending⟩ := machine
      cases pending with
      | nil => exact absurd rfl hwork
      | cons command rest => exact step_of_perform hstep

/-- A layout that succeeds is a run of the machine on the document with its flags
raised. -/
theorem reaches_of_pieces {doc : Doc} {ps : List Piece} (h : pieces page doc = .ok ps) :
    ∃ final, ReflTransGen (Step page) (Machine.start doc.raise) final ∧
      final.pending = [] ∧ ps = final.pieces.reverse := by
  rw [pieces] at h
  obtain ⟨settled, hsettle, h⟩ := Fault.bind_eq_ok.mp h
  obtain ⟨final, hrun, h⟩ := Fault.bind_eq_ok.mp h
  cases h
  rw [Doc.settle_eq (Doc.all_isProper_of_settle hsettle)] at hsettle
  cases hsettle
  obtain ⟨hreaches, hdone⟩ := reaches_of_run hrun
  exact ⟨final, hreaches, hdone, rfl⟩

/-! ## Properties of the documents still to lay out -/

/-- Whether `p` holds of every document in a list of commands. -/
def AllDocs (p : Doc → Bool) (commands : List Command) : Prop :=
  ∀ command ∈ commands, command.doc.all p = true

@[simp] theorem allDocs_cons {p : Doc → Bool} {command : Command} {commands : List Command} :
    AllDocs p (command :: commands) ↔ command.doc.all p = true ∧ AllDocs p commands :=
  List.forall_mem_cons

@[simp] theorem allDocs_append {p : Doc → Bool} {xs ys : List Command} :
    AllDocs p (xs ++ ys) ↔ AllDocs p xs ∧ AllDocs p ys :=
  List.forall_mem_append

@[simp] theorem allDocs_nil {p : Doc → Bool} : AllDocs p [] := by
  intro command h
  cases h

/-- The commands for a fill hold documents of the fill only, or the rest of it. -/
theorem allDocs_fillCommands {p : Doc → Bool}
    (hp : ∀ content separator parts, p (.fill (content :: separator :: parts)) = true →
      p (.fill parts) = true)
    {i : Indentation} {mode : Mode} {parts : List Doc} {room : α} {commands : List Command}
    (h : fillCommands i mode parts room = .ok commands)
    (hall : (Doc.fill parts).all p = true) : AllDocs p commands := by
  rw [Doc.all, Bool.and_eq_true] at hall
  obtain ⟨hhead, hparts⟩ := hall
  obtain ⟨rfl, rfl⟩ | ⟨content, m, rfl, rfl⟩ | ⟨content, separator, m, rfl, rfl⟩ |
    ⟨content, separator, next, rest, m, n, rfl, rfl⟩ := fillCommands_cases h
  · exact allDocs_nil
  · simpa [Doc.listAll] using hparts
  · simpa [Doc.listAll] using hparts
  · simp only [Doc.listAll, Bool.and_eq_true] at hparts
    simp [Doc.all, Doc.listAll, hp _ _ _ hhead, hparts]

/-- Every step keeps a property of all documents, if a fill without its first two
parts still has it. -/
theorem Step.allDocs {p : Doc → Bool}
    (hp : ∀ content separator parts, p (.fill (content :: separator :: parts)) = true →
      p (.fill parts) = true)
    {machine next : Machine α} (h : Step page machine next)
    (hall : AllDocs p machine.pending) : AllDocs p next.pending := by
  cases h with
  | concat =>
      simp only [allDocs_cons, Doc.all, Bool.and_eq_true, Doc.listAll_eq_true] at hall
      simp only [allDocs_append]
      refine ⟨?_, hall.2⟩
      intro command hcommand
      obtain ⟨part, hpart, rfl⟩ := List.mem_map.mp hcommand
      exact hall.1.2 part hpart
  | fill _ hfill =>
      simp only [allDocs_cons] at hall
      exact allDocs_append.mpr ⟨allDocs_fillCommands hp hfill hall.1, hall.2⟩
  | _ => simp_all [Doc.all]

end HamlFormat.Layout
