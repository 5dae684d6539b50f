import HamlFormat.Proofs.Layout.Lines
import HamlFormat.Proofs.Layout.Fits
import HamlFormat.Proofs.Layout.Step

/-!
# HamlFormat.Proofs.Layout.Shift

Layouts in step. A layout on one page and a layout on another one take the same
decisions if the second starts from an indentation `base` of its own, at columns
that are moved so that as much room is left at each (`Page.Carries`). Every
command and every line end of the second run then has the indentation that it has
in the first, behind `base`, and the runs end alike (`run_shift`).

The first page may lack a level of indentation that the second has. A run on it
either fails for want of the level, or never asks for it.
-/

namespace HamlFormat.Layout

/-! ## Behind an indentation -/

/-- A piece of a layout that starts from an indentation. -/
def Piece.shift (base : Indentation) : Piece → Piece
  | .newline i => .newline (i ++ base)
  | .text s => .text s
  | .unbroken soft => .unbroken soft

/-- A command behind an indentation. -/
def Command.shift (base : Indentation) (command : Command) : Command :=
  ⟨command.indentation ++ base, command.mode, command.doc⟩

@[simp] theorem Piece.shift_nil (piece : Piece) : piece.shift [] = piece := by
  cases piece <;> simp [shift]

@[simp] theorem Command.shift_nil (command : Command) : command.shift [] = command := by
  simp [shift]

/-- Lines behind an indentation have it before their own. -/
theorem writtenLines_shift (base i : Indentation) (s : Text) (pieces : List Piece) :
    writtenLines (i ++ base, s) (pieces.map (Piece.shift base)) =
      (writtenLines (i, s) pieces).map fun line => (line.1 ++ base, line.2) := by
  induction pieces generalizing i s with
  | nil => rfl
  | cons piece pieces ih =>
      cases piece <;> simp [Piece.shift, writtenLines, ih, Piece.inline]

/-- A document that can be laid out behind an indentation: nothing in it starts
anew from the first column, unless that is where the indentation is. -/
def isMovable (base : Indentation) : Doc → Bool
  | .root _ => base.isEmpty
  | _ => true

theorem Indentation.align_append (base i : Indentation) (columns : Int) :
    align (i ++ base) columns = (i.align columns).map (· ++ base) := by
  unfold align
  by_cases hpos : columns ≤ 0
  · simp [hpos, Except.map]
  · simp only [hpos, if_false]
    cases spaceCount columns <;> rfl

/-- An indentation that can be made on a page. -/
def Indentation.IsMade {α : Type} (page : Page α) (i : Indentation) : Prop :=
  .level ∈ i → ∃ level, page.level = .ok level

/-- Indenting by columns makes no level. -/
theorem Indentation.isMade_align {α : Type} {page : Page α} {i j : Indentation} {columns : Int}
    (hj : i.align columns = .ok j) (h : i.IsMade page) : j.IsMade page := by
  unfold align at hj
  split at hj
  · cases hj
    exact h
  · obtain ⟨count, -, hj⟩ := Fault.bind_eq_ok.mp hj
    cases hj
    intro hlevel
    exact h (by simpa using hlevel)

variable {α : Type} [Columns α]

/-- What is read ahead does not depend on the indentation. -/
theorem scanCommands_shift (base : Indentation) (strict : Bool) (commands : List Command)
    (room : α) :
    scanCommands strict (commands.map (Command.shift base)) room =
      scanCommands strict commands room := by
  induction commands generalizing room with
  | nil => rfl
  | cons command commands ih =>
      simp only [List.map_cons, scanCommands, Command.shift]
      cases scan strict command.mode command.doc room with
      | error fault => rfl
      | ok result =>
          cases result with
          | stop answer => rfl
          | more left => exact ih left

theorem fits_shift (base : Indentation) (strict : Bool) (commands : List Command) (room : α) :
    fits strict (commands.map (Command.shift base)) room = fits strict commands room := by
  simp only [fits, scanCommands_shift]

/-- The commands for a fill behind an indentation. -/
theorem fillCommands_shift (base i : Indentation) (mode : Mode) (parts : List Doc) (room : α) :
    fillCommands (i ++ base) mode parts room =
      (fillCommands i mode parts room).map (List.map (Command.shift base)) := by
  have hfits : ∀ part : Doc, fits true [⟨i ++ base, .flat, part⟩] room =
      fits true [⟨i, .flat, part⟩] room := fun part => fits_cons_congr rfl
  unfold fillCommands
  split
  · rfl
  · next content =>
    rw [hfits content]
    cases fits true [⟨i, .flat, content⟩] room <;> rfl
  · next content separator =>
    rw [hfits content]
    cases fits true [⟨i, .flat, content⟩] room <;> rfl
  · next content separator next rest =>
    rw [hfits content, hfits (.concat [content, separator, next])]
    cases fits true [⟨i, .flat, content⟩] room with
    | error fault => rfl
    | ok contentFits =>
        cases fits true [⟨i, .flat, .concat [content, separator, next]⟩] room <;> rfl

/-! ## Pages in step -/

/-- A page that a layout can be carried over to, from an indentation `base` and with
its columns moved. -/
structure Page.Carries (page page' : Page α) (base : Indentation) (move : α → α) : Prop where
  level {level : Level α} (h : page.level = .ok level) : ∃ level', page'.level = .ok level'
  /-- As much room is left. -/
  room (column : α) : page'.room (move column) = page.room column
  add (column : α) (n : Nat) :
    move (column + (((n : Nat) : Int) : α)) = move column + (((n : Nat) : Int) : α)
  /-- A line behind the indentation starts at the column moved. -/
  columns {i : Indentation} (h : i.IsMade page) :
    Indentation.columns page' (i ++ base) = move (i.columns page)

/-- The outcome of a run that fails because the page has no level of indentation. -/
def Page.Lacks {β : Type} (page : Page α) (outcome : Except Fault β) : Prop :=
  ∃ fault, page.level = .error fault ∧ outcome = .error fault

/-- A machine behind an indentation, after what was written before it started. -/
def Machine.shift (base : Indentation) (move : α → α) (before : List Piece)
    (machine : Machine α) : Machine α :=
  ⟨move machine.column, machine.pieces.map (Piece.shift base) ++ before,
    machine.pending.map (Command.shift base)⟩

variable {page page' : Page α} {base : Indentation} {move : α → α}

/-- **Doing a command behind an indentation** is doing it and then putting the
indentation in front, unless a level is lacking. -/
theorem perform_shift (h : page.Carries page' base move) (before : List Piece) (column : α)
    (written : List Piece) {command : Command} (rest : List Command)
    (hdoc : command.doc.all (isMovable base) = true)
    (hmade : command.indentation.IsMade page) :
    page.Lacks (perform page column written command rest) ∨
      perform page' (move column) (written.map (Piece.shift base) ++ before) (command.shift base)
          (rest.map (Command.shift base)) =
        (perform page column written command rest).map (Machine.shift base move before) := by
  obtain ⟨i, mode, doc⟩ := command
  cases doc with
  | text s =>
      refine .inr ?_
      simp [perform, Command.shift, Except.map, Machine.shift, Piece.shift, h.add]
  | concat parts =>
      refine .inr ?_
      simp [perform, Command.shift, Except.map, Machine.shift, Function.comp_def]
  | indent contents =>
      cases hlevel : page.level with
      | error fault => exact .inl ⟨fault, hlevel, by simp only [perform, hlevel]⟩
      | ok level =>
          obtain ⟨level', hlevel'⟩ := h.level hlevel
          refine .inr ?_
          simp [perform, Command.shift, hlevel, hlevel', Except.map, Machine.shift]
  | align columns contents =>
      refine .inr ?_
      simp only [perform, Command.shift, Indentation.align_append]
      cases i.align columns with
      | error fault => rfl
      | ok j =>
          simp [Except.map, Machine.shift, Command.shift, bind, Except.bind, pure, Except.pure]
  | root contents =>
      refine .inr ?_
      have hbase : base = [] := by
        simp only [Doc.all, isMovable, Bool.and_eq_true, List.isEmpty_iff] at hdoc
        exact hdoc.1
      simp [perform, Command.shift, Except.map, Machine.shift, hbase]
  | group contents shouldBreak =>
      refine .inr ?_
      cases shouldBreak with
      | true => simp [perform, Command.shift, Except.map, Machine.shift]
      | false =>
          cases mode with
          | flat => simp [perform, Command.shift, Except.map, Machine.shift]
          | broken =>
              have hfits := fits_shift base false (⟨i, .flat, contents⟩ :: rest) (α := α)
              simp only [List.map_cons, Command.shift] at hfits
              simp only [perform, Command.shift, h.room]
              cases page.room column with
              | error fault => rfl
              | ok room =>
                  simp only [Fault.ok_bind, Bool.false_eq_true, if_false, hfits]
                  cases fits false (⟨i, .flat, contents⟩ :: rest) room with
                  | error fault => rfl
                  | ok answer => cases answer <;> rfl
  | fill parts =>
      refine .inr ?_
      simp only [perform, Command.shift, h.room]
      cases page.room column with
      | error fault => rfl
      | ok room =>
          simp only [Fault.ok_bind, fillCommands_shift]
          cases fillCommands i mode parts room with
          | error fault => rfl
          | ok commands =>
              simp [Except.map, Machine.shift, bind, Except.bind, pure, Except.pure]
  | ifBreak whenBroken whenFlat =>
      refine .inr ?_
      cases mode <;> simp [perform, Command.shift, Except.map, Machine.shift]
  | line hard soft =>
      refine .inr ?_
      have hcolumns := h.columns hmade
      have hspace : move (column + ((1 : Int) : α)) = move column + ((1 : Int) : α) :=
        h.add column 1
      cases mode <;> cases hard <;> cases soft <;>
        simp [perform, Command.shift, Except.map, Machine.shift, Piece.shift, hcolumns, hspace]
  | breakParent =>
      refine .inr ?_
      simp [perform, Command.shift, Except.map, Machine.shift]
  | alien value => exact .inr rfl

/-- A step of a machine behind an indentation. -/
theorem step_shift (h : page.Carries page' base move) (before : List Piece) {machine : Machine α}
    (hdocs : AllDocs (isMovable base) machine.pending)
    (hmade : ∀ command ∈ machine.pending, command.indentation.IsMade page) :
    page.Lacks (machine.step page) ∨
      (machine.shift base move before).step page' =
        (machine.step page).map (Machine.shift base move before) := by
  obtain ⟨column, written, pending⟩ := machine
  cases pending with
  | nil => exact .inr rfl
  | cons command rest =>
      rw [allDocs_cons] at hdocs
      exact perform_shift h before column written rest hdocs.1 (hmade command List.mem_cons_self)

/-! ## Runs in step -/

/-- Every step leaves only indentations that can be made: it goes a level deeper only
if there is one. -/
theorem Step.isMade {machine next : Machine α} (h : Step page machine next)
    (hmade : ∀ command ∈ machine.pending, command.indentation.IsMade page) :
    ∀ command ∈ next.pending, command.indentation.IsMade page := by
  cases h with
  | concat =>
      rw [List.forall_mem_cons] at hmade
      rw [List.forall_mem_append, List.forall_mem_map]
      exact ⟨fun _ _ => hmade.1, hmade.2⟩
  | indent hlevel =>
      rw [List.forall_mem_cons] at hmade ⊢
      exact ⟨fun _ => ⟨_, hlevel⟩, hmade.2⟩
  | align hj =>
      rw [List.forall_mem_cons] at hmade ⊢
      exact ⟨Indentation.isMade_align hj hmade.1, hmade.2⟩
  | root =>
      rw [List.forall_mem_cons] at hmade ⊢
      refine ⟨fun hlevel => ?_, hmade.2⟩
      cases hlevel
  | fill _ hfill =>
      rw [List.forall_mem_cons] at hmade
      rw [List.forall_mem_append]
      refine ⟨?_, hmade.2⟩
      obtain ⟨-, rfl⟩ | ⟨_, _, -, rfl⟩ | ⟨_, _, _, -, rfl⟩ | ⟨_, _, _, _, _, _, -, rfl⟩ :=
        fillCommands_cases hfill <;> simp [hmade.1]
  | _ => simp_all

theorem Machine.run_of_done {machine : Machine α} (h : machine.pending = []) :
    machine.run page = .ok machine := by
  rw [run, dif_pos h]

/-- A run with work to do is a step and a run. -/
theorem Machine.run_of_work {machine : Machine α} (h : machine.pending ≠ []) :
    machine.run page = machine.step page >>= run page := by
  rw [run, dif_neg h]
  split
  · next fault hstep => rw [hstep]; rfl
  · next next hstep => rw [hstep]; rfl

/-- **A run behind an indentation** ends like the run itself, with the indentation in
front, unless a level is lacking. -/
theorem run_shift (h : page.Carries page' base move) (before : List Piece) (machine : Machine α)
    (hdocs : AllDocs (isMovable base) machine.pending)
    (hmade : ∀ command ∈ machine.pending, command.indentation.IsMade page) :
    page.Lacks (machine.run page) ∨
      (machine.shift base move before).run page' =
        (machine.run page).map (Machine.shift base move before) := by
  fun_induction Machine.run page machine with
  | case1 machine hdone =>
      refine .inr (Machine.run_of_done ?_)
      simp [Machine.shift, hdone]
  | case2 machine hwork fault hstep =>
      refine (step_shift h before hdocs hmade).imp (fun hlacks => hstep ▸ hlacks) fun hshift => ?_
      rw [Machine.run_of_work (by simpa [Machine.shift] using hwork), hshift, hstep]
      rfl
  | case3 machine hwork next hstep ih =>
      have hnext : Step page machine next := by
        obtain ⟨column, written, pending⟩ := machine
        cases pending with
        | nil => exact absurd rfl hwork
        | cons command rest => exact step_of_perform hstep
      obtain ⟨fault, -, hlacks⟩ | hshift := step_shift h before hdocs hmade
      · rw [hstep] at hlacks
        cases hlacks
      · have hrun : (machine.shift base move before).run page' =
            (next.shift base move before).run page' := by
          rw [Machine.run_of_work (by simpa [Machine.shift] using hwork), hshift, hstep]
          rfl
        rw [hrun]
        exact ih (hnext.allDocs (fun _ _ _ _ => rfl) hdocs) (hnext.isMade hmade)

end HamlFormat.Layout
