import HamlFormat.Layout.Fits

/-!
# HamlFormat.Layout.Machine

The layout of a document, as a machine that takes one command after another off
the pending work and either writes a piece of output or puts smaller commands
back. The machine ends because every step leaves less work (`weight_step_lt`).
-/

namespace HamlFormat.Layout

/-- A piece of output. -/
inductive Piece where
  | text (s : Text)
  /-- A line break that did not end the line: a space, or nothing if it is soft. -/
  | unbroken (soft : Bool)
  /-- A line end and the indentation of the next line. -/
  | newline (indentation : Indentation)

/-- The machine's state: the column it stands at, the pieces written (the newest
first) and the commands still to do (the next one first). -/
structure Machine (α : Type) where
  column : α
  pieces : List Piece
  pending : List Command

variable {α : Type} [Columns α]

/-- The commands for a fill: its first content and separator, and the rest of the
fill. A content is flat if it fits in the room on its own; the separator after it
is flat if both fit together with the next content. What follows the fill is not
looked at. -/
def fillCommands (indentation : Indentation) (mode : Mode) (parts : List Doc) (room : α) :
    Except Fault (List Command) :=
  match parts with
  | [] => .ok []
  | [content] => do
    let contentFits ← fits true [⟨indentation, .flat, content⟩] room
    let chosen := if contentFits then .flat else .broken
    return [⟨indentation, chosen, content⟩]
  | [content, separator] => do
    let contentFits ← fits true [⟨indentation, .flat, content⟩] room
    let chosen := if contentFits then .flat else .broken
    return [⟨indentation, chosen, content⟩, ⟨indentation, chosen, separator⟩]
  | content :: separator :: next :: rest => do
    let contentFits ← fits true [⟨indentation, .flat, content⟩] room
    let pairFits ← fits true [⟨indentation, .flat, .concat [content, separator, next]⟩] room
    let contentMode := if pairFits || contentFits then .flat else .broken
    let separatorMode := if pairFits then .flat else .broken
    return [⟨indentation, contentMode, content⟩, ⟨indentation, separatorMode, separator⟩,
      ⟨indentation, mode, .fill (next :: rest)⟩]

/-- Do one command. -/
def perform (page : Page α) (column : α) (pieces : List Piece) (command : Command)
    (pending : List Command) : Except Fault (Machine α) :=
  let ⟨indentation, mode, doc⟩ := command
  match doc with
  | .text s => .ok ⟨column + (((Text.width s : Nat) : Int) : α), .text s :: pieces, pending⟩
  | .concat parts => .ok ⟨column, pieces, parts.map (⟨indentation, mode, ·⟩) ++ pending⟩
  | .indent contents =>
    match page.level with
    | .error fault => .error fault
    | .ok _ => .ok ⟨column, pieces, ⟨.level :: indentation, mode, contents⟩ :: pending⟩
  | .align columns contents => do
    let indentation ← indentation.align columns
    return ⟨column, pieces, ⟨indentation, mode, contents⟩ :: pending⟩
  | .root contents => .ok ⟨column, pieces, ⟨[], mode, contents⟩ :: pending⟩
  | .group contents shouldBreak =>
    if shouldBreak then .ok ⟨column, pieces, ⟨indentation, .broken, contents⟩ :: pending⟩
    else
      match mode with
      | .flat => .ok ⟨column, pieces, ⟨indentation, .flat, contents⟩ :: pending⟩
      | .broken => do
        let room ← page.room column
        let flat : Command := ⟨indentation, .flat, contents⟩
        if ← fits false (flat :: pending) room then return ⟨column, pieces, flat :: pending⟩
        else return ⟨column, pieces, ⟨indentation, .broken, contents⟩ :: pending⟩
  | .fill parts => do
    let room ← page.room column
    let commands ← fillCommands indentation mode parts room
    return ⟨column, pieces, commands ++ pending⟩
  | .ifBreak whenBroken whenFlat =>
    let chosen := match mode with
      | .broken => whenBroken
      | .flat => whenFlat
    .ok ⟨column, pieces, ⟨indentation, mode, chosen⟩ :: pending⟩
  | .line hard soft =>
    if mode = .flat && !hard then
      if soft then .ok ⟨column, .unbroken true :: pieces, pending⟩
      else .ok ⟨column + ((1 : Int) : α), .unbroken false :: pieces, pending⟩
    else .ok ⟨indentation.columns page, .newline indentation :: pieces, pending⟩
  | .breakParent => .ok ⟨column, pieces, pending⟩
  | .alien value => .error (.unexpectedDoc value)

namespace Machine

/-- One step: do the next command. A machine with nothing to do stays as it is. -/
def step (page : Page α) (machine : Machine α) : Except Fault (Machine α) :=
  match machine.pending with
  | [] => .ok machine
  | command :: pending => perform page machine.column machine.pieces command pending

end Machine

/-! ## Termination -/

/-- The work in a list of commands. -/
def commandsWeight : List Command → Nat
  | [] => 0
  | command :: commands => command.doc.weight + commandsWeight commands

@[simp] theorem commandsWeight_append (xs ys : List Command) :
    commandsWeight (xs ++ ys) = commandsWeight xs + commandsWeight ys := by
  induction xs with
  | nil => simp [commandsWeight]
  | cons x xs ih => simp [commandsWeight, ih]; omega

@[simp] theorem commandsWeight_map (indentation : Indentation) (mode : Mode) (parts : List Doc) :
    commandsWeight (parts.map (⟨indentation, mode, ·⟩)) = Doc.listWeight parts := by
  induction parts with
  | nil => rfl
  | cons part parts ih => simp [commandsWeight, Doc.listWeight, ih]

/-- The commands for a fill are less work than the fill. -/
theorem weight_fillCommands_lt {indentation : Indentation} {mode : Mode} {parts : List Doc}
    {room : α} {commands : List Command}
    (h : fillCommands indentation mode parts room = .ok commands) :
    commandsWeight commands < (Doc.fill parts).weight := by
  unfold fillCommands at h
  split at h
  · cases h
    simp only [commandsWeight, Doc.weight]
    omega
  all_goals
    simp only [bind, Except.bind, pure, Except.pure] at h
    (repeat' split at h) <;> cases h <;>
      simp only [commandsWeight, Doc.weight, Doc.listWeight, List.length_cons, List.length_nil] <;>
      omega

/-- Doing a command leaves less work. -/
theorem weight_perform_lt {page : Page α} {column : α} {pieces : List Piece} {command : Command}
    {pending : List Command} {machine : Machine α}
    (h : perform page column pieces command pending = .ok machine) :
    commandsWeight machine.pending < command.doc.weight + commandsWeight pending := by
  obtain ⟨indentation, mode, doc⟩ := command
  cases doc with
  | fill parts =>
    simp only [perform, bind, Except.bind, pure, Except.pure] at h
    split at h
    · cases h
    · split at h
      · cases h
      · rename_i commands fill
        cases h
        have := weight_fillCommands_lt fill
        simp only [commandsWeight_append]
        omega
  | concat parts =>
    cases h
    simp only [commandsWeight_append, commandsWeight_map, Doc.weight]
    omega
  | _ =>
    simp only [perform, bind, Except.bind, pure, Except.pure] at h
    (repeat' split at h) <;> cases h <;> simp only [commandsWeight, Doc.weight] <;> omega

/-- Every step of a machine with work to do leaves less work. -/
theorem weight_step_lt {page : Page α} {machine next : Machine α} (work : machine.pending ≠ [])
    (h : machine.step page = .ok next) :
    commandsWeight next.pending < commandsWeight machine.pending := by
  unfold Machine.step at h
  split at h
  · contradiction
  · rename_i command pending heq
    rw [heq]
    exact weight_perform_lt h

namespace Machine

/-- Run a machine until nothing is left to do. -/
def run (page : Page α) (machine : Machine α) : Except Fault (Machine α) :=
  if _ : machine.pending = [] then .ok machine
  else
    match _ : machine.step page with
    | .error fault => .error fault
    | .ok next => run page next
termination_by commandsWeight machine.pending
decreasing_by exact weight_step_lt ‹_› ‹_›

/-- The machine about to lay a document out from the first column. -/
def start (doc : Doc) : Machine α :=
  ⟨((0 : Int) : α), [], [⟨[], .broken, doc⟩]⟩

end Machine

end HamlFormat.Layout
