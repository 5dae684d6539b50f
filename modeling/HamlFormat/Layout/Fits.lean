import HamlFormat.Doc.Basic
import HamlFormat.Layout.Page
import HamlFormat.Text.Width

/-!
# HamlFormat.Layout.Fits

Whether what comes next fits in the room that is left on a line. Documents are
read in order, each in its mode, up to the first line break that would print; the
text before it must not be wider than the room.
-/

namespace HamlFormat.Layout

/-- How a document is read: its own line breaks print as line ends (`broken`) or
not (`flat`). -/
inductive Mode where
  | broken
  | flat
  deriving DecidableEq

/-- A document to lay out, with its indentation and mode. -/
structure Command where
  indentation : Indentation
  mode : Mode
  doc : Doc

variable {α : Type} [Columns α]

/-- What reading a document comes to. -/
inductive Scan (α : Type) where
  /-- The line ends here, or the room is used up; this answers the question. -/
  | stop (fits : Bool)
  /-- So much room is left. -/
  | more (room : α)

/-- Take columns off the room. -/
def Scan.spend (room : α) (columns : Nat) : Scan α :=
  let left := room - (((columns : Nat) : Int) : α)
  if ((0 : Int) : α) ≤ left then .more left else .stop false

mutual

/-- Read a document. With `mustBeFlat` a group that breaks does not fit. -/
def scan (mustBeFlat : Bool) (mode : Mode) : Doc → α → Except Fault (Scan α)
  | .text s, room => .ok (.spend room (Text.width s))
  | .concat parts, room | .fill parts, room => scanList mustBeFlat mode parts room
  | .indent contents, room | .align _ contents, room | .root contents, room =>
    scan mustBeFlat mode contents room
  | .group contents shouldBreak, room =>
    if mustBeFlat && shouldBreak then .ok (.stop false)
    else scan mustBeFlat (if shouldBreak then .broken else mode) contents room
  | .ifBreak whenBroken whenFlat, room =>
    match mode with
    | .broken => scan mustBeFlat mode whenBroken room
    | .flat => scan mustBeFlat mode whenFlat room
  | .line hard soft, room =>
    if mode = .broken || hard then .ok (.stop true)
    else if soft then .ok (.more room)
    else .ok (.spend room 1)
  | .breakParent, room => .ok (.more room)
  | .alien value, _ => .error (.unexpectedDoc value)

/-- Read documents one after another. -/
def scanList (mustBeFlat : Bool) (mode : Mode) : List Doc → α → Except Fault (Scan α)
  | [], room => .ok (.more room)
  | part :: parts, room => do
    match ← scan mustBeFlat mode part room with
    | .stop fits => return .stop fits
    | .more room => scanList mustBeFlat mode parts room

end

/-- Read commands one after another; what is read to its end fits. -/
def scanCommands (mustBeFlat : Bool) : List Command → α → Except Fault Bool
  | [], _ => .ok true
  | command :: commands, room => do
    match ← scan mustBeFlat command.mode command.doc room with
    | .stop fits => return fits
    | .more room => scanCommands mustBeFlat commands room

/-- Whether commands fit in the room, up to the first line break that would
print. Nothing fits in less than no room. -/
def fits (mustBeFlat : Bool) (commands : List Command) (room : α) : Except Fault Bool :=
  if ((0 : Int) : α) ≤ room then scanCommands mustBeFlat commands room else .ok false

end HamlFormat.Layout
