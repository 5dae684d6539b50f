import HamlFormat.Layout.Measure
import HamlFormat.Spaces

/-!
# HamlFormat.Layout.Page

The page that a document is laid out on: how wide it is and what a level of
indentation is made of. Columns are integers as a rule; settings that give a
width with a fraction lay out by measures instead, so everything that counts
columns works for both.
-/

namespace HamlFormat.Layout

/-- What can count columns. -/
class Columns (α : Type) extends Add α, Sub α, IntCast α, LE α where
  decidableLE (a b : α) : Decidable (a ≤ b)
  /-- How far the edge of the page lies from a column. -/
  distance (edge column : α) : Except Fault α

instance Columns.instDecidableLE {α : Type} [Columns α] : DecidableLE α :=
  Columns.decidableLE

instance : Columns Int where
  decidableLE := inferInstanceAs (DecidableLE Int)
  distance edge column := .ok (edge - column)

instance : Columns Measure where
  decidableLE := inferInstanceAs (DecidableLE Measure)
  distance edge column :=
    if edge.agrees column then .ok (edge - column) else .error .overflow

/-- The characters of one level of indentation. -/
inductive Marks where
  | tab
  | spaces (count : Nat)
  deriving DecidableEq

/-- The text of one level of indentation. -/
def Marks.text : Marks → Text
  | .tab => "\t"
  | .spaces count => .repeated count ' '

/-- One level of indentation: its characters and the columns it counts for. -/
structure Level (α : Type) where
  marks : Marks
  columns : α

/-- A page. The settings may fail to give its width, or a level of indentation; a
layout fails only where it needs the one that is missing. -/
structure Page (α : Type) where
  width : Except Fault α
  level : Except Fault (Level α)

namespace Page

/-- The room left on the page at a column. -/
def room {α : Type} [Columns α] (page : Page α) (column : α) : Except Fault α := do
  Columns.distance (← page.width) column

end Page

/-! ## Indentation -/

/-- One step of indentation. -/
inductive Shift where
  /-- A level, as the page has it. -/
  | level
  /-- A number of spaces. -/
  | spaces (count : Nat)
  deriving DecidableEq

/-- An indentation: the steps that lead to it, the last one first. -/
abbrev Indentation := List Shift

namespace Indentation

/-- Indent by so many columns more; none or less changes nothing. -/
def align (indentation : Indentation) (columns : Int) : Except Fault Indentation :=
  if columns ≤ 0 then .ok indentation
  else do return .spaces (← spaceCount columns) :: indentation

variable {α : Type}

/-- The text of an indentation on a page. -/
def text (page : Page α) : Indentation → Text
  | [] => []
  | .level :: outer =>
    match page.level with
    | .ok level => text page outer ++ level.marks.text
    | .error _ => text page outer
  | .spaces count :: outer => text page outer ++ (Marks.spaces count).text

/-- The columns of an indentation on a page. -/
def columns [Columns α] (page : Page α) : Indentation → α
  | [] => ((0 : Int) : α)
  | .level :: outer =>
    match page.level with
    | .ok level => columns page outer + level.columns
    | .error _ => columns page outer
  | .spaces count :: outer => columns page outer + (((count : Nat) : Int) : α)

end Indentation

end HamlFormat.Layout
