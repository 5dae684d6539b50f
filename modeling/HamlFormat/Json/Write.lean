import HamlFormat.Json.Escape
import HamlFormat.Spaces

/-!
# HamlFormat.Json.Write

JSON text. It is ASCII only and comes in two layouts: on one line, or one item
per line, each level indented by a certain text. Fields are written in
the order they have; `sortFields` puts them in the order of their names first.
-/

namespace HamlFormat

/-- A double precision number in JSON text, which has words for the values that
are not finite. -/
def Binary64.jsonText : Binary64 → Text
  | .finite negative index => finiteText negative index
  | .infinite negative => if negative then "-Infinity" else "Infinity"
  | .nan => "NaN"

namespace Json

/-! ## Order of fields -/

/-- Put a field in its place among fields ordered by name. -/
def insertField (f : Text × Json) : List (Text × Json) → List (Text × Json)
  | [] => [f]
  | g :: gs => if f.1 < g.1 then f :: g :: gs else g :: insertField f gs

mutual

/-- A value with the fields of every object in it ordered by name. -/
def sortFields : Json → Json
  | .arr items => .arr (sortItems items)
  | .obj fields => .obj (sortFieldList fields)
  | value => value

/-- Each value with its fields ordered. -/
def sortItems : List Json → List Json
  | [] => []
  | item :: items => item.sortFields :: sortItems items

/-- Fields ordered by name, and the fields inside each of them. -/
def sortFieldList : List (Text × Json) → List (Text × Json)
  | [] => []
  | (name, value) :: fields => insertField (name, value.sortFields) (sortFieldList fields)

end

/-! ## Text -/

/-- A layout: `none` writes everything on one line, `some s` gives each item its
own line, indented by `s` for each level. -/
abbrev Indent := Option Text

/-- The layout that a value asks for: none, a text for each level, or a number of
spaces. -/
def Indent.ofJson : Json → Except Fault Indent
  | .null => .ok none
  | .str s => .ok (some s)
  | value =>
    match value.int? with
    | some n => do return some (.repeated (← spaceCount n) ' ')
    | none => .error .mismatch

/-- What stands between a bracket and the items at a level. -/
def lineBreak (indent : Indent) (level : Nat) : Text :=
  match indent with
  | none => []
  | some s => "\n" ++ (List.replicate level s).flatten

/-- What stands between two items at a level. -/
def itemBreak (indent : Indent) (level : Nat) : Text :=
  match indent with
  | none => ", "
  | some _ => "," ++ lineBreak indent level

mutual

/-- The text of a value that stands at a level, in front of what follows it. -/
def textAt (indent : Indent) (level : Nat) : Json → Text → Text
  | .null, rest => "null" ++ rest
  | .bool b, rest => (if b then "true" else "false") ++ rest
  | .int n, rest => intText n ++ rest
  | .float x, rest => x.jsonText ++ rest
  | .str s, rest => stringText isAsciiText s ++ rest
  | .arr [], rest => "[]" ++ rest
  | .arr (item :: items), rest =>
    let items := itemsAt indent (level + 1) items (lineBreak indent level ++ ("]" ++ rest))
    "[" ++ (lineBreak indent (level + 1) ++ item.textAt indent (level + 1) items)
  | .obj [], rest => "\x7b\x7d" ++ rest
  | .obj ((name, value) :: fields), rest =>
    let fields := fieldsAt indent (level + 1) fields (lineBreak indent level ++ ("\x7d" ++ rest))
    "\x7b" ++ (lineBreak indent (level + 1) ++
      (stringText isAsciiText name ++ (": " ++ value.textAt indent (level + 1) fields)))

/-- The text of items at a level, each after a break, in front of what follows. -/
def itemsAt (indent : Indent) (level : Nat) : List Json → Text → Text
  | [], rest => rest
  | item :: items, rest =>
    itemBreak indent level ++ item.textAt indent level (itemsAt indent level items rest)

/-- The text of fields at a level, each after a break, in front of what follows. -/
def fieldsAt (indent : Indent) (level : Nat) : List (Text × Json) → Text → Text
  | [], rest => rest
  | (name, value) :: fields, rest =>
    itemBreak indent level ++ (stringText isAsciiText name ++
      (": " ++ value.textAt indent level (fieldsAt indent level fields rest)))

end

/-- The JSON text of a value. -/
def write (indent : Indent) (value : Json) : Text :=
  value.textAt indent 0 []

end Json

end HamlFormat
