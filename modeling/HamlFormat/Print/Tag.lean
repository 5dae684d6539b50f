import HamlFormat.Doc.Basic
import HamlFormat.Text.Blank
import HamlFormat.Text.Width
import HamlFormat.Tree.Markup

/-!
# HamlFormat.Print.Tag

The line of an element: `%name`, `.class`, `#id`, the other attributes as a hash,
the markers `>`, `<` and `/`, and what follows on the line. Each class of the
class attribute is written with a dot of its own. A `div` goes without its name
where something else marks the line as an element.
-/

namespace HamlFormat

/-! ## Attributes -/

/-- The characters of a double-quoted Ruby string: backslashes, quotes and the
start of an interpolation are escaped. -/
def rubyEscaped : Text → Text
  | [] => []
  | c :: cs =>
    let interpolates := c == '#' && cs.head? == some (.ofChar '\x7b')
    if c == '\\' || c == '"' || interpolates then '\\' :: c :: rubyEscaped cs
    else c :: rubyEscaped cs

/-- A text as a double-quoted Ruby string. -/
def rubyQuoted (s : Text) : Text :=
  "\"" ++ rubyEscaped s ++ "\""

namespace Tag

/-- Whether an attribute has a shorthand of its own. -/
def isShorthand (name : Text) : Bool :=
  name == "class" || name == "id"

/-- The attributes written as a hash. -/
def hashAttributes (tag : Tag) : List (Text × Text) :=
  tag.attributes.filter fun a => !isShorthand a.1

/-- An attribute in a hash. -/
def attributePair (pair : Text × Text) : Text :=
  rubyQuoted pair.1 ++ " => " ++ rubyQuoted pair.2

/-- Attributes as a hash. Pairs wrap one by one, and a wrapped line starts under
the first pair: one column past a header of the given width. -/
def hashDoc (headerWidth : Nat) (attributes : List (Text × Text)) : Doc :=
  let separator := .concat [.text ",", .blankBreak]
  let pairs := Doc.separate separator (attributes.map fun a => .text (attributePair a))
  .group (.concat [.text "\x7b", .align (headerWidth + 1) (.fill pairs), .text "\x7d"]) false

/-! ## The header -/

/-- The name, the classes and the id, as far as each is written. -/
def heads (tag : Tag) : List Text :=
  let name := if tag.name.isText "div" then [] else ["%" ++ tag.name.text]
  let classes := match tag.attribute? "class" with
    | none => []
    | some value => if value.isEmpty then [] else ["." ++ List.intercalate "." (Text.words value)]
  let id := match tag.attribute? "id" with
    | none => []
    | some value => if value.isEmpty then [] else ["#" ++ value]
  name ++ classes ++ id

/-- The columns that texts fill together. -/
def widthOf : List Text → Nat
  | [] => 0
  | t :: ts => Text.width t + widthOf ts

/-- The name, the classes, the id, the hash of attributes and the markers. -/
def leading (tag : Tag) : List Doc :=
  let hash :=
    if tag.hashAttributes.isEmpty then []
    else [hashDoc (widthOf tag.heads) tag.hashAttributes]
  let outside := if tag.trimOutside then [.text ">"] else []
  let inside := if tag.trimInside then [.text "<"] else []
  let closing := if tag.selfClosing then [.text "/"] else []
  tag.heads.map .text ++ hash ++ outside ++ inside ++ closing

/-- What follows on the line: the content, else the dynamic attributes, else the
object reference, which does not stand alone. -/
def trailing (tag : Tag) : List Doc :=
  if tag.value.truthy then
    [.text ((if tag.parse then "=" else "") ++ " " ++ tag.value.text)]
  else if tag.dynamic.old.truthy then [.ofJson tag.dynamic.old]
  else if tag.objectRef.truthy then
    (if tag.leading.isEmpty then [.text "%div"] else []) ++ [.ofJson tag.objectRef]
  else []

/-- The document of an element's line. -/
def header (tag : Tag) : Doc :=
  let parts := tag.leading ++ tag.trailing
  let parts := if parts.isEmpty && tag.name.isText "div" then [.text "%div"] else parts
  .group (.concat parts) false

end Tag

end HamlFormat
