import HamlFormat.Json.Write
import HamlFormat.Tree.Node

/-!
# HamlFormat.Tree.Write

Writing a syntax tree as JSON data, in the shape in which parsers report it, and
as JSON text with the fields of every object in the order of their names.
-/

namespace HamlFormat

/-- A node's fields with its line number, unless it has none. -/
def Json.node (fields : List (Text × Json)) (line : Json) : Json :=
  .obj (if line.isNull then fields else fields ++ [(.ofString "line", line)])

/-- A token as data. -/
def Token.toJson (token : Token) : Json :=
  .node [("type", token.kind), ("body", .str token.text)] token.line

namespace Ruby

mutual

/-- A Ruby expression as data. -/
def toJson : Ruby → Json
  | .token t => t.toJson
  | .varRef t line => .node [("type", .str "var_ref"), ("body", .arr [t.toJson])] line
  | .label text line => .node [("type", .str "@label"), ("body", text)] line
  | .symbol name line =>
    let inner : Json := .obj [("type", .str "symbol"), ("body", .arr [name.toJson])]
    .node [("type", .str "symbol_literal"), ("body", .arr [inner])] line
  | .quotedSymbol segments quote line =>
    .node [("type", .str "dyna_symbol"), ("body", .arr (listToJson segments)), ("quote", quote)]
      line
  | .string segments quote line =>
    let inner : Json := .obj [("type", .str "string"), ("body", .arr (listToJson segments))]
    .node [("type", .str "string_literal"), ("body", .arr [inner]), ("quote", quote)] line
  | .interpolation expression line =>
    .node [("type", .str "string_embexpr"), ("body", .arr [toJson expression])] line
  | .array none line => .node [("type", .str "array"), ("body", .arr [.null])] line
  | .array (some elements) line =>
    .node [("type", .str "array"), ("body", .arr [.arr (listToJson elements)])] line
  | .binary left operator right line =>
    .node [("type", .str "binary"), ("body", .arr [toJson left, .str operator, toJson right])] line
  | .pair p => pairToJson p
  | .pairs ps => pairsToJson ps
  | .bareHash ps line =>
    .node [("type", .str "bare_assoc_hash"), ("body", .arr [.arr (pairListToJson ps)])] line
  | .hash none line => .node [("type", .str "hash"), ("body", .arr [.null])] line
  | .hash (some ps) line =>
    .node [("type", .str "hash"), ("body", .arr [pairsToJson ps])] line

/-- Expressions as data. -/
def listToJson : List Ruby → List Json
  | [] => []
  | r :: rs => toJson r :: listToJson rs

/-- A pair as data. -/
def pairToJson : Pair → Json
  | .mk key value line =>
    .node [("type", .str "assoc_new"), ("body", .arr [toJson key, toJson value])] line

/-- The pairs of a hash as data. -/
def pairsToJson : Pairs → Json
  | .mk ps line =>
    .node [("type", .str "assoclist_from_args"), ("body", .arr [.arr (pairListToJson ps)])] line

/-- Pairs as data. -/
def pairListToJson : List Pair → List Json
  | [] => []
  | p :: ps => pairToJson p :: pairListToJson ps

end

end Ruby

/-- What is known about a tag as data. -/
def Tag.toJson (tag : Tag) : Json :=
  .obj [
    ("name", tag.name),
    ("attributes", .obj (tag.attributes.map fun a => (a.1, .str a.2))),
    ("self_closing", .bool tag.selfClosing),
    ("nuke_outer_whitespace", .bool tag.trimOutside),
    ("nuke_inner_whitespace", .bool tag.trimInside),
    ("value", tag.value),
    ("parse", .bool tag.parse),
    ("dynamic_attributes", .obj [("old", tag.dynamic.old), ("new", tag.dynamic.new)]),
    ("object_ref", tag.objectRef)]

/-- What is known about a comment as data. -/
def Comment.toJson (comment : Comment) : Json :=
  .obj [("revealed", .bool comment.revealed), ("conditional", comment.conditional),
    ("text", comment.text)]

/-- What is known about a doctype as data. -/
def Doctype.toJson (doctype : Doctype) : Json :=
  .obj [("type", doctype.kind), ("version", doctype.version), ("encoding", doctype.encoding)]

/-- What is known about a statement as data. -/
def Statement.toJson (statement : Statement) : Json :=
  .obj [("text", statement.text), ("keyword", statement.keyword)]

namespace Markup

/-- A markup node as data. -/
def nodeJson (kind : Text) (value : Json) (children : List Json) (line : Json) : Json :=
  .node [("type", .str kind), ("value", value), ("children", .arr children)] line

mutual

/-- A line of a document as data. -/
def toJson : Markup → Json
  | .root children line => nodeJson "root" (.obj []) (listToJson children) line
  | .tag t children line => nodeJson "tag" t.toJson (listToJson children) line
  | .comment c children line =>
    nodeJson "comment" c.toJson (listToJson children) line
  | .doctype d line => nodeJson "doctype" d.toJson [] line
  | .hamlComment text children line =>
    nodeJson "haml_comment" (.obj [("text", text)]) (listToJson children) line
  | .plain text line => nodeJson "plain" (.obj [("text", text)]) [] line
  | .script text children line =>
    nodeJson "script" (.obj [("text", text)]) (listToJson children) line
  | .silentScript statement children line =>
    nodeJson "silent_script" statement.toJson (listToJson children) line

/-- Lines of a document as data. -/
def listToJson : List Markup → List Json
  | [] => []
  | m :: ms => toJson m :: listToJson ms

end

end Markup

namespace Node

/-- A syntax tree as data. -/
def toJson : Node → Json
  | .markup m => m.toJson
  | .ruby r => r.toJson

/-- A syntax tree as JSON text. -/
def write (indent : Json.Indent) (node : Node) : Text :=
  node.toJson.sortFields.write indent

end Node

end HamlFormat
