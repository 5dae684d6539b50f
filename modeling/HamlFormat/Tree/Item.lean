import HamlFormat.Fault
import HamlFormat.Tree.Capability
import HamlFormat.Tree.Node

/-!
# HamlFormat.Tree.Item

What can be reached inside a syntax tree by field names and positions: nodes, the
records they carry, sequences, plain values, and what can be done with them.
-/

namespace HamlFormat

/-- A record that a markup node carries. -/
inductive Payload where
  | tag (tag : Tag)
  | dynamic (attributes : DynamicAttributes)
  | comment (comment : Comment)
  | doctype (doctype : Doctype)
  | hamlComment (text : Json)
  | plain (text : Json)
  | script (text : Json)
  | silentScript (statement : Statement)

/-- What can be reached inside a syntax tree. -/
inductive Item where
  | node (node : Node)
  | payload (payload : Payload)
  | tuple (items : List Item)
  | data (value : Json)
  | capability (capability : Capability)

namespace Item

/-- A line of a document. -/
def markup (m : Markup) : Item := .node (.markup m)

/-- A Ruby expression. -/
def ruby (r : Ruby) : Item := .node (.ruby r)

/-- A text. -/
def text (s : Text) : Item := .data (.str s)

/-- A truth value. -/
def bool (b : Bool) : Item := .data (.bool b)

/-- Lines of a document. -/
def lines (ms : List Markup) : Item := .tuple (ms.map markup)

/-- Ruby expressions. -/
def expressions (rs : List Ruby) : Item := .tuple (rs.map ruby)

/-- Pairs of a hash. -/
def pairs (ps : List Pair) : Item := .tuple (ps.map fun p => .ruby (.pair p))

/-! ## Kinds -/

/-- The name of a record's kind. -/
def payloadName : Payload → String
  | .tag _ => "TagValue"
  | .dynamic _ => "DynamicAttributes"
  | .comment _ => "CommentValue"
  | .doctype _ => "DoctypeValue"
  | .hamlComment _ => "HamlCommentValue"
  | .plain _ => "PlainValue"
  | .script _ => "ScriptValue"
  | .silentScript _ => "SilentScriptValue"

/-- The name of an item's kind, as messages give it. -/
def className : Item → String
  | .node n => n.className
  | .payload p => payloadName p
  | .tuple _ => "tuple"
  | .data value => value.typeName
  | .capability c => c.className

/-- Whether an item is a sequence. -/
def isTuple : Item → Bool
  | .tuple _ => true
  | _ => false

/-! ## Fields -/

/-- The fields of a line of a document. -/
def markupFields : Markup → List (String × Item)
  | .root children line => [("children", lines children), ("line", .data line)]
  | .tag t children line =>
    [("value", .payload (.tag t)), ("children", lines children), ("line", .data line)]
  | .comment c children line =>
    [("value", .payload (.comment c)), ("children", lines children), ("line", .data line)]
  | .doctype d line => [("value", .payload (.doctype d)), ("line", .data line)]
  | .hamlComment text children line =>
    [("value", .payload (.hamlComment text)), ("children", lines children), ("line", .data line)]
  | .plain text line => [("value", .payload (.plain text)), ("line", .data line)]
  | .script text children line =>
    [("value", .payload (.script text)), ("children", lines children), ("line", .data line)]
  | .silentScript s children line =>
    [("value", .payload (.silentScript s)), ("children", lines children), ("line", .data line)]

/-- The fields of a Ruby expression. -/
def rubyFields : Ruby → List (String × Item)
  | .token t => [("kind", .data t.kind), ("value", text t.text), ("line", .data t.line)]
  | .varRef t line => [("token", .ruby (.token t)), ("line", .data line)]
  | .label name line => [("text", .data name), ("line", .data line)]
  | .symbol name line => [("name", .ruby (.token name)), ("line", .data line)]
  | .quotedSymbol segments quote line =>
    [("segments", expressions segments), ("quote", .data quote), ("line", .data line)]
  | .string segments quote line =>
    [("segments", expressions segments), ("quote", .data quote), ("line", .data line)]
  | .interpolation expression line => [("expression", .ruby expression), ("line", .data line)]
  | .array none line => [("elements", .data .null), ("line", .data line)]
  | .array (some elements) line => [("elements", expressions elements), ("line", .data line)]
  | .binary left operator right line =>
    [("left", .ruby left), ("operator", text operator), ("right", .ruby right),
     ("line", .data line)]
  | .pair (.mk key value line) =>
    [("key", .ruby key), ("value", .ruby value), ("line", .data line)]
  | .pairs (.mk ps line) => [("assocs", pairs ps), ("line", .data line)]
  | .bareHash ps line => [("assocs", pairs ps), ("line", .data line)]
  | .hash none line => [("body", .data .null), ("line", .data line)]
  | .hash (some ps) line => [("body", .ruby (.pairs ps)), ("line", .data line)]

/-- The fields of a record. -/
def payloadFields : Payload → List (String × Item)
  | .tag t =>
    [("name", .data t.name),
     ("attributes", .tuple (t.attributes.map fun a => .tuple [text a.1, text a.2])),
     ("self_closing", bool t.selfClosing),
     ("nuke_outer_whitespace", bool t.trimOutside),
     ("nuke_inner_whitespace", bool t.trimInside),
     ("value", .data t.value),
     ("parse", bool t.parse),
     ("dynamic_attributes", .payload (.dynamic t.dynamic)),
     ("object_ref", .data t.objectRef)]
  | .dynamic d => [("old", .data d.old), ("new", .data d.new)]
  | .comment c =>
    [("revealed", bool c.revealed), ("conditional", .data c.conditional), ("text", .data c.text)]
  | .doctype d =>
    [("type", .data d.kind), ("version", .data d.version), ("encoding", .data d.encoding)]
  | .hamlComment value | .plain value | .script value => [("text", .data value)]
  | .silentScript s => [("text", .data s.text), ("keyword", .data s.keyword)]

/-- The fields of a plain value. A number has its two parts as a complex number,
and an integer its two parts as a fraction; truth values count as numbers. -/
def valueFields : Json → List (String × Item)
  | .float x => [("real", .data (.float x)), ("imag", .data (.float (.ofInt 0)))]
  | value =>
    match value.int? with
    | some n =>
      [("real", .data (.int n)), ("imag", .data (.int 0)), ("numerator", .data (.int n)),
       ("denominator", .data (.int 1))]
    | none => []

/-- The fields of an item; a sequence has none. -/
def fields : Item → List (String × Item)
  | .node (.markup m) => markupFields m
  | .node (.ruby r) => rubyFields r
  | .payload p => payloadFields p
  | .data value => valueFields value
  | .tuple _ | .capability _ => []

/-- What can be done with an item, if a name stands for something of the kind. -/
def capability? : Item → String → Option Capability
  | .payload (.tag _), name => Capability.ofTag? name
  | .tuple _, name => Capability.ofTuple? name
  | .data value, name => Capability.ofValue? value name
  | _, _ => none

end Item

/-- The name in a hash label: its text without the colon at its end. -/
def Ruby.labelName : Json → Except Fault Text
  | .str s => if s.endsIn ':' then .ok s.dropLast else .ok s
  | _ => .error .noMember

/-- Whether a quoted symbol is one token, without interpolation. -/
def Ruby.isSingleToken : List Ruby → Bool
  | [.token _] => true
  | _ => false

namespace Item

/-- What an item says of itself beside its fields. -/
def property? : Item → String → Option (Except Fault Item)
  | .node (.ruby (.label label _)), "name" => some do return text (← Ruby.labelName label)
  | .node (.ruby (.quotedSymbol segments _ _)), "is_single_literal" =>
    some (.ok (bool (Ruby.isSingleToken segments)))
  | item, name => (item.capability? name).map fun c => .ok (.capability c)

/-- The member of an item with a given name. -/
def member (item : Item) (name : Text) : Except Fault Item :=
  match name.toString? with
  | none => .error .noMember
  | some name =>
    match item.fields.lookup name with
    | some field => .ok field
    | none => (item.property? name).getD (.error .noMember)

/-! ## Positions -/

/-- The element of a list at a position; a negative one counts from the end. -/
def elementAt {α : Type} (xs : List α) (position : Int) : Except Fault α :=
  let index := if position < 0 then position + xs.length else position
  if index < 0 then .error .outOfRange
  else
    match xs[index.toNat]? with
    | some x => .ok x
    | none => .error .outOfRange

/-- The element of an item at a position, given as the key it was asked by. -/
def element (item : Item) (key : Json) (position : Int) : Except Fault Item :=
  match item with
  | .tuple items => elementAt items position
  | .data (.str s) => do return .data (.ofChar (← elementAt s position))
  | .data (.arr values) => do return .data (← elementAt values position)
  | .data (.obj _) => .error (.missingItem key)
  | _ => .error .mismatch

/-- The number of elements of an item. -/
def length : Item → Except Fault Nat
  | .tuple items => .ok items.length
  | .data (.str s) => .ok s.length
  | .data (.arr values) => .ok values.length
  | .data (.obj fields) => .ok fields.length
  | _ => .error .mismatch

/-- One step into an item: a text names a member, a number gives a position. -/
def step (item : Item) (key : Json) : Except Fault Item :=
  match key, key.int? with
  | _, some position => item.element key position
  | .str name, _ => item.member name
  | _, _ => .error .mismatch

end Item

end HamlFormat
