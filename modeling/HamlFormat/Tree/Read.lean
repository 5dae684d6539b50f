import HamlFormat.Json.Access
import HamlFormat.Json.Read
import HamlFormat.Tree.Node

/-!
# HamlFormat.Tree.Read

Reading a syntax tree from JSON data. A node is an object that names its kind in
`type`. A markup node has its texts in `value` and its nested lines in
`children`; a Ruby node has its parts in `body`. Texts are stored as they are,
with a default where an empty one has no meaning; a kind that is not known is
refused.

The parts of a node are found by the accessors of the first section. Each yields
values lighter than the node, by which reading ends.
-/

namespace HamlFormat

/-! ## Where the parts of a node are -/

namespace Json

/-- Values no heavier than a part are parts themselves. -/
def Part.elements {whole : Json} (part : Part whole) : Except Fault (List (Part whole)) := do
  let elements ← part.1.elements
  return elements.map fun e => ⟨e.1, Nat.lt_of_le_of_lt e.2 part.2⟩

/-- The item of a part at a position. -/
def Part.item {whole : Json} (part : Part whole) (index : Nat) : Except Fault (Part whole) := do
  let item ← part.1.item index
  return ⟨item.1, Nat.lt_of_le_of_lt item.2 part.2⟩

/-- The nested nodes of a markup node. -/
def childNodes (data : Json) : Except Fault (List (Part data)) := do
  match ← data.get? "children" with
  | none => return []
  | some children => if children.1.truthy then children.elements else return []

/-- A part of a Ruby node by its position in the body. -/
def bodyItem (data : Json) (index : Nat) : Except Fault (Part data) := do
  (← data.field "body").item index

/-- The first part of a Ruby node, if the body is not empty and does not start
with `null`. -/
def bodyFirst? (data : Json) : Except Fault (Option (Part data)) := do
  let body ← data.field "body"
  if body.1.truthy then
    let first ← body.item 0
    if first.1.isNull then return none else return some first
  else return none

/-- The body of a Ruby node, or that of the only node in it if that is a wrapper
of a certain kind. -/
def unwrappedBody (data : Json) (wrapper : Text) : Except Fault (Part data) := do
  let body ← data.field "body"
  if body.1.truthy then
    let first ← body.item 0
    match first with
    | ⟨.obj fields, h⟩ =>
      let inner : Json := .obj fields
      if (← inner.get "type").isText wrapper then
        let innerBody ← inner.field "body"
        return ⟨innerBody.1, Nat.lt_trans innerBody.2 h⟩
      else return body
    | _ => return body
  else return body

/-- The nodes of a list of pairs, which may be nested one level deeper in the
body. -/
def pairNodes (data : Json) : Except Fault (List (Part data)) := do
  let body ← data.field "body"
  if body.1.truthy then
    let first ← body.item 0
    match first.1 with
    | .arr _ => first.elements
    | _ => body.elements
  else body.elements

end Json

/-! ## Markup -/

/-- Attributes in their order; names and values are taken as text. -/
def Tag.readAttributes : Json → Except Fault (List (Text × Text))
  | .obj fields => .ok (fields.map fun f => (f.1, f.2.text))
  | _ => .error .noMember

/-- The dynamic attributes of a tag, which must be an object if there are any. -/
def DynamicAttributes.ofJson (data : Json) : Except Fault DynamicAttributes := do
  let data := data.orElse (.obj [])
  match data with
  | .obj _ => return ⟨← data.get "old", ← data.get "new"⟩
  | _ => throw (.malformedTree (.dynamicAttributes data))

/-- A tag without a name is a `div`. An object reference written `nil` is none. -/
def Tag.ofJson (data : Json) : Except Fault Tag := do
  let dynamic ← DynamicAttributes.ofJson (← data.get "dynamic_attributes")
  let objectRef ← data.get "object_ref"
  let name ← data.get "name"
  let attributes ← Tag.readAttributes ((← data.get "attributes").orElse (.obj []))
  return {
    name := name.orElse (.str "div")
    attributes := attributes
    selfClosing := (← data.get "self_closing").truthy
    trimOutside := (← data.get "nuke_outer_whitespace").truthy
    trimInside := (← data.get "nuke_inner_whitespace").truthy
    value := (← data.get "value").orElse .null
    parse := (← data.get "parse").truthy
    dynamic := dynamic
    objectRef := if objectRef.isText "nil" then .null else objectRef.orElse .null }

/-- The kinds of markup node. -/
def Markup.kinds : List String :=
  ["root", "tag", "comment", "doctype", "haml_comment", "plain", "script", "silent_script"]

/-- Read a markup node. -/
def Markup.ofJson (data : Json) : Except Fault Markup := do
  let kind ← data.get "type"
  let name ← kind.key?
  let unknown : Except Fault Markup := throw (.unsupportedNode (.str kind.text))
  let children : Except Fault (List Markup) := do
    (← data.childNodes).mapM fun child => Markup.ofJson child.1
  let value : Except Fault Json := do return (← data.get "value").orElse (.obj [])
  let line := data.get "line"
  match name.bind Text.toString? with
  | none => unknown
  | some "root" => return .root (← children) (← line)
  | some "tag" => return .tag (← Tag.ofJson (← value)) (← children) (← line)
  | some "comment" => do
    let value ← value
    let comment : Comment :=
      ⟨(← value.get "revealed").truthy, ← value.get "conditional", ← value.get "text"⟩
    return .comment comment (← children) (← line)
  | some "doctype" => do
    let value ← value
    let doctype : Doctype := ⟨← value.get "type", ← value.get "version", ← value.get "encoding"⟩
    return .doctype doctype (← line)
  | some "haml_comment" => return .hamlComment (← (← value).get "text") (← children) (← line)
  | some "plain" => return .plain ((← (← value).get "text").orElse (.str "")) (← line)
  | some "script" =>
    return .script ((← (← value).get "text").orElse (.str "")) (← children) (← line)
  | some "silent_script" => do
    let value ← value
    let statement : Statement :=
      ⟨(← value.get "text").orElse (.str ""), ← value.get "keyword"⟩
    return .silentScript statement (← children) (← line)
  | some _ => unknown
termination_by data.weight
decreasing_by exact child.weight_lt

/-! ## Ruby -/

/-- Read a token; its text is the body, whatever that is. -/
def Token.ofJson (data : Json) : Except Fault Token := do
  let kind ← data.field "type"
  let body ← data.field "body"
  return ⟨kind.1, body.1.text, ← data.get "line"⟩

/-- The quote around a text, a double quote if none is reported. -/
def Ruby.readQuote (data : Json) : Except Fault Json := do
  return (← data.get "quote").orElse (.str "\"")

/-- The pair that an expression is; nothing else may stand in a hash. -/
def Ruby.asPair : Ruby → Except Fault Pair
  | .pair p => .ok p
  | other => .error (.unsupportedNode (.str other.className))

/-- Read a Ruby expression. -/
def Ruby.ofJson (data : Json) : Except Fault Ruby := do
  let kind ← data.get "type"
  let name ← kind.key?
  let line := data.get "line"
  match name.bind Text.toString? with
  | none => throw (.unsupportedNode (.str kind.text))
  | some name =>
    if Token.kinds.contains name then return .token (← Token.ofJson data)
    else match name with
    | "hash" => do
      match ← data.bodyFirst? with
      | none => return .hash none (← line)
      | some body =>
        match ← Ruby.ofJson body.1 with
        | .pairs ps => return .hash (some ps) (← line)
        | _ => throw (.unsupportedNode (← body.1.get "type"))
    | "assoclist_from_args" => do
      let pairs ← (← data.pairNodes).mapM fun node => do (← Ruby.ofJson node.1).asPair
      return .pairs (.mk pairs (← line))
    | "bare_assoc_hash" => do
      let pairs ← (← data.pairNodes).mapM fun node => do (← Ruby.ofJson node.1).asPair
      return .bareHash pairs (← line)
    | "assoc_new" => do
      let key ← data.bodyItem 0
      let key ← Ruby.ofJson key.1
      let value ← data.bodyItem 1
      let value ← Ruby.ofJson value.1
      return .pair (.mk key value (← line))
    | "@label" => do
      let body ← data.field "body"
      return .label body.1 (← line)
    | "symbol_literal" => do
      let name ← (← data.unwrappedBody "symbol").item 0
      return .symbol (← Token.ofJson name.1) (← line)
    | "dyna_symbol" => do
      let segments ← (← (← data.unwrappedBody "xstring").elements).mapM fun s => Ruby.ofJson s.1
      return .quotedSymbol segments (← Ruby.readQuote data) (← line)
    | "string_literal" => do
      let segments ← (← (← data.unwrappedBody "string").elements).mapM fun s => Ruby.ofJson s.1
      return .string segments (← Ruby.readQuote data) (← line)
    | "string_embexpr" => do
      let expression ← data.bodyItem 0
      return .interpolation (← Ruby.ofJson expression.1) (← line)
    | "var_ref" => do
      let token ← data.bodyItem 0
      return .varRef (← Token.ofJson token.1) (← line)
    | "array" => do
      match ← data.bodyFirst? with
      | none => return .array none (← line)
      | some body =>
        let elements ← (← body.elements).mapM fun e => Ruby.ofJson e.1
        return .array (some elements) (← line)
    | "binary" => do
      let left ← data.bodyItem 0
      let left ← Ruby.ofJson left.1
      let operator ← data.bodyItem 1
      let right ← data.bodyItem 2
      let right ← Ruby.ofJson right.1
      return .binary left operator.1.text right (← line)
    | _ => throw (.unsupportedNode (.str name))
termination_by data.weight
decreasing_by all_goals exact Json.Part.weight_lt _

/-! ## Trees -/

namespace Node

/-- Read a syntax tree. -/
def ofJson (data : Json) : Except Fault Node := do
  let kind ← data.get "type"
  if kind.isNull then throw (.malformedTree .missingType)
  match (← kind.key?).bind Text.toString? with
  | some name =>
    if Markup.kinds.contains name then return .markup (← Markup.ofJson data)
    else return .ruby (← Ruby.ofJson data)
  | none => return .ruby (← Ruby.ofJson data)

/-- Read a syntax tree from JSON text. -/
def read (s : Text) : Except Fault Node := do
  let data ← Json.read s
  match data with
  | .obj _ => ofJson data
  | _ => throw (.notObject data)

end Node

end HamlFormat
