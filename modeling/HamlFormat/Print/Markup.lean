import HamlFormat.Json.Access
import HamlFormat.Print.Ruby
import HamlFormat.Print.Source
import HamlFormat.Print.Tag
import HamlFormat.Text.Margin

/-!
# HamlFormat.Print.Markup

Lines of a HAML document as documents. Nested lines follow their line one level
deeper. Under a `case` statement the clauses stay at its level and what comes
between them goes one level deeper.
-/

namespace HamlFormat

/-! ## Comments and doctypes -/

/-- How doctypes are spelled. -/
def Doctype.spellings : List (String × String) :=
  [("1.1", "1.1"), ("5", "5"), ("basic", "Basic"), ("frameset", "Frameset"), ("mobile", "Mobile"),
   ("rdfa", "RDFa"), ("strict", "Strict"), ("xml", "XML")]

/-- How the doctype that a value names is spelled, if it is known. -/
def Doctype.spelling? (value : Json) : Except Fault (Option Text) := do
  let name := (← value.key?).bind Text.toString?
  return (name.bind fun name => Doctype.spellings.lookup name).map Text.ofString

/-- The document of a doctype: its kind decides over its version. -/
def Doctype.toDoc (doctype : Doctype) : Except Fault Doc := do
  let spelling ← match ← Doctype.spelling? doctype.kind with
    | some spelling => pure (some spelling)
    | none => Doctype.spelling? doctype.version
  let kind := spelling.toList.map .text
  let encoding := if doctype.encoding.truthy then [.ofJson doctype.encoding] else []
  return Doc.join (.text " ") (.text "!!!" :: (kind ++ encoding))

/-- The parts of a comment's own line. -/
def Comment.parts (comment : Comment) : List Doc :=
  let revealed := if comment.revealed then [.text "!"] else []
  let text :=
    if comment.conditional.truthy then [.ofJson comment.conditional]
    else if comment.text.truthy then [.text " ", .ofJson comment.text]
    else []
  .text "/" :: (revealed ++ text)

/-- The lines of a comment written as a block: without the margin they share, the
empty lines around them and the white space at their ends. -/
def blockLines (text : Text) : List Text :=
  let block := Text.strip (· == '\n') (Text.dedent text)
  (Text.lines block).map (Text.stripRight Text.isBlank)

/-- Lines one level deeper, each on a line of its own. -/
def Doc.indented (lines : List Doc) : Doc :=
  .indent (.concat [.hardBreak, .join .hardBreak lines])

/-- The document of a comment that is not rendered. It is written as a block if it
was one in the source, which shows in a source line that holds only its mark. -/
def hamlCommentDoc (style : Style) (text line : Json) : Except Fault Doc := do
  match text.orElse (.str "") with
  | .str s =>
    let comment := Text.strip Text.isBlank s
    if comment.isEmpty then return .concat [.text "-#"]
    let source ← sourceLine style.source line
    if source.map (Text.strip Text.isBlank) = some "-#" then
      return .concat [.text "-#", .indented ((blockLines s).map .text)]
    else return .concat [.text "-#", .text " ", .text comment]
  | _ => throw .noMember

/-! ## Nested lines -/

/-- A line and the lines nested under it. -/
def Doc.nested (parts children : List Doc) : Doc :=
  let block := if children.isEmpty then [] else [.indented children]
  .group (.concat (parts ++ block)) false

/-- The clauses of a `case` and what comes between them, in turn. -/
def caseLines (deeper : Bool) : List Doc → List Doc
  | [] => []
  | child :: children =>
    let line := .concat [.hardBreak, child]
    (if deeper then .indent line else line) :: caseLines (!deeper) children

namespace Markup

mutual

/-- The document of a line and the lines nested under it. -/
def toDoc (style : Style) : Markup → Except Fault Doc
  | .root children _ => do
    let children ← listToDocs style children
    return .root (.concat [.join .hardBreak children, .hardBreak])
  | .tag t children _ => do
    let children ← listToDocs style children
    return if children.isEmpty then t.header else .nested [t.header] children
  | .comment c children _ => do
    return .nested c.parts (← listToDocs style children)
  | .doctype d _ => d.toDoc
  | .hamlComment text _ line => hamlCommentDoc style text line
  | .plain text _ => .ok (.ofJson text)
  | .script text children _ => do
    return .nested [.text ("=" ++ text.text)] (← listToDocs style children)
  | .silentScript s children _ => do
    let children ← listToDocs style children
    let line : Doc := .text ("-" ++ s.text.text)
    if s.keyword.isText "case" then return .group (.concat (line :: caseLines false children)) false
    else return .nested [line] children

/-- The documents of lines. -/
def listToDocs (style : Style) : List Markup → Except Fault (List Doc)
  | [] => .ok []
  | m :: ms => do
    let first ← toDoc style m
    return first :: (← listToDocs style ms)

end

end Markup

/-- The document of a syntax tree. -/
def Node.toDoc (style : Style) : Node → Except Fault Doc
  | .markup m => m.toDoc style
  | .ruby r => r.toDoc style

/-- The document of what was reached inside a tree. Only nodes have one; a doctype
record is refused by the name of its kind. -/
def Item.toDoc (style : Style) : Item → Except Fault Doc
  | .node n => n.toDoc style
  | .payload (.doctype d) => .error (.unsupportedNode d.kind)
  | item => .error (.unsupportedNode (.str item.className))

end HamlFormat
