import HamlFormat.Print.Markup
import HamlFormat.Proofs.Tree.Shape

/-!
# HamlFormat.Proofs.Print.Outline

A HAML document line by line. `Markup.outline` gives the lines of a tree in order,
each with its level: a node's own line first, then the lines of its children, one
level deeper. Under a `case` every other child stays at the level of the `case`; a
comment written as a block has its lines one level deeper and its children nowhere.
`outlineText` puts lines together to a text.

This says how a tree is written that leaves the layout no choice
(`Markup.isRegular`): one without attribute hashes, which are wrapped to the page.
-/

namespace HamlFormat

/-! ## Trees without a choice of layout -/

/-- Whether a value is a text or absent. -/
def Json.isOptionalText : Json → Bool
  | .null | .str _ => true
  | _ => false

/-- Whether a line is no whole document, has no attribute hash and holds texts where
it is printed from them. The line number of a comment that is not rendered, by
which it is found in the source, is an integer or absent. -/
def Markup.isRegular : Markup → Bool
  | .root _ _ => false
  | .tag t _ _ =>
    t.hashAttributes.isEmpty && t.dynamic.old.isOptionalText && t.objectRef.isOptionalText
  | .comment c _ _ => c.conditional.isOptionalText && c.text.isOptionalText
  | .doctype d _ =>
    d.kind.isOptionalText && d.version.isOptionalText && d.encoding.isOptionalText
  | .hamlComment text _ line => text.isOptionalText && (line.isNull || line.int?.isSome)
  | .plain (.str _) _ => true
  | .plain _ _ => false
  | .script _ _ _ | .silentScript _ _ _ => true

/-! ## The text of a line -/

/-- The markers `>`, `<` and `/` of a tag. -/
def Tag.markers (tag : Tag) : Text :=
  let mark (shown : Bool) (s : Text) : Text := if shown then s else []
  mark tag.trimOutside ">" ++ mark tag.trimInside "<" ++ mark tag.selfClosing "/"

/-- The line of a tag without an attribute hash. A `div` with nothing to show is
named. -/
def Tag.lineText (tag : Tag) : Text :=
  let leading := tag.heads.flatten ++ tag.markers
  let named := if leading.isEmpty then Text.ofString "%div" else leading
  if tag.value.truthy then
    leading ++ (if tag.parse then "=" else "") ++ " " ++ tag.value.text
  else if tag.dynamic.old.truthy then leading ++ tag.dynamic.old.text
  else if tag.objectRef.truthy then named ++ tag.objectRef.text
  else named

/-- The line of an HTML comment. -/
def Comment.lineText (comment : Comment) : Text :=
  "/" ++ (if comment.revealed then "!" else "") ++
    if comment.conditional.truthy then comment.conditional.text
    else if comment.text.truthy then " " ++ comment.text.text
    else []

/-- How a doctype is spelled that a text names. -/
def Doctype.spelled : Json → Option Text
  | .str s => (s.toString?.bind fun name => Doctype.spellings.lookup name).map Text.ofString
  | _ => none

/-- The line of a doctype. -/
def Doctype.lineText (doctype : Doctype) : Text :=
  let kind := Doctype.spelled doctype.kind <|> Doctype.spelled doctype.version
  let encoding := if doctype.encoding.truthy then [doctype.encoding.text] else []
  List.intercalate " " (Text.ofString "!!!" :: (kind.toList ++ encoding))

/-- Whether a comment with this line number was written as a block. -/
def isBlockComment (source : Text) (line : Json) : Bool :=
  match sourceLine source line with
  | .ok (some text) => Text.strip Text.isBlank text == "-#"
  | _ => false

/-! ## The lines of a tree -/

namespace Markup

/-- The lines of a comment that is not rendered, at a level. -/
def commentLines (source : Text) (level : Nat) (text : Text) (line : Json) : List (Nat × Text) :=
  let comment := Text.strip Text.isBlank text
  if comment.isEmpty then [(level, "-#")]
  else if isBlockComment source line then
    (level, Text.ofString "-#") :: (blockLines text).map fun t => (level + 1, t)
  else [(level, "-# " ++ comment)]

mutual

/-- The lines of markup at a level, each with its own level. -/
def outline (source : Text) (level : Nat) : Markup → List (Nat × Text)
  | .root children _ => listOutline source level children
  | .tag t children _ => (level, t.lineText) :: listOutline source (level + 1) children
  | .comment c children _ => (level, c.lineText) :: listOutline source (level + 1) children
  | .doctype d _ => [(level, d.lineText)]
  | .hamlComment text _ line => commentLines source level (text.orElse (.str "")).text line
  | .plain text _ => [(level, text.text)]
  | .script text children _ => (level, "=" ++ text.text) :: listOutline source (level + 1) children
  | .silentScript s children _ =>
    (level, "-" ++ s.text.text) ::
      if s.keyword.isText "case" then clauseOutline source level 0 children
      else listOutline source (level + 1) children

/-- The lines of nodes at one level. -/
def listOutline (source : Text) (level : Nat) : List Markup → List (Nat × Text)
  | [] => []
  | m :: ms => outline source level m ++ listOutline source level ms

/-- The lines of the children of a `case` at a level, from the one with an index on:
those with an even index at its level, the others one deeper. -/
def clauseOutline (source : Text) (level index : Nat) : List Markup → List (Nat × Text)
  | [] => []
  | m :: ms =>
    outline source (level + index % 2) m ++ clauseOutline source level (index + 1) ms

end

end Markup

/-- Lines as text: each after as many units of indentation as its level says, without
the spaces and tabs at its end. -/
def outlineText (unit : Text) (lines : List (Nat × Text)) : Text :=
  List.intercalate "\n" (lines.map fun line =>
    Text.stripRight Text.isIndent ((List.replicate line.1 unit).flatten ++ line.2)) ++ "\n"

end HamlFormat
