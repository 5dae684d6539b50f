import HamlFormat.Doc.Basic
import HamlFormat.Json.Access
import HamlFormat.Tree.Item

/-!
# HamlFormat.Print.Ruby

Ruby expressions as documents.

A pair is written `key: value` or `:key => value`. With labels preferred, a
symbol key becomes a label if its name can be one, and a quoted symbol without
interpolation becomes a quoted label; otherwise a label becomes a symbol.
-/

namespace HamlFormat

/-- How trees are printed. -/
structure Style where
  /-- Write symbol keys as labels. -/
  labels : Bool
  /-- Put a comma after the last element of what is broken over lines. -/
  trailingCommas : Bool
  /-- The source that the tree was parsed from; empty if it is not known. -/
  source : Text

namespace Ruby

/-- A comma, then a space or a line end. -/
def comma : Doc :=
  .concat [.text ",", .blankBreak]

/-- What follows the last element: a comma where the elements are broken over
lines, if the style asks for one. -/
def lastComma (style : Style) : List Doc :=
  if style.trailingCommas then [.ifBreak (.text ",") (.text "")] else []

/-- Whether a symbol's name can be written as a label. -/
def isLabelName (name : Token) : Except Fault Bool := do
  match (← name.kind.key?).bind Text.toString? with
  | some kind =>
    return ["@ident", "@const", "@kw"].contains kind &&
      !(name.text.endsIn '?' || name.text.endsIn '!' || name.text.endsIn '=')
  | none => return false

/-- Whether a value always starts on its key's line. Any other value goes to a
line of its own where the pair does not fit. -/
def isCompact : Ruby → Bool
  | .token _ | .varRef _ _ | .symbol _ _ | .quotedSymbol _ _ _ | .string _ _ _ | .array _ _
  | .hash _ _ => true
  | _ => false

/-- A key with what separates it from its value, given the document that the key
has on its own. -/
def separated (style : Style) (key : Ruby) (keyDoc : Doc) : Except Fault Doc :=
  let arrow := .concat [keyDoc, .text " =>"]
  match key with
  | .label text _ => do
    if style.labels then return keyDoc
    return .text (":" ++ (← labelName text) ++ " =>")
  | .symbol name _ => do
    let asLabel ← if style.labels then isLabelName name else pure false
    return if asLabel then .concat [.text name.text, .text ":"] else arrow
  | .quotedSymbol [.token t] quote _ =>
    .ok (if style.labels then .concat [.ofJson quote, .text t.text, .ofJson quote, .text ":"]
      else arrow)
  | _ => .ok arrow

mutual

/-- The document of an expression. -/
def toDoc (style : Style) : Ruby → Except Fault Doc
  | .token t | .varRef t _ => .ok (.text t.text)
  | .label text _ => .ok (.ofJson text)
  | .symbol name _ => .ok (.concat [.text ":", .text name.text])
  | .quotedSymbol segments quote _ => do
    let segments ← listToDocs style segments
    return .concat ([.text ":", .ofJson quote] ++ segments ++ [.ofJson quote])
  | .string segments quote _ => do
    let segments ← listToDocs style segments
    return .concat ([.ofJson quote] ++ segments ++ [.ofJson quote])
  | .interpolation expression _ => do
    return .concat [.text "#\x7b", ← toDoc style expression, .text "\x7d"]
  | .array none _ => .ok (.text "[]")
  | .array (some es) _ => do
    let elements ← listToDocs style es
    if elements.isEmpty then return .text "[]"
    let trailing := if style.trailingCommas then .ifBreak (.text ",") (.text "") else .text ""
    return .group (.concat [.text "[",
      .indent (.concat [.softBreak, Doc.join comma elements, trailing]),
      .softBreak, .text "]"]) false
  | .binary left operator right _ => do
    let left ← toDoc style left
    let right ← toDoc style right
    return .group (.concat [left, .text " ", .text operator,
      .indent (.concat [.blankBreak, right])]) false
  | .pair p => pairToDoc style p
  | .pairs ps => pairsToDoc style ps
  | .bareHash ps _ => do
    return .group (Doc.join comma (← pairListToDocs style ps)) false
  | .hash none _ => .ok (.text "\x7b\x7d")
  | .hash (some ps) _ => do
    if ps.isEmpty then return .text "\x7b\x7d"
    let body ← pairsToDoc style ps
    return .group (.concat [.text "\x7b", .indent (.concat [.blankBreak, body]),
      .concat [.blankBreak, .text "\x7d"]]) false

/-- The documents of expressions. -/
def listToDocs (style : Style) : List Ruby → Except Fault (List Doc)
  | [] => .ok []
  | r :: rs => do
    let first ← toDoc style r
    return first :: (← listToDocs style rs)

/-- The document of a pair. -/
def pairToDoc (style : Style) : Pair → Except Fault Doc
  | .mk key value _ => do
    let keyDoc ← separated style key (← toDoc style key)
    let valueDoc ← toDoc style value
    if value.isCompact then return .group (.concat [keyDoc, .text " ", valueDoc]) false
    else return .group (.concat [keyDoc, .indent (.concat [.blankBreak, valueDoc])]) false

/-- The document of the pairs between braces. -/
def pairsToDoc (style : Style) : Pairs → Except Fault Doc
  | .mk ps _ => do
    let docs ← pairListToDocs style ps
    let trailing := if docs.isEmpty then [] else lastComma style
    return .group (.concat (Doc.separate comma docs ++ trailing)) false

/-- The documents of pairs. -/
def pairListToDocs (style : Style) : List Pair → Except Fault (List Doc)
  | [] => .ok []
  | p :: ps => do
    let first ← pairToDoc style p
    return first :: (← pairListToDocs style ps)

end

end Ruby

end HamlFormat
