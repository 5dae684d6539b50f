import HamlFormat.Fault

/-!
# HamlFormat.Doc.Basic

Documents: descriptions of text that leave the line breaks open. A printer
builds a document, and the layout (`HamlFormat.Layout`) decides for a page width
which lines break.

A printer may put a value from an unchecked tree where a document belongs. Such a
value is kept as `Doc.alien`; a document that holds one is not well formed and is
refused by everything that walks it.
-/

namespace HamlFormat

/-- A document. -/
inductive Doc where
  /-- Literal text, without line ends. -/
  | text (s : Text)
  /-- Documents one after another. -/
  | concat (parts : List Doc)
  /-- One decision for everything inside: on one line if that fits, else broken.
  The flag forces the broken form. -/
  | group (contents : Doc) (shouldBreak : Bool)
  /-- One level more of indentation for the line breaks inside. -/
  | indent (contents : Doc)
  /-- So many columns more of indentation for the line breaks inside. -/
  | align (columns : Int) (contents : Doc)
  /-- Contents and separators in turn; a separator breaks only where the content
  after it does not fit. -/
  | fill (parts : List Doc)
  /-- One document in a broken group, another in a flat one. -/
  | ifBreak (whenBroken whenFlat : Doc)
  /-- A line break: a space when flat, or nothing if it is soft; a hard one always
  breaks, and every group around it with it. -/
  | line (hard soft : Bool)
  /-- Prints nothing and breaks every group around it. -/
  | breakParent
  /-- The contents with indentation started anew from the first column. -/
  | root (contents : Doc)
  /-- A plain value where a document belongs. -/
  | alien (value : Json)
  deriving Inhabited

namespace Doc

/-! ## Building documents -/

/-- A space when flat, a line end when broken. -/
def blankBreak : Doc := .line false false

/-- Nothing when flat, a line end when broken. -/
def softBreak : Doc := .line false true

/-- Always a line end. -/
def hardBreak : Doc := .line true false

/-- The list with a separator between each two neighbours. -/
def separate (separator : Doc) : List Doc → List Doc
  | [] => []
  | [part] => [part]
  | part :: parts => part :: separator :: separate separator parts

/-- Documents one after another with a separator between each two. -/
def join (separator : Doc) (parts : List Doc) : Doc :=
  .concat (separate separator parts)

/-- A value from an unchecked tree, put where a document belongs: only a text is
one. -/
def ofJson : Json → Doc
  | .str s => .text s
  | value => .alien value

/-- Literal text from a value that must be a text. -/
def textOf : Json → Except Fault Doc
  | .str s => .ok (.text s)
  | value => .error (.notText value)

/-! ## Size -/

mutual

/-- How much work a document is. Each part of a fill counts one more, so that
taking the first parts off a fill makes less work. -/
def weight : Doc → Nat
  | .text _ | .line _ _ | .breakParent | .alien _ => 1
  | .concat parts => 1 + listWeight parts
  | .group contents _ | .indent contents | .align _ contents | .root contents =>
    1 + contents.weight
  | .fill parts => 1 + parts.length + listWeight parts
  | .ifBreak whenBroken whenFlat => 1 + whenBroken.weight + whenFlat.weight

/-- How much work a list of documents is. -/
def listWeight : List Doc → Nat
  | [] => 0
  | part :: parts => part.weight + listWeight parts

end

end Doc

end HamlFormat
