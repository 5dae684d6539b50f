import HamlFormat.Json.Basic

/-!
# HamlFormat.Tree.Markup

The lines of a HAML document as a parser reports them. As with Ruby expressions,
texts and line numbers may be values of any kind, and an absent one is `null`.
-/

namespace HamlFormat

/-- Attribute hashes that are evaluated when the document is rendered: the source
of a hash in braces and that of a list in parentheses. -/
structure DynamicAttributes where
  old : Json
  new : Json
  deriving DecidableEq

/-- Everything known about an element line. Attributes are in the order in which
they are printed. -/
structure Tag where
  name : Json
  attributes : List (Text × Text)
  selfClosing : Bool
  trimOutside : Bool
  trimInside : Bool
  /-- Content on the element's own line. -/
  value : Json
  /-- Whether that content is evaluated. -/
  parse : Bool
  dynamic : DynamicAttributes
  objectRef : Json
  deriving DecidableEq

/-- An HTML comment. -/
structure Comment where
  revealed : Bool
  conditional : Json
  text : Json
  deriving DecidableEq

/-- A doctype. -/
structure Doctype where
  kind : Json
  version : Json
  encoding : Json
  deriving DecidableEq

/-- A statement, with the word that opens its block if it opens one. -/
structure Statement where
  text : Json
  keyword : Json
  deriving DecidableEq

/-- A line of a document, with the lines nested under it. -/
inductive Markup where
  /-- A whole document. -/
  | root (children : List Markup) (line : Json)
  | tag (tag : Tag) (children : List Markup) (line : Json)
  | comment (comment : Comment) (children : List Markup) (line : Json)
  | doctype (doctype : Doctype) (line : Json)
  /-- A comment that is not rendered. -/
  | hamlComment (text : Json) (children : List Markup) (line : Json)
  /-- Text passed through as it is. -/
  | plain (text line : Json)
  /-- An expression whose result is rendered. -/
  | script (text : Json) (children : List Markup) (line : Json)
  /-- A statement that renders nothing itself. -/
  | silentScript (statement : Statement) (children : List Markup) (line : Json)

namespace Tag

/-- The value of an attribute, if the tag has it. -/
def attribute? (tag : Tag) (name : Text) : Option Text :=
  tag.attributes.lookup name

end Tag

namespace Markup

/-- The name of a line's kind, as messages give it. -/
def className : Markup → String
  | .root _ _ => "Root"
  | .tag _ _ _ => "Tag"
  | .comment _ _ _ => "Comment"
  | .doctype _ _ => "Doctype"
  | .hamlComment _ _ _ => "HamlComment"
  | .plain _ _ => "Plain"
  | .script _ _ _ => "Script"
  | .silentScript _ _ _ => "SilentScript"

/-! ## Equality -/

mutual

/-- Whether two lines are the same, line numbers and nested lines included. -/
def same : Markup → Markup → Bool
  | .root as l, .root bs m => sameList as bs && l == m
  | .tag s as l, .tag t bs m => s == t && sameList as bs && l == m
  | .comment s as l, .comment t bs m => s == t && sameList as bs && l == m
  | .doctype s l, .doctype t m => s == t && l == m
  | .hamlComment s as l, .hamlComment t bs m => s == t && sameList as bs && l == m
  | .plain s l, .plain t m => s == t && l == m
  | .script s as l, .script t bs m => s == t && sameList as bs && l == m
  | .silentScript s as l, .silentScript t bs m => s == t && sameList as bs && l == m
  | _, _ => false

/-- Whether two lists hold the same lines. -/
def sameList : List Markup → List Markup → Bool
  | [], [] => true
  | a :: as, b :: bs => same a b && sameList as bs
  | _, _ => false

end

mutual

/-- `same` decides equality of lines. -/
theorem same_iff : ∀ a b : Markup, same a b = true ↔ a = b
  | .root as _, b | .tag _ as _, b | .comment _ as _, b | .hamlComment _ as _, b
  | .script _ as _, b | .silentScript _ as _, b => by
    cases b <;> simp [same, sameList_iff as, and_assoc]
  | .doctype _ _, b | .plain _ _, b => by cases b <;> simp [same]

/-- `sameList` decides equality of lists of lines. -/
theorem sameList_iff : ∀ as bs : List Markup, sameList as bs = true ↔ as = bs
  | [], bs => by cases bs <;> simp [sameList]
  | a :: as, bs => by cases bs <;> simp [sameList, same_iff a, sameList_iff as]

end

instance : DecidableEq Markup := fun a b => decidable_of_iff _ (same_iff a b)

end Markup

end HamlFormat
