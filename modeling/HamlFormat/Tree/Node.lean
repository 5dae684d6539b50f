import HamlFormat.Tree.Markup
import HamlFormat.Tree.Ruby

/-!
# HamlFormat.Tree.Node

Syntax trees: a HAML document or a Ruby expression.
-/

namespace HamlFormat

/-- The top of a syntax tree. -/
inductive Node where
  | markup (markup : Markup)
  | ruby (ruby : Ruby)
  deriving DecidableEq

/-- The name of a node's kind, as messages give it. -/
def Node.className : Node → String
  | .markup m => m.className
  | .ruby r => r.className

end HamlFormat
