import HamlFormat.Doc.Basic
import HamlFormat.Json.Escape

/-!
# HamlFormat.Doc.Describe

A document as the builder calls that make it, for looking at what a printer
built: `group(concat(["a", line, "b"]))`.
-/

namespace HamlFormat.Doc

/-- A text as it stands in a builder call: a JSON string that keeps every
character it can. -/
def describeText (s : Text) : Text :=
  Json.stringText Json.isStringText s

/-- Whether a document is the empty text, which `if_break` takes by default. -/
def isEmptyText : Doc → Bool
  | .text s => s.isEmpty
  | _ => false

mutual

/-- The builder calls that make a document. Fails at the first plain value that
stands where a document belongs. -/
def describe : Doc → Except Fault Text
  | .text s => .ok (describeText s)
  | .concat parts => do
    return "concat([" ++ List.intercalate ", " (← describeList parts) ++ "])"
  | .fill parts => do
    return "fill([" ++ List.intercalate ", " (← describeList parts) ++ "])"
  | .group contents true => do return "group(" ++ (← describe contents) ++ ", should_break=True)"
  | .group contents false => do return "group(" ++ (← describe contents) ++ ")"
  | .indent contents => do return "indent(" ++ (← describe contents) ++ ")"
  | .align columns contents => do
    return "align(" ++ intText columns ++ ", " ++ (← describe contents) ++ ")"
  | .root contents => do return "mark_as_root(" ++ (← describe contents) ++ ")"
  | .ifBreak whenBroken whenFlat => do
    let broken ← describe whenBroken
    if whenFlat.isEmptyText then return "if_break(" ++ broken ++ ")"
    let flat ← describe whenFlat
    return "if_break(" ++ broken ++ ", " ++ flat ++ ")"
  | .line true _ => .ok "hardline"
  | .line false true => .ok "softline"
  | .line false false => .ok "line"
  | .breakParent => .ok "break_parent"
  | .alien value => .error (.unexpectedDoc value)

/-- The builder calls that make each document. -/
def describeList : List Doc → Except Fault (List Text)
  | [] => .ok []
  | part :: parts => do
    let first ← describe part
    let rest ← describeList parts
    return first :: rest

end

end HamlFormat.Doc
