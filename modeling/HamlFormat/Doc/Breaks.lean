import HamlFormat.Doc.Basic

/-!
# HamlFormat.Doc.Breaks

Which groups must break. A hard line break, a `breakParent` or a group that is
told to break forces every group around it to break. `settle` raises the flag of
each group that must, so that the layout finds every forced decision on the group
itself.
-/

namespace HamlFormat.Doc

mutual

/-- The document with the flag of every group that must break raised, and whether
the document forces the groups around it to break. Fails at the first plain value
that stands where a document belongs. -/
def settle : Doc → Except Fault (Doc × Bool)
  | .text s => .ok (.text s, false)
  | .concat parts => do
    let (parts, forces) ← settleList parts
    return (.concat parts, forces)
  | .fill parts => do
    let (parts, forces) ← settleList parts
    return (.fill parts, forces)
  | .group contents shouldBreak => do
    let (contents, forces) ← settle contents
    return (.group contents (forces || shouldBreak), forces || shouldBreak)
  | .indent contents => do
    let (contents, forces) ← settle contents
    return (.indent contents, forces)
  | .align columns contents => do
    let (contents, forces) ← settle contents
    return (.align columns contents, forces)
  | .root contents => do
    let (contents, forces) ← settle contents
    return (.root contents, forces)
  | .ifBreak whenBroken whenFlat => do
    let (whenBroken, forces) ← settle whenBroken
    let (whenFlat, alsoForces) ← settle whenFlat
    return (.ifBreak whenBroken whenFlat, alsoForces || forces)
  | .line hard soft => .ok (.line hard soft, hard)
  | .breakParent => .ok (.breakParent, true)
  | .alien value => .error (.unexpectedDoc value)

/-- Settle each document; whether any of them forces the groups around it. -/
def settleList : List Doc → Except Fault (List Doc × Bool)
  | [] => .ok ([], false)
  | part :: parts => do
    let (part, forces) ← settle part
    let (parts, alsoForce) ← settleList parts
    return (part :: parts, forces || alsoForce)

end

mutual

/-- The flags of a document's groups, outer before inner and left before right. -/
def groupFlags : Doc → List Bool
  | .text _ | .line _ _ | .breakParent | .alien _ => []
  | .concat parts | .fill parts => listFlags parts
  | .group contents shouldBreak => shouldBreak :: groupFlags contents
  | .indent contents | .align _ contents | .root contents => groupFlags contents
  | .ifBreak whenBroken whenFlat => groupFlags whenBroken ++ groupFlags whenFlat

/-- The flags of the groups of several documents. -/
def listFlags : List Doc → List Bool
  | [] => []
  | part :: parts => groupFlags part ++ listFlags parts

end

/-- For each group of a document, whether it must break. -/
def forcedGroups (doc : Doc) : Except Fault (List Bool) := do
  let (settled, _) ← doc.settle
  return settled.groupFlags

end HamlFormat.Doc
