import HamlFormat.Proofs.Tree.Sorted

/-!
# HamlFormat.Proofs.Tree.TextRoundTrip

Trees written as JSON text and read back. Every tree that was read from data can be
written and read back, but fields are written in the order of their names, and the
attributes of a tag are among these. So a tree comes back as it was exactly where
the attributes of its tags stood in that order (`read_write_iff_isSorted`).
-/

namespace HamlFormat

open Json

namespace Node

/-- A tree with the attributes of every tag in the order of their names and all
values sorted. -/
def sorted : Node → Node
  | .markup m => .markup m.sorted
  | .ruby r => .ruby r.sorted

/-- Whether the attributes of every tag stand in the order of their names and all
values are sorted. -/
def isSorted : Node → Bool
  | .markup m => m.all Markup.isSorted
  | .ruby r => r.isSorted

variable {node : Node}

theorem sorted_eq_self_iff (h : node.toJson.hasDistinctNames = true) :
    node.sorted = node ↔ node.isSorted = true := by
  cases node with
  | markup m => simpa [sorted, isSorted] using Markup.sorted_eq_self_iff h
  | ruby r => simpa [sorted, isSorted] using Ruby.sorted_eq_self_iff h

theorem ofJson_sortFields (h : node.isNormal = true)
    (hnames : node.toJson.hasDistinctNames = true) :
    Node.ofJson node.toJson.sortFields = .ok node.sorted := by
  cases node with
  | markup m =>
      rw [isNormal, Bool.and_eq_true] at h
      obtain ⟨name, htype, hname⟩ := exists_name_markup m
      exact ofJson_of_markup (get_sortFields hnames htype) (Text.toString?_ofString name) hname
        (Markup.ofJson_sortFields h.1 hnames)
  | ruby r =>
      obtain ⟨s, name, hkind, hs, hname⟩ := Ruby.exists_name_of_isNormal h
      rw [List.mem_cons, not_or] at hname
      have htype : r.toJson.get "type" = .ok (.str s) := hkind ▸ Ruby.get_type_toJson r
      exact ofJson_of_ruby (get_sortFields hnames htype) hs hname.2
        (Ruby.ofJson_sortFields h hnames)

theorem read_of_read {t : Text} {data : Json} (h : Json.read t = .ok data)
    (hnode : Node.ofJson data = .ok node) : Node.read t = .ok node := by
  obtain ⟨kind, hkind, -⟩ := Fault.bind_eq_ok.mp hnode
  obtain ⟨fields, rfl, -⟩ := eq_obj_of_get hkind
  rw [Node.read, h]
  exact hnode

/-- **A tree that is written as text and read back has its attributes sorted.** For
every tree that was read from data without double names, whose texts and numbers
JSON can hold, and for every layout that indents by blanks, reading back succeeds.
The tree that is read has the attributes of every tag in the order of their names,
so it is the tree that was written exactly where they stood in that order before. -/
theorem read_write_iff_isSorted {data : Json} {node : Node} {indent : Json.Indent}
    (h : Node.ofJson data = .ok node) (hnames : data.hasDistinctNames = true)
    (hreadable : node.toJson.isReadable = true) (hindent : indent.isBlank = true) :
    Node.read (node.write indent) = .ok node.sorted ∧
      (Node.read (node.write indent) = .ok node ↔ node.isSorted = true) := by
  have hdistinct : node.toJson.hasDistinctNames = true := hasDistinctNames_toJson hnames h
  have htext : Json.read (node.write indent) = .ok node.toJson.sortFields :=
    read_write hindent (isReadable_sortFields hreadable) (hasDistinctNames_sortFields hdistinct)
  have hread : Node.read (node.write indent) = .ok node.sorted :=
    read_of_read htext (ofJson_sortFields (isNormal_of_ofJson hnames h) hdistinct)
  refine ⟨hread, ?_⟩
  rw [hread, Except.ok.injEq]
  exact sorted_eq_self_iff hdistinct

/-- A link is kept if its target stands before its title; the other way round, the two
change places. -/
theorem read_write_link :
    let link (attributes : List (Text × Text)) : Markup := .root [.tag ⟨.str "a", attributes,
      false, false, false, .str "é", false, ⟨.null, .str "(x)"⟩, .null⟩ [] (.int 1)] .null
    let kept : Node := .markup (link [("href", "/"), ("title", "t")])
    let swapped : Node := .markup (link [("title", "t"), ("href", "/")])
    Node.read (kept.write (some "  ")) = .ok kept ∧
      Node.read (swapped.write none) = .ok kept ∧ Node.read (swapped.write none) ≠ .ok swapped := by
  intro link kept swapped
  have hkept : Node.read (kept.write (some "  ")) = .ok kept.sorted ∧
      (Node.read (kept.write (some "  ")) = .ok kept ↔ kept.isSorted = true) :=
    read_write_iff_isSorted (ofJson_markup (by decide +kernel)) (by decide +kernel)
      (by decide +kernel) (by decide +kernel)
  have hswapped : Node.read (swapped.write none) = .ok swapped.sorted ∧
      (Node.read (swapped.write none) = .ok swapped ↔ swapped.isSorted = true) :=
    read_write_iff_isSorted (ofJson_markup (by decide +kernel)) (by decide +kernel)
      (by decide +kernel) rfl
  have hsorted : swapped.sorted = kept := by decide +kernel
  refine ⟨hkept.2.mpr (by decide +kernel), hsorted ▸ hswapped.1, ?_⟩
  rw [ne_eq, hswapped.2]
  decide +kernel

end Node

end HamlFormat
