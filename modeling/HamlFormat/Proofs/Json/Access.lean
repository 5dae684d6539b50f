import HamlFormat.Proofs.Fault
import HamlFormat.Tree.Read
import HamlFormat.Tree.Write

/-!
# HamlFormat.Proofs.Json.Access

What the accessors yield, said without the weights that they carry: a field is
what its name is looked up as, and the elements of an array are its items. The
second half says this of data in the shape in which nodes are written
(`Json.node`).
-/

namespace HamlFormat.Json

variable {fields : List (Text × Json)} {name : Text} {value line : Json}

/-! ## Fields -/

theorem findField_eq (name : Text) (fields : List (Text × Json)) :
    (findField name fields).map Subtype.val = fields.lookup name := by
  induction fields with
  | nil => rfl
  | cons entry fields ih =>
      obtain ⟨key, value⟩ := entry
      by_cases hkey : key = name
      · subst hkey
        simp [findField]
      · have hname : (name == key) = false := by simpa using Ne.symm hkey
        rw [findField, if_neg (by simpa using hkey), List.lookup_cons, hname, ← ih]
        cases findField name fields <;> rfl

/-- A field is what its name is looked up as, `null` if it is absent. -/
theorem get_obj (name : Text) (fields : List (Text × Json)) :
    (Json.obj fields).get name = .ok ((fields.lookup name).getD .null) := by
  rw [← findField_eq, get, get?]
  cases findField name fields <;> rfl

/-- Only objects have fields. -/
theorem eq_obj_of_get {data value : Json} (h : data.get name = .ok value) :
    ∃ fields, data = .obj fields ∧ value = (fields.lookup name).getD .null := by
  cases data with
  | obj fields =>
      rw [get_obj] at h
      cases h
      exact ⟨fields, rfl, rfl⟩
  | _ => cases h

theorem field_obj (h : fields.lookup name = some value) :
    ∃ hlt, (Json.obj fields).field name = .ok ⟨value, hlt⟩ := by
  rw [← findField_eq] at h
  rw [field]
  cases hfind : findField name fields with
  | none => rw [hfind] at h; cases h
  | some found =>
      rw [hfind] at h
      cases h
      exact ⟨_, rfl⟩

theorem lookup_of_field {part : Part (.obj fields)} (h : (Json.obj fields).field name = .ok part) :
    fields.lookup name = some part.1 := by
  rw [field] at h
  rw [← findField_eq]
  cases hfind : findField name fields with
  | none => rw [hfind] at h; cases h
  | some found =>
      rw [hfind] at h
      cases h
      rfl

/-! ## Items -/

/-- The elements of a part that is an array are its items. -/
theorem Part.elements_arr {whole : Json} {items : List Json}
    (hlt : (Json.arr items).weight < whole.weight) :
    ∃ parts, Part.elements (⟨.arr items, hlt⟩ : Part whole) = .ok parts ∧
      parts.map Subtype.val = items := by
  refine ⟨_, rfl, ?_⟩
  rw [List.map_map]
  exact List.attachWith_map_subtype_val _

theorem item_arr {items : List Json} {index : Nat} (h : items[index]? = some value) :
    ∃ hle, (Json.arr items).item index = .ok ⟨value, hle⟩ := by
  obtain ⟨hindex, rfl⟩ := List.getElem?_eq_some_iff.mp h
  rw [item, dif_pos hindex]
  exact ⟨_, rfl⟩

theorem Part.item_arr {whole : Json} {items : List Json} {index : Nat}
    (hlt : (Json.arr items).weight < whole.weight) (h : items[index]? = some value) :
    ∃ hvalue, Part.item (⟨.arr items, hlt⟩ : Part whole) index = .ok ⟨value, hvalue⟩ := by
  obtain ⟨hle, hitem⟩ := Json.item_arr h
  rw [Part.item, hitem]
  exact ⟨_, rfl⟩

/-! ## Nodes as they are written -/

theorem get_node (hname : name ≠ "line") :
    (Json.node fields line).get name = .ok ((fields.lookup name).getD .null) := by
  rw [node, get_obj]
  split
  · rfl
  · have hline : List.lookup name [((.ofString "line" : Text), line)] = none := by
      rw [List.lookup_cons, beq_eq_false_iff_ne.mpr hname]
      rfl
    rw [List.lookup_append, hline, Option.or_none]

theorem get_node_line (h : fields.lookup (.ofString "line") = none) :
    (Json.node fields line).get "line" = .ok line := by
  rw [node, get_obj]
  cases hnull : line.isNull with
  | true =>
      cases line with
      | null => rw [if_pos rfl, h]; rfl
      | _ => cases hnull
  | false =>
      rw [if_neg Bool.false_ne_true, List.lookup_append, h]
      simp

theorem field_node (h : fields.lookup name = some value) :
    ∃ hlt, (Json.node fields line).field name = .ok ⟨value, hlt⟩ := by
  refine field_obj ?_
  split
  · exact h
  · rw [List.lookup_append, h, Option.some_or]

/-- The nested nodes of a markup node, if they are given as an array. -/
theorem childNodes_arr {data : Json} {children : List Json}
    (h : data.get "children" = .ok (.arr children)) :
    ∃ parts, data.childNodes = .ok parts ∧ parts.map Subtype.val = children := by
  obtain ⟨found, hfound, h⟩ := Fault.bind_eq_ok.mp h
  cases found with
  | none => cases h
  | some part =>
      obtain ⟨value, hlt⟩ := part
      cases h
      rw [childNodes, hfound, Fault.ok_bind]
      cases children with
      | nil => exact ⟨[], rfl, rfl⟩
      | cons child children => exact Part.elements_arr hlt

/-! ## Bodies as they are written -/

section

variable {data : Json} {items : List Json} {hlt : (Json.arr items).weight < data.weight}

theorem bodyItem_arr (hbody : data.field "body" = .ok ⟨.arr items, hlt⟩) (index : Nat)
    (value : Json) (h : items[index]? = some value) :
    ∃ hvalue, data.bodyItem index = .ok ⟨value, hvalue⟩ := by
  rw [bodyItem, hbody]
  exact Part.item_arr hlt h

end

section

variable {data first : Json} {hlt : (Json.arr [first]).weight < data.weight}

theorem bodyFirst?_null {hnull : (Json.arr [.null]).weight < data.weight}
    (hbody : data.field "body" = .ok ⟨.arr [.null], hnull⟩) : data.bodyFirst? = .ok none := by
  rw [bodyFirst?, hbody]
  rfl

theorem bodyFirst?_singleton (hbody : data.field "body" = .ok ⟨.arr [first], hlt⟩)
    (hfirst : first.isNull = false) : ∃ hlt, data.bodyFirst? = .ok (some ⟨first, hlt⟩) := by
  obtain ⟨hpart, hitem⟩ : ∃ hpart, Part.item ⟨.arr [first], hlt⟩ 0 = .ok ⟨first, hpart⟩ :=
    Part.item_arr hlt rfl
  refine ⟨hpart, ?_⟩
  rw [bodyFirst?, hbody, Fault.ok_bind, if_pos (by rfl), hitem, Fault.ok_bind,
    if_neg (by simp [hfirst])]
  rfl

/-- The body of a wrapper that is alone in the body of a node. -/
theorem unwrappedBody_wrapped {wrapper : Text} {body : Json}
    (hbody : data.field "body" = .ok ⟨.arr [first], hlt⟩)
    (htype : first.get "type" = .ok (.str wrapper))
    (hinner : ∃ hinner, first.field "body" = .ok ⟨body, hinner⟩) :
    ∃ hbody, data.unwrappedBody wrapper = .ok ⟨body, hbody⟩ := by
  obtain ⟨hpart, hitem⟩ : ∃ hpart, Part.item ⟨.arr [first], hlt⟩ 0 = .ok ⟨first, hpart⟩ :=
    Part.item_arr hlt rfl
  obtain ⟨hinner, hfield⟩ := hinner
  obtain ⟨fields, rfl, -⟩ := eq_obj_of_get htype
  rw [unwrappedBody, hbody, Fault.ok_bind, if_pos (by rfl), hitem, Fault.ok_bind]
  simp only [htype, Fault.ok_bind, hfield]
  exact ⟨Nat.lt_trans hinner hpart, if_pos (beq_self_eq_true wrapper)⟩

/-- A body whose first node is not a wrapper stands for itself. -/
theorem unwrappedBody_bare {wrapper : Text} {items : List Json}
    {hlt : (Json.arr items).weight < data.weight}
    (hbody : data.field "body" = .ok ⟨.arr items, hlt⟩)
    (hfirst : ∀ first ∈ items, ∃ kind, first.get "type" = .ok kind ∧ kind.isText wrapper = false) :
    data.unwrappedBody wrapper = .ok ⟨.arr items, hlt⟩ := by
  rw [unwrappedBody, hbody, Fault.ok_bind]
  cases items with
  | nil => rfl
  | cons first rest =>
      obtain ⟨hpart, hitem⟩ : ∃ hpart, Part.item ⟨.arr (first :: rest), hlt⟩ 0 =
          .ok ⟨first, hpart⟩ := Part.item_arr hlt rfl
      obtain ⟨kind, hkind, hwrapper⟩ := hfirst first List.mem_cons_self
      obtain ⟨fields, rfl, -⟩ := eq_obj_of_get hkind
      rw [if_pos (by rfl), hitem, Fault.ok_bind]
      dsimp only
      rw [hkind, Fault.ok_bind, if_neg (by simp [hwrapper])]
      rfl

/-- The pairs in a list of their own. -/
theorem pairNodes_nested {items : List Json} {hlt : (Json.arr [.arr items]).weight < data.weight}
    (hbody : data.field "body" = .ok ⟨.arr [.arr items], hlt⟩) :
    ∃ parts, data.pairNodes = .ok parts ∧ parts.map Subtype.val = items := by
  obtain ⟨hpart, hitem⟩ : ∃ hpart, Part.item ⟨.arr [.arr items], hlt⟩ 0 =
      .ok ⟨.arr items, hpart⟩ := Part.item_arr hlt rfl
  rw [pairNodes, hbody, Fault.ok_bind, if_pos (by rfl), hitem]
  exact Part.elements_arr hpart

end

end HamlFormat.Json
