import HamlFormat.Fault

/-!
# HamlFormat.Json.Access

Taking unchecked data apart. Every accessor fails with a cause when the value is
of a kind that has no such part. What an accessor yields is never heavier than
what it was taken from, and the parts of a container are lighter, so reading a
tree recursively ends.
-/

namespace HamlFormat.Json

/-- A value that is lighter than another one. -/
abbrev Part (whole : Json) := { part : Json // part.weight < whole.weight }

/-- A value that is no heavier than another one. -/
abbrev AtMost (whole : Json) := { part : Json // part.weight ≤ whole.weight }

/-- A part is lighter than the whole. -/
theorem Part.weight_lt {whole : Json} (part : Part whole) : part.1.weight < whole.weight :=
  part.2

/-- An item is no heavier than its list. -/
theorem weight_le_itemsWeight {item : Json} :
    ∀ {items : List Json}, item ∈ items → item.weight ≤ itemsWeight items
  | _ :: _, .head _ => by simp [itemsWeight]
  | _ :: _, .tail _ h => by
    have := weight_le_itemsWeight h
    simp only [itemsWeight]
    omega

/-! ## Fields -/

/-- The field with a given name, lighter than the list of fields. -/
def findField (name : Text) :
    (fields : List (Text × Json)) → Option { value : Json // value.weight < fieldsWeight fields }
  | [] => none
  | (key, value) :: fields =>
    if key == name then some ⟨value, by simp only [fieldsWeight]; omega⟩
    else
      match findField name fields with
      | none => none
      | some ⟨found, h⟩ => some ⟨found, by simp only [fieldsWeight]; omega⟩

/-- A field of an object, if the object has it. Only objects have fields. -/
def get? (value : Json) (name : Text) : Except Fault (Option (Part value)) :=
  match value with
  | .obj fields =>
    match findField name fields with
    | none => .ok none
    | some ⟨found, h⟩ => .ok (some ⟨found, by simp only [weight]; omega⟩)
  | _ => .error .noMember

/-- A field of an object, `null` if it is absent. -/
def get (value : Json) (name : Text) : Except Fault Json := do
  match ← value.get? name with
  | none => return .null
  | some ⟨found, _⟩ => return found

/-- A field that an object must have. -/
def field (value : Json) (name : Text) : Except Fault (Part value) :=
  match value with
  | .obj fields =>
    match findField name fields with
    | none => .error (.missingField name)
    | some ⟨found, h⟩ => .ok ⟨found, by simp only [weight]; omega⟩
  | _ => .error .mismatch

/-! ## Items -/

/-- An item of an array or a character of a text, by position. -/
def item (value : Json) (index : Nat) : Except Fault (AtMost value) :=
  match value with
  | .arr items =>
    if h : index < items.length then
      .ok ⟨items[index], by
        have := weight_le_itemsWeight (List.getElem_mem h)
        simp only [weight]
        omega⟩
    else .error .outOfRange
  | .str s =>
    match s[index]? with
    | none => .error .outOfRange
    | some c => .ok ⟨ofChar c, by simp [ofChar, weight]⟩
  | .obj _ => .error (.missingItem (.int index))
  | _ => .error .mismatch

/-- The values that a value runs through: the items of an array, the characters
of a text, the names of an object's fields. -/
def elements (value : Json) : Except Fault (List (AtMost value)) :=
  match value with
  | .arr items =>
    .ok (items.attachWith _ fun item h => by
      have := weight_le_itemsWeight h
      simp only [weight]
      omega)
  | .str s => .ok (s.map fun c => ⟨ofChar c, by simp [ofChar, weight]⟩)
  | .obj fields =>
    .ok (fields.map fun f => ⟨.str f.1, by simp [weight]⟩)
  | _ => .error .mismatch

/-! ## Keys -/

/-- The name under which a value can be looked up in a table, `none` if no table
has it. Arrays and objects cannot be looked up. -/
def key? : Json → Except Fault (Option Text)
  | .str s => .ok (some s)
  | .arr _ | .obj _ => .error .mismatch
  | _ => .ok none

end HamlFormat.Json
