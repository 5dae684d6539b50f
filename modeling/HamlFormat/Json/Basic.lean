import HamlFormat.Number.Binary64
import HamlFormat.Text.Basic

/-!
# HamlFormat.Json.Basic

JSON data. Syntax trees and settings arrive in this form and are not checked
beforehand: a field may hold a value of any kind. Integers have any size and are
kept apart from double precision numbers, and an object keeps the order of its
fields.
-/

namespace HamlFormat

/-- A JSON value. -/
inductive Json where
  | null
  | bool (b : Bool)
  | int (n : Int)
  | float (x : Binary64)
  | str (s : Text)
  | arr (items : List Json)
  | obj (fields : List (Text × Json))
  deriving Inhabited

namespace Json

/-! ## Equality -/

mutual

/-- Whether two values are the same, fields in the same order. -/
def same : Json → Json → Bool
  | .null, .null => true
  | .bool a, .bool b => a == b
  | .int a, .int b => a == b
  | .float a, .float b => a == b
  | .str a, .str b => a == b
  | .arr as, .arr bs => sameItems as bs
  | .obj as, .obj bs => sameFields as bs
  | _, _ => false

/-- Whether two lists hold the same values. -/
def sameItems : List Json → List Json → Bool
  | [], [] => true
  | a :: as, b :: bs => same a b && sameItems as bs
  | _, _ => false

/-- Whether two lists hold the same fields. -/
def sameFields : List (Text × Json) → List (Text × Json) → Bool
  | [], [] => true
  | (k, a) :: as, (l, b) :: bs => k == l && same a b && sameFields as bs
  | _, _ => false

end

mutual

/-- `same` decides equality of values. -/
theorem same_iff : ∀ a b : Json, same a b = true ↔ a = b
  | .arr as, .arr bs => by simp [same, sameItems_iff as bs]
  | .obj as, .obj bs => by simp [same, sameFields_iff as bs]
  | .null, b | .bool _, b | .int _, b | .float _, b | .str _, b => by cases b <;> simp [same]
  | .arr _, .null | .arr _, .bool _ | .arr _, .int _ | .arr _, .float _ | .arr _, .str _
  | .arr _, .obj _ => by simp [same]
  | .obj _, .null | .obj _, .bool _ | .obj _, .int _ | .obj _, .float _ | .obj _, .str _
  | .obj _, .arr _ => by simp [same]

/-- `sameItems` decides equality of lists of values. -/
theorem sameItems_iff : ∀ as bs : List Json, sameItems as bs = true ↔ as = bs
  | [], bs => by cases bs <;> simp [sameItems]
  | a :: as, [] => by simp [sameItems]
  | a :: as, b :: bs => by simp [sameItems, same_iff a b, sameItems_iff as bs]

/-- `sameFields` decides equality of lists of fields. -/
theorem sameFields_iff : ∀ as bs : List (Text × Json), sameFields as bs = true ↔ as = bs
  | [], bs => by cases bs <;> simp [sameFields]
  | (k, a) :: as, [] => by simp [sameFields]
  | (k, a) :: as, (l, b) :: bs => by
    simp [sameFields, same_iff a b, sameFields_iff as bs, Prod.ext_iff]

end

instance : DecidableEq Json := fun a b => decidable_of_iff _ (same_iff a b)

/-! ## Size -/

mutual

/-- How many values and field names a value is made of. -/
def weight : Json → Nat
  | .arr items => 1 + itemsWeight items
  | .obj fields => 1 + fieldsWeight fields
  | _ => 1

/-- The weight of a list of values. -/
def itemsWeight : List Json → Nat
  | [] => 0
  | item :: items => item.weight + itemsWeight items

/-- The weight of a list of fields. -/
def fieldsWeight : List (Text × Json) → Nat
  | [] => 0
  | (_, value) :: fields => 1 + value.weight + fieldsWeight fields

end

/-! ## Kinds -/

/-- The name of a value's kind, as messages give it. -/
def typeName : Json → String
  | .null => "NoneType"
  | .bool _ => "bool"
  | .int _ => "int"
  | .float _ => "float"
  | .str _ => "str"
  | .arr _ => "list"
  | .obj _ => "dict"

/-- Whether a value counts as present: `null`, `false`, zero and everything empty
do not. -/
def truthy : Json → Bool
  | .null => false
  | .bool b => b
  | .int n => n != 0
  | .float x => !x.isZero
  | .str s => !s.isEmpty
  | .arr items => !items.isEmpty
  | .obj fields => !fields.isEmpty

/-- The value if it counts as present, else a default. -/
def orElse (value default : Json) : Json :=
  if value.truthy then value else default

/-- Whether a value is `null`. -/
def isNull : Json → Bool
  | .null => true
  | _ => false

/-- Whether a value is a certain text. -/
def isText (value : Json) (s : Text) : Bool :=
  match value with
  | .str t => t == s
  | _ => false

/-- The integer that a value counts as; a truth value counts as one or zero. -/
def int? : Json → Option Int
  | .int n => some n
  | .bool b => some (if b then 1 else 0)
  | _ => none

/-- A text of one character. -/
def ofChar (c : CodePoint) : Json :=
  .str [c]

end Json

end HamlFormat
