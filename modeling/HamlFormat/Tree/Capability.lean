import HamlFormat.Json.Literal

/-!
# HamlFormat.Tree.Capability

What can be done with the things in a syntax tree. A name inside a tree may stand
for something that can be done with a value, such as the `upper` case of a text,
and not for a part of it. A walk can get there but no further, as there is
nothing inside.
-/

namespace HamlFormat

/-- What can be done with something. -/
inductive Capability where
  /-- With a sequence or a plain value. -/
  | basic
  /-- With a record of the tree. -/
  | ofRecord
  deriving DecidableEq

namespace Capability

/-- The name of the kind, as messages give it. -/
def className : Capability → String
  | .basic => "builtin_function_or_method"
  | .ofRecord => "method"

/-! ## Names -/

/-- With a sequence that does not change. -/
def tupleNames : List String :=
  ["count", "index"]

/-- With a list. -/
def listNames : List String :=
  ["append", "clear", "copy", "count", "extend", "index", "insert", "pop", "remove", "reverse",
   "sort"]

/-- With an object. -/
def objectNames : List String :=
  ["clear", "copy", "fromkeys", "get", "items", "keys", "pop", "popitem", "setdefault", "update",
   "values"]

/-- With a text. -/
def textNames : List String :=
  ["capitalize", "casefold", "center", "count", "encode", "endswith", "expandtabs", "find",
   "format", "format_map", "index", "isalnum", "isalpha", "isascii", "isdecimal", "isdigit",
   "isidentifier", "islower", "isnumeric", "isprintable", "isspace", "istitle", "isupper", "join",
   "ljust", "lower", "lstrip", "maketrans", "partition", "removeprefix", "removesuffix",
   "replace", "rfind", "rindex", "rjust", "rpartition", "rsplit", "rstrip", "split", "splitlines",
   "startswith", "strip", "swapcase", "title", "translate", "upper", "zfill"]

/-- With an integer or a truth value. -/
def integerNames : List String :=
  ["as_integer_ratio", "bit_count", "bit_length", "conjugate", "from_bytes", "to_bytes"]

/-- With a number in double precision. -/
def floatNames : List String :=
  ["as_integer_ratio", "conjugate", "fromhex", "hex", "is_integer"]

/-- The names that a plain value knows. -/
def valueNames : Json → List String
  | .null => []
  | .bool _ | .int _ => integerNames
  | .float _ => floatNames
  | .str _ => textNames
  | .arr _ => listNames
  | .obj _ => objectNames

/-! ## Look-up -/

/-- What a name stands for in a plain value. -/
def ofValue? (value : Json) (name : String) : Option Capability :=
  if (valueNames value).contains name then some .basic else none

/-- What a name stands for in a sequence. -/
def ofTuple? (name : String) : Option Capability :=
  if tupleNames.contains name then some .basic else none

/-- What a name stands for in a tag's record: its attributes can be looked up. -/
def ofTag? (name : String) : Option Capability :=
  if name == "attribute" then some .ofRecord else none

end Capability

end HamlFormat
