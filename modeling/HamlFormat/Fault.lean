import HamlFormat.Json.Literal

/-!
# HamlFormat.Fault

Everything that can go wrong, by cause. The wording of each cause that has one
is given in one place, `Fault.message?`.
-/

namespace HamlFormat

/-- Why data is not a syntax tree. -/
inductive TreeFault where
  /-- A node does not say what kind it is. -/
  | missingType
  /-- The dynamic attributes of a tag are not an object. -/
  | dynamicAttributes (got : Json)
  deriving DecidableEq

/-- Why an external parser gave no tree. -/
inductive ParseFault where
  /-- There is no such program. -/
  | notFound
  /-- The program did not end in time. -/
  | timedOut (limit : Json)
  /-- The program wrote to its error output. -/
  | reported (text : Text)
  /-- The answer is not JSON. -/
  | notJson
  /-- The answer is JSON of another kind than an object. -/
  | notTree (got : Json)
  /-- The answer is an object that is not a syntax tree. -/
  | malformed (cause : TreeFault)
  deriving DecidableEq

/-- Why an operation failed. -/
inductive Fault where
  /-- Nothing is known about nodes of this kind. -/
  | unsupportedNode (kind : Json)
  /-- A plain value stands where a document belongs. -/
  | unexpectedDoc (value : Json)
  /-- An external parser failed. -/
  | parse (cause : ParseFault) (command : List Text)
  /-- No parser has this name. -/
  | unknownParser (name : Json)
  /-- Data is not a syntax tree. -/
  | malformedTree (cause : TreeFault)
  /-- JSON text holds another kind of value than an object. -/
  | notObject (got : Json)
  /-- A parser needs a program to run. -/
  | emptyCommand
  /-- An object lacks a field. -/
  | missingField (name : Text)
  /-- An object was asked for an item by its position. -/
  | missingItem (position : Json)
  /-- Literal text was made from something else. -/
  | notText (got : Json)
  /-- An operation met a value of a kind it does not work on. -/
  | mismatch
  /-- A value has no member of the name asked for. -/
  | noMember
  /-- An index lies outside a sequence. -/
  | outOfRange
  /-- A number is too large for what it is used for. -/
  | overflow
  /-- A text does not fit in memory. -/
  | outOfMemory
  /-- An undefined number was taken for an integer. -/
  | undefinedInteger
  /-- A text is not JSON. -/
  | invalidJson
  /-- An integer has more digits than are read. -/
  | tooManyDigits (limit digits : Nat)
  /-- Bytes are not UTF-8. -/
  | invalidUtf8
  /-- A text has no encoding in UTF-8. -/
  | unencodable
  /-- The system refused to run a program. -/
  | denied
  /-- A caller's own code failed. -/
  | callback (message : Text)
  deriving DecidableEq

/-- What is wrong with a tree, in words. -/
def TreeFault.message : TreeFault → Text
  | .missingType => "Missing 'type' field in syntax tree node"
  | .dynamicAttributes got =>
    "Expected an object for tag dynamic_attributes, got " ++ got.typeName

/-- What an external parser did wrong, in words. -/
def ParseFault.message (program : Text) : ParseFault → Text
  | .notFound => "Parser command not found: " ++ program
  | .timedOut limit => "Parser timed out after " ++ limit.text ++ " seconds"
  | .reported text => text
  | .notJson => "Parser returned invalid JSON"
  | .notTree got => "Parser returned " ++ got.typeName ++ ", expected a syntax tree object"
  | .malformed cause => "Parser returned a malformed syntax tree: " ++ cause.message

/-- What went wrong, in words, for the causes that are reported with a message. -/
def Fault.message? : Fault → Option Text
  | .unsupportedNode kind => some ("Unsupported node encountered: " ++ kind.text)
  | .unexpectedDoc value => some ("Unexpected doc: " ++ value.literal)
  | .parse cause command => some (cause.message (command.headD []))
  | .unknownParser name => some ("Unknown parser: " ++ name.text)
  | .malformedTree cause => some cause.message
  | .notObject got => some ("Expected a JSON object, got " ++ got.typeName)
  | .emptyCommand => some "Parser command must not be empty"
  | .missingField name => some (Text.quoted name)
  | .missingItem position => some position.literal
  | .notText got =>
    some ("Got " ++ got.literal ++ " of type " ++ got.typeName ++ ", expected 'str'")
  | .undefinedInteger => some "cannot convert float NaN to integer"
  | .tooManyDigits limit digits =>
    some ("Exceeds the limit (" ++ intText limit ++
      " digits) for integer string conversion: value has " ++ intText digits ++
      " digits; use sys.set_int_max_str_digits() to increase the limit")
  | .callback message => some message
  | .mismatch | .noMember | .outOfRange | .overflow | .outOfMemory | .invalidJson | .invalidUtf8
  | .unencodable | .denied => none

end HamlFormat
