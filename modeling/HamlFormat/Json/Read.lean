import HamlFormat.Fault

/-!
# HamlFormat.Json.Read

Reading JSON text. Beside the standard grammar the words `NaN`, `Infinity` and
`-Infinity` are numbers. A number with a fraction or an exponent is double
precision, any other an integer, of a limited number of digits. When an object
names a field twice the last value counts, at the place of the first.

Every reader takes the text to read and returns what it read together with the
text that follows. Reading goes from left to right and fails with the cause that
it meets first.
-/

namespace HamlFormat.Json

/-- What a reader found, and the text after it. -/
abbrev Found (α : Type) := α × Text

/-- Skip spaces, tabs and line ends. -/
def skipBlank (t : Text) : Text :=
  t.dropWhile fun c => c == ' ' || c == '\t' || c == '\n' || c == '\r'

/-! ## Strings -/

/-- One thing that stands in a string: a character, or a 16-bit unit given by its
number. -/
inductive StringPart where
  | char (c : CodePoint)
  | unit (value : Nat)

/-- The value of a hexadecimal digit. -/
def hexValue? (c : CodePoint) : Option Nat :=
  if '0'.toNat ≤ c.val ∧ c.val ≤ '9'.toNat then some (c.val - '0'.toNat)
  else if 'a'.toNat ≤ c.val ∧ c.val ≤ 'f'.toNat then some (c.val - 'a'.toNat + 10)
  else if 'A'.toNat ≤ c.val ∧ c.val ≤ 'F'.toNat then some (c.val - 'A'.toNat + 10)
  else none

/-- The value of four hexadecimal digits. -/
def unitValue? (a b c d : CodePoint) : Option Nat := do
  return (← hexValue? a) * 0x1000 + (← hexValue? b) * 0x100 + (← hexValue? c) * 0x10 +
    (← hexValue? d)

/-- The character that an escape letter stands for. -/
def letterEscape? (c : CodePoint) : Option CodePoint :=
  if c == '"' || c == '\\' || c == '/' then some c
  else if c == 'n' then some '\n'
  else if c == 'r' then some '\r'
  else if c == 't' then some '\t'
  else if c == 'f' then some '\x0c'
  else if c == 'b' then some '\x08'
  else none

/-- The parts of a string up to its closing quote. -/
def stringParts : Text → Except Fault (Found (List StringPart))
  | [] => .error .invalidJson
  | c :: rest =>
    if c == '"' then .ok ([], rest)
    else if c == '\\' then
      match rest with
      | [] => .error .invalidJson
      | letter :: rest =>
        if letter == 'u' then
          match rest with
          | a :: b :: c :: d :: rest =>
            match unitValue? a b c d with
            | none => .error .invalidJson
            | some value => do
              let (parts, rest) ← stringParts rest
              return (.unit value :: parts, rest)
          | _ => .error .invalidJson
        else
          match letterEscape? letter with
          | none => .error .invalidJson
          | some c => do
            let (parts, rest) ← stringParts rest
            return (.char c :: parts, rest)
    else if c.val < 0x20 then .error .invalidJson
    else do
      let (parts, rest) ← stringParts rest
      return (.char c :: parts, rest)

/-- Whether a unit starts a surrogate pair. -/
def isHighSurrogate (unit : Nat) : Bool :=
  0xd800 ≤ unit && unit < 0xdc00

/-- Whether a unit ends a surrogate pair. -/
def isLowSurrogate (unit : Nat) : Bool :=
  0xdc00 ≤ unit && unit < 0xe000

/-- The text that parts stand for. Two units that form a surrogate pair are one
character; a surrogate on its own stays in the text. -/
def joinParts : List StringPart → Text
  | [] => []
  | .char c :: parts => c :: joinParts parts
  | [.unit value] => [.ofNat value]
  | .unit value :: .char c :: parts => .ofNat value :: c :: joinParts parts
  | .unit high :: .unit low :: parts =>
    if isHighSurrogate high && isLowSurrogate low then
      .ofNat (0x10000 + (high - 0xd800) * 0x400 + (low - 0xdc00)) :: joinParts parts
    else .ofNat high :: joinParts (.unit low :: parts)

/-- A string after its opening quote. -/
def readString (t : Text) : Except Fault (Found Text) := do
  let (parts, rest) ← stringParts t
  return (joinParts parts, rest)

/-! ## Numbers -/

/-- Whether a character is a decimal digit. -/
def isDigit (c : CodePoint) : Bool :=
  '0'.toNat ≤ c.val && c.val ≤ '9'.toNat

/-- The number that decimal digits spell. -/
def digitsValue (digits : Text) : Nat :=
  digits.foldl (fun n c => 10 * n + (c.val - '0'.toNat)) 0

/-- The digits before the point: a single zero, or digits that start with none. -/
def readWhole : Text → Except Fault (Found Text)
  | [] => .error .invalidJson
  | c :: rest =>
    if c == '0' then .ok (['0'], rest)
    else if isDigit c then .ok (c :: rest.takeWhile isDigit, rest.dropWhile isDigit)
    else .error .invalidJson

/-- The digits after a point; a point without digits is left unread. -/
def readFraction (t : Text) : Text × Text :=
  match t with
  | [] => ([], t)
  | point :: rest =>
    let digits := rest.takeWhile isDigit
    if point == '.' && !digits.isEmpty then (digits, rest.dropWhile isDigit) else ([], t)

/-- The sign of an exponent. -/
def readSign (t : Text) : Bool × Text :=
  match t with
  | [] => (false, t)
  | sign :: rest =>
    if sign == '-' then (true, rest)
    else if sign == '+' then (false, rest)
    else (false, t)

/-- An exponent; a mark without digits is left unread. -/
def readExponent (t : Text) : Option Int × Text :=
  match t with
  | [] => (none, t)
  | mark :: rest =>
    let (negative, rest) := readSign rest
    let digits := rest.takeWhile isDigit
    if (mark == 'e' || mark == 'E') && !digits.isEmpty then
      let value : Int := digitsValue digits
      (some (if negative then -value else value), rest.dropWhile isDigit)
    else (none, t)

/-- How many digits an integer may have. -/
def maxDigits : Nat := 4300

/-- An integer of given digits. -/
def readInteger (negative : Bool) (digits : Text) : Except Fault Json :=
  if maxDigits < digits.length then .error (.tooManyDigits maxDigits digits.length)
  else
    let n : Int := digitsValue digits
    .ok (.int (if negative then -n else n))

/-- A number after its sign. -/
def readUnsigned (negative : Bool) (t : Text) : Except Fault (Found Json) := do
  let (whole, rest) ← readWhole t
  let (fraction, rest) := readFraction rest
  let (exponent, rest) := readExponent rest
  if fraction.isEmpty && exponent.isNone then return (← readInteger negative whole, rest)
  else
    let digits := digitsValue (whole ++ fraction)
    return (.float (.ofDecimal negative digits (exponent.getD 0 - fraction.length)), rest)

/-- A number. -/
def readNumber (t : Text) : Except Fault (Found Json) :=
  match t with
  | [] => .error .invalidJson
  | sign :: rest => if sign == '-' then readUnsigned true rest else readUnsigned false t

/-! ## Values -/

/-- The words that are values. -/
def words : List (Text × Json) :=
  [("null", .null), ("true", .bool true), ("false", .bool false), ("NaN", .float .nan),
   ("Infinity", .float (.infinite false)), ("-Infinity", .float (.infinite true))]

/-- A value given by a word. -/
def readWord? (t : Text) : Option (Found Json) :=
  words.findSome? fun word =>
    if word.1.isPrefixOf t then some (word.2, t.drop word.1.length) else none

/-- Set a field: in place if the object has it, else at the end. -/
def putField (name : Text) (value : Json) : List (Text × Json) → List (Text × Json)
  | [] => [(name, value)]
  | (key, old) :: fields =>
    if key == name then (key, value) :: fields else (key, old) :: putField name value fields

/-- Fields in the order they were read, each name once. -/
def mergeFields (fields : List (Text × Json)) : List (Text × Json) :=
  fields.foldl (fun merged f => putField f.1 f.2 merged) []

/-- The name of a field, and the colon after it. -/
def readName (t : Text) : Except Fault (Found Text) :=
  match t with
  | [] => .error .invalidJson
  | quote :: rest =>
    if quote == '"' then do
      let (name, rest) ← readString rest
      match skipBlank rest with
      | [] => .error .invalidJson
      | c :: rest => if c == ':' then return (name, skipBlank rest) else .error .invalidJson
    else .error .invalidJson

mutual

/-- A value. The first argument bounds the nesting of calls. -/
def readValue : Nat → Text → Except Fault (Found Json)
  | 0, _ | _, [] => .error .invalidJson
  | fuel + 1, c :: rest =>
    if c == '"' then do
      let (s, rest) ← readString rest
      return (.str s, rest)
    else if c == '[' then do
      let (items, rest) ← readItems fuel (skipBlank rest)
      return (.arr items, rest)
    else if c == '\x7b' then do
      let (fields, rest) ← readFields fuel (skipBlank rest)
      return (.obj (mergeFields fields), rest)
    else
      match readWord? (c :: rest) with
      | some found => .ok found
      | none => readNumber (c :: rest)

/-- The items of an array and its closing bracket. -/
def readItems : Nat → Text → Except Fault (Found (List Json))
  | 0, _ | _, [] => .error .invalidJson
  | fuel + 1, c :: rest =>
    if c == ']' then .ok ([], rest) else readMoreItems fuel (c :: rest)

/-- One or more items of an array and its closing bracket. -/
def readMoreItems : Nat → Text → Except Fault (Found (List Json))
  | 0, _ => .error .invalidJson
  | fuel + 1, t => do
    let (item, rest) ← readValue fuel t
    match skipBlank rest with
    | [] => .error .invalidJson
    | c :: rest =>
      if c == ']' then return ([item], rest)
      else if c == ',' then do
        let (items, rest) ← readMoreItems fuel (skipBlank rest)
        return (item :: items, rest)
      else .error .invalidJson

/-- The fields of an object and its closing brace. -/
def readFields : Nat → Text → Except Fault (Found (List (Text × Json)))
  | 0, _ | _, [] => .error .invalidJson
  | fuel + 1, c :: rest =>
    if c == '\x7d' then .ok ([], rest) else readMoreFields fuel (c :: rest)

/-- One or more fields of an object and its closing brace. -/
def readMoreFields : Nat → Text → Except Fault (Found (List (Text × Json)))
  | 0, _ => .error .invalidJson
  | fuel + 1, t => do
    let (name, rest) ← readName t
    let (value, rest) ← readValue fuel rest
    match skipBlank rest with
    | [] => .error .invalidJson
    | c :: rest =>
      if c == '\x7d' then return ([(name, value)], rest)
      else if c == ',' then do
        let (fields, rest) ← readMoreFields fuel (skipBlank rest)
        return ((name, value) :: fields, rest)
      else .error .invalidJson

end

/-- Read a whole text as one value. Each character read starts at most three
nested calls, which bounds the nesting. -/
def read (t : Text) : Except Fault Json := do
  let (value, rest) ← readValue (3 * t.length + 3) (skipBlank t)
  if (skipBlank rest).isEmpty then return value else throw .invalidJson

end HamlFormat.Json
