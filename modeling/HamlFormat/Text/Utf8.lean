import HamlFormat.Text.Basic

/-!
# HamlFormat.Text.Utf8

Decoding UTF-8 octet by octet. Ill-formed input is cut into maximal ill-formed
parts: an octet that cannot continue the character begun ends that part and is
looked at again as the first octet of a character. A text with a surrogate in it
has no encoding.
-/

namespace HamlFormat.Text

/-- A character begun: the value of its octets so far, how many octets it still
owes, and the range the next one must lie in. -/
structure Begun where
  value : Nat
  owed : Nat
  low : UInt8
  high : UInt8

/-- What the first octet of a character says. -/
inductive FirstOctet where
  | single (c : CodePoint)
  | begins (b : Begun)
  | invalid

/-- Read the first octet of a character. The ranges for the second octet rule out
overlong forms, surrogates and values above `0x10ffff`. -/
def firstOctet (b : UInt8) : FirstOctet :=
  let n := b.toNat
  if n < 0x80 then .single (.ofNat n)
  else if n < 0xc2 then .invalid
  else if n < 0xe0 then .begins ⟨n - 0xc0, 1, 0x80, 0xbf⟩
  else if n = 0xe0 then .begins ⟨0, 2, 0xa0, 0xbf⟩
  else if n = 0xed then .begins ⟨0xd, 2, 0x80, 0x9f⟩
  else if n < 0xf0 then .begins ⟨n - 0xe0, 2, 0x80, 0xbf⟩
  else if n = 0xf0 then .begins ⟨0, 3, 0x90, 0xbf⟩
  else if n < 0xf4 then .begins ⟨n - 0xf0, 3, 0x80, 0xbf⟩
  else if n = 0xf4 then .begins ⟨4, 3, 0x80, 0x8f⟩
  else .invalid

/-- Decode octets after the start of a character, if one is begun. Each
ill-formed part gives `none`. -/
def decodeFrom : Option Begun → List UInt8 → List (Option CodePoint)
  | none, [] => []
  | some _, [] => [none]
  | none, b :: bs =>
    match firstOctet b with
    | .single c => some c :: decodeFrom none bs
    | .begins begun => decodeFrom (some begun) bs
    | .invalid => none :: decodeFrom none bs
  | some begun, b :: bs =>
    if begun.low ≤ b ∧ b ≤ begun.high then
      let value := begun.value * 0x40 + (b.toNat - 0x80)
      if begun.owed = 1 then some (.ofNat value) :: decodeFrom none bs
      else decodeFrom (some ⟨value, begun.owed - 1, 0x80, 0xbf⟩) bs
    else
      match firstOctet b with
      | .single c => none :: some c :: decodeFrom none bs
      | .begins next => none :: decodeFrom (some next) bs
      | .invalid => none :: none :: decodeFrom none bs

/-- Decode octets; each ill-formed part gives `none`. -/
def decodeUtf8 (bytes : List UInt8) : List (Option CodePoint) :=
  decodeFrom none bytes

/-- The text that octets encode, if they are well-formed. -/
def ofUtf8? (bytes : List UInt8) : Option Text :=
  (decodeUtf8 bytes).mapM id

/-- The text that octets encode, with U+FFFD for each ill-formed part. -/
def ofUtf8Lossy (bytes : List UInt8) : Text :=
  (decodeUtf8 bytes).map (·.getD .replacement)

/-- The octets that encode a text, if it has an encoding. -/
def toUtf8? (t : Text) : Option (List UInt8) :=
  t.toString?.map fun s => s.toUTF8.data.toList

end HamlFormat.Text
