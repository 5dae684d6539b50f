import HamlFormat.Number.Binary64
import HamlFormat.Text.Basic

/-!
# HamlFormat.Number.Decimal

The decimal text of a double precision number: the fewest digits that read back
as the same number and, of those, the nearest to it. Numbers whose decimal
exponent lies from -4 to 15 are written positionally and keep a fraction, so
that a whole number does not look like an integer; all others in the form
`1.5e+16`, with at least two digits in the exponent.
-/

namespace HamlFormat

/-- The value `digits * 10 ^ exponent`. -/
structure Decimal where
  digits : Nat
  exponent : Int
  deriving DecidableEq

namespace Decimal

/-! ## Digits -/

/-- The decimal digits of a natural number. -/
def digitsOf (n : Nat) : Text :=
  (Nat.toDigits 10 n).map .ofChar

/-- The value with trailing zeros moved into the exponent. -/
def normalize (fuel : Nat) (d : Decimal) : Decimal :=
  match fuel with
  | 0 => d
  | fuel + 1 =>
    if d.digits % 10 = 0 then normalize fuel ⟨d.digits / 10, d.exponent + 1⟩ else d

/-! ## The shortest decimal of a magnitude -/

/-- The decimal exponent of `num / den`: the power of ten of its first digit. -/
def leadingExponent (num den : Nat) : Int :=
  if den ≤ num then (digitsOf (num / den)).length - 1
  else -(digitsOf (den / num)).length

/-- The numerator and denominator of `num / den * 10 ^ shift`. -/
def scale (num den : Nat) (shift : Int) : Nat × Nat :=
  if 0 ≤ shift then (num * Nat.pow 10 shift.toNat, den)
  else (num, den * Nat.pow 10 (-shift).toNat)

/-- Whether a decimal reads as the magnitude with the given index. -/
def readsAs (d : Decimal) (index : Nat) : Bool :=
  match Binary64.ofDecimal false d.digits d.exponent with
  | .finite _ i => i.val == index
  | _ => false

/-- Of the two decimals with a fixed number of places that enclose the magnitude,
the nearer of those that read back; of two equally near ones the even one. -/
def nearest? (index : Nat) (places : Int) : Option Decimal :=
  let (num, den) := scale (Binary64.units index) Binary64.unitsPerOne places
  let below : Decimal := ⟨num / den, -places⟩
  let above : Decimal := ⟨num / den + 1, -places⟩
  match below.readsAs index, above.readsAs index with
  | true, true => some ⟨Binary64.roundDiv num den, -places⟩
  | true, false => some below
  | false, true => some above
  | false, false => none

/-- The first hit with `count`, `count + 1`, … digits, of which the first has the
power of ten `leading`. The exact expansion closes the search: it always reads
back. -/
def search (index : Nat) (leading : Int) (count : Nat) : Nat → Decimal
  | 0 => ⟨Binary64.units index * Nat.pow 5 1074, -1074⟩
  | tries + 1 =>
    match nearest? index (count - 1 - leading) with
    | some d => d
    | none => search index leading (count + 1) tries

/-- The shortest decimal that reads as the magnitude with the given index. No
magnitude needs more than seventeen digits. -/
def shortest (index : Nat) : Decimal :=
  if index = 0 then ⟨0, 0⟩
  else
    let leading := leadingExponent (Binary64.units index) Binary64.unitsPerOne
    normalize 17 (search index leading 1 17)

/-! ## Text -/

/-- `n` zeros. -/
def zeros (n : Nat) : Text :=
  .repeated n '0'

/-- The exponent of a number in scientific form: a sign and at least two digits. -/
def exponentText (e : Int) : Text :=
  let digits := digitsOf e.natAbs
  (if e < 0 then '-' else '+') :: (zeros (2 - digits.length) ++ digits)

/-- The text of a decimal. -/
def text (d : Decimal) : Text :=
  let digits := digitsOf d.digits
  let point : Int := digits.length + d.exponent
  if d.digits = 0 then "0.0"
  else if -4 < point ∧ point ≤ 0 then
    "0." ++ zeros (-point).toNat ++ digits
  else if 0 < point ∧ point ≤ 16 then
    if digits.length ≤ point.toNat then
      digits ++ zeros (point.toNat - digits.length) ++ ".0"
    else digits.take point.toNat ++ "." ++ digits.drop point.toNat
  else
    match digits with
    | [] => []
    | [d] => [d] ++ "e" ++ exponentText (point - 1)
    | d :: rest => [d] ++ "." ++ rest ++ "e" ++ exponentText (point - 1)

end Decimal

/-- The text of a finite number: a sign if it has one, then the shortest decimal. -/
def Binary64.finiteText (negative : Bool) (index : Fin Binary64.magnitudes) : Text :=
  (if negative then "-" else "") ++ (Decimal.shortest index.val).text

end HamlFormat
