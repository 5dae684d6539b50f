/-!
# HamlFormat.Number.Binary64

Double precision numbers as exact data. The finite magnitudes are numbered in
ascending order from zero, so every index names one magnitude and equal values
have equal representations (a zero keeps its sign). All arithmetic is done on
exact fractions and rounded once, to the nearest value, a tie going to the even
index.
-/

namespace HamlFormat

/-- How many finite magnitudes there are. -/
abbrev Binary64.magnitudes : Nat := 0x7ff0000000000000

/-- A double precision number. -/
inductive Binary64 where
  /-- Plus or minus the finite magnitude with the given index. -/
  | finite (negative : Bool) (index : Fin Binary64.magnitudes)
  | infinite (negative : Bool)
  | nan
  deriving DecidableEq

namespace Binary64

/-! ## Magnitudes

Index `n` splits as `k * 2 ^ 52 + m` with `k` the number of binades below its
own (the subnormal and the first normal binade share a spacing), and stands for
`m * 2 ^ k` units of `2 ^ -1074`. -/

/-- The smallest positive magnitude is one over this. -/
abbrev unitsPerOne : Nat := Nat.pow 2 1074

/-- The number of magnitudes with one spacing. -/
abbrev perBinade : Nat := 0x10000000000000

/-- How often the spacing has doubled at an index. -/
def doublings (index : Nat) : Nat :=
  index / perBinade - 1

/-- The magnitude with a given index, in units of `2 ^ -1074`. -/
def units (index : Nat) : Nat :=
  (index - doublings index * perBinade) * Nat.pow 2 (doublings index)

/-- The natural number nearest to `num / den`, a tie going to the even one. -/
def roundDiv (num den : Nat) : Nat :=
  let quotient := num / den
  let twice := 2 * (num % den)
  if twice < den then quotient
  else if den < twice then quotient + 1
  else quotient + quotient % 2

/-- The index of the magnitude nearest to `num / den`; it may lie past the last
finite one. -/
def nearestIndex (num den : Nat) : Nat :=
  let k := Nat.log2 (num * unitsPerOne / den) - 52
  k * perBinade + roundDiv (num * unitsPerOne) (den * Nat.pow 2 k)

/-- The number nearest to plus or minus `num / den`; too large a magnitude is
infinite. -/
def ofFraction (negative : Bool) (num den : Nat) : Binary64 :=
  let index := nearestIndex num den
  if h : index < magnitudes then .finite negative ⟨index, h⟩ else .infinite negative

/-! ## Decimals -/

/-- The number nearest to plus or minus `digits * 10 ^ exponent`. Exponents that
put the value far outside the finite range are settled without computing the
power. -/
def ofDecimal (negative : Bool) (digits : Nat) (exponent : Int) : Binary64 :=
  if digits = 0 then ofFraction negative 0 1
  else if 400 < exponent then .infinite negative
  else if exponent < -400 - (Nat.log2 digits : Int) then ofFraction negative 0 1
  else if 0 ≤ exponent then ofFraction negative (digits * Nat.pow 10 exponent.toNat) 1
  else ofFraction negative digits (Nat.pow 10 (-exponent).toNat)

/-! ## Integers -/

/-- The number nearest to an integer. -/
def ofInt (n : Int) : Binary64 :=
  ofFraction (decide (n < 0)) n.natAbs 1

/-- The exact value of a finite number in units of `2 ^ -1074`. -/
def signedUnits (negative : Bool) (index : Fin magnitudes) : Int :=
  if negative then -(units index : Int) else units index

/-- The number nearest to `n` units of `2 ^ -1074`. -/
def ofUnits (n : Int) : Binary64 :=
  ofFraction (decide (n < 0)) n.natAbs unitsPerOne

/-- The integer part of a finite number. -/
def truncate? : Binary64 → Option Int
  | .finite negative index => some ((signedUnits negative index).tdiv unitsPerOne)
  | _ => none

/-! ## Arithmetic -/

/-- The number with the opposite sign. -/
def neg : Binary64 → Binary64
  | .finite negative index => .finite (!negative) index
  | .infinite negative => .infinite (!negative)
  | .nan => .nan

/-- The rounded sum. -/
def add : Binary64 → Binary64 → Binary64
  | .nan, _ | _, .nan => .nan
  | .infinite a, .infinite b => if a = b then .infinite a else .nan
  | .infinite a, _ | _, .infinite a => .infinite a
  | .finite a i, .finite b j => ofUnits (signedUnits a i + signedUnits b j)

/-- The rounded difference. -/
def sub (x y : Binary64) : Binary64 :=
  x.add y.neg

/-- The order of values: both zeros are equal, and nothing compares with `nan`. -/
def le : Binary64 → Binary64 → Bool
  | .nan, _ | _, .nan => false
  | .infinite a, .infinite b => a || !b
  | .infinite a, _ => a
  | _, .infinite b => !b
  | .finite a i, .finite b j => signedUnits a i ≤ signedUnits b j

/-- Whether a number lies below an integer. -/
def ltInt (x : Binary64) (n : Int) : Bool :=
  match x with
  | .nan => false
  | .infinite negative => negative
  | .finite negative index => signedUnits negative index < n * unitsPerOne

/-- Whether a number lies above an integer. -/
def gtInt (x : Binary64) (n : Int) : Bool :=
  match x with
  | .nan => false
  | .infinite negative => !negative
  | .finite negative index => n * unitsPerOne < signedUnits negative index

/-- Whether a number is plus or minus zero. -/
def isZero : Binary64 → Bool
  | .finite _ index => index.val == 0
  | _ => false

instance : Add Binary64 := ⟨add⟩
instance : Sub Binary64 := ⟨sub⟩
instance : IntCast Binary64 := ⟨ofInt⟩
instance : LE Binary64 := ⟨fun x y => x.le y = true⟩
instance : DecidableLE Binary64 := fun x y => inferInstanceAs (Decidable (x.le y = true))

end Binary64

end HamlFormat
