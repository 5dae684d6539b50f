import HamlFormat.Fault

/-!
# HamlFormat.Layout.Measure

Widths that need not be integers. A setting may give a width with a fraction; what
is counted, such as the characters of a text, stays an integer. An integer and a
number with a fraction are reckoned with in double precision, where the integer
is first rounded to the nearest number.
-/

namespace HamlFormat.Layout

/-- A width: an integer of any size, or a number in double precision. -/
inductive Measure where
  | whole (n : Int)
  | fractional (x : Binary64)
  deriving DecidableEq

namespace Measure

/-- The measure that a value gives, if it is a number. -/
def ofJson? : Json → Option Measure
  | .float x => some (.fractional x)
  | value => value.int?.map .whole

/-- A measure in double precision. -/
def toBinary64 : Measure → Binary64
  | .whole n => .ofInt n
  | .fractional x => x

/-- Whether an integer lies in the range of double precision. -/
def isInRange (n : Int) : Bool :=
  match Binary64.ofInt n with
  | .finite _ _ => true
  | _ => false

/-- Whether two measures can be reckoned with together. Beside a number in double
precision an integer has to lie in its range. -/
def agrees : Measure → Measure → Bool
  | .whole n, .fractional _ | .fractional _, .whole n => isInRange n
  | _, _ => true

/-- The sum of two measures. -/
def add : Measure → Measure → Measure
  | .whole m, .whole n => .whole (m + n)
  | x, y => .fractional (x.toBinary64 + y.toBinary64)

/-- The difference of two measures. -/
def sub : Measure → Measure → Measure
  | .whole m, .whole n => .whole (m - n)
  | x, y => .fractional (x.toBinary64 - y.toBinary64)

/-- The order of measures. -/
def le : Measure → Measure → Bool
  | .whole m, .whole n => m ≤ n
  | x, y => x.toBinary64 ≤ y.toBinary64

instance : Add Measure := ⟨add⟩
instance : Sub Measure := ⟨sub⟩
instance : IntCast Measure := ⟨whole⟩
instance : LE Measure := ⟨fun x y => x.le y = true⟩
instance : DecidableLE Measure := fun x y => inferInstanceAs (Decidable (x.le y = true))

end Measure

end HamlFormat.Layout
