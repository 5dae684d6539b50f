import HamlFormat.Fault

/-!
# HamlFormat.Spaces

How many spaces a number asks for. Numbers come from settings and documents and
may be of any size; a run of spaces has to fit in memory.

How much memory there is depends on the machine. Here it is a fixed bound, which every run
of spaces is held against when it is asked for: a level of indentation and the columns of
an alignment, each on its own. The indentation of a line is put together from such runs,
and what is put together is not held against the bound again.
-/

namespace HamlFormat

/-- Numbers from here on, and below its negative, cannot be counts at all. -/
def countLimit : Int := 0x8000000000000000

/-- A run of this many spaces does not fit in memory; the number stands for what a machine
has. -/
def memoryLimit : Int := 0x1000000000

/-- The length of a run of spaces; less than none is none. -/
def spaceCount (n : Int) : Except Fault Nat :=
  if n < -countLimit ∨ countLimit ≤ n then .error .overflow
  else if memoryLimit ≤ n then .error .outOfMemory
  else .ok n.toNat

end HamlFormat
