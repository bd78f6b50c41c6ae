import DynamicEval.FloatFormat

/-!
# Floating-point numbers of 64 bits

A number is its bit pattern: a sign bit above a pattern of `FloatFormat.double`. Comparison is by
rank, the signed pattern, under which the two zeros coincide; everything is decided by integers, so
the laws of comparison are laws of `Int`.

## Main definitions

* `Binary64`: a number, which may be infinite or not a number.
* `Binary64.numEq`, `Binary64.compare?`: numeric equality and comparison, false and undefined when a
  side is not a number.
* `Binary64.single`: rounding to the numbers of the 32-bit format.
* `Binary64.truncate?`, `Binary64.saturate`: the integer part, and the nearest integer of a range to
  it.
-/

namespace DynamicEval

/-- A floating-point number of 64 bits, by its bit pattern. -/
structure Binary64 where
  /-- The sign bit above the exponent field above the fraction field. -/
  bits : UInt64
deriving DecidableEq

namespace Binary64

/-- The place value of the sign bit. -/
def signBit : Nat := 0x8000000000000000

/-- Whether the sign bit is set. -/
def negative (x : Binary64) : Bool :=
  signBit ≤ x.bits.toNat

/-- The pattern without its sign bit. -/
def pattern (x : Binary64) : Nat :=
  x.bits.toNat % signBit

/-- The number with the given sign bit and pattern. -/
def ofPattern (negative : Bool) (pattern : Nat) : Binary64 :=
  ⟨UInt64.ofNat (if negative then signBit + pattern else pattern)⟩

/-- Not a number: an exponent field of ones with a fraction. -/
def isNaN (x : Binary64) : Bool :=
  FloatFormat.double.infinity < x.pattern

/-- Neither infinite nor not a number. -/
def isFinite (x : Binary64) : Bool :=
  x.pattern < FloatFormat.double.infinity

/-- Zero of either sign. -/
def isZero (x : Binary64) : Bool :=
  x.pattern == 0

/-- The place of a number in the numeric order; the two zeros have one place. -/
def rank (x : Binary64) : Int :=
  if x.negative then -(x.pattern : Int) else x.pattern

/-- Numeric equality: the zeros are equal, and what is not a number equals nothing. -/
def numEq (x y : Binary64) : Bool :=
  !x.isNaN && !y.isNaN && x.rank == y.rank

/-- Numeric comparison, undefined when a side is not a number. -/
def compare? (x y : Binary64) : Option Ordering :=
  if x.isNaN || y.isNaN then none else some (compare x.rank y.rank)

/-- The number with the opposite sign bit. -/
def neg (x : Binary64) : Binary64 :=
  ofPattern (!x.negative) x.pattern

/-- Positive zero. -/
def zero : Binary64 := ⟨0⟩

/-- The infinity with the given sign bit. -/
def infinity (negative : Bool) : Binary64 :=
  ofPattern negative FloatFormat.double.infinity

/-- The pattern bit that tells a quiet value that is not a number. -/
def quietBit : Nat := 0x8000000000000

/-- What an operation without a numeric result gives. -/
def undefined : Binary64 :=
  ofPattern true (FloatFormat.double.infinity + quietBit)

/-- What an operation makes of an operand that is not a number: the operand, made quiet. -/
def quiet (x : Binary64) : Binary64 :=
  ofPattern x.negative (x.pattern ||| quietBit)

/-- The number nearest to `± n / d`. -/
def nearest (negative : Bool) (n d : Nat) : Binary64 :=
  ofPattern negative (FloatFormat.double.nearest n d)

/-- The magnitude of a finite number as a fraction. -/
def fraction (x : Binary64) : Nat × Nat :=
  scaledFraction (FloatFormat.double.significand x.pattern) 1
    (FloatFormat.double.exponent x.pattern)

/-- The number nearest to an integer. -/
def ofInt (n : Int) : Binary64 :=
  nearest (n < 0) n.natAbs 1

/-- The pattern of the 32-bit number nearest to the magnitude of `x`, which is a number. -/
def singlePattern (x : Binary64) : Nat :=
  if x.isFinite then FloatFormat.single.nearest x.fraction.1 x.fraction.2
  else FloatFormat.single.infinity

/-- The number with the given sign bit whose magnitude is a pattern of the 32-bit format. -/
def ofSinglePattern (negative : Bool) (pattern : Nat) : Binary64 :=
  if pattern < FloatFormat.single.infinity then
    let (n, d) := scaledFraction (FloatFormat.single.significand pattern) 1
      (FloatFormat.single.exponent pattern)
    nearest negative n d
  else
    infinity negative

/-- How far apart the patterns of the 32-bit format lie among those of 64 bits. -/
def singleUnit : Nat := 0x20000000

/-- Every natural number below is a floating-point number. -/
def exactBound : Nat := 0x20000000000000

/-- The nearest number of the 32-bit format; what is not a number stays so, and keeps the part of
its fraction for which that format has room. -/
def single (x : Binary64) : Binary64 :=
  if x.isNaN then ofPattern x.negative ((x.pattern ||| quietBit) / singleUnit * singleUnit)
  else ofSinglePattern x.negative x.singlePattern

/-- The integer part of a finite number, which drops the fraction. -/
def truncate? (x : Binary64) : Option Int :=
  if x.isFinite then
    let n : Int := (x.fraction.1 / x.fraction.2 : Nat)
    some (if x.negative then -n else n)
  else
    none

/-- The integer of the range from `low` to `high` nearest to the integer part of `x`, and zero for
what is not a number. -/
def saturate (low high : Int) (x : Binary64) : Int :=
  match x.truncate? with
  | some n => max low (min high n)
  | none => if x.isNaN then 0 else if x.negative then low else high

end Binary64

end DynamicEval
