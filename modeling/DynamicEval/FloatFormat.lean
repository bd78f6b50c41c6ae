/-!
# Binary floating-point formats

The nonnegative numbers of a binary interchange format, as natural-number patterns. A pattern holds
the exponent field above the fraction field, so the order of patterns is the order of the numbers
they stand for, and the pattern behind the largest finite number is infinity.

## Main definitions

* `FloatFormat`: precision, least exponent and pattern of infinity of a format.
* `FloatFormat.significand`, `FloatFormat.exponent`: the number `m * 2 ^ q` that a pattern stands
  for.
* `FloatFormat.nearest`: the pattern nearest to a fraction, a tie going to the even pattern.
-/

namespace DynamicEval

/-- A binary floating-point format. -/
structure FloatFormat where
  /-- The number of bits of a full significand. -/
  precision : Nat
  /-- The exponent of the last bit of the smallest numbers. -/
  minExponent : Int
  /-- The pattern of infinity. -/
  infinity : Nat

namespace FloatFormat

/-- The format of 64 bits. -/
def double : FloatFormat := ⟨53, -1074, 0x7ff0000000000000⟩

/-- The format of 32 bits. -/
def single : FloatFormat := ⟨24, -149, 0x7f800000⟩

/-- The leading bit of a full significand. -/
def leadingBit (f : FloatFormat) : Nat :=
  Nat.pow 2 (f.precision - 1)

/-- The exponent field of a pattern. -/
def exponentField (f : FloatFormat) (pattern : Nat) : Nat :=
  pattern / f.leadingBit

/-- The integer `m` of the number `m * 2 ^ q` that a finite pattern stands for. -/
def significand (f : FloatFormat) (pattern : Nat) : Nat :=
  if f.exponentField pattern = 0 then pattern % f.leadingBit
  else pattern % f.leadingBit + f.leadingBit

/-- The exponent `q` of the number `m * 2 ^ q` that a finite pattern stands for. -/
def exponent (f : FloatFormat) (pattern : Nat) : Int :=
  f.minExponent + (f.exponentField pattern - 1 : Nat)

end FloatFormat

/-- The fraction `n / d` times `2 ^ e`, as a numerator and a denominator. -/
def scaledFraction (n d : Nat) (e : Int) : Nat × Nat :=
  (n * Nat.pow 2 e.toNat, d * Nat.pow 2 (-e).toNat)

/-- The integer nearest to `n / d`, a tie going to the even neighbour. -/
def roundHalfEven (n d : Nat) : Nat :=
  let low := n / d
  let rest := 2 * (n % d)
  if rest < d ∨ (rest = d ∧ low % 2 = 0) then low else low + 1

namespace FloatFormat

/-- The exponent of the last significand bit of the numbers near `n / d`: with it the fraction has
`precision` bits before its point, or fewer where the format has no smaller exponent. -/
def unitExponent (f : FloatFormat) (n d : Nat) : Int :=
  let low : Int := (n.log2 : Int) - d.log2 - f.precision
  let (top, bottom) := scaledFraction n d (-(low + f.precision))
  max (if bottom ≤ top then low + 1 else low) f.minExponent

/-- The pattern nearest to the fraction `n / d`, a tie going to the even pattern; a fraction beyond
the largest finite number by half a unit or more gives infinity. -/
def nearest (f : FloatFormat) (n d : Nat) : Nat :=
  if n = 0 then 0
  else
    let q := f.unitExponent n d
    let (top, bottom) := scaledFraction n d (-q)
    min ((q - f.minExponent).toNat * f.leadingBit + roundHalfEven top bottom) f.infinity

end FloatFormat

end DynamicEval
