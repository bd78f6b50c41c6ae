import DynamicEval.Binary64
import DynamicEval.Decimal.Shortest

/-!
# Layout of numbers

How the shortest decimal of a floating-point number is written: with a point among its digits, or
with one digit before the point and a power of ten behind.

## Main definitions

* `NumberStyle`: the choices of a layout.
* `NumberStyle.plain`: always positional, whole numbers without a point; the text of a value.
* `NumberStyle.literal`: the text of a number in an expression, which always reads as a
  floating-point number.
* `NumberStyle.write`: the text of a number.
-/

namespace DynamicEval

/-- Choices of the layout of a number. -/
structure NumberStyle where
  /-- Whether a whole number is written with `.0`. -/
  pointAlways : Bool
  /-- Whether a number is positional whose point stands behind the given number of digits. -/
  positional : Int → Bool

/-- Always positional, and whole numbers without a point. -/
def NumberStyle.plain : NumberStyle := ⟨false, fun _ => true⟩

/-- Positional from `0.0001` up to below `10 ^ 16`, and with a point. -/
def NumberStyle.literal : NumberStyle := ⟨true, fun point => -3 ≤ point && point ≤ 16⟩

namespace Decimal

/-- The digits of a decimal. -/
def digitChars (x : Decimal) : List Char :=
  Nat.toDigits 10 x.digits

/-- How many digits stand before the point; negative for leading zeros behind the point. -/
def point (x : Decimal) : Int :=
  x.digitChars.length + x.exponent

/-- The decimal with a point among its digits. -/
def positional (pointAlways : Bool) (x : Decimal) : List Char :=
  let ds := x.digitChars
  if x.point ≤ 0 then
    ['0', '.'] ++ List.replicate (-x.point).toNat '0' ++ ds
  else if 0 ≤ x.exponent then
    ds ++ List.replicate x.exponent.toNat '0' ++ (if pointAlways then ['.', '0'] else [])
  else
    ds.take x.point.toNat ++ '.' :: ds.drop x.point.toNat

/-- The decimal with one digit before the point and a power of ten. -/
def scientific (x : Decimal) : List Char :=
  let ds := x.digitChars
  let fraction := match ds.drop 1 with
    | [] => []
    | rest => '.' :: rest
  ds.take 1 ++ fraction ++ 'e' :: (toString (x.point - 1)).toList

end Decimal

/-- The text of a nonnegative number, given by its pattern in a format. -/
def NumberStyle.writePattern (style : NumberStyle) (f : FloatFormat) (pattern : Nat) : List Char :=
  if pattern = 0 then
    if style.pointAlways then ['0', '.', '0'] else ['0']
  else if pattern < f.infinity then
    let x := f.shortest pattern
    if style.positional x.point then x.positional style.pointAlways else x.scientific
  else
    ['i', 'n', 'f']

/-- The text of a number, with the fewest digits that read back in the format `f`, of which it is a
number. -/
def NumberStyle.write (style : NumberStyle) (f : FloatFormat) (pattern : Binary64 → Nat)
    (x : Binary64) : String :=
  if x.isNaN then "NaN"
  else
    let text := style.writePattern f (pattern x)
    String.ofList (if x.negative then '-' :: text else text)

/-- The text of a number of the 64-bit format. -/
def NumberStyle.writeDouble (style : NumberStyle) (x : Binary64) : String :=
  style.write .double Binary64.pattern x

/-- The text of a number of the 32-bit format. -/
def NumberStyle.writeSingle (style : NumberStyle) (x : Binary64) : String :=
  style.write .single Binary64.singlePattern x

end DynamicEval
