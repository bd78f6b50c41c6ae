import DynamicEval.Binary64

/-!
# Floating-point arithmetic

Each operation computes its exact result as a fraction of integers and rounds once, to nearest with
ties to even. An operand that is not a number is passed on, the first of two; an operation without
a numeric result gives `Binary64.undefined`.

## Main definitions

* `Binary64.add`, `Binary64.sub`, `Binary64.mul`, `Binary64.div`.
* `Binary64.power`: an integer power by repeated squaring.
-/

namespace DynamicEval.Binary64

/-- An operation on numbers, extended to operands that are not numbers. -/
def lift (f : Binary64 → Binary64 → Binary64) (x y : Binary64) : Binary64 :=
  if x.isNaN then x.quiet else if y.isNaN then y.quiet else f x y

/-- A finite number as a multiple of `2 ^ minExponent`. -/
def units (x : Binary64) : Int :=
  let n : Int := (FloatFormat.double.significand x.pattern : Int) *
    Nat.pow 2 (FloatFormat.double.exponent x.pattern - FloatFormat.double.minExponent).toNat
  if x.negative then -n else n

/-- The sum of two numbers. Sums of finite numbers are exact in units of the smallest number; an
exact zero is negative only as the sum of two negative zeros. -/
def add : Binary64 → Binary64 → Binary64 :=
  lift fun x y =>
    if x.isFinite && y.isFinite then
      let sum := x.units + y.units
      if sum = 0 then
        ofPattern (x.negative && y.negative) 0
      else
        let (n, d) := scaledFraction sum.natAbs 1 FloatFormat.double.minExponent
        nearest (sum < 0) n d
    else if x.isFinite then y
    else if y.isFinite || x.negative == y.negative then x
    else undefined

/-- The difference of two numbers. -/
def sub (x y : Binary64) : Binary64 :=
  if x.isNaN || y.isNaN then add x y else add x y.neg

/-- The product of two numbers. -/
def mul : Binary64 → Binary64 → Binary64 :=
  lift fun x y =>
    let negative := x.negative != y.negative
    if x.isFinite && y.isFinite then
      nearest negative (x.fraction.1 * y.fraction.1) (x.fraction.2 * y.fraction.2)
    else if x.isZero || y.isZero then undefined
    else infinity negative

/-- The quotient of two numbers. -/
def div : Binary64 → Binary64 → Binary64 :=
  lift fun x y =>
    let negative := x.negative != y.negative
    if x.isFinite && y.isFinite then
      if y.isZero then
        if x.isZero then undefined else infinity negative
      else
        nearest negative (x.fraction.1 * y.fraction.2) (x.fraction.2 * y.fraction.1)
    else if x.isFinite then ofPattern negative 0
    else if y.isFinite then infinity negative
    else undefined

/-- The number one. -/
def one : Binary64 := ofInt 1

/-- Multiplies `acc` by the power `e` of `b`, squaring `b` from one binary digit of `e` to the next;
`rounds` bounds the number of digits. -/
def powerLoop : Nat → Binary64 → Binary64 → Nat → Binary64
  | 0, acc, _, _ => acc
  | rounds + 1, acc, b, e =>
    let acc := if e % 2 = 1 then acc.mul b else acc
    if e / 2 = 0 then acc else powerLoop rounds acc (b.mul b) (e / 2)

/-- The power `n` of `b`; a negative power is the reciprocal of the positive one. -/
def power (b : Binary64) (n : Int) : Binary64 :=
  let p := powerLoop (n.natAbs.log2 + 1) one b n.natAbs
  if n < 0 then one.div p else p

end DynamicEval.Binary64
