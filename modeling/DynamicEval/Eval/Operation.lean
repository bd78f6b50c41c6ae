import DynamicEval.Coercion
import DynamicEval.Expr.Operator

/-!
# Operators on values

Operators look at the bases of their operands. Sums with a text concatenate. Integers of any width
are added, subtracted, multiplied and divided as signed integers of 64 bits and combined bit by bit
as unsigned ones, reduced to 64 bits; when a side is a floating-point number both are.

## Main definitions

* `BinaryOp.apply`: an operator on two values.
* `UnaryOp.apply`: an operator on one value.
-/

namespace DynamicEval

namespace BinaryOp

/-- The answer of a comparison operator to the order of its operands. -/
def holds : BinaryOp → Option Ordering → Bool
  | eq, order => order == some .eq
  | ne, order => order != some .eq
  | lt, order => order == some .lt
  | gt, order => order == some .gt
  | le, order => order == some .lt || order == some .eq
  | ge, order => order == some .gt || order == some .eq
  | _, _ => false

/-- The failure of an operator that has no meaning for its operands. -/
def invalid (op : BinaryOp) (x y : Value) : Error :=
  .invalidOperation op x.typeName y.typeName

/-- An arithmetic operator on signed integers of 64 bits. -/
def onInt64 (op : BinaryOp) (otherwise : Error) (a b : Int64) : Except Error Int64 :=
  match op with
  | add => return a + b
  | sub => return a - b
  | mul => return a * b
  | div => if b = 0 then throw .divisionByZero else return a / b
  | rem => if b = 0 then throw .divisionByZero else return a % b
  | _ => throw otherwise

/-- An arithmetic operator on floating-point numbers. -/
def onFloat (op : BinaryOp) (otherwise : Error) (a b : Binary64) : Except Error Binary64 :=
  match op with
  | add => return a.add b
  | sub => return a.sub b
  | mul => return a.mul b
  | div => return a.div b
  | _ => throw otherwise

/-- A bitwise operator on unsigned integers of 64 bits. A shift by 64 or more leaves nothing. -/
def onUInt64 (op : BinaryOp) (otherwise : Error) (a b : UInt64) : Except Error UInt64 :=
  match op with
  | bitAnd => return a &&& b
  | bitOr => return a ||| b
  | bitXor => return a ^^^ b
  | andNot => return a &&& ~~~b
  | shl => return if b < 64 then a <<< b else 0
  | shr => return if b < 64 then a >>> b else 0
  | _ => throw otherwise

/-- An arithmetic operator on two values. -/
def arithmetic (op : BinaryOp) (x y : Value) (h : Heap) : Except Error Value := do
  if op == add && (x.isString h || y.isString h) then
    return .string (x.toText h ++ y.toText h)
  if !x.isNumber h || !y.isNumber h then
    throw (op.invalid x y)
  if x.isGeneralInt h && y.isGeneralInt h then
    return .int .bits64 (← op.onInt64 (op.invalid x y) (← x.toInt64 h) (← y.toInt64 h))
  return .float .double (← op.onFloat (op.invalid x y) (← x.toFloat h) (← y.toFloat h))

/-- A bitwise operator on two values. -/
def bitwise (op : BinaryOp) (x y : Value) (h : Heap) : Except Error Value := do
  if !x.isGeneralInt h || !y.isGeneralInt h then
    throw (op.invalid x y)
  return .uint .bits64 (← op.onUInt64 (op.invalid x y) (← x.toUInt64 h) (← y.toUInt64 h))

/-- An operator on two values. -/
def apply (op : BinaryOp) (x y : Value) (h : Heap) : Except Error Value :=
  match op with
  | or => return .bool (y.toBool h)
  | and => return .bool (x.toBool h && y.toBool h)
  | op =>
    if op.isComparison then return .bool (op.holds (x.compare? y h))
    else if op.isBitwise then op.bitwise x y h
    else op.arithmetic x y h

end BinaryOp

/-- An operator on one value. -/
def UnaryOp.apply (op : UnaryOp) (v : Value) (h : Heap) : Except Error Value :=
  match op with
  | not => return .bool !v.toBool h
  | neg =>
    match v.base h with
    | .int _ n => return .int .bits64 (-n)
    | .uint _ n => return .uint .bits64 (-n)
    | .float _ x => return .float .double x.neg
    | _ => throw (.invalidUnary op v.typeName)
  | plus => if v.isNumber h then return v else throw (.invalidUnary op v.typeName)

end DynamicEval
