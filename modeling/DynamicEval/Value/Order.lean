import DynamicEval.Value.Equality

/-!
# Comparison of values

Texts compare by code points and integers by size, whatever their signedness. Other numbers compare
as floating-point numbers. All other values are at most equal.

## Main definitions

* `Value.compare?`: comparison on a heap, undefined for values that have no order.
-/

namespace DynamicEval.Value

/-- The integer that an integer value stands for. -/
def toInt? : Value → Option Int
  | int _ n => some n.toInt
  | uint _ n => some n.toNat
  | _ => none

/-- The floating-point number nearest to a number. -/
def toFloat? : Value → Option Binary64
  | int _ n => some (.ofInt n.toInt)
  | uint _ n => some (.ofInt n.toNat)
  | float _ x => some x
  | _ => none

/-- Comparison of two numbers that are not pointers or slots: exact for integers. -/
def compareNumbers? (v w : Value) : Option (Option Ordering) :=
  match v.toInt?, w.toInt? with
  | some m, some n => some (some (compare m n))
  | _, _ =>
    match v.toFloat?, w.toFloat? with
    | some x, some y => some (x.compare? y)
    | _, _ => none

/-- Comparison of two values on a heap. Texts and numbers compare by their bases; other values are
equal or have no order. -/
def compare? (v w : Value) (h : Heap) : Option Ordering :=
  match v.base h, w.base h with
  | string s, string t => some (compare s t)
  | a, b =>
    match compareNumbers? a b with
    | some order => order
    | none => if v.eq w h then some .eq else none

end DynamicEval.Value
