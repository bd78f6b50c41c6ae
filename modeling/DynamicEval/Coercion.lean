import DynamicEval.Error
import DynamicEval.Numeral
import DynamicEval.Value.Order
import DynamicEval.Value.Text

/-!
# Coercion

Values are coerced into the type of their destination. What is nothing gives the zero of the type,
a base of the type itself is taken as it is, and otherwise numbers are converted to the width,
texts are read as numbers, anything can become a text or a truth value, and lists and maps are
rebuilt part by part. A pointer type shares the cell of a pointer of that type and puts any other
value into a new cell, so coercion may add cells to the heap; it changes none.

## Main definitions

* `Ty.coerce`: a value coerced into a type.
* `Ty.assign`: the new content of a destination of a type.
* `Entries.insert`: a coerced entry added to those of a map.
* `Value.toInt64`, `Value.toUInt64`, `Value.toFloat`: a value read as a number.
-/

namespace DynamicEval

/-- A computation that may add cells to the heap, or fail. -/
abbrev HeapM := StateT Heap (Except Error)

/-- The integer of 64 bits that a scalar is converted to. -/
def Value.asInt64? : Value → Option Int64
  | .string s => some (readInt s)
  | .int _ n => some n
  | .uint _ n => some n.toInt64
  | .float _ x => some (.ofInt (x.saturate Int64.minValue.toInt Int64.maxValue.toInt))
  | _ => none

/-- The unsigned integer of 64 bits that a scalar is converted to. -/
def Value.asUInt64? : Value → Option UInt64
  | .string s => some (readInt s).toUInt64
  | .int _ n => some n.toUInt64
  | .uint _ n => some n
  | .float _ x => some (.ofNat (x.saturate 0 (UInt64.size - 1)).toNat)
  | _ => none

/-- The floating-point number that a scalar is converted to. -/
def Value.asFloat? : Value → Option Binary64
  | .string s => some (readFloat s)
  | v => v.toFloat?

/-- Coerces into a type by the base of a value: nothing gives the zero of the type, a base of the
type is taken as it is, and any other base is converted, if `convert` has a rule for it. -/
def Ty.coerceBase (ty : Ty) (v : Value) (convert : Value → Option (HeapM Value)) : HeapM Value := do
  let h ← get
  if v.peel.isNil then
    return ty.zero
  let b := v.peel.base h
  if b.ty == ty then
    return b
  match convert b with
  | some result => result
  | none => throw (.cannotAssign v.peel.typeName ty.text)

/-- Coerces a key by `coerce` and brings it into the form in which a map stores it. -/
def Key.coerceWith (coerce : Value → HeapM Value) (k : Value) : HeapM Key := do
  let k ← coerce k
  match k.peel.key? with
  | some key => return key
  | none => throw (.unexpectedType "hashable map key" k.peel.typeName)

/-- Adds entries to those of a map, each coerced by `key` and `value`. -/
def Entries.insertAll (key value : Value → HeapM Value) :
    List (Key × Value) → List (Key × Value) → HeapM (List (Key × Value))
  | es, [] => return es
  | es, (k, v) :: rest => do
    let k ← Key.coerceWith key k.value
    let v ← value v
    insertAll key value (Entries.put k v es) rest

/-- Coerces values one by one. -/
def Value.coerceItems (coerce : Value → HeapM Value) : List Value → HeapM (List Value)
  | [] => return []
  | v :: vs => do
    let w ← coerce v
    let ws ← Value.coerceItems coerce vs
    return w :: ws

/-- The items of a list or an array. -/
def Value.items? : Value → Option (List Value)
  | .list _ items | .array _ items => some items
  | _ => none

/-- The entries of a map. -/
def Value.entries? : Value → Option (List (Key × Value))
  | .map _ _ entries => some entries
  | _ => none

/-- The first `n` values of a list, with `fill` for those that are missing. -/
def Value.resize (fill : Value) (n : Nat) (vs : List Value) : List Value :=
  vs.take n ++ List.replicate (n - vs.length) fill

/-- A value coerced into a type. Nothing is needed for a value without a declared type, and a slot
takes any value. -/
def Ty.coerce : Ty → Value → HeapM Value
  | .invalid, v => return v
  | .any, v => return v.peel.boxed
  | .pointer e, v => do
    match v.peel with
    | .invalid | .emptySlot | .pointer _ none => return .pointer e none
    | .pointer e' (some a) =>
      if e' == e then
        return .pointer e' (some a)
      newCell e (← e.coerce (.pointer e' (some a)))
    | v => newCell e (← e.coerce v)
  | .bool, v => Ty.bool.coerceBase v fun b => some (return .bool !b.isZero)
  | .string, v => Ty.string.coerceBase v fun b => some do
      let h ← get
      return .string (b.text h)
  | .int w, v => (Ty.int w).coerceBase v fun b =>
      b.asInt64?.map fun n => return .int w (w.wrapSigned n)
  | .uint w, v => (Ty.uint w).coerceBase v fun b =>
      b.asUInt64?.map fun n => return .uint w (w.wrapUnsigned n)
  | .float w, v => (Ty.float w).coerceBase v fun b =>
      b.asFloat?.map fun x => return .float w (w.round x)
  | .list e, v => (Ty.list e).coerceBase v fun b =>
      b.items?.map fun items => do
        let items ← Value.coerceItems e.coerce items
        return .list e items
  | .array e n, v => (Ty.array e n).coerceBase v fun b =>
      b.items?.map fun items => do
        let items ← Value.coerceItems e.coerce (Value.resize e.zero n items)
        return .array e items
  | .map k e, v => (Ty.map k e).coerceBase v fun b =>
      b.entries?.map fun entries => do
        let entries ← Entries.insertAll k.coerce e.coerce [] entries
        return .map k e entries
  | .record r, v => (Ty.record r).coerceBase v fun _ => none
  | .func, v => Ty.func.coerceBase v fun _ => none
termination_by structural t => t
where
  /-- A pointer to a new cell that holds a value. -/
  newCell (e : Ty) (v : Value) : HeapM Value := do
    let h ← get
    let (h, a) := h.alloc v
    set h
    return .pointer e (some a)

/-- The new content of a destination of a type that a value is assigned to. Nothing resets the
destination; any other value needs a type to be coerced into. -/
def Ty.assign (ty : Ty) (v : Value) : HeapM Value :=
  if v.peel.isNil then
    return ty.zero
  else
    match ty with
    | .invalid => throw .unaddressable
    | ty => ty.coerce v

/-- Adds an entry to those of a map, coerced into the types of its keys and values. -/
def Entries.insert (key value : Ty) (es : List (Key × Value)) (k v : Value) :
    HeapM (List (Key × Value)) := do
  let k ← Key.coerceWith key.coerce k
  let v ← value.coerce v
  return Entries.put k v es

/-- The place that a key selects in a map with keys of type `key`, if it can be one. -/
def Key.place? (key : Ty) (k : Value) (h : Heap) : Option BareKey :=
  match (Key.coerceWith key.coerce k).run h with
  | .ok (k, _) => some k.bare
  | .error _ => none

/-- The value that a key selects in a map with keys of type `key`. -/
def Entries.lookup? (key : Ty) (es : List (Key × Value)) (k : Value) (h : Heap) : Option Value :=
  (Key.place? key k h).bind fun place => Entries.find? place es

namespace Value

/-- A value read as a signed integer of 64 bits. -/
def toInt64 (v : Value) (h : Heap) : Except Error Int64 :=
  ((Ty.int .bits64).coerce v |>.run' h).map fun
    | int _ n => n
    | _ => 0

/-- A value read as an unsigned integer of 64 bits. -/
def toUInt64 (v : Value) (h : Heap) : Except Error UInt64 :=
  ((Ty.uint .bits64).coerce v |>.run' h).map fun
    | uint _ n => n
    | _ => 0

/-- A value read as a floating-point number of 64 bits. -/
def toFloat (v : Value) (h : Heap) : Except Error Binary64 :=
  ((Ty.float .double).coerce v |>.run' h).map fun
    | float _ x => x
    | _ => .zero

end Value

end DynamicEval
