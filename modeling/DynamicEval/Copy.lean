import DynamicEval.Edit

/-!
# Copies

A deep copy shares no cell with what it copies: every pointer gets a new cell with a copy of the
content. Fields that are not exported are not copied but start at zero. Callables are shared.

## Main definitions

* `Value.deepCopy`: a copy and the heap with its cells.
* `Value.cloneFrom`: a copy into a destination of the same type.
-/

namespace DynamicEval

mutual

/-- One step of a deep copy, where `copyCell` copies a cell. -/
def Value.copyStep (copyCell : Addr → Heap → Heap × Addr) : Value → Heap → Heap × Value
  | .list e items, h =>
    let (h, items) := Value.copyItemsStep copyCell items h
    (h, .list e items)
  | .array e items, h =>
    let (h, items) := Value.copyItemsStep copyCell items h
    (h, .array e items)
  | .map k e entries, h =>
    let (h, entries) := Value.copyEntriesStep copyCell entries h
    (h, .map k e entries)
  | .record r fields, h =>
    let (h, fields) := Value.copyFieldsStep copyCell fields r.fields h
    (h, .record r fields)
  | .pointer e (some a), h =>
    let (h, a) := copyCell a h
    (h, .pointer e (some a))
  | .slot v, h =>
    let (h, v) := v.copyStep copyCell h
    (h, v.boxed)
  | v, h => (h, v)
termination_by structural v => v

/-- Copies values one by one. -/
def Value.copyItemsStep (copyCell : Addr → Heap → Heap × Addr) :
    List Value → Heap → Heap × List Value
  | [], h => (h, [])
  | v :: vs, h =>
    let (h, v) := v.copyStep copyCell h
    let (h, vs) := Value.copyItemsStep copyCell vs h
    (h, v :: vs)
termination_by structural vs => vs

/-- Copies the values of a map; keys are copied as they are. -/
def Value.copyEntriesStep (copyCell : Addr → Heap → Heap × Addr) :
    List (Key × Value) → Heap → Heap × List (Key × Value)
  | [], h => (h, [])
  | (k, v) :: es, h =>
    let (h, v) := v.copyStep copyCell h
    let (h, es) := Value.copyEntriesStep copyCell es h
    (h, (k, v) :: es)
termination_by structural es => es

/-- Copies the exported ones among the fields of a record and sets the others to zero. -/
def Value.copyFieldsStep (copyCell : Addr → Heap → Heap × Addr) :
    List Value → List Field → Heap → Heap × List Value
  | v :: vs, f :: fs, h =>
    let (h, v) := if f.exported then v.copyStep copyCell h else (h, f.ty.zero)
    let (h, vs) := Value.copyFieldsStep copyCell vs fs h
    (h, v :: vs)
  | _, _, h => (h, [])
termination_by structural vs => vs

end

namespace Value

/-- A deep copy, for so many pointers in a row. -/
def copyWithin : Nat → Value → Heap → Heap × Value
  | 0 => copyStep fun a h => (h, a)
  | n + 1 => copyStep fun a h =>
    let (h, v) := copyWithin n (h.get a) h
    h.alloc v

/-- A deep copy of a value, with the heap that holds its cells. -/
def deepCopy (v : Value) (h : Heap) : Heap × Value :=
  copyWithin h.size v h

/-- Puts a deep copy of the base of `v` into a destination of the same type. The destination is
reset first and never writes through the cell it pointed to; nothing leaves it reset. -/
def cloneFrom (dest v : Value) (h : Heap) : Edit Unit :=
  if dest.isInvalid then
    Edit.keep h dest (throw .unaddressable)
  else
    let (new, h) := dest.ty.fresh h
    let b := v.base h
    if b.isNil then
      ⟨h, new, return ()⟩
    else if new.isSlot then
      let (h, copy) := b.deepCopy h
      ⟨h, copy.boxed, return ()⟩
    else
      new.change h fun h target =>
        if target.ty == b.ty then
          let (h, copy) := b.deepCopy h
          ⟨h, copy, return ()⟩
        else
          Edit.keep h target (throw (.cannotClone b.typeName target.typeName))

end Value

end DynamicEval
