import DynamicEval.Value.Base

/-!
# Equality of values

Values are equal when they have the same form, type and parts. Slots are looked through, callables
are equal when one is a copy of the other, and pointers are equal when they share a cell or point to
equal values. Numbers compare as numbers of their type, so what is not a number equals nothing.

## Main definitions

* `Value.eq`: equality on a heap.
* `Value.same?`: identity of cells and callables.
-/

namespace DynamicEval

/-- A value taken out of all slots around it. -/
def Value.unslot : Value → Value
  | .slot v => v.unslot
  | v => v

mutual

/-- Equality of two values on the heap `h`, where `deref` compares the content of a cell with a
value. -/
def Value.eqStep (h : Heap) (deref : Addr → Value → Bool) : Value → Value → Bool
  | .slot v, w => v.eqStep h deref w
  | .invalid, w | .emptySlot, w =>
    match w.unslot with
    | .invalid | .emptySlot => true
    | _ => false
  | .bool b, w =>
    match w.unslot with
    | .bool b' => b == b'
    | _ => false
  | .int width n, w =>
    match w.unslot with
    | .int width' n' => width == width' && n == n'
    | _ => false
  | .uint width n, w =>
    match w.unslot with
    | .uint width' n' => width == width' && n == n'
    | _ => false
  | .float width x, w =>
    match w.unslot with
    | .float width' x' => width == width' && x.numEq x'
    | _ => false
  | .string s, w =>
    match w.unslot with
    | .string s' => s == s'
    | _ => false
  | .list e vs, w =>
    match w.unslot with
    | .list e' ws => e == e' && Value.eqItemsStep h deref vs ws
    | _ => false
  | .array e vs, w =>
    match w.unslot with
    | .array e' ws => e == e' && Value.eqItemsStep h deref vs ws
    | _ => false
  | .map k e vs, w =>
    match w.unslot with
    | .map k' e' ws =>
      k == k' && e == e' && vs.length == ws.length && Value.eqEntriesStep h deref vs ws
    | _ => false
  | .record r vs, w =>
    match w.unslot with
    | .record r' ws => Ty.record r == Ty.record r' && Value.eqItemsStep h deref vs ws
    | _ => false
  | .func f, w =>
    match w.unslot with
    | .func f' => f.identity == f'.identity
    | _ => false
  | .pointer e cell, w =>
    match w.unslot with
    | .pointer e' cell' =>
      match cell, cell' with
      | some a, some a' => a == a' || deref a (h.get a')
      | none, none => e == e'
      | _, _ => false
    | _ => false
termination_by structural v => v

/-- Equality of lists of values, item by item. -/
def Value.eqItemsStep (h : Heap) (deref : Addr → Value → Bool) : List Value → List Value → Bool
  | [], [] => true
  | v :: vs, w :: ws => v.eqStep h deref w && Value.eqItemsStep h deref vs ws
  | _, _ => false
termination_by structural vs => vs

/-- Whether every entry has an equal one at the same place of the other map. -/
def Value.eqEntriesStep (h : Heap) (deref : Addr → Value → Bool) :
    List (Key × Value) → List (Key × Value) → Bool
  | [], _ => true
  | (k, v) :: es, es' =>
    (match Entries.find? k.bare es' with
      | some w => v.eqStep h deref w
      | none => false) && Value.eqEntriesStep h deref es es'
termination_by structural es => es

end

/-- Equality of two values on a heap. -/
def Value.eq (v w : Value) (h : Heap) : Bool :=
  h.follow (fun _ => false) (Value.eqStep h) v w

/-- Whether two pointers share a cell, or two callables are copies of one. Other values have no
identity, and a pointer to nothing shares no cell. -/
def Value.same? : Value → Value → Option Bool
  | .pointer _ (some a), .pointer _ (some b) => some (a == b)
  | .pointer _ _, .pointer _ _ => some false
  | .func f, .func g => some (f.identity == g.identity)
  | _, _ => none

end DynamicEval
