import DynamicEval.Coercion
import DynamicEval.Text.Dotted

/-!
# Reading along paths

A path is a list of segments. Each segment selects a part of the base of the value reached so far:
an entry of a map by a key coerced into the key type, an exported field of a record by its name, an
item of a list by its index. Dotted identifiers spell paths of texts.

## Main definitions

* `Value.part?`: the part that one segment selects.
* `Value.fieldAt?`, `Value.propAt?`: the value at a path, in its slot and out of it.
* `Value.propById?`: the value at a dotted identifier.
* `Value.methodAt?`, `Value.methodById?`: a method and its receiver.
* `Value.pairs`, `flatten`: the parts of a value, and the items of several lists.
-/

namespace DynamicEval

/-- The place of an exported field called `name`. -/
def RecordOf.exportedIndex? (r : RecordType) (name : String) : Option Nat :=
  match r.field? name with
  | some f => if f.exported then r.fieldIndex? name else none
  | none => none

/-- The segments that a dotted identifier spells. -/
def pathOf (ident : String) : List Value :=
  (Text.segments ident).map Value.string

namespace Value

/-- The place in a list that a segment selects, if it is not negative. -/
def index? (key : Value) (h : Heap) : Option Nat :=
  match key.toInt64 h with
  | .ok n => if n < 0 then none else some n.toInt.toNat
  | .error _ => none

/-- The part of the base of a value that a segment selects. -/
def part? (v key : Value) (h : Heap) : Option Value :=
  match v.base h with
  | map k _ entries => Entries.lookup? k entries key h
  | record r fields => (r.exportedIndex? (key.toText h)).bind fun i => fields[i]?
  | list _ items | array _ items => (key.index? h).bind fun i => items[i]?
  | _ => none

/-- The value that the segments of a path select one after the other. -/
def walk? (v : Value) (h : Heap) : List Value → Option Value
  | [] => some v
  | key :: path => (v.part? key h).bind fun w => w.walk? h path

/-- The value at a path that is not empty, in the slot in which it is stored. -/
def fieldAt? (v : Value) (path : List Value) (h : Heap) : Option Value :=
  if path.isEmpty || v.isBasic h || v.isNil then none else v.walk? h path

/-- The value at a path that is not empty. -/
def propAt? (v : Value) (path : List Value) (h : Heap) : Option Value :=
  (v.fieldAt? path h).map peel

/-- The value at a dotted identifier. In a map the whole identifier is also tried as one key. -/
def propById? (v : Value) (ident : String) (h : Heap) : Option Value :=
  if v.isBasic h || v.isNil then
    none
  else
    match v.propAt? (pathOf ident) h with
    | some w => some w
    | none =>
      if v.isMap h && 1 < (pathOf ident).length then v.propAt? [string ident] h else none

/-- The method that the last segment of a path names on the value that the others select: its name,
the routine behind it and its receiver. -/
def methodAt? (v : Value) (path : List Value) (h : Heap) : Option (String × String × Value) :=
  if v.isNil || v.isBasic h then
    none
  else
    match path.getLast? with
    | none => none
    | some last => do
      let owner ← if path.length = 1 then some v else v.fieldAt? path.dropLast h
      match owner.peel.baseTy h with
      | .record r =>
        let name := last.toText h
        let body ← r.method? name
        return (name, body, owner.peel)
      | _ => none

/-- The method at a dotted identifier. -/
def methodById? (v : Value) (ident : String) (h : Heap) : Option (String × String × Value) :=
  v.methodAt? (pathOf ident) h

/-- The exported field of a record called `name`. -/
def getExported? (v : Value) (name : String) : Option Value :=
  match v with
  | record r fields => (r.exportedIndex? name).bind fun i => fields[i]?
  | _ => none

/-- The exported fields of a record with their names. -/
def exportedFields (r : RecordType) (fields : List Value) : List (String × Value) :=
  (r.fields.zip fields).filterMap fun (f, v) => if f.exported then some (f.name, v) else none

/-- The parts of a value with what selects them: the entries of a map in the order of their places,
the items of a list and the exported fields of a record. -/
def pairs (v : Value) (h : Heap) : List (Value × Value) :=
  if v.isBasic h || v.isNil then
    []
  else
    match v.base h with
    | map _ _ entries => (Entries.sorted entries).map fun (k, w) => (k.value, w.peel)
    | list _ items | array _ items =>
      items.zipIdx.map fun (w, i) => (int .word (.ofNat i), w.peel)
    | record r fields => (exportedFields r fields).map fun (name, w) => (string name, w.peel)
    | _ => []

/-- The items of the lists among some values, with the values that are no lists as they are. -/
def flatten (vs : List Value) (h : Heap) : List Value :=
  vs.flatMap fun v =>
    match v.base h with
    | list _ items | array _ items => items.map peel
    | w => [w]

end Value

end DynamicEval
