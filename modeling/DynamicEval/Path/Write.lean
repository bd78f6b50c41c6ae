import DynamicEval.Edit
import DynamicEval.Path.Read

/-!
# Writing along paths

A value is written to the place that a path selects, coerced into the declared type of the place.
Entries of maps that a path runs through are made when they are missing, and so are cells behind
pointers to nothing. A segment that selects nothing makes the write answer false.

## Main definitions

* `Value.setIn`: writes below a destination of a type.
* `Value.set`, `Value.setById`: writes at a path and at a dotted identifier.
-/

namespace DynamicEval

/-- The type of the keys of a map that is made for a segment to select from. -/
def keyTypeFor (segment : Value) : Ty :=
  match segment.peel with
  | .string _ | .invalid => .string
  | v => v.ty

/-- The value that is made in a map with values of type `e`, for a path that goes on with `segment`:
a slot gets a map with keys of the segment's type. -/
def Ty.vivify (e : Ty) (segment : Value) (h : Heap) : Value × Heap :=
  match e with
  | .any => (.slot (.map (keyTypeFor segment) .any []), h)
  | e => e.fresh h

namespace Value

/-- Stores the value that a write made for a missing key. The key is stored even when the write
found no place in the value. -/
def insertMade (k e : Ty) (entries : List (Key × Value)) (key : Value) (made : Edit Bool) :
    Edit Bool :=
  match made.result with
  | .error err => ⟨made.heap, map k e entries, .error err⟩
  | .ok done =>
    Edit.replace made.heap (map k e entries)
      (return map k e (← Entries.insert k e entries key made.value)) done

/-- Writes `v` at a path below a destination of type `ty`. -/
def setIn (v : Value) : List Value → Ty → Value → Heap → Edit Bool
  | [], ty, dest, h => dest.assignAs ty v h
  | _ :: _, _, emptySlot, h => Edit.keep h emptySlot (return false)
  | key :: path, _, dest, h =>
    dest.change h fun h base =>
      match base with
      | map k e entries =>
        match path with
        | [] => Edit.replace h base (return map k e (← Entries.insert k e entries key v)) true
        | segment :: _ =>
          match Key.place? k key h with
          | some place =>
            match Entries.find? place entries with
            | some w =>
              (setIn v path e w h).within fun w => map k e (Entries.replace place w entries)
            | none =>
              let (new, h) := e.vivify segment h
              insertMade k e entries key (setIn v path e new h)
          | none =>
            let (new, h) := e.vivify segment h
            insertMade k e entries key (setIn v path e new h)
      | record r fields =>
        let name := key.toText h
        match r.exportedIndex? name, r.field? name with
        | some i, some f =>
          match fields[i]? with
          | some w => (setIn v path f.ty w h).within fun w => record r (fields.set i w)
          | none => Edit.keep h base (return false)
        | _, _ => Edit.keep h base (return false)
      | list e items =>
        match key.index? h with
        | some i =>
          match items[i]? with
          | some w => (setIn v path e w h).within fun w => list e (items.set i w)
          | none => Edit.keep h base (return false)
        | none => Edit.keep h base (return false)
      | array e items =>
        match key.index? h with
        | some i =>
          match items[i]? with
          | some w => (setIn v path e w h).within fun w => array e (items.set i w)
          | none => Edit.keep h base (return false)
        | none => Edit.keep h base (return false)
      | _ => Edit.keep h base (return false)
termination_by structural path => path

/-- Writes `v` at a path inside a destination. A destination without parts, or an empty path, is
assigned to directly. -/
def set (dest v : Value) (path : List Value) (h : Heap) : Edit Bool :=
  if dest.isInvalid then
    Edit.keep h dest (throw .unaddressable)
  else if path.isEmpty || dest.isBasic h then
    dest.assign v h
  else
    setIn v path dest.ty dest h

/-- Writes `v` at a dotted identifier inside a destination. In a map the whole identifier is also
tried as one key. -/
def setById (dest v : Value) (ident : String) (h : Heap) : Edit Bool :=
  let r := dest.set v (pathOf ident) h
  match r.result with
  | .ok false =>
    if r.value.isMap r.heap && 1 < (pathOf ident).length then
      r.value.set v [string ident] r.heap
    else
      r
  | _ => r

end Value

end DynamicEval
