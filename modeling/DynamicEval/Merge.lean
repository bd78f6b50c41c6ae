import DynamicEval.Edit

/-!
# Merges

A merge adds what a source holds to a destination, and zeros never overwrite. Items of a list are
appended, items of an array replace those at their places, and exported fields of a record and
entries of a map replace those of the same name, or are merged into them where both sides have
parts. A list or an array can be merged into either; otherwise both bases have one type.

## Main definitions

* `Value.merge`: merges a source into a destination in place.
-/

namespace DynamicEval

namespace Value

/-- Appends values to the items of a list with items of type `e`. A value that cannot be coerced
stops the merge. -/
def mergeIntoList (e : Ty) (items : List Value) : List Value → Heap → Edit Unit
  | [], h => Edit.keep h (list e items) (return ())
  | v :: vs, h =>
    match (e.coerce v.peel).run h with
    | .ok (w, h) => mergeIntoList e (items ++ [w]) vs h
    | .error err => Edit.keep h (list e items) (throw err)

/-- Replaces the items of an array with items of type `e` by the nonzero values at their places; the
items before the ones at hand are `done`. -/
def mergeIntoArray (e : Ty) (done : List Value) : List Value → List Value → Heap → Edit Unit
  | item :: items, v :: vs, h =>
    if v.peel.isZero then
      mergeIntoArray e (done ++ [item]) items vs h
    else
      match (e.coerce v.peel).run h with
      | .ok (w, h) => mergeIntoArray e (done ++ [w]) items vs h
      | .error err => Edit.keep h (array e (done ++ item :: items)) (throw err)
  | items, _, h => Edit.keep h (array e (done ++ items)) (return ())

/-- Changes the base of the destination of a merge. A slot that holds nothing takes the source. -/
def intoBase (source dest : Value) (h : Heap) (f : Heap → Value → Edit Unit) : Edit Unit :=
  if dest.isInvalid then
    Edit.keep h dest (throw .unaddressable)
  else
    dest.change h fun h base =>
      match base with
      | emptySlot => Edit.keep h source.boxed (return ())
      | base => f h base

/-- The failure of a merge of the base `source` into the base `dest`. -/
def mergeMismatch {α : Type} (h : Heap) (dest source : Value) : Edit α :=
  Edit.keep h dest (throw (.cannotMerge source.typeName dest.typeName))

end Value

mutual

/-- One step of a merge of a source into a destination; `enter` merges the content of a cell. -/
def Value.mergeStep (enter : Addr → Value → Heap → Edit Unit) : Value → Value → Heap → Edit Unit
  | .slot v, dest, h => v.mergeStep enter dest h
  | .pointer _ (some a), dest, h => enter a dest h
  | .invalid, dest, h | .emptySlot, dest, h | .pointer _ none, dest, h =>
    Edit.keep h dest (return ())
  | .list e vs, dest, h => Value.intoBase (.list e vs) dest h fun h base =>
      match base with
      | .list e' items => Value.mergeIntoList e' items vs h
      | .array e' items => Value.mergeIntoArray e' [] items vs h
      | base => Value.mergeMismatch h base (.list e vs)
  | .array e vs, dest, h => Value.intoBase (.array e vs) dest h fun h base =>
      match base with
      | .list e' items => Value.mergeIntoList e' items vs h
      | .array e' items => Value.mergeIntoArray e' [] items vs h
      | base => Value.mergeMismatch h base (.array e vs)
  | .record r vs, dest, h => Value.intoBase (.record r vs) dest h fun h base =>
      match base with
      | .record r' fields =>
        if Ty.record r' == Ty.record r then
          let (h, fields, result) := Value.mergeFieldsStep enter vs r'.fields fields h
          ⟨h, .record r' fields, result⟩
        else
          Value.mergeMismatch h base (.record r vs)
      | base => Value.mergeMismatch h base (.record r vs)
  | .map k e vs, dest, h => Value.intoBase (.map k e vs) dest h fun h base =>
      match base with
      | .map k' e' entries =>
        if Ty.map k' e' == Ty.map k e then
          let (h, entries, result) := Value.mergeEntriesStep enter k' e' vs entries h
          ⟨h, .map k' e' entries, result⟩
        else
          Value.mergeMismatch h base (.map k e vs)
      | base => Value.mergeMismatch h base (.map k e vs)
  | v, dest, h => Value.intoBase v dest h fun h base =>
      if base.ty == v.ty then
        Edit.keep h (if v.isZero then base else v) (return ())
      else
        Value.mergeMismatch h base v
termination_by structural v => v

/-- Merges fields of a record into those of a record of the same type, which declares them. -/
def Value.mergeFieldsStep (enter : Addr → Value → Heap → Edit Unit) :
    List Value → List Field → List Value → Heap → Heap × List Value × Except Error Unit
  | v :: vs, f :: fs, w :: ws, h =>
    if !f.exported || v.isZero then
      let (h, ws, result) := Value.mergeFieldsStep enter vs fs ws h
      (h, w :: ws, result)
    else if f.ty.isBasic then
      let (h, ws, result) := Value.mergeFieldsStep enter vs fs ws h
      (h, v :: ws, result)
    else
      let r := v.mergeStep enter w h
      match r.result with
      | .error err => (r.heap, r.value :: ws, .error err)
      | .ok () =>
        let (h, ws, result) := Value.mergeFieldsStep enter vs fs ws r.heap
        (h, r.value :: ws, result)
  | _, _, ws, h => (h, ws, return ())
termination_by structural vs => vs

/-- Merges entries of a map into those of a map of the same type. -/
def Value.mergeEntriesStep (enter : Addr → Value → Heap → Edit Unit) (kt et : Ty) :
    List (Key × Value) → List (Key × Value) → Heap →
      Heap × List (Key × Value) × Except Error Unit
  | [], entries, h => (h, entries, return ())
  | (k, v) :: es, entries, h =>
    let place := Key.place? kt k.value h
    match place.bind fun place => (Entries.find? place entries).map fun w => (place, w) with
    | some (place, w) =>
      if !w.peel.isBasic h && w.peel.ty == v.peel.ty then
        let r := v.mergeStep enter w h
        let entries := Entries.replace place r.value entries
        match r.result with
        | .error err => (r.heap, entries, .error err)
        | .ok () => Value.mergeEntriesStep enter kt et es entries r.heap
      else if v.peel.isZero then
        Value.mergeEntriesStep enter kt et es entries h
      else
        match (et.coerce v.peel).run h with
        | .error err => (h, entries, .error err)
        | .ok (w, h) =>
          Value.mergeEntriesStep enter kt et es (Entries.replace place w entries) h
    | none =>
      match (Entries.insert kt et entries k.value v.peel).run h with
      | .error err => (h, entries, .error err)
      | .ok (entries, h) => Value.mergeEntriesStep enter kt et es entries h
termination_by structural es => es

end

namespace Value

/-- A merge, for so many pointers in a row. -/
def mergeWithin : Nat → Value → Value → Heap → Edit Unit
  | 0 => mergeStep fun _ dest h => Edit.keep h dest (return ())
  | n + 1 => mergeStep fun a dest h => mergeWithin n (h.get a) dest h

/-- Merges a source into a destination in place. A source that holds nothing changes nothing. -/
def merge (dest source : Value) (h : Heap) : Edit Unit :=
  mergeWithin h.size source dest h

end Value

end DynamicEval
