import DynamicEval.Coercion

/-!
# Changes in place

A change in place may stop half way, and what it did until then stays. So a change gives the heap
and the new content of its destination together with its result, which may be a failure.

## Main definitions

* `Edit`: what a change leaves behind.
* `Value.change`: a change of the base of a destination, which puts new cells behind pointers to
  nothing on the way.
* `Ty.fresh`: a new value of a type, a pointer type getting a cell.
-/

namespace DynamicEval

/-- What a change in place leaves behind. -/
structure Edit (α : Type) where
  /-- The heap after the change. -/
  heap : Heap
  /-- The content of the destination after the change. -/
  value : Value
  /-- The result of the change. -/
  result : Except Error α

namespace Edit

variable {α : Type}

/-- The destination is left as it is. -/
def keep (h : Heap) (v : Value) (result : Except Error α) : Edit α := ⟨h, v, result⟩

/-- The destination gets the value that a computation gives; a failure leaves all as it is. -/
def replace (h : Heap) (v : Value) (new : HeapM Value) (result : α) : Edit α :=
  match new.run h with
  | .ok (w, h) => ⟨h, w, .ok result⟩
  | .error e => ⟨h, v, .error e⟩

/-- The change of a part, as a change of the whole that `whole` puts around the part. -/
def within (e : Edit α) (whole : Value → Value) : Edit α :=
  { e with value := whole e.value }

end Edit

/-- A new value of a type; a pointer type gets a new cell with the zero of what it points to. -/
def Ty.fresh : Ty → Heap → Value × Heap
  | .pointer e, h =>
    let (h, a) := h.alloc e.zero
    (.pointer e (some a), h)
  | t, h => (t.zero, h)

namespace Value

variable {α : Type}

/-- A change of the zero of the type `e`, behind new cells for every pointer of the type; the
destination becomes a pointer to it. -/
def changeNew (f : Heap → Value → Edit α) : Ty → Heap → Edit α
  | .pointer e, h => store (.pointer e) (changeNew f e h)
  | e, h => store e (f h e.zero)
where
  /-- Puts the changed value into a new cell. -/
  store (e : Ty) (r : Edit α) : Edit α :=
    let (h, a) := r.heap.alloc r.value
    ⟨h, .pointer e (some a), r.result⟩

/-- One step of a change of the base, where `enter` changes the content of a cell. -/
def changeStep (f : Heap → Value → Edit α) (enter : Addr → Heap → Heap × Except Error α) :
    Value → Heap → Edit α
  | slot v, h => (v.changeStep f enter h).within slot
  | pointer e none, h => changeNew f e h
  | pointer e (some a), h =>
    let (h, result) := enter a h
    ⟨h, pointer e (some a), result⟩
  | v, h => f h v

/-- A change of the base, for so many pointers in a row. -/
def changeWithin (f : Heap → Value → Edit α) : Nat → Value → Heap → Edit α
  | 0 => changeStep f fun _ h => (h, throw .unaddressable)
  | n + 1 => changeStep f fun a h =>
    let e := changeWithin f n (h.get a) h
    (e.heap.set a e.value, e.result)

/-- Changes the base of a value in place. Pointers to nothing on the way get new cells, which stay
even if the change fails. -/
def change (v : Value) (h : Heap) (f : Heap → Value → Edit α) : Edit α :=
  changeWithin f h.size v h

/-- Assigns a value to a destination of a type, and tells whether there was anything to assign. -/
def assignAs (dest : Value) (ty : Ty) (v : Value) (h : Heap) : Edit Bool :=
  Edit.replace h dest (ty.assign v) !v.peel.isNil

/-- Assigns a value to a destination of its own type. -/
def assign (dest v : Value) (h : Heap) : Edit Bool :=
  if dest.isInvalid then Edit.keep h dest (throw .unaddressable) else dest.assignAs dest.ty v h

/-- Appends a value to a list or an array, coerced into the type of its items. -/
def push (dest v : Value) (h : Heap) : Edit Unit :=
  match dest with
  | list e items => Edit.replace h dest (return list e (items ++ [← e.coerce v])) ()
  | array e items => Edit.replace h dest (return array e (items ++ [← e.coerce v])) ()
  | _ => Edit.keep h dest (return ())

/-- Stores a value in a map, coerced as its key is. -/
def insert (dest k v : Value) (h : Heap) : Edit Unit :=
  match dest with
  | map kt vt entries =>
    Edit.replace h dest (return map kt vt (← Entries.insert kt vt entries k v)) ()
  | _ => Edit.keep h dest (return ())

/-- Removes a key from a map and gives the value it had. -/
def remove (dest k : Value) (h : Heap) : Edit (Option Value) :=
  match dest with
  | map kt vt entries =>
    match Key.place? kt k h with
    | some place =>
      ⟨h, map kt vt (Entries.erase place entries), return Entries.find? place entries⟩
    | none => Edit.keep h dest (return none)
  | _ => Edit.keep h dest (return none)

/-- The value of a map at a key. -/
def lookup? (v k : Value) (h : Heap) : Option Value :=
  match v with
  | map kt _ entries => Entries.lookup? kt entries k h
  | _ => none

/-- The field of a record called `name`, exported or not. -/
def getField? (v : Value) (name : String) : Option Value :=
  match v with
  | record r fields => (r.fieldIndex? name).bind fun i => fields[i]?
  | _ => none

/-- Assigns a value to the field of a record called `name`, exported or not. -/
def setField (dest : Value) (name : String) (v : Value) (h : Heap) : Edit Unit :=
  match dest with
  | record r fields =>
    match r.field? name, r.fieldIndex? name with
    | some f, some i =>
      Edit.replace h dest (return record r (fields.set i (← f.ty.coerce v))) ()
    | _, _ => Edit.keep h dest (throw (.unknownField r.name name))
  | _ => Edit.keep h dest (return ())

/-- Puts a value into the cell of a pointer as it is; a pointer to nothing gets a new cell. -/
def store (dest v : Value) (h : Heap) : Edit Unit :=
  match dest with
  | pointer _ (some a) => ⟨h.set a v, dest, return ()⟩
  | pointer e none =>
    let (h, a) := h.alloc v
    ⟨h, pointer e (some a), return ()⟩
  | _ => Edit.keep h dest (return ())

end Value

end DynamicEval
