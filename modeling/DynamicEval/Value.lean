import DynamicEval.Key

/-!
# Values

Values of a dynamic language: scalars of every width, lists, maps, records, callables, pointers to
shared cells, and slots that hold a value of any type. A value is plain data; what is shared is
the content of cells, which a `Heap` holds.

## Main definitions

* `Value`: a value; `Callable`, `Routine`: callables, which name a routine of the host.
* `Value.ty`: the type of a value.
* `Value.peel`, `Value.boxed`: taking a value out of its slot and putting it into one.
* `Ty.zero`: the value a destination starts with, and `Value.isZero`.
-/

namespace DynamicEval

/-- The place of a cell on the heap. -/
abbrev Addr := Nat

/-- The host code behind a callable. -/
inductive Routine where
  /-- A routine that runs on arguments. -/
  | plain (body : String)
  /-- A routine that runs on a receiver and arguments. -/
  | method (body : String)
deriving DecidableEq

/-- A callable, over a type of values. -/
structure CallableOf (α : Type) where
  /-- What tells a callable from every other one; copies share it. -/
  identity : Nat
  /-- The name of the callable. -/
  name : String
  /-- The declared types of the arguments, which are coerced to them. -/
  params : Option (List Ty)
  /-- The host code. -/
  routine : Routine
  /-- The values held ready for the host code, such as the receiver of a method. -/
  held : List α

/-- A value. -/
inductive Value where
  /-- The absent value. -/
  | invalid
  | bool (b : Bool)
  | int (w : IntWidth) (n : Int64)
  | uint (w : IntWidth) (n : UInt64)
  | float (w : FloatWidth) (x : Binary64)
  | string (s : String)
  /-- A list of any length. -/
  | list (elem : Ty) (items : List Value)
  /-- A list whose length belongs to its type. -/
  | array (elem : Ty) (items : List Value)
  | map (key : Ty) (value : Ty) (entries : List (Key × Value))
  | record (type : RecordType) (fields : List Value)
  | func (f : CallableOf Value)
  /-- A pointer to a shared cell, or to nothing. -/
  | pointer (elem : Ty) (cell : Option Addr)
  /-- A slot that holds nothing. -/
  | emptySlot
  /-- A slot that holds a value. -/
  | slot (content : Value)

/-- A callable. -/
abbrev Callable := CallableOf Value

mutual

/-- The value that a destination of a type starts with. -/
def Ty.zero : Ty → Value
  | .invalid | .func => .invalid
  | .bool => .bool false
  | .int w => .int w 0
  | .uint w => .uint w 0
  | .float w => .float w .zero
  | .string => .string ""
  | .list e => .list e []
  | .array e n => .array e (List.replicate n e.zero)
  | .map k v => .map k v []
  | .record ⟨name, fields, methods⟩ => .record ⟨name, fields, methods⟩ (Ty.zeroFields fields)
  | .pointer e => .pointer e none
  | .any => .emptySlot
termination_by structural t => t

/-- The values that the fields of a record start with. -/
def Ty.zeroFields : List Field → List Value
  | [] => []
  | ⟨_, ty, _⟩ :: fs => ty.zero :: Ty.zeroFields fs
termination_by structural fs => fs

end

/-- A key as a value. -/
def Key.value : Key → Value
  | bool b => .bool b
  | int w n => .int w n
  | uint w n => .uint w n
  | float w x => .float w x
  | string s => .string s

namespace Value

/-- The type of a value. -/
def ty : Value → Ty
  | invalid => .invalid
  | bool _ => .bool
  | int w _ => .int w
  | uint w _ => .uint w
  | float w _ => .float w
  | string _ => .string
  | list e _ => .list e
  | array e items => .array e items.length
  | map k v _ => .map k v
  | record r _ => .record r
  | func _ => .func
  | pointer e _ => .pointer e
  | emptySlot | slot _ => .any

/-- How the type of a value is written. -/
def typeName (v : Value) : String :=
  v.ty.text

/-- The outermost form of a value. -/
def kind (v : Value) : Kind :=
  v.ty.kind

/-- The content of a slot; an empty one holds the absent value. -/
def peel : Value → Value
  | slot v => v
  | emptySlot => invalid
  | v => v

/-- A value in a slot. Slots do not nest, and the absent value gives the empty slot. -/
def boxed : Value → Value
  | slot v => slot v
  | emptySlot | invalid => emptySlot
  | v => slot v

/-- The value as a key, if it can be one. -/
def key? : Value → Option Key
  | bool b => some (.bool b)
  | int w n => some (.int w n)
  | uint w n => some (.uint w n)
  | float w x => some (.float w x)
  | string s => some (.string s)
  | _ => none

/-- The absent value, an empty slot or a pointer to nothing. -/
def isNil : Value → Bool
  | invalid | emptySlot | pointer _ none => true
  | _ => false

/-- The absent value. -/
def isInvalid : Value → Bool
  | invalid => true
  | _ => false

/-- A pointer, not looked for inside slots. -/
def isPointer : Value → Bool
  | pointer _ _ => true
  | _ => false

/-- A slot. -/
def isSlot : Value → Bool
  | emptySlot | slot _ => true
  | _ => false

/-- The number of items of a list or an array, or of entries of a map. -/
def size : Value → Nat
  | list _ items | array _ items => items.length
  | map _ _ entries => entries.length
  | _ => 0

end Value

mutual

/-- Whether a value is the zero of its type up to the sign of zero: false, zero, the empty text, an
empty list or map, an array or record with zeros only, a pointer to nothing or an empty slot. -/
def Value.isZero : Value → Bool
  | .invalid => true
  | .bool b => !b
  | .int _ n => n = 0
  | .uint _ n => n = 0
  | .float _ x => x.isZero
  | .string s => s.isEmpty
  | .list _ items => items.isEmpty
  | .array _ items => Value.allZero items
  | .map _ _ entries => entries.isEmpty
  | .record _ fields => Value.allZero fields
  | .func _ => false
  | .pointer _ cell => cell.isNone
  | .emptySlot => true
  | .slot _ => false
termination_by structural v => v

/-- Whether every value of a list is zero. -/
def Value.allZero : List Value → Bool
  | [] => true
  | v :: vs => v.isZero && Value.allZero vs
termination_by structural vs => vs

end

/-- A record with zero fields. -/
def RecordOf.instance (r : RecordType) : Value :=
  .record r (Ty.zeroFields r.fields)

end DynamicEval
