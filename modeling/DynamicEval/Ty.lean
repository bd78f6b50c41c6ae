import DynamicEval.Assoc
import DynamicEval.Binary64

/-!
# Types

Types describe values and destinations of coercion. A record type is a name with declared fields
and methods; two declarations count as one type when their names and fields agree, whatever their
methods are.

## Main definitions

* `IntWidth`, `FloatWidth`: widths of numbers, and the reduction of a number to a width.
* `Ty`, `RecordType`, `Field`: types.
* `Ty.same`: equality of types.
* `Kind`: the outermost form of a type, and `Ty.kind`.
* `Ty.text`: how a type is written.
-/

namespace DynamicEval

/-- The width of an integer type; `word` is the width of the machine, which is 64 bits. -/
inductive IntWidth where
  | bits8 | bits16 | bits32 | bits64 | word
deriving DecidableEq

namespace IntWidth

/-- The low bits of `n`, read as a signed number of this width. -/
def wrapSigned : IntWidth → Int64 → Int64
  | bits8, n => n.toInt8.toInt64
  | bits16, n => n.toInt16.toInt64
  | bits32, n => n.toInt32.toInt64
  | bits64, n | word, n => n

/-- The low bits of `n`, read as an unsigned number of this width. -/
def wrapUnsigned : IntWidth → UInt64 → UInt64
  | bits8, n => n.toUInt8.toUInt64
  | bits16, n => n.toUInt16.toUInt64
  | bits32, n => n.toUInt32.toUInt64
  | bits64, n | word, n => n

end IntWidth

/-- The width of a floating-point type. -/
inductive FloatWidth where
  | single | double
deriving DecidableEq

/-- The number of this width nearest to `x`. -/
def FloatWidth.round : FloatWidth → Binary64 → Binary64
  | single, x => x.single
  | double, x => x

/-- A declared field, over a type of types. -/
structure FieldOf (τ : Type) where
  /-- The name of the field. -/
  name : String
  /-- The declared type. -/
  ty : τ
  /-- Whether the field can be seen from outside. -/
  exported : Bool

/-- A declared record type, over a type of types. -/
structure RecordOf (τ : Type) where
  /-- The name of the record type. -/
  name : String
  /-- The fields in their order. -/
  fields : List (FieldOf τ)
  /-- The routine behind each method. -/
  methods : List (String × String)

/-- A type. -/
inductive Ty where
  /-- No type; the type of the absent value. -/
  | invalid
  | bool
  | int (w : IntWidth)
  | uint (w : IntWidth)
  | float (w : FloatWidth)
  | string
  /-- Lists of any length. -/
  | list (elem : Ty)
  /-- Lists of one length. -/
  | array (elem : Ty) (size : Nat)
  | map (key : Ty) (value : Ty)
  | record (type : RecordOf Ty)
  /-- Callables. -/
  | func
  | pointer (elem : Ty)
  /-- Slots that hold a value of any type. -/
  | any

/-- A declared field. -/
abbrev Field := FieldOf Ty

/-- A declared record type. -/
abbrev RecordType := RecordOf Ty

mutual

/-- Equality of types, in which the methods of record types do not count. -/
def Ty.same : Ty → Ty → Bool
  | .invalid, .invalid | .bool, .bool | .string, .string | .func, .func | .any, .any => true
  | .int w, .int w' | .uint w, .uint w' => w = w'
  | .float w, .float w' => w = w'
  | .list e, .list e' | .pointer e, .pointer e' => e.same e'
  | .array e n, .array e' n' => n = n' && e.same e'
  | .map k v, .map k' v' => k.same k' && v.same v'
  | .record ⟨name, fields, _⟩, .record ⟨name', fields', _⟩ =>
    name = name' && Ty.sameFields fields fields'
  | _, _ => false
termination_by structural t => t

/-- Equality of the fields of record types. -/
def Ty.sameFields : List Field → List Field → Bool
  | [], [] => true
  | ⟨name, ty, exported⟩ :: fs, ⟨name', ty', exported'⟩ :: fs' =>
    name = name' && exported = exported' && ty.same ty' && Ty.sameFields fs fs'
  | _, _ => false
termination_by structural fs => fs

end

instance : BEq Ty := ⟨Ty.same⟩

namespace RecordOf

/-- The place and declaration of the field called `name`. -/
def fieldIndex? (r : RecordType) (name : String) : Option Nat :=
  r.fields.findIdx? fun f => f.name = name

/-- The first field called `name`. -/
def field? (r : RecordType) (name : String) : Option Field :=
  r.fields.find? fun f => f.name = name

/-- The routine behind the method called `name`. -/
def method? (r : RecordType) (name : String) : Option String :=
  Assoc.find? name r.methods

end RecordOf

/-- The outermost form of a type. -/
inductive Kind where
  | invalid | bool
  | int | int8 | int16 | int32 | int64
  | uint | uint8 | uint16 | uint32 | uint64
  | float32 | float64
  | string | list | array | map | record | func | pointer | any
deriving DecidableEq

namespace Kind

/-- Signed integers. -/
def isSignedInt : Kind → Bool
  | int | int8 | int16 | int32 | int64 => true
  | _ => false

/-- Unsigned integers. -/
def isUnsignedInt : Kind → Bool
  | uint | uint8 | uint16 | uint32 | uint64 => true
  | _ => false

/-- Integers. -/
def isGeneralInt (k : Kind) : Bool :=
  k.isSignedInt || k.isUnsignedInt

/-- Floating-point numbers. -/
def isFloat : Kind → Bool
  | float32 | float64 => true
  | _ => false

/-- Numbers. -/
def isNumber (k : Kind) : Bool :=
  k.isGeneralInt || k.isFloat

/-- Records, maps, lists and arrays: the kinds with parts that a path can reach. -/
def isStructured : Kind → Bool
  | record | map | list | array => true
  | _ => false

end Kind

namespace Ty

/-- The outermost form of a type. -/
def kind : Ty → Kind
  | invalid => .invalid
  | bool => .bool
  | int .word => .int
  | int .bits8 => .int8
  | int .bits16 => .int16
  | int .bits32 => .int32
  | int .bits64 => .int64
  | uint .word => .uint
  | uint .bits8 => .uint8
  | uint .bits16 => .uint16
  | uint .bits32 => .uint32
  | uint .bits64 => .uint64
  | float .single => .float32
  | float .double => .float64
  | string => .string
  | list _ => .list
  | array _ _ => .array
  | map _ _ => .map
  | record _ => .record
  | func => .func
  | pointer _ => .pointer
  | any => .any

/-- The type of items, of map values, or of what a pointer points to. -/
def elem? : Ty → Option Ty
  | list e | array e _ | pointer e | map _ e => some e
  | _ => none

/-- A type without the pointers around it. -/
def stripPointers : Ty → Ty
  | pointer e => e.stripPointers
  | t => t

/-- A type without parts that a path can reach. -/
def isBasic (t : Ty) : Bool :=
  !t.stripPointers.kind.isStructured

/-- How a type is written. -/
def text : Ty → String
  | invalid => "invalid"
  | bool => "bool"
  | int .word => "int"
  | int .bits8 => "int8"
  | int .bits16 => "int16"
  | int .bits32 => "int32"
  | int .bits64 => "int64"
  | uint .word => "uint"
  | uint .bits8 => "uint8"
  | uint .bits16 => "uint16"
  | uint .bits32 => "uint32"
  | uint .bits64 => "uint64"
  | float .single => "float32"
  | float .double => "float64"
  | string => "string"
  | list e => "[]" ++ e.text
  | array e n => "[" ++ toString n ++ "]" ++ e.text
  | map k v => "map[" ++ k.text ++ "]" ++ v.text
  | record r => r.name
  | func => "func"
  | pointer e => "*" ++ e.text
  | any => "any"

end Ty

end DynamicEval
