import DynamicEval.Path.Read

/-!
# Types along paths

The type at a path is that of the value there. Where there is none, the path is walked over the
declared types: pointers are looked through, a record gives the type of a field, and lists, arrays
and maps give the type of their items whatever the segment is.

## Main definitions

* `Ty.at?`: the type at a path below a type.
* `Value.typeAt?`, `Value.typeById?`: the type at a path below a value.
-/

namespace DynamicEval

namespace Ty

/-- The declared type of the part that a segment selects. -/
def part? (t : Ty) (key : Value) (h : Heap) : Option Ty :=
  match t.stripPointers with
  | record r => (r.field? (key.toText h)).map (·.ty)
  | array e _ | list e | map _ e => some e
  | _ => none

/-- The declared type that the segments of a path select one after the other. -/
def walk? (t : Ty) (h : Heap) : List Value → Option Ty
  | [] => some t
  | key :: path => (t.part? key h).bind fun u => u.walk? h path

/-- The declared type at a path that is not empty. -/
def at? (t : Ty) (path : List Value) (h : Heap) : Option Ty :=
  match path, t with
  | [], _ | _, invalid => none
  | path, t => t.walk? h path

end Ty

namespace Value

/-- The type at a path that is not empty: the type of the value there, or else the declared one. -/
def typeAt? (v : Value) (path : List Value) (h : Heap) : Option Ty :=
  match if v.isNil then none else v.fieldAt? path h with
  | some w => some w.peel.ty
  | none => v.ty.at? path h

/-- The type at a dotted identifier. -/
def typeById? (v : Value) (ident : String) (h : Heap) : Option Ty :=
  v.typeAt? (pathOf ident) h

end Value

end DynamicEval
