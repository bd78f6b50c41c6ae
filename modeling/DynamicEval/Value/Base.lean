import DynamicEval.Heap

/-!
# Behind pointers and slots

The base of a value is what stands behind its pointers and slots. Predicates on values are
predicates on the base; a pointer to nothing counts as what it was declared to point to.

## Main definitions

* `Value.base`, `Value.baseTy`, `Value.baseKind`: the base, its type and its kind.
* `Value.isBasic`, `Value.isNumber`, … : predicates on the base.
* `Value.isAnyOf`: whether a value is of one of several kinds.
-/

namespace DynamicEval.Value

/-- One step to the base, where `deref` gives the base of a cell. -/
def baseStep (deref : Addr → Value) : Value → Value
  | pointer _ (some a) => deref a
  | pointer _ none | emptySlot => invalid
  | slot v => v.baseStep deref
  | v => v

/-- The value behind all pointers and slots; behind nothing there is the absent value. -/
def base (v : Value) (h : Heap) : Value :=
  h.follow invalid baseStep v

/-- One step to the type of the base, where `deref` gives the one of a cell. -/
def baseTyStep (deref : Addr → Ty) : Value → Ty
  | pointer _ (some a) => deref a
  | pointer e none => e.stripPointers
  | emptySlot => .invalid
  | slot v => v.baseTyStep deref
  | v => v.ty

/-- The type of the base; a pointer to nothing has the type it was declared to point to. -/
def baseTy (v : Value) (h : Heap) : Ty :=
  h.follow .invalid baseTyStep v

/-- The kind of the base. -/
def baseKind (v : Value) (h : Heap) : Kind :=
  (v.baseTy h).kind

/-- A value without parts that a path can reach. -/
def isBasic (v : Value) (h : Heap) : Bool := !(v.baseKind h).isStructured

/-- A number. -/
def isNumber (v : Value) (h : Heap) : Bool := (v.baseKind h).isNumber

/-- An integer. -/
def isGeneralInt (v : Value) (h : Heap) : Bool := (v.baseKind h).isGeneralInt

/-- A signed integer. -/
def isSignedInt (v : Value) (h : Heap) : Bool := (v.baseKind h).isSignedInt

/-- An unsigned integer. -/
def isUnsignedInt (v : Value) (h : Heap) : Bool := (v.baseKind h).isUnsignedInt

/-- A floating-point number. -/
def isFloat (v : Value) (h : Heap) : Bool := (v.baseKind h).isFloat

/-- A text. -/
def isString (v : Value) (h : Heap) : Bool := v.baseKind h == .string

/-- A truth value. -/
def isBool (v : Value) (h : Heap) : Bool := v.baseKind h == .bool

/-- A callable. -/
def isFunc (v : Value) (h : Heap) : Bool := v.baseKind h == .func

/-- A map. -/
def isMap (v : Value) (h : Heap) : Bool := v.baseKind h == .map

/-- A list or an array. -/
def isList (v : Value) (h : Heap) : Bool := v.baseKind h == .list || v.baseKind h == .array

/-- An array. -/
def isArray (v : Value) (h : Heap) : Bool := v.baseKind h == .array

/-- A record. -/
def isRecord (v : Value) (h : Heap) : Bool := v.baseKind h == .record

/-- Whether a value is of one of several kinds. Pointers and slots are looked for at the value
itself, all other kinds at its base. -/
def isAnyOf (v : Value) (h : Heap) (kinds : List Kind) : Bool :=
  kinds.any fun
    | .pointer => v.isPointer
    | .any => v.isSlot
    | k => k == v.baseKind h

end DynamicEval.Value
