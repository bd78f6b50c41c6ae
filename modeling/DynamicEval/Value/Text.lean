import DynamicEval.Decimal.Layout
import DynamicEval.Value.Base

/-!
# Texts of values

How a value is shown: the items of a list and the fields of a record between brackets, the entries
of a map in the order of their texts, and an ampersand before what a pointer points to.

## Main definitions

* `Value.text`: how a value is shown.
* `Value.toText`: a value read as a text, of which the absent value is the empty one.
* `Value.toBool`: a value read as a truth value.
-/

namespace DynamicEval

/-- How nothing is shown. -/
def nilText : String := "<nil>"

/-- The texts of entries in the order of their code points. -/
def sortedTexts (texts : List String) : List String :=
  texts.mergeSort fun a b => a ≤ b

/-- How a number is shown at its own width. -/
def FloatWidth.text : FloatWidth → Binary64 → String
  | single, x => NumberStyle.plain.writeSingle x
  | double, x => NumberStyle.plain.writeDouble x

/-- How a truth value is shown. -/
def boolText (b : Bool) : String := if b then "true" else "false"

/-- How a key is shown. -/
def Key.text : Key → String
  | bool b => boolText b
  | int _ n => toString n.toInt
  | uint _ n => toString n.toNat
  | float w x => w.text x
  | string s => s

mutual

/-- How a value is shown, where `deref` shows the content of a cell. -/
def Value.textStep (deref : Addr → String) : Value → String
  | .invalid | .emptySlot | .pointer _ none => nilText
  | .bool b => boolText b
  | .int _ n => toString n.toInt
  | .uint _ n => toString n.toNat
  | .float w x => w.text x
  | .string s => s
  | .list _ items | .array _ items =>
    "[" ++ " ".intercalate (Value.textsStep deref items) ++ "]"
  | .map _ _ entries =>
    "map[" ++ " ".intercalate (sortedTexts (Value.entryTextsStep deref entries)) ++ "]"
  | .record _ fields => "\x7b" ++ " ".intercalate (Value.textsStep deref fields) ++ "\x7d"
  | .func f => "<func " ++ f.name ++ ">"
  | .pointer _ (some a) => "&" ++ deref a
  | .slot v => v.textStep deref
termination_by structural v => v

/-- How several values are shown. -/
def Value.textsStep (deref : Addr → String) : List Value → List String
  | [] => []
  | v :: vs => v.textStep deref :: Value.textsStep deref vs
termination_by structural vs => vs

/-- How the entries of a map are shown. -/
def Value.entryTextsStep (deref : Addr → String) : List (Key × Value) → List String
  | [] => []
  | (k, v) :: es =>
    (k.text ++ ":" ++ v.textStep deref) :: Value.entryTextsStep deref es
termination_by structural es => es

end

namespace Value

/-- How a value is shown. -/
def text (v : Value) (h : Heap) : String :=
  h.follow nilText textStep v

/-- A value read as a text: a text as it is, the absent value as the empty text, anything else as it
is shown. -/
def toText (v : Value) (h : Heap) : String :=
  match v.base h with
  | invalid => ""
  | string s => s
  | v => v.text h

/-- A value read as a truth value: whether its base is not zero. -/
def toBool (v : Value) (h : Heap) : Bool :=
  match v.base h with
  | bool b => b
  | v => !v.isZero

end Value

end DynamicEval
