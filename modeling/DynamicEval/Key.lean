import DynamicEval.Ty

/-!
# Keys of maps

A key is a scalar with the width it was stored at. Two keys are one place of a map when they agree
up to width; floating-point keys agree when their bit patterns do.

## Main definitions

* `Key`, `BareKey`: a key with and without its width.
* `Entries.find?`, `Entries.put`, `Entries.erase`: the entries of a map, which keep the order in
  which their places were first filled.
* `BareKey.before`: the order in which entries are listed.
-/

namespace DynamicEval

/-- A key as it is stored. -/
inductive Key where
  | bool (b : Bool)
  | int (w : IntWidth) (n : Int64)
  | uint (w : IntWidth) (n : UInt64)
  | float (w : FloatWidth) (x : Binary64)
  | string (s : String)
deriving DecidableEq

/-- A place of a map. -/
inductive BareKey where
  | bool (b : Bool)
  | int (n : Int64)
  | uint (n : UInt64)
  | float (bits : UInt64)
  | string (s : String)
deriving DecidableEq

/-- The place that a key belongs to. -/
def Key.bare : Key → BareKey
  | bool b => .bool b
  | int _ n => .int n
  | uint _ n => .uint n
  | float _ x => .float x.bits
  | string s => .string s

namespace BareKey

/-- The rank of the form of a place: truth values, signed and unsigned integers, floating-point
numbers, texts. -/
def formRank : BareKey → Nat
  | bool _ => 0
  | int _ => 1
  | uint _ => 2
  | float _ => 3
  | string _ => 4

/-- Whether a place is listed before another or is the same: by form, then false before true,
numbers by size, bit patterns as unsigned numbers, texts by code points. -/
def before : BareKey → BareKey → Bool
  | bool a, bool b => !a || b
  | int a, int b => a ≤ b
  | uint a, uint b => a ≤ b
  | float a, float b => a ≤ b
  | string a, string b => a ≤ b
  | a, b => a.formRank ≤ b.formRank

end BareKey

namespace Entries

variable {α : Type}

/-- The value at a place. -/
def find? (k : BareKey) : List (Key × α) → Option α
  | [] => none
  | (j, a) :: es => if j.bare = k then some a else find? k es

/-- Stores a key and a value at the place of the key. -/
def put (k : Key) (a : α) : List (Key × α) → List (Key × α)
  | [] => [(k, a)]
  | (j, b) :: es => if j.bare = k.bare then (k, a) :: es else (j, b) :: put k a es

/-- Replaces the value at a place that is filled, and keeps the stored key. -/
def replace (k : BareKey) (a : α) : List (Key × α) → List (Key × α)
  | [] => []
  | (j, b) :: es => if j.bare = k then (j, a) :: es else (j, b) :: replace k a es

/-- Empties a place. -/
def erase (k : BareKey) (es : List (Key × α)) : List (Key × α) :=
  es.filter fun e => decide (e.1.bare ≠ k)

/-- The entries in the order of their places. -/
def sorted (es : List (Key × α)) : List (Key × α) :=
  es.mergeSort fun a b => a.1.bare.before b.1.bare

end Entries

end DynamicEval
