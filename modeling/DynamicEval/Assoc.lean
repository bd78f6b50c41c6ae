/-!
# Association lists

Lists of pairs read as finite maps: the first pair with a key counts. Replacing the value of a key
keeps its place, and a new key goes to the end.

## Main definitions

* `Assoc.find?`, `Assoc.put`, `Assoc.erase`: reading, writing and removing a key.
-/

namespace DynamicEval.Assoc

variable {κ α : Type} [DecidableEq κ]

/-- The value of the key `k`. -/
def find? (k : κ) : List (κ × α) → Option α
  | [] => none
  | (j, a) :: es => if j = k then some a else find? k es

/-- Gives the key `k` the value `a`. -/
def put (k : κ) (a : α) : List (κ × α) → List (κ × α)
  | [] => [(k, a)]
  | (j, b) :: es => if j = k then (k, a) :: es else (j, b) :: put k a es

/-- Removes the key `k`. -/
def erase (k : κ) (es : List (κ × α)) : List (κ × α) :=
  es.filter fun e => decide (e.1 ≠ k)

end DynamicEval.Assoc
