import DynamicEval.Assoc

/-!
# Recency caches

A store of bounded size from which an overflow drops the key that was not read or written for the
longest time. It stands in for a library of such stores; that a cache which leaves its entries to
any library with the documented operations behaves like this one is proved with `StoreLibrary`.

## Main definitions

* `Recency`: the stored entries in the order of their last touch, oldest first.
* `Recency.get`, `Recency.peek?`: reading with and without a touch.
* `Recency.put`, `Recency.remove`, `Recency.clear`.
-/

namespace DynamicEval

/-- A store that drops the least recently touched key on overflow. -/
structure Recency (κ α : Type) where
  /-- The greatest number of entries; zero stands for no bound. -/
  capacity : Nat
  /-- The stored entries, the one touched longest ago first. -/
  entries : List (κ × α)

namespace Recency

variable {κ α : Type} [DecidableEq κ]

/-- An empty store. -/
def empty (capacity : Nat) : Recency κ α := ⟨capacity, []⟩

/-- The number of entries. -/
def size (c : Recency κ α) : Nat := c.entries.length

/-- The value stored under a key. -/
def peek? (c : Recency κ α) (k : κ) : Option α := Assoc.find? k c.entries

/-- Moves a key to the most recent place, with the value `a`. -/
def touch (c : Recency κ α) (k : κ) (a : α) : Recency κ α :=
  { c with entries := Assoc.erase k c.entries ++ [(k, a)] }

/-- Reads the value stored under a key, which touches the key. -/
def get (c : Recency κ α) (k : κ) : Option α × Recency κ α :=
  match c.peek? k with
  | some a => (some a, c.touch k a)
  | none => (none, c)

/-- Whether a new key needs room. -/
def isFull (c : Recency κ α) : Bool := 0 < c.capacity && c.capacity ≤ c.size

/-- Stores a value under a key, which touches the key. -/
def put (c : Recency κ α) (k : κ) (a : α) : Recency κ α :=
  if (c.peek? k).isSome then
    c.touch k a
  else
    { c with entries := (if c.isFull then c.entries.drop 1 else c.entries) ++ [(k, a)] }

/-- Removes a key, and tells whether it was present. -/
def remove (c : Recency κ α) (k : κ) : Bool × Recency κ α :=
  ((c.peek? k).isSome, { c with entries := Assoc.erase k c.entries })

/-- Removes every entry. -/
def clear (c : Recency κ α) : Recency κ α := empty c.capacity

end Recency

end DynamicEval
