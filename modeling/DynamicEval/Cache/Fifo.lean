import DynamicEval.Assoc

/-!
# Insertion-order caches

A store of bounded size from which an overflow drops the key that was inserted first. Reading has
no influence on the order, and neither has replacing the value of a key that is present.

## Main definitions

* `Fifo`: the stored entries and the queue of their keys, oldest first.
* `Fifo.get?`, `Fifo.put`, `Fifo.remove`, `Fifo.clear`.
-/

namespace DynamicEval

/-- A store that drops the oldest key on overflow. -/
structure Fifo (κ α : Type) where
  /-- The greatest number of entries; zero stands for no bound. -/
  capacity : Nat
  /-- The stored entries. -/
  entries : List (κ × α)
  /-- The stored keys, oldest first. -/
  order : List κ

namespace Fifo

variable {κ α : Type} [DecidableEq κ]

/-- An empty store. -/
def empty (capacity : Nat) : Fifo κ α := ⟨capacity, [], []⟩

/-- The number of entries. -/
def size (c : Fifo κ α) : Nat := c.entries.length

/-- The stored keys, oldest first. -/
def keys (c : Fifo κ α) : List κ := c.order

/-- The value stored under a key. -/
def get? (c : Fifo κ α) (k : κ) : Option α := Assoc.find? k c.entries

/-- Whether a new key needs room. -/
def isFull (c : Fifo κ α) : Bool := 0 < c.capacity && c.capacity ≤ c.size

/-- Drops the oldest key. -/
def dropOldest (c : Fifo κ α) : Fifo κ α :=
  match c.order with
  | [] => c
  | k :: ks => { c with entries := Assoc.erase k c.entries, order := ks }

/-- Stores a value under a key. A present key keeps its place in the order. -/
def put (c : Fifo κ α) (k : κ) (a : α) : Fifo κ α :=
  if (c.get? k).isSome then
    { c with entries := Assoc.put k a c.entries }
  else
    let c := if c.isFull then c.dropOldest else c
    { c with entries := Assoc.put k a c.entries, order := c.order ++ [k] }

/-- Removes a key, and tells whether it was present. -/
def remove (c : Fifo κ α) (k : κ) : Bool × Fifo κ α :=
  if (c.get? k).isSome then
    (true, { c with entries := Assoc.erase k c.entries, order := c.order.filter (decide <| · ≠ k) })
  else
    (false, c)

/-- Removes every entry. -/
def clear (c : Fifo κ α) : Fifo κ α := empty c.capacity

end Fifo

end DynamicEval
