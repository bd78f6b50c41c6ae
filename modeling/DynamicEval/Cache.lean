import DynamicEval.Cache.Fifo
import DynamicEval.Cache.Recency

/-!
# Caches

A bounded store with one of two policies of eviction.

## Main definitions

* `CachePolicy`: which key an overflow drops.
* `Cache`: a store with a policy.
-/

namespace DynamicEval

/-- Which key an overflow drops. -/
inductive CachePolicy where
  /-- The key that was inserted first. -/
  | fifo
  /-- The key that was read or written last the longest time ago. -/
  | lru
deriving DecidableEq

/-- A bounded store. -/
inductive Cache (κ α : Type) where
  | fifo (c : Fifo κ α)
  | lru (c : Recency κ α)

namespace Cache

variable {κ α : Type} [DecidableEq κ]

/-- An empty store with the given policy and capacity; capacity zero stands for no bound. -/
def empty (policy : CachePolicy) (capacity : Nat) : Cache κ α :=
  match policy with
  | .fifo => .fifo (.empty capacity)
  | .lru => .lru (.empty capacity)

/-- Reads the value stored under a key. -/
def get : Cache κ α → κ → Option α × Cache κ α
  | .fifo c, k => (c.get? k, .fifo c)
  | .lru c, k => ((c.get k).1, .lru (c.get k).2)

/-- Stores a value under a key. -/
def put : Cache κ α → κ → α → Cache κ α
  | .fifo c, k, a => .fifo (c.put k a)
  | .lru c, k, a => .lru (c.put k a)

/-- Removes a key, and tells whether it was present. -/
def remove : Cache κ α → κ → Bool × Cache κ α
  | .fifo c, k => ((c.remove k).1, .fifo (c.remove k).2)
  | .lru c, k => ((c.remove k).1, .lru (c.remove k).2)

/-- Removes every entry. -/
def clear : Cache κ α → Cache κ α
  | .fifo c => .fifo c.clear
  | .lru c => .lru c.clear

/-- The number of entries. -/
def size : Cache κ α → Nat
  | .fifo c => c.size
  | .lru c => c.size

/-- The greatest number of entries; zero stands for no bound. -/
def capacity : Cache κ α → Nat
  | .fifo c => c.capacity
  | .lru c => c.capacity

/-- Every stored entry. -/
def entries : Cache κ α → List (κ × α)
  | .fifo c => c.entries
  | .lru c => c.entries

end Cache

end DynamicEval
