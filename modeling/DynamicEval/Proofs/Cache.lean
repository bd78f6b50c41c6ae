import DynamicEval.Cache
import DynamicEval.Proofs.Assoc

/-!
# Entries of caches

A cache of either policy and of any capacity holds nothing that was not put into it. Which entries
are dropped, and in what order, plays no part.

## Main definitions

* `Cache.Stores`: something holds of all entries of a cache.

## Main results

* `Cache.Stores.get_eq`, `Cache.Stores.get`: reading gives a stored value and leaves stored entries.
* `Cache.Stores.put`: writing leaves the entries and the written one at most.
-/

namespace DynamicEval

variable {κ α : Type} [DecidableEq κ] {k : κ} {a : α} {x : κ × α}

/-! ### Insertion order -/

namespace Fifo

variable {c : Fifo κ α}

theorem mem_dropOldest (hx : x ∈ c.dropOldest.entries) : x ∈ c.entries := by
  rw [dropOldest] at hx
  split at hx
  · exact hx
  · exact Assoc.mem_of_mem_erase hx

theorem mem_put (hx : x ∈ (c.put k a).entries) : x = (k, a) ∨ x ∈ c.entries := by
  rw [put] at hx
  split at hx
  · exact Assoc.mem_put hx
  · refine (Assoc.mem_put hx).imp_right fun hx => ?_
    split at hx
    · exact mem_dropOldest hx
    · exact hx

end Fifo

/-! ### Order of last touch -/

namespace Recency

variable {c : Recency κ α}

theorem mem_touch (hx : x ∈ (c.touch k a).entries) : x = (k, a) ∨ x ∈ c.entries := by
  rcases List.mem_append.mp hx with hx | hx
  · exact .inr (Assoc.mem_of_mem_erase hx)
  · exact .inl (List.mem_singleton.mp hx)

theorem mem_put (hx : x ∈ (c.put k a).entries) : x = (k, a) ∨ x ∈ c.entries := by
  rw [put] at hx
  split at hx
  · exact mem_touch hx
  · rcases List.mem_append.mp hx with hx | hx
    · split at hx
      · exact .inr (List.mem_of_mem_drop hx)
      · exact .inr hx
    · exact .inl (List.mem_singleton.mp hx)

theorem mem_get (hx : x ∈ (c.get k).2.entries) : x ∈ c.entries := by
  rw [get] at hx
  split at hx
  · next a ha =>
    rcases mem_touch hx with rfl | hx
    · exact Assoc.mem_of_find?_eq_some ha
    · exact hx
  · exact hx

theorem mem_of_get_eq_some (ha : (c.get k).1 = some a) : (k, a) ∈ c.entries := by
  rw [get] at ha
  split at ha
  · next b hb =>
    cases ha
    exact Assoc.mem_of_find?_eq_some hb
  · cases ha

end Recency

/-! ### Either policy -/

namespace Cache

/-- `P` holds of all keys of a cache and their values. -/
def Stores (c : Cache κ α) (P : κ → α → Prop) : Prop := ∀ x ∈ c.entries, P x.1 x.2

namespace Stores

variable {c : Cache κ α} {P : κ → α → Prop}

omit [DecidableEq κ] in
theorem empty (policy : CachePolicy) (capacity : Nat) : (Cache.empty policy capacity).Stores P := by
  cases policy <;> exact List.forall_mem_nil _

/-- What is read is stored. -/
theorem get_eq (hc : c.Stores P) (ha : (c.get k).1 = some a) : P k a := by
  cases c with
  | fifo c => exact hc (k, a) (Assoc.mem_of_find?_eq_some ha)
  | lru c => exact hc (k, a) (Recency.mem_of_get_eq_some ha)

/-- Reading stores nothing. -/
theorem get (hc : c.Stores P) (k : κ) : (c.get k).2.Stores P := by
  cases c with
  | fifo c => exact hc
  | lru c => exact fun x hx => hc x (Recency.mem_get hx)

/-- Writing stores nothing but what is written. -/
theorem put (hc : c.Stores P) (ha : P k a) : (c.put k a).Stores P := by
  intro x hx
  have hx : x = (k, a) ∨ x ∈ c.entries := by
    cases c with
    | fifo c => exact Fifo.mem_put hx
    | lru c => exact Recency.mem_put hx
  rcases hx with rfl | hx
  · exact ha
  · exact hc x hx

end Stores

end Cache

end DynamicEval
