import DynamicEval.Proofs.Assoc
import Mathlib.Data.List.Nodup
import Mathlib.Logic.Function.Basic

/-!
# Ledgers of last touches

What a cache that drops the least recently touched key has to do, told without a list: a ledger has
a clock, and for every key that is held its value and the time of its last touch. A touch is a write
of a key, or a read that finds it. Where a new key needs room, the key with the oldest last touch is
dropped.

## Main definitions

* `CacheOp`, `CacheAnswer`: operations on a cache and what they answer; `CacheOp.runAll`.
* `Ledger`, `Ledger.Step`, `Ledger.Run`: ledgers, and what operations do to them.
* `Ledger.Lists`: a list of entries that has what a ledger holds, in the order of last touch.

## Main results

* `Ledger.Lists.touch`, `Ledger.Lists.drop`: the list after a key is touched or dropped.
* `Ledger.Lists.oldest`: the first entry of the list is the oldest.
-/

namespace DynamicEval

/-- An operation on a cache. -/
inductive CacheOp (κ α : Type) where
  /-- Stores a value under a key. -/
  | put (k : κ) (a : α)
  /-- Reads the value under a key, which touches the key. -/
  | get (k : κ)
  /-- Reads the value under a key. -/
  | peek (k : κ)
  /-- Removes a key. -/
  | remove (k : κ)
  /-- Removes every key. -/
  | clear
  /-- Counts the entries. -/
  | size

/-- What an operation on a cache answers. -/
inductive CacheAnswer (α : Type) where
  /-- Nothing. -/
  | done
  /-- The value under a key, if the key is present. -/
  | value (a : Option α)
  /-- Whether a key was present. -/
  | removed (present : Bool)
  /-- The number of entries. -/
  | size (n : Nat)

/-- The keys that are held, each with its value and the time of its last touch. -/
structure Ledger (κ α : Type) where
  /-- The time of the next touch. -/
  clock : Nat
  /-- The value and the last touch of every key that is held. -/
  held : κ → Option (α × Nat)

/-- What operations do to a cache one after the other, and what they answer, where `step` tells what
one operation does. -/
def CacheOp.runAll {σ κ α : Type} (step : σ → CacheOp κ α → CacheAnswer α × σ) :
    σ → List (CacheOp κ α) → List (CacheAnswer α) × σ
  | c, [] => ([], c)
  | c, op :: ops =>
    let (answer, c) := step c op
    let (answers, c) := runAll step c ops
    (answer :: answers, c)

namespace Ledger

variable {κ α : Type} [DecidableEq κ]

/-- A ledger without keys. -/
def empty : Ledger κ α := ⟨0, fun _ => none⟩

/-- A key is held with a value and touched now. -/
def touch (s : Ledger κ α) (k : κ) (a : α) : Ledger κ α :=
  ⟨s.clock + 1, Function.update s.held k (some (a, s.clock))⟩

/-- A key is no longer held. -/
def drop (s : Ledger κ α) (k : κ) : Ledger κ α :=
  { s with held := Function.update s.held k none }

@[simp]
theorem held_touch (s : Ledger κ α) (k j : κ) (a : α) :
    (s.touch k a).held j = if j = k then some (a, s.clock) else s.held j :=
  Function.update_apply ..

@[simp]
theorem held_drop (s : Ledger κ α) (k j : κ) :
    (s.drop k).held j = if j = k then none else s.held j :=
  Function.update_apply ..

/-- No key is held any longer. -/
def cleared (s : Ledger κ α) : Ledger κ α := { s with held := fun _ => none }

/-- So many keys are held. -/
def Holds (s : Ledger κ α) (n : Nat) : Prop :=
  ∃ ks : List κ, ks.Nodup ∧ ks.length = n ∧ ∀ k, k ∈ ks ↔ (s.held k).isSome

/-- No key that is held has an older last touch than the key `k`. -/
def Oldest (s : Ledger κ α) (k : κ) : Prop :=
  ∃ a t, s.held k = some (a, t) ∧ ∀ j b u, s.held j = some (b, u) → t ≤ u

/-- What an operation does to a ledger that has room for `c` keys, or for any number of them if `c`
is zero, and what it answers. -/
inductive Step (c : Nat) (s : Ledger κ α) : CacheOp κ α → CacheAnswer α → Ledger κ α → Prop where
  /-- A write of a key that is held replaces its value. -/
  | replace {k : κ} {a : α} (hk : (s.held k).isSome) : Step c s (.put k a) .done (s.touch k a)
  /-- A new key is added while there is room. -/
  | store {k : κ} {a : α} {n : Nat} (hk : s.held k = none) (hn : s.Holds n) (hc : c = 0 ∨ n < c) :
      Step c s (.put k a) .done (s.touch k a)
  /-- Without room for it, a new key takes the place of the oldest one. -/
  | evict {k j : κ} {a : α} (hk : s.held k = none) (hc : 0 < c) (hn : s.Holds c)
      (hj : s.Oldest j) : Step c s (.put k a) .done ((s.drop j).touch k a)
  /-- A read that finds its key touches it. -/
  | hit {k : κ} {a : α} {t : Nat} (hk : s.held k = some (a, t)) :
      Step c s (.get k) (.value (some a)) (s.touch k a)
  /-- A read that does not find its key changes nothing. -/
  | miss {k : κ} (hk : s.held k = none) : Step c s (.get k) (.value none) s
  | peek (k : κ) : Step c s (.peek k) (.value ((s.held k).map Prod.fst)) s
  | remove (k : κ) : Step c s (.remove k) (.removed (s.held k).isSome) (s.drop k)
  | clear : Step c s .clear .done s.cleared
  | size {n : Nat} (hn : s.Holds n) : Step c s .size (.size n) s

/-- What operations do to a ledger one after the other, and what they answer. -/
inductive Run (c : Nat) : Ledger κ α → List (CacheOp κ α) → List (CacheAnswer α) → Ledger κ α →
    Prop where
  | nil (s : Ledger κ α) : Run c s [] [] s
  | cons {s s' s'' : Ledger κ α} {op : CacheOp κ α} {answer : CacheAnswer α}
      {ops : List (CacheOp κ α)} {answers : List (CacheAnswer α)} (hop : Step c s op answer s')
      (hops : Run c s' ops answers s'') : Run c s (op :: ops) (answer :: answers) s''

/-- A list of what a ledger holds, every key once and in the order of last touch. -/
structure Lists (s : Ledger κ α) (es : List (κ × α)) : Prop where
  /-- No key stands in the list twice. -/
  nodup : (es.map Prod.fst).Nodup
  /-- The list has the keys that are held, with their values. -/
  find?_eq (k : κ) : Assoc.find? k es = (s.held k).map Prod.fst
  /-- What stands before another entry was touched before it. -/
  order : es.Pairwise fun x y =>
    ∀ a t b u, s.held x.1 = some (a, t) → s.held y.1 = some (b, u) → t < u
  /-- Every touch is in the past. -/
  past (k : κ) (a : α) (t : Nat) : s.held k = some (a, t) → t < s.clock

/-! ### Lists of what is held -/

namespace Lists

variable {s : Ledger κ α} {es : List (κ × α)} {x : κ × α} {k : κ} {a : α}

theorem empty : (Ledger.empty : Ledger κ α).Lists [] :=
  ⟨List.nodup_nil, fun _ => rfl, List.Pairwise.nil, nofun⟩

theorem cleared (s : Ledger κ α) : s.cleared.Lists [] :=
  ⟨List.nodup_nil, fun _ => rfl, List.Pairwise.nil, nofun⟩

theorem held_eq_none_iff (hs : s.Lists es) : s.held k = none ↔ Assoc.find? k es = none := by
  rw [hs.find?_eq, Option.map_eq_none_iff]

theorem isSome_held (hs : s.Lists es) : (s.held k).isSome = (Assoc.find? k es).isSome := by
  rw [hs.find?_eq, Option.isSome_map]

theorem exists_held (hs : s.Lists es) (hx : x ∈ es) : ∃ t, s.held x.1 = some (x.2, t) := by
  have hfind := Assoc.find?_of_mem hs.nodup hx
  rw [hs.find?_eq, Option.map_eq_some_iff] at hfind
  obtain ⟨⟨a, t⟩, hheld, rfl⟩ := hfind
  exact ⟨t, hheld⟩

theorem holds (hs : s.Lists es) : s.Holds es.length := by
  refine ⟨es.map Prod.fst, hs.nodup, List.length_map _, fun k => ?_⟩
  rw [hs.isSome_held, ← not_iff_not, ← Assoc.find?_eq_none_iff, Option.not_isSome_iff_eq_none]

/-- The first entry is the oldest. -/
theorem oldest (hs : s.Lists (x :: es)) : s.Oldest x.1 := by
  obtain ⟨t, ht⟩ := hs.exists_held List.mem_cons_self
  refine ⟨x.2, t, ht, fun j b u hj => ?_⟩
  have hfind : Assoc.find? j (x :: es) = some b := by rw [hs.find?_eq, hj]; rfl
  rcases List.mem_cons.mp (Assoc.mem_of_find?_eq_some hfind) with rfl | hmem
  · rw [ht] at hj
    cases hj
    exact Nat.le_refl _
  · exact Nat.le_of_lt ((List.pairwise_cons.mp hs.order).1 (j, b) hmem _ _ _ _ ht hj)

theorem drop (hs : s.Lists es) (k : κ) : (s.drop k).Lists (Assoc.erase k es) where
  nodup := hs.nodup.sublist (List.filter_sublist.map _)
  find?_eq j := by
    rw [Assoc.find?_erase, hs.find?_eq, held_drop]
    split <;> rfl
  order := by
    have hsub := hs.order.sublist (List.filter_sublist (p := fun e => decide (e.1 ≠ k)))
    refine hsub.imp_of_mem fun {x y} hx hy hlt => ?_
    rwa [held_drop, held_drop, if_neg (Assoc.fst_ne_of_mem_erase hx),
      if_neg (Assoc.fst_ne_of_mem_erase hy)]
  past j a t hj := by
    rw [held_drop] at hj
    split at hj
    · cases hj
    · exact hs.past j a t hj

/-- Without its first key, a ledger has the rest of the list. -/
theorem tail (hs : s.Lists (x :: es)) : (s.drop x.1).Lists es := by
  have hdrop := hs.drop x.1
  rwa [Assoc.erase_head hs.nodup] at hdrop

/-- A new key comes last. -/
theorem add (hs : s.Lists es) (hk : Assoc.find? k es = none) (a : α) :
    (s.touch k a).Lists (es ++ [(k, a)]) := by
  have hnew : k ∉ es.map Prod.fst := Assoc.find?_eq_none_iff.mp hk
  have hne {x : κ × α} (hx : x ∈ es) : x.1 ≠ k := by
    rintro rfl
    exact hnew (List.mem_map_of_mem hx)
  refine ⟨?_, fun j => ?_, ?_, fun j b t hj => ?_⟩
  · rw [List.map_append, List.map_singleton]
    refine List.nodup_append.mpr ⟨hs.nodup, List.nodup_singleton _, fun j hj i hi heq => ?_⟩
    rw [heq, List.mem_singleton.mp hi] at hj
    exact hnew hj
  · rw [Assoc.find?_append, hs.find?_eq, held_touch]
    split
    · next heq =>
      rw [heq, ← hs.find?_eq, hk]
      exact if_pos rfl
    · next hne => simp [Assoc.find?, Ne.symm hne]
  · refine List.pairwise_append.mpr ⟨?_, List.pairwise_singleton _ _, fun x hx y hy => ?_⟩
    · refine hs.order.imp_of_mem fun {x y} hx hy hlt => ?_
      rwa [held_touch, held_touch, if_neg (hne hx), if_neg (hne hy)]
    · rw [List.mem_singleton.mp hy, held_touch, held_touch, if_neg (hne hx), if_pos rfl]
      intro b t c u hx' hk'
      cases hk'
      exact hs.past _ _ _ hx'
  · rw [held_touch] at hj
    split at hj
    · cases hj
      exact Nat.lt_succ_self _
    · exact Nat.lt_succ_of_lt (hs.past j b t hj)

/-- A key that is touched comes last. -/
theorem touch (hs : s.Lists es) (k : κ) (a : α) :
    (s.touch k a).Lists (Assoc.erase k es ++ [(k, a)]) := by
  have htouch : (s.drop k).touch k a = s.touch k a := by
    simp only [Ledger.touch, Ledger.drop, Function.update_idem]
  rw [← htouch]
  refine (hs.drop k).add ?_ a
  rw [Assoc.find?_erase, if_pos rfl]

end Lists

end Ledger

end DynamicEval
