import DynamicEval.Cache.Recency
import DynamicEval.Proofs.Cache.Ledger

/-!
# Recency caches follow a ledger

A recency cache does what a ledger of last touches does, and its entries are what the ledger holds,
in the order of last touch. The same is true of a cache that leaves its entries to a library, as
far as the documentation of the library goes: it tells, for every operation, what is answered and
in which order the entries are listed afterwards.

## Main definitions

* `Recency.step`: what an operation does to a recency cache.
* `StoreLibrary`, `StoreLibrary.Documented`: a library that keeps entries in the order of last
  touch, and its documentation.
* `StoreLibrary.listed`: a library that keeps lists.
* `StoreLibrary.Cache`: a cache that leaves its entries to a library.

## Main results

* `Recency.Follows.step`: a step of a recency cache is a step of a ledger.
* `StoreLibrary.Cache.Shows.step`: a step of a cache kept by a library is one of a recency cache.
* `Recency.run_follows`: runs of both are runs of a ledger.
-/

namespace DynamicEval

variable {κ α : Type} [DecidableEq κ]

/-! ### Steps of a ledger -/

namespace Recency

/-- What an operation does to a cache. -/
def step (c : Recency κ α) : CacheOp κ α → CacheAnswer α × Recency κ α
  | .put k a => (.done, c.put k a)
  | .get k => (.value (c.get k).1, (c.get k).2)
  | .peek k => (.value (c.peek? k), c)
  | .remove k => (.removed (c.remove k).1, (c.remove k).2)
  | .clear => (.done, c.clear)
  | .size => (.size c.size, c)

/-- A cache whose entries are what a ledger holds, with no more of them than it has room for. -/
structure Follows (c : Recency κ α) (s : Ledger κ α) : Prop where
  /-- The entries are what is held, in the order of last touch. -/
  lists : s.Lists c.entries
  /-- There is room for all entries. -/
  size_le : 0 < c.capacity → c.size ≤ c.capacity

variable {c : Recency κ α} {s : Ledger κ α} {k : κ}

omit [DecidableEq κ] in
theorem isFull_iff : c.isFull = true ↔ 0 < c.capacity ∧ c.capacity ≤ c.size := by
  simp [isFull]

theorem put_of_isSome (hk : (c.peek? k).isSome) (a : α) : c.put k a = c.touch k a := if_pos hk

theorem put_of_eq_none (hk : c.peek? k = none) (a : α) : c.put k a =
    { c with entries := (if c.isFull then c.entries.drop 1 else c.entries) ++ [(k, a)] } := by
  rw [put, hk]
  rfl

/-- Without a key there are fewer entries, if the key is present. -/
theorem length_erase_lt (hk : (c.peek? k).isSome) : (Assoc.erase k c.entries).length < c.size := by
  obtain ⟨a, ha⟩ := Option.isSome_iff_exists.mp hk
  refine List.length_filter_lt_length_iff_exists.mpr ⟨(k, a), Assoc.mem_of_find?_eq_some ha, ?_⟩
  simp

namespace Follows

theorem empty (capacity : Nat) : (Recency.empty capacity : Recency κ α).Follows .empty :=
  ⟨.empty, fun _ => Nat.zero_le _⟩

theorem touch (hc : c.Follows s) (hk : (c.peek? k).isSome) (a : α) :
    (c.touch k a).Follows (s.touch k a) := by
  refine ⟨hc.lists.touch k a, fun hpos => ?_⟩
  have hlt := length_erase_lt hk
  have hle := hc.size_le hpos
  simp only [Recency.touch, size, List.length_append, List.length_singleton] at hlt hle ⊢
  omega

/-- A write of a new key without room for it drops the oldest key. -/
theorem put_full (hc : c.Follows s) (hk : c.peek? k = none) (hfull : c.isFull = true) (a : α) :
    ∃ s', s.Step c.capacity (.put k a) .done s' ∧ (c.put k a).Follows s' := by
  obtain ⟨hpos, hle⟩ := isFull_iff.mp hfull
  have hsize : c.size = c.capacity := Nat.le_antisymm (hc.size_le hpos) hle
  obtain ⟨x, es, hes⟩ : ∃ x es, c.entries = x :: es := by
    refine List.exists_cons_of_length_pos ?_
    rw [← size, hsize]
    exact hpos
  have hlists := hc.lists
  rw [hes] at hlists
  have hheld : s.held k = none := hc.lists.held_eq_none_iff.mpr hk
  have hnew : Assoc.find? k es = none := by
    rw [← hlists.tail.held_eq_none_iff, Ledger.held_drop, hheld, ite_self]
  refine ⟨_, .evict hheld hpos (hsize ▸ hc.lists.holds) hlists.oldest, ?_⟩
  rw [put_of_eq_none hk, if_pos hfull, hes]
  refine ⟨hlists.tail.add hnew a, fun _ => ?_⟩
  have hlength : c.size = es.length + 1 := congrArg List.length hes
  simp only [size, List.drop_one, List.tail_cons, List.length_append, List.length_singleton]
  omega

/-- A write of a new key with room for it adds the key. -/
theorem put_room (hc : c.Follows s) (hk : c.peek? k = none) (hroom : ¬c.isFull = true) (a : α) :
    ∃ s', s.Step c.capacity (.put k a) .done s' ∧ (c.put k a).Follows s' := by
  have hlt : c.capacity = 0 ∨ c.size < c.capacity := by
    have := mt isFull_iff.mpr hroom
    omega
  refine ⟨_, .store (hc.lists.held_eq_none_iff.mpr hk) hc.lists.holds hlt, ?_⟩
  rw [put_of_eq_none hk, if_neg hroom]
  refine ⟨hc.lists.add hk a, fun (hpos : 0 < c.capacity) => ?_⟩
  simp only [size, List.length_append, List.length_singleton] at hlt ⊢
  omega

/-- A write is a step of the ledger. -/
theorem put (hc : c.Follows s) (k : κ) (a : α) :
    ∃ s', s.Step c.capacity (.put k a) .done s' ∧ (c.put k a).Follows s' := by
  cases hk : c.peek? k with
  | none =>
    by_cases hfull : c.isFull = true
    · exact hc.put_full hk hfull a
    · exact hc.put_room hk hfull a
  | some b =>
    have hsome : (c.peek? k).isSome := Option.isSome_of_eq_some hk
    refine ⟨s.touch k a, .replace (hc.lists.isSome_held.trans hsome), ?_⟩
    rw [put_of_isSome hsome]
    exact hc.touch hsome a

/-- Every operation on a cache is a step of the ledger that it follows. -/
theorem step (hc : c.Follows s) (op : CacheOp κ α) :
    ∃ s', s.Step c.capacity op (c.step op).1 s' ∧ (c.step op).2.Follows s' := by
  cases op with
  | put k a => exact hc.put k a
  | get k =>
    cases hk : c.peek? k with
    | none =>
      have hget : c.get k = (none, c) := by rw [Recency.get, hk]
      rw [Recency.step, hget]
      exact ⟨s, .miss (hc.lists.held_eq_none_iff.mpr hk), hc⟩
    | some a =>
      have hget : c.get k = (some a, c.touch k a) := by rw [Recency.get, hk]
      have hfind : Assoc.find? k c.entries = some a := hk
      rw [hc.lists.find?_eq, Option.map_eq_some_iff] at hfind
      obtain ⟨⟨_, t⟩, hheld, rfl⟩ := hfind
      rw [Recency.step, hget]
      exact ⟨s.touch k _, .hit hheld, hc.touch (Option.isSome_of_eq_some hk) _⟩
  | peek k =>
    rw [Recency.step, peek?, hc.lists.find?_eq]
    exact ⟨s, .peek k, hc⟩
  | remove k =>
    rw [Recency.step, Recency.remove, peek?, ← hc.lists.isSome_held]
    refine ⟨s.drop k, .remove k, hc.lists.drop k, fun hpos => ?_⟩
    exact Nat.le_trans (List.length_filter_le _ _) (hc.size_le hpos)
  | clear => exact ⟨s.cleared, .clear, .cleared s, fun _ => Nat.zero_le _⟩
  | size => exact ⟨s, .size hc.lists.holds, hc⟩

end Follows

theorem capacity_step (c : Recency κ α) (op : CacheOp κ α) :
    (c.step op).2.capacity = c.capacity := by
  cases op with
  | put k a =>
    show (c.put k a).capacity = c.capacity
    rw [put]
    split <;> rfl
  | get k =>
    show (c.get k).2.capacity = c.capacity
    rw [get]
    split <;> rfl
  | _ => rfl

/-- Operations on a cache, one after the other, are a run of the ledger that it follows. -/
theorem Follows.runAll (hc : c.Follows s) (ops : List (CacheOp κ α)) :
    ∃ s', s.Run c.capacity ops (CacheOp.runAll Recency.step c ops).1 s' ∧
      (CacheOp.runAll Recency.step c ops).2.Follows s' ∧
      (CacheOp.runAll Recency.step c ops).2.capacity = c.capacity := by
  induction ops generalizing c s with
  | nil => exact ⟨s, .nil s, hc, rfl⟩
  | cons op ops ih =>
    obtain ⟨s', hstep, hfollows⟩ := hc.step op
    obtain ⟨s'', hrun, hfollows, hcapacity⟩ := ih hfollows
    rw [capacity_step] at hrun hcapacity
    exact ⟨s'', .cons hstep hrun, hfollows, hcapacity⟩

/-- A key that was just written is present with its value. -/
theorem peek?_put (c : Recency κ α) (k : κ) (a : α) (hc : c.Follows s) :
    (c.put k a).peek? k = some a := by
  obtain ⟨s', hstep, hfollows⟩ := hc.put k a
  have hheld : (s'.held k).map Prod.fst = some a := by cases hstep <;> simp
  rw [peek?, hfollows.lists.find?_eq, hheld]

end Recency

/-! ### Caches kept by a library -/

/-- The operations of a library on stores that list their entries in the order of last touch. -/
structure StoreLibrary (κ α : Type) where
  /-- Stores. -/
  Store : Type
  /-- An empty store with room for so many entries. -/
  bounded : Nat → Store
  /-- An empty store without a bound. -/
  unbounded : Store
  /-- Stores a value under a key, and gives the entry that had to go for it. -/
  push : Store → κ → α → Option (κ × α) × Store
  /-- Reads the value under a key, which touches the key. -/
  get : Store → κ → Option α × Store
  /-- Reads the value under a key. -/
  peek : Store → κ → Option α
  /-- Removes a key, and gives its value. -/
  pop : Store → κ → Option α × Store
  /-- The number of entries. -/
  len : Store → Nat
  /-- Removes every entry. -/
  clear : Store → Store

namespace StoreLibrary

variable (L : StoreLibrary κ α)

/-- The documentation of a library: what its operations give, and what they do to the list of the
entries of a store, the one touched last first, and to its bound. -/
structure Documented (recent : L.Store → List (κ × α)) (bound : L.Store → Option Nat) : Prop where
  recent_bounded (n : Nat) : recent (L.bounded n) = []
  bound_bounded (n : Nat) : bound (L.bounded n) = some n
  recent_unbounded : recent L.unbounded = []
  bound_unbounded : bound L.unbounded = none
  /-- A key that is present gets its new value, and comes first. -/
  push_present {s : L.Store} {k : κ} {b : α} (a : α) (hk : Assoc.find? k (recent s) = some b) :
    (L.push s k a).1 = some (k, b) ∧
      recent (L.push s k a).2 = (k, a) :: Assoc.erase k (recent s)
  /-- A new key comes first. -/
  push_room {s : L.Store} {k : κ} (a : α) (hk : Assoc.find? k (recent s) = none)
    (hroom : ∀ n, bound s = some n → (recent s).length < n) :
    (L.push s k a).1 = none ∧ recent (L.push s k a).2 = (k, a) :: recent s
  /-- In a store that is full, the last entry goes. -/
  push_full {s : L.Store} {k : κ} {n : Nat} (a : α) (hk : Assoc.find? k (recent s) = none)
    (hn : bound s = some n) (hpos : 0 < n) (hfull : n ≤ (recent s).length) :
    (L.push s k a).1 = (recent s).getLast? ∧
      recent (L.push s k a).2 = (k, a) :: (recent s).dropLast
  bound_push (s : L.Store) (k : κ) (a : α) : bound (L.push s k a).2 = bound s
  get_fst (s : L.Store) (k : κ) : (L.get s k).1 = Assoc.find? k (recent s)
  /-- A key that is read comes first. -/
  get_present {s : L.Store} {k : κ} {a : α} (hk : Assoc.find? k (recent s) = some a) :
    recent (L.get s k).2 = (k, a) :: Assoc.erase k (recent s)
  get_absent {s : L.Store} {k : κ} (hk : Assoc.find? k (recent s) = none) :
    recent (L.get s k).2 = recent s
  bound_get (s : L.Store) (k : κ) : bound (L.get s k).2 = bound s
  peek_eq (s : L.Store) (k : κ) : L.peek s k = Assoc.find? k (recent s)
  pop_fst (s : L.Store) (k : κ) : (L.pop s k).1 = Assoc.find? k (recent s)
  recent_pop (s : L.Store) (k : κ) : recent (L.pop s k).2 = Assoc.erase k (recent s)
  bound_pop (s : L.Store) (k : κ) : bound (L.pop s k).2 = bound s
  len_eq (s : L.Store) : L.len s = (recent s).length
  recent_clear (s : L.Store) : recent (L.clear s) = []
  bound_clear (s : L.Store) : bound (L.clear s) = bound s

/-- A cache that leaves its entries to a library. -/
structure Cache where
  /-- The greatest number of entries; zero stands for no bound. -/
  capacity : Nat
  /-- The entries. -/
  store : L.Store

/-- A library whose stores are lists of entries with a bound. -/
def listed (κ α : Type) [DecidableEq κ] : StoreLibrary κ α where
  Store := Option Nat × List (κ × α)
  bounded n := (some n, [])
  unbounded := (none, [])
  push s k a :=
    match Assoc.find? k s.2 with
    | some b => (some (k, b), s.1, (k, a) :: Assoc.erase k s.2)
    | none =>
      if s.1.any (decide <| · ≤ s.2.length) then
        (s.2.getLast?, s.1, (k, a) :: s.2.dropLast)
      else
        (none, s.1, (k, a) :: s.2)
  get s k :=
    match Assoc.find? k s.2 with
    | some a => (some a, s.1, (k, a) :: Assoc.erase k s.2)
    | none => (none, s)
  peek s k := Assoc.find? k s.2
  pop s k := (Assoc.find? k s.2, s.1, Assoc.erase k s.2)
  len s := s.2.length
  clear s := (s.1, [])

theorem listed_documented : (listed κ α).Documented Prod.snd Prod.fst where
  recent_bounded _ := rfl
  bound_bounded _ := rfl
  recent_unbounded := rfl
  bound_unbounded := rfl
  push_present a hk := by simp [listed, hk]
  push_room {s k} a hk hroom := by
    have hany : s.1.any (decide <| · ≤ s.2.length) = false := by
      cases hn : s.1 with
      | none => rfl
      | some n => exact decide_eq_false (Nat.not_le.mpr (hroom n hn))
    simp [listed, hk, hany]
  push_full {s k n} a hk hn _ hfull := by
    have hany : s.1.any (decide <| · ≤ s.2.length) = true := by
      rw [hn]
      exact decide_eq_true hfull
    simp [listed, hk, hany]
  bound_push s k a := by
    simp only [listed]
    split
    · rfl
    · split <;> rfl
  get_fst s k := by
    simp only [listed]
    split <;> next hk => exact hk.symm
  get_present hk := by simp [listed, hk]
  get_absent hk := by simp [listed, hk]
  bound_get s k := by
    simp only [listed]
    split <;> rfl
  peek_eq _ _ := rfl
  pop_fst _ _ := rfl
  recent_pop _ _ := rfl
  bound_pop _ _ := rfl
  len_eq _ := rfl
  recent_clear _ := rfl
  bound_clear _ := rfl

namespace Cache

variable {L}

/-- An empty cache. -/
def empty (L : StoreLibrary κ α) (capacity : Nat) : L.Cache :=
  ⟨capacity, if capacity = 0 then L.unbounded else L.bounded capacity⟩

/-- What an operation does to a cache. -/
def step (d : L.Cache) : CacheOp κ α → CacheAnswer α × L.Cache
  | .put k a => (.done, { d with store := (L.push d.store k a).2 })
  | .get k => (.value (L.get d.store k).1, { d with store := (L.get d.store k).2 })
  | .peek k => (.value (L.peek d.store k), d)
  | .remove k => (.removed (L.pop d.store k).1.isSome, { d with store := (L.pop d.store k).2 })
  | .clear => (.done, { d with store := L.clear d.store })
  | .size => (.size (L.len d.store), d)

variable {recent : L.Store → List (κ × α)} {bound : L.Store → Option Nat}

/-- A cache has the entries of a recency cache, listed the other way round, and its bound. -/
structure Shows (recent : L.Store → List (κ × α)) (bound : L.Store → Option Nat) (d : L.Cache)
    (c : Recency κ α) : Prop where
  recent_eq : recent d.store = c.entries.reverse
  bound_eq : bound d.store = if c.capacity = 0 then none else some c.capacity

theorem empty_shows (hL : L.Documented recent bound) (capacity : Nat) :
    (empty L capacity).Shows recent bound (.empty capacity) := by
  by_cases hzero : capacity = 0
  · rw [empty, if_pos hzero]
    exact ⟨hL.recent_unbounded, by rw [hL.bound_unbounded, Recency.empty, if_pos hzero]⟩
  · rw [empty, if_neg hzero]
    exact ⟨hL.recent_bounded _, by rw [hL.bound_bounded, Recency.empty, if_neg hzero]⟩

namespace Shows

variable {d : L.Cache} {c : Recency κ α} {k : κ}

theorem find?_eq (hd : d.Shows recent bound c) (hc : (c.entries.map Prod.fst).Nodup) (k : κ) :
    Assoc.find? k (recent d.store) = c.peek? k := by
  rw [hd.recent_eq, Assoc.find?_reverse hc, Recency.peek?]

omit [DecidableEq κ] in
theorem length_eq (hd : d.Shows recent bound c) : (recent d.store).length = c.size := by
  rw [hd.recent_eq, List.length_reverse, Recency.size]

/-- A key that is touched comes first in one list and last in the other. -/
theorem touch_eq (hd : d.Shows recent bound c) (k : κ) (a : α) :
    (k, a) :: Assoc.erase k (recent d.store) = (c.touch k a).entries.reverse := by
  rw [hd.recent_eq, Assoc.erase_reverse, Recency.touch, List.reverse_append, List.reverse_singleton,
    List.singleton_append]

theorem push (hL : L.Documented recent bound) (hd : d.Shows recent bound c)
    (hc : (c.entries.map Prod.fst).Nodup) (k : κ) (a : α) :
    recent (L.push d.store k a).2 = (c.put k a).entries.reverse := by
  cases hk : c.peek? k with
  | some b =>
    obtain ⟨-, hrecent⟩ := hL.push_present a ((hd.find?_eq hc k).trans hk)
    rw [hrecent, hd.touch_eq, Recency.put_of_isSome (Option.isSome_of_eq_some hk)]
  | none =>
    have hnew := (hd.find?_eq hc k).trans hk
    rw [Recency.put_of_eq_none hk]
    by_cases hfull : c.isFull = true
    · obtain ⟨hpos, hle⟩ := Recency.isFull_iff.mp hfull
      have hbound : bound d.store = some c.capacity := by
        rw [hd.bound_eq, if_neg (Nat.ne_of_gt hpos)]
      obtain ⟨-, hrecent⟩ := hL.push_full a hnew hbound hpos (hd.length_eq ▸ hle)
      rw [hrecent, hd.recent_eq, if_pos hfull]
      simp
    · have hroom : ∀ n, bound d.store = some n → (recent d.store).length < n := by
        intro n hn
        have hlt := mt Recency.isFull_iff.mpr hfull
        rw [hd.bound_eq] at hn
        rw [hd.length_eq]
        split at hn
        · cases hn
        · cases hn
          omega
      obtain ⟨-, hrecent⟩ := hL.push_room a hnew hroom
      rw [hrecent, hd.recent_eq, if_neg hfull]
      simp

theorem get (hL : L.Documented recent bound) (hd : d.Shows recent bound c)
    (hc : (c.entries.map Prod.fst).Nodup) (k : κ) :
    recent (L.get d.store k).2 = (c.get k).2.entries.reverse := by
  rw [Recency.get]
  cases hk : c.peek? k with
  | some a =>
    rw [hL.get_present ((hd.find?_eq hc k).trans hk), hd.touch_eq]
  | none => rw [hL.get_absent ((hd.find?_eq hc k).trans hk), hd.recent_eq]

/-- A cache kept by a documented library answers as a recency cache does, and does the same. -/
theorem step (hL : L.Documented recent bound) (hd : d.Shows recent bound c)
    (hc : (c.entries.map Prod.fst).Nodup) (op : CacheOp κ α) :
    (d.step op).1 = (c.step op).1 ∧ (d.step op).2.Shows recent bound (c.step op).2 := by
  have hbound {d' : L.Cache} (hd' : bound d'.store = bound d.store) :
      bound d'.store = if (c.step op).2.capacity = 0 then none else some (c.step op).2.capacity := by
    rw [hd', hd.bound_eq, Recency.capacity_step]
  cases op with
  | put k a => exact ⟨rfl, hd.push hL hc k a, hbound (hL.bound_push ..)⟩
  | get k =>
    refine ⟨?_, hd.get hL hc k, hbound (hL.bound_get ..)⟩
    show CacheAnswer.value _ = .value (c.get k).1
    rw [hL.get_fst, hd.find?_eq hc, Recency.get]
    cases c.peek? k <;> rfl
  | peek k =>
    refine ⟨?_, hd⟩
    show CacheAnswer.value _ = .value _
    rw [hL.peek_eq, hd.find?_eq hc]
  | remove k =>
    refine ⟨?_, ?_, hbound (hL.bound_pop ..)⟩
    · show CacheAnswer.removed (L.pop d.store k).1.isSome = .removed (c.peek? k).isSome
      rw [hL.pop_fst, hd.find?_eq hc]
    · show recent (L.pop d.store k).2 = (Assoc.erase k c.entries).reverse
      rw [hL.recent_pop, hd.recent_eq, Assoc.erase_reverse]
  | clear => exact ⟨rfl, hL.recent_clear _, hbound (hL.bound_clear _)⟩
  | size =>
    refine ⟨?_, hd⟩
    show CacheAnswer.size _ = .size _
    rw [hL.len_eq, hd.length_eq]

theorem runAll (hL : L.Documented recent bound) (hd : d.Shows recent bound c) {s : Ledger κ α}
    (hc : c.Follows s) (ops : List (CacheOp κ α)) :
    (CacheOp.runAll Cache.step d ops).1 = (CacheOp.runAll Recency.step c ops).1 ∧
      (CacheOp.runAll Cache.step d ops).2.Shows recent bound
        (CacheOp.runAll Recency.step c ops).2 := by
  induction ops generalizing d c s with
  | nil => exact ⟨rfl, hd⟩
  | cons op ops ih =>
    obtain ⟨hanswer, hshows⟩ := hd.step hL hc.lists.nodup op
    obtain ⟨s', -, hfollows⟩ := hc.step op
    obtain ⟨hanswers, hshows⟩ := ih hshows hfollows
    exact ⟨congrArg₂ List.cons hanswer hanswers, hshows⟩

end Shows

end Cache

end StoreLibrary

/-- From empty caches of any capacity, every sequence of operations makes a recency cache do what a
ledger of last touches does: it gives the same answers, and its entries are what the ledger holds,
every key once and in the order of last touch. So there are never more entries than there is room
for, and a key that is just written is present. A cache that leaves its entries to a library gives
the same answers and has the same entries, if the library does what its documentation says. -/
theorem Recency.run_follows {L : StoreLibrary κ α} {recent : L.Store → List (κ × α)}
    {bound : L.Store → Option Nat} (hL : L.Documented recent bound) (capacity : Nat)
    (ops : List (CacheOp κ α)) :
    let r := CacheOp.runAll Recency.step (.empty capacity) ops
    let d := CacheOp.runAll StoreLibrary.Cache.step (.empty L capacity) ops
    (∃ s, Ledger.Run capacity .empty ops r.1 s ∧ s.Lists r.2.entries) ∧
      (0 < capacity → r.2.size ≤ capacity) ∧
      (∀ k a, (r.2.put k a).peek? k = some a) ∧
      d.1 = r.1 ∧ recent d.2.store = r.2.entries.reverse := by
  have hempty : (Recency.empty capacity : Recency κ α).Follows .empty := .empty capacity
  obtain ⟨s, hrun, hfollows, hcapacity⟩ := hempty.runAll ops
  obtain ⟨hanswers, hshows⟩ := (StoreLibrary.Cache.empty_shows hL capacity).runAll hL hempty ops
  refine ⟨⟨s, hrun, hfollows.lists⟩, fun hpos => ?_, fun k a => ?_, hanswers, hshows.recent_eq⟩
  · have hsize := hfollows.size_le
    rw [hcapacity] at hsize
    exact hsize hpos
  · exact Recency.peek?_put _ k a hfollows

/-- A key that is read stays when a new key needs room, and the other one goes. -/
theorem Recency.run_get_keeps :
    let ops : List (CacheOp Nat Nat) := [.put 0 7, .put 1 8, .get 0, .put 2 9, .peek 1]
    (StoreLibrary.listed Nat Nat).Documented Prod.snd Prod.fst ∧
      (∃ s, Ledger.Run 2 .empty ops [.done, .done, .value (some 7), .done, .value none] s ∧
        s.Lists [(0, 7), (2, 9)]) ∧
      (CacheOp.runAll StoreLibrary.Cache.step (.empty (StoreLibrary.listed Nat Nat) 2) ops).2.store =
        (some 2, [(2, 9), (0, 7)]) := by
  obtain ⟨hrun, -, -, -, -⟩ := Recency.run_follows (StoreLibrary.listed_documented) 2
    [.put 0 7, .put 1 8, .get 0, .put 2 9, .peek 1]
  exact ⟨StoreLibrary.listed_documented, hrun, rfl⟩

end DynamicEval
