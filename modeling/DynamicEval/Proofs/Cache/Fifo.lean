import DynamicEval.Cache.Fifo
import DynamicEval.Proofs.Cache.Ledger

/-!
# Insertion-order caches are lines

A cache that drops the key that was inserted first keeps its keys twice, with the stored entries and
in a queue. Both have the same keys in the same order, so that every eviction finds its entry, and
the cache does what a line does: a new key stands last, an overflow takes the first one, and neither
reading nor replacing a value moves a key.

What stands in the line is the end of the history of the cache, the keys in the order of their last
insertion without those that were removed. Only a removal leaves the line shorter than the history
and the bound would allow.

## Main definitions

* `Fifo.step`: what an operation does to a cache.
* `Line.Step`, `Line.Run`: lines of entries, and what operations do to them.
* `Fifo.InStep`: a cache whose entries and whose queue have the same keys.
* `Fifo.arrivals`: the keys in the order of their last insertion.

## Main results

* `Fifo.InStep.step`: a step of a cache is one of a line.
* `Fifo.Recent.step`: the queue of a cache is the end of its history.
* `Fifo.run_insertionOrder`: the same for runs.
-/

namespace DynamicEval

variable {κ α : Type} [DecidableEq κ]

/-! ### Lines -/

/-- What an operation does to a line of entries that has room for `c` keys, or for any number of
them if `c` is zero, and what it answers. -/
inductive Line.Step (c : Nat) :
    List (κ × α) → CacheOp κ α → CacheAnswer α → List (κ × α) → Prop where
  /-- A write of a key that stands in the line replaces its value. -/
  | replace (es fs : List (κ × α)) (k : κ) (a b : α) :
      Step c (es ++ (k, b) :: fs) (.put k a) .done (es ++ (k, a) :: fs)
  /-- A new key stands last. -/
  | store {es : List (κ × α)} {k : κ} (a : α) (hk : k ∉ es.map Prod.fst)
      (hc : c = 0 ∨ es.length < c) : Step c es (.put k a) .done (es ++ [(k, a)])
  /-- Without room for a new key, the first one goes. -/
  | evict {x : κ × α} {es : List (κ × α)} {k : κ} (a : α) (hk : k ∉ (x :: es).map Prod.fst)
      (hc : (x :: es).length = c) : Step c (x :: es) (.put k a) .done (es ++ [(k, a)])
  /-- Reading changes nothing. -/
  | read {op : CacheOp κ α} (es : List (κ × α)) {k : κ} (hop : op = .get k ∨ op = .peek k) :
      Step c es op (.value (Assoc.find? k es)) es
  /-- A key that is removed takes no other one along. -/
  | remove (es : List (κ × α)) (k : κ) :
      Step c es (.remove k) (.removed (Assoc.find? k es).isSome) (Assoc.erase k es)
  | clear (es : List (κ × α)) : Step c es .clear .done []
  | size (es : List (κ × α)) : Step c es .size (.size es.length) es

/-- What operations do to a line one after the other, and what they answer. -/
inductive Line.Run (c : Nat) :
    List (κ × α) → List (CacheOp κ α) → List (CacheAnswer α) → List (κ × α) → Prop where
  | nil (es : List (κ × α)) : Run c es [] [] es
  | cons {es fs gs : List (κ × α)} {op : CacheOp κ α} {answer : CacheAnswer α}
      {ops : List (CacheOp κ α)} {answers : List (CacheAnswer α)}
      (hop : Line.Step c es op answer fs) (hops : Run c fs ops answers gs) :
      Run c es (op :: ops) (answer :: answers) gs

omit [DecidableEq κ] in
/-- Operations in two parts leave what the second part makes of what the first one leaves. -/
theorem CacheOp.runAll_append {σ : Type} (step : σ → CacheOp κ α → CacheAnswer α × σ) (c : σ)
    (ops ops' : List (CacheOp κ α)) :
    (runAll step c (ops ++ ops')).2 = (runAll step (runAll step c ops).2 ops').2 := by
  induction ops generalizing c with
  | nil => rfl
  | cons op ops ih => exact ih (step c op).2

namespace Fifo

variable {c : Fifo κ α} {k : κ}

/-- What an operation does to a cache. No read touches a key, so both ways to read are one. -/
def step (c : Fifo κ α) : CacheOp κ α → CacheAnswer α × Fifo κ α
  | .put k a => (.done, c.put k a)
  | .get k | .peek k => (.value (c.get? k), c)
  | .remove k => (.removed (c.remove k).1, (c.remove k).2)
  | .clear => (.done, c.clear)
  | .size => (.size c.size, c)

/-! ### Writes and removals -/

theorem put_of_isSome (hk : (c.get? k).isSome) (a : α) :
    c.put k a = { c with entries := Assoc.put k a c.entries } := if_pos hk

theorem put_of_eq_none (hk : c.get? k = none) (a : α) :
    c.put k a =
      let c := if c.isFull then c.dropOldest else c
      { c with entries := Assoc.put k a c.entries, order := c.order ++ [k] } := by
  rw [put, hk]
  rfl

theorem remove_of_eq_none (hk : c.get? k = none) : c.remove k = (false, c) := by
  rw [remove, hk]
  rfl

theorem remove_of_isSome (hk : (c.get? k).isSome) :
    c.remove k = (true, { c with
      entries := Assoc.erase k c.entries, order := c.order.filter (decide <| · ≠ k) }) := if_pos hk

omit [DecidableEq κ] in
theorem room_of_not_isFull (hfull : ¬c.isFull = true) : c.capacity = 0 ∨ c.size < c.capacity := by
  have := mt (fun h => by simpa [isFull] using h) hfull
  omega

omit [DecidableEq κ] in
theorem nodup_append_singleton {ks : List κ} (hks : ks.Nodup) (hk : k ∉ ks) :
    (ks ++ [k]).Nodup := by
  rw [← List.concat_eq_append]
  exact hks.concat hk

theorem capacity_step (c : Fifo κ α) (op : CacheOp κ α) :
    (c.step op).2.capacity = c.capacity := by
  cases op with
  | put k a =>
    show (c.put k a).capacity = c.capacity
    cases hk : c.get? k with
    | some b => rw [put_of_isSome (Option.isSome_of_eq_some hk)]
    | none =>
      rw [put_of_eq_none hk]
      by_cases hfull : c.isFull = true
      · rw [if_pos hfull, dropOldest]
        split <;> rfl
      · rw [if_neg hfull]
  | remove k =>
    show (c.remove k).2.capacity = c.capacity
    rw [remove]
    split <;> rfl
  | _ => rfl

/-! ### Entries and queue -/

/-- The entries and the queue of a cache have the same keys in the same order, every key once, and
no more of them than there is room for. -/
structure InStep (c : Fifo κ α) : Prop where
  /-- The stored keys are those of the queue. -/
  keys : c.entries.map Prod.fst = c.order
  /-- No key stands in the queue twice. -/
  nodup : c.order.Nodup
  /-- There is room for all entries. -/
  size_le : 0 < c.capacity → c.size ≤ c.capacity

namespace InStep

omit [DecidableEq κ] in
theorem empty (capacity : Nat) : (Fifo.empty capacity : Fifo κ α).InStep :=
  ⟨rfl, List.nodup_nil, fun _ => Nat.zero_le _⟩

theorem get?_eq_none_iff (hc : c.InStep) : c.get? k = none ↔ k ∉ c.order := by
  rw [get?, Assoc.find?_eq_none_iff, hc.keys]

omit [DecidableEq κ] in
theorem length_order (hc : c.InStep) : c.order.length = c.size := by
  rw [← hc.keys, List.length_map, size]

/-- A full cache has a first entry, and drops it with its key. -/
theorem exists_dropOldest (hc : c.InStep) (hfull : c.isFull = true) :
    c.size = c.capacity ∧ ∃ x es ks, c.entries = x :: es ∧ c.order = x.1 :: ks ∧
      c.dropOldest = { c with entries := es, order := ks } := by
  obtain ⟨hpos, hle⟩ : 0 < c.capacity ∧ c.capacity ≤ c.size := by simpa [isFull] using hfull
  have hsize : c.size = c.capacity := Nat.le_antisymm (hc.size_le hpos) hle
  obtain ⟨x, es, hes⟩ : ∃ x es, c.entries = x :: es := by
    refine List.exists_cons_of_length_pos ?_
    rw [← size, hsize]
    exact hpos
  have horder : c.order = x.1 :: es.map Prod.fst := by rw [← hc.keys, hes, List.map_cons]
  refine ⟨hsize, x, es, es.map Prod.fst, hes, horder, ?_⟩
  have hnodup : ((x :: es).map Prod.fst).Nodup := by
    rw [← hes, hc.keys]
    exact hc.nodup
  simp only [dropOldest, horder, hes, Assoc.erase_head hnodup]

/-- A write of a new key to a full cache adds it to what is left when the first key has gone. -/
theorem put_full (hc : c.InStep) (hk : c.get? k = none) (hfull : c.isFull = true) (a : α) :
    Line.Step c.capacity c.entries (.put k a) .done (c.put k a).entries ∧ (c.put k a).InStep := by
  obtain ⟨hsize, x, es, ks, hes, hks, hdrop⟩ := hc.exists_dropOldest hfull
  have hkeys : es.map Prod.fst = ks := by
    have := hc.keys
    rw [hes, hks, List.map_cons] at this
    exact (List.cons.inj this).2
  have hnew : k ∉ x.1 :: ks := hks ▸ hc.get?_eq_none_iff.mp hk
  have hnew' : k ∉ ks := fun hmem => hnew (List.mem_cons_of_mem _ hmem)
  have hnodup : ks.Nodup := (List.nodup_cons.mp (hks ▸ hc.nodup)).2
  have hlength : (x :: es).length = c.capacity := by rw [← hes, ← size, hsize]
  have hput := Assoc.put_of_find?_eq_none (Assoc.find?_eq_none_iff.mpr (hkeys ▸ hnew')) a
  rw [put_of_eq_none hk, if_pos hfull, hdrop]
  simp only [hput, hes]
  refine ⟨.evict a ?_ hlength, ?_, nodup_append_singleton hnodup hnew', fun _ => ?_⟩
  · rwa [List.map_cons, hkeys]
  · rw [List.map_append, hkeys, List.map_singleton]
  · show (es ++ [(k, a)]).length ≤ c.capacity
    simp only [List.length_append, List.length_cons, List.length_nil] at hlength ⊢
    omega

/-- A write of a new key adds it to what is there if there is room. -/
theorem put_room (hc : c.InStep) (hk : c.get? k = none) (hfull : ¬c.isFull = true) (a : α) :
    Line.Step c.capacity c.entries (.put k a) .done (c.put k a).entries ∧ (c.put k a).InStep := by
  have hroom := room_of_not_isFull hfull
  have hnew : k ∉ c.order := hc.get?_eq_none_iff.mp hk
  rw [put_of_eq_none hk, if_neg hfull]
  simp only [Assoc.put_of_find?_eq_none hk a]
  refine ⟨.store a (Assoc.find?_eq_none_iff.mp hk) hroom, ?_,
    nodup_append_singleton hc.nodup hnew, fun hpos => ?_⟩
  · rw [List.map_append, hc.keys, List.map_singleton]
  · show (c.entries ++ [(k, a)]).length ≤ c.capacity
    have hpos : 0 < c.capacity := hpos
    simp only [size, List.length_append, List.length_singleton] at hroom ⊢
    omega

/-- A write of a new key adds it to what is left after making room. -/
theorem put_new (hc : c.InStep) (hk : c.get? k = none) (a : α) :
    Line.Step c.capacity c.entries (.put k a) .done (c.put k a).entries ∧ (c.put k a).InStep := by
  by_cases hfull : c.isFull = true
  · exact hc.put_full hk hfull a
  · exact hc.put_room hk hfull a

/-- A write of a key that is present replaces its value. -/
theorem put_present (hc : c.InStep) {b : α} (hk : c.get? k = some b) (a : α) :
    Line.Step c.capacity c.entries (.put k a) .done (c.put k a).entries ∧ (c.put k a).InStep := by
  obtain ⟨fs, gs, hes, hput⟩ := Assoc.exists_put_eq hk a
  have hkeys : (fs ++ (k, a) :: gs).map Prod.fst = c.entries.map Prod.fst := by
    rw [hes, List.map_append, List.map_append, List.map_cons, List.map_cons]
  have hlength : (fs ++ (k, a) :: gs).length = c.size := by
    rw [← List.length_map, hkeys, List.length_map, size]
  rw [put_of_isSome (Option.isSome_of_eq_some hk), hput]
  refine ⟨?_, hkeys.trans hc.keys, hc.nodup, fun hpos => ?_⟩
  · rw [hes]
    exact .replace fs gs k a b
  · show (fs ++ (k, a) :: gs).length ≤ c.capacity
    rw [hlength]
    exact hc.size_le hpos

/-- Every operation on a cache is a step of its line. -/
theorem step (hc : c.InStep) (op : CacheOp κ α) :
    Line.Step c.capacity c.entries op (c.step op).1 (c.step op).2.entries ∧
      (c.step op).2.InStep := by
  cases op with
  | put k a =>
    cases hk : c.get? k with
    | none => exact hc.put_new hk a
    | some b => exact hc.put_present hk a
  | get k => exact ⟨.read c.entries (.inl rfl), hc⟩
  | peek k => exact ⟨.read c.entries (.inr rfl), hc⟩
  | remove k =>
    have hremove := Line.Step.remove (c := c.capacity) c.entries k
    rw [Fifo.step]
    cases hk : c.get? k with
    | none =>
      rw [remove_of_eq_none hk]
      rw [Assoc.erase_of_find?_eq_none hk, show Assoc.find? k c.entries = none from hk] at hremove
      exact ⟨hremove, hc⟩
    | some b =>
      rw [remove_of_isSome (Option.isSome_of_eq_some hk)]
      rw [show Assoc.find? k c.entries = some b from hk] at hremove
      refine ⟨hremove, ?_, hc.nodup.filter _, fun hpos => ?_⟩
      · rw [Assoc.map_fst_erase, hc.keys]
      · exact Nat.le_trans (List.length_filter_le _ _) (hc.size_le hpos)
  | clear => exact ⟨.clear c.entries, .empty c.capacity⟩
  | size => exact ⟨.size c.entries, hc⟩

/-- Operations on a cache, one after the other, are a run of its line. -/
theorem runAll (hc : c.InStep) (ops : List (CacheOp κ α)) :
    Line.Run c.capacity c.entries ops (CacheOp.runAll Fifo.step c ops).1
        (CacheOp.runAll Fifo.step c ops).2.entries ∧
      (CacheOp.runAll Fifo.step c ops).2.InStep ∧
      (CacheOp.runAll Fifo.step c ops).2.capacity = c.capacity := by
  induction ops generalizing c with
  | nil => exact ⟨.nil _, hc, rfl⟩
  | cons op ops ih =>
    obtain ⟨hstep, hnext⟩ := hc.step op
    obtain ⟨hrun, hlast, hcapacity⟩ := ih hnext
    rw [capacity_step] at hrun hcapacity
    exact ⟨.cons hstep hrun, hlast, hcapacity⟩

end InStep

/-! ### History -/

/-- What an operation on a cache adds to the keys in the order of their last insertion. -/
def arrive (c : Fifo κ α) (ks : List κ) : CacheOp κ α → List κ
  | .put k _ => if (c.get? k).isSome then ks else ks.filter (decide <| · ≠ k) ++ [k]
  | .remove k => if (c.get? k).isSome then ks.filter (decide <| · ≠ k) else ks
  | .clear => []
  | .get _ | .peek _ | .size => ks

/-- The keys that operations on a cache insert, in the order of their last insertion and behind
earlier ones, without those that are removed again. -/
def arrivals (c : Fifo κ α) (ks : List κ) : List (CacheOp κ α) → List κ
  | [] => ks
  | op :: ops => arrivals (c.step op).2 (c.arrive ks op) ops

/-- The queue of a cache is the end of its history. -/
structure Recent (c : Fifo κ α) (ks : List κ) : Prop where
  /-- The entries and the queue have the same keys. -/
  inStep : c.InStep
  /-- The queue is the end of the history. -/
  suffix : c.order <:+ ks

/-- As much of a history is in the queue as there is room for. -/
def Filled (c : Fifo κ α) (ks : List κ) : Prop :=
  c.size = if c.capacity = 0 then ks.length else min c.capacity ks.length

omit [DecidableEq κ] in
theorem Recent.empty (capacity : Nat) : (Fifo.empty capacity : Fifo κ α).Recent [] :=
  ⟨.empty capacity, List.suffix_refl []⟩

omit [DecidableEq κ] in
theorem Filled.empty (capacity : Nat) : (Fifo.empty capacity : Fifo κ α).Filled [] := by
  simp [Filled, Fifo.empty, size]

/-- The keys of a cache, without one that it does not have, are the end of the rest of its
history. -/
theorem Recent.suffix_filter {ks : List κ} (hc : c.Recent ks) (hk : k ∉ c.order) :
    c.order <:+ ks.filter (decide <| · ≠ k) := by
  have hfilter : c.order.filter (decide <| · ≠ k) = c.order := by
    refine List.filter_eq_self.mpr fun j hj => decide_eq_true ?_
    rintro rfl
    exact hk hj
  have hsuffix := hc.suffix.filter (decide <| · ≠ k)
  rwa [hfilter] at hsuffix

/-- A write of a key that is present leaves the queue and the history as they are. -/
theorem Recent.put_present {ks : List κ} (hc : c.Recent ks) {b : α} (hk : c.get? k = some b)
    (a : α) :
    (c.put k a).Recent (c.arrive ks (.put k a)) ∧
      (c.Filled ks → (c.put k a).Filled (c.arrive ks (.put k a))) := by
  have hsome : (c.get? k).isSome := Option.isSome_of_eq_some hk
  have hnext := (hc.inStep.put_present hk a).2
  have harrive : c.arrive ks (.put k a) = ks := if_pos hsome
  have horder : (c.put k a).order = c.order := by rw [put_of_isSome hsome]
  have hcapacity : (c.put k a).capacity = c.capacity := capacity_step c (.put k a)
  rw [harrive]
  refine ⟨⟨hnext, horder ▸ hc.suffix⟩, fun hfilled => ?_⟩
  rwa [Filled, ← hnext.length_order, horder, hc.inStep.length_order, hcapacity]

omit [DecidableEq κ] in
/-- With room left in a cache that is filled, nothing was dropped before. -/
theorem Recent.order_eq {ks : List κ} (hc : c.Recent ks) (hfilled : c.Filled ks)
    (hroom : c.capacity = 0 ∨ c.size < c.capacity) : c.order = ks := by
  refine hc.suffix.eq_of_length ?_
  rw [hc.inStep.length_order]
  rw [Filled] at hfilled
  split at hfilled <;> omega

/-- A write of a new key puts it last in the queue and in the history. -/
theorem Recent.put_new {ks : List κ} (hc : c.Recent ks) (hk : c.get? k = none) (a : α) :
    (c.put k a).Recent (c.arrive ks (.put k a)) ∧
      (c.Filled ks → (c.put k a).Filled (c.arrive ks (.put k a))) := by
  have hnext := (hc.inStep.put_new hk a).2
  have hnew : k ∉ c.order := hc.inStep.get?_eq_none_iff.mp hk
  have hsuffix := hc.suffix_filter hnew
  have hsize := hc.inStep.length_order
  have harrive : c.arrive ks (.put k a) = ks.filter (decide <| · ≠ k) ++ [k] := by
    rw [arrive, hk]
    rfl
  have hcapacity : (c.put k a).capacity = c.capacity := capacity_step c (.put k a)
  rw [harrive]
  by_cases hfull : c.isFull = true
  · obtain ⟨hcap, x, es, rest, hes, hrest, hdrop⟩ := hc.inStep.exists_dropOldest hfull
    have horder : (c.put k a).order = rest ++ [k] := by
      rw [put_of_eq_none hk, if_pos hfull, hdrop]
    have hlast : rest <:+ c.order := hrest ▸ List.suffix_cons x.1 rest
    refine ⟨⟨hnext, horder ▸ List.suffix_append_self_iff.mpr (hlast.trans hsuffix)⟩, fun _ => ?_⟩
    have hlength := hsuffix.length_le
    rw [Filled, ← hnext.length_order, horder, hcapacity]
    simp only [hrest, List.length_append, List.length_cons, List.length_nil] at hsize hlength ⊢
    split <;> omega
  · have horder : (c.put k a).order = c.order ++ [k] := by
      rw [put_of_eq_none hk, if_neg hfull]
    refine ⟨⟨hnext, horder ▸ List.suffix_append_self_iff.mpr hsuffix⟩, fun hfilled => ?_⟩
    have hroom := room_of_not_isFull hfull
    have hall := hc.order_eq hfilled hroom
    rw [← hall] at hsuffix ⊢
    have hfilter : c.order.filter (decide <| · ≠ k) = c.order :=
      List.filter_sublist.eq_of_length_le hsuffix.length_le
    rw [Filled, ← hnext.length_order, horder, hcapacity, hfilter]
    simp only [List.length_append, List.length_cons, List.length_nil]
    split <;> omega

/-- A step of a cache keeps its queue the end of the history, and filled unless it removes a key. -/
theorem Recent.step {ks : List κ} (hc : c.Recent ks) (op : CacheOp κ α) :
    (c.step op).2.Recent (c.arrive ks op) ∧
      ((∀ k, op ≠ .remove k) → c.Filled ks → (c.step op).2.Filled (c.arrive ks op)) := by
  cases op with
  | put k a =>
    cases hk : c.get? k with
    | some b => exact (hc.put_present hk a).imp_right fun hfilled _ => hfilled
    | none => exact (hc.put_new hk a).imp_right fun hfilled _ => hfilled
  | get k | peek k | size => exact ⟨hc, fun _ hfilled => hfilled⟩
  | remove k =>
    refine ⟨⟨(hc.inStep.step (.remove k)).2, ?_⟩, fun hne => absurd rfl (hne k)⟩
    show (c.remove k).2.order <:+ c.arrive ks (.remove k)
    rw [arrive]
    cases hk : c.get? k with
    | some b =>
      rw [remove_of_isSome (Option.isSome_of_eq_some hk)]
      exact hc.suffix.filter _
    | none =>
      rw [remove_of_eq_none hk]
      exact hc.suffix
  | clear => exact ⟨.empty c.capacity, fun _ _ => .empty c.capacity⟩

/-- Operations keep the queue of a cache the end of its history, and filled unless they remove a
key. -/
theorem Recent.runAll {ks : List κ} (hc : c.Recent ks) (ops : List (CacheOp κ α)) :
    (CacheOp.runAll Fifo.step c ops).2.Recent (c.arrivals ks ops) ∧
      ((∀ k, .remove k ∉ ops) → c.Filled ks →
        (CacheOp.runAll Fifo.step c ops).2.Filled (c.arrivals ks ops)) := by
  induction ops generalizing c ks with
  | nil => exact ⟨hc, fun _ hfilled => hfilled⟩
  | cons op ops ih =>
    obtain ⟨hnext, hkeep⟩ := hc.step op
    obtain ⟨hlast, hkeeps⟩ := ih hnext
    refine ⟨hlast, fun hremove hfilled => hkeeps (fun k hk => ?_) (hkeep (fun k hk => ?_) hfilled)⟩
    · exact hremove k (List.mem_cons_of_mem op hk)
    · exact hremove k (hk ▸ List.mem_cons_self)

/-- Operations on an empty cache are a run of an empty line, which has the keys of the queue, every
key once and no more than there is room for. After the last `clear`, the cache is the one that the
remaining operations make of an empty one: its queue is the end of their history, all of it that
there is room for if they remove no key. -/
theorem run_insertionOrder (capacity : Nat) (ops : List (CacheOp κ α)) :
    let c : Fifo κ α := .empty capacity
    let last := (CacheOp.runAll Fifo.step c ops).2
    Line.Run capacity [] ops (CacheOp.runAll Fifo.step c ops).1 last.entries ∧
      last.entries.map Prod.fst = last.order ∧ last.order.Nodup ∧
      (0 < capacity → last.size ≤ capacity) ∧
      (∀ before, (CacheOp.runAll Fifo.step c (before ++ .clear :: ops)).2 = last) ∧
      last.order <:+ c.arrivals [] ops ∧
      ((∀ k, .remove k ∉ ops) → last.size =
        if capacity = 0 then (c.arrivals [] ops).length
        else min capacity (c.arrivals [] ops).length) := by
  intro c last
  obtain ⟨hrun, hlast, hcapacity⟩ := (InStep.empty capacity : c.InStep).runAll ops
  have hcapacity : last.capacity = capacity := hcapacity
  obtain ⟨hrecent, hfilled⟩ := (Recent.empty capacity : c.Recent []).runAll ops
  refine ⟨hrun, hlast.keys, hlast.nodup, ?_, fun before => ?_, hrecent.suffix, fun hremove => ?_⟩
  · rw [← hcapacity]
    exact hlast.size_le
  · obtain ⟨-, -, hbefore⟩ := (InStep.empty capacity : c.InStep).runAll before
    rw [CacheOp.runAll_append]
    show (CacheOp.runAll Fifo.step (Fifo.empty (CacheOp.runAll Fifo.step c before).2.capacity)
      ops).2 = last
    rw [hbefore]
    rfl
  · have hsize := hfilled hremove (Filled.empty capacity)
    rwa [Filled, hcapacity] at hsize

/-- A key that is overwritten keeps its place and is evicted first, and one that is inserted again
stands last. -/
theorem run_insertionOrder_evicts :
    let c : Fifo Nat Nat := .empty 2
    let ops : List (CacheOp Nat Nat) :=
      [.put 1 10, .put 2 20, .put 1 11, .get 1, .put 3 30, .put 1 12]
    let last := (CacheOp.runAll Fifo.step c ops).2
    last.entries = [(3, 30), (1, 12)] ∧ c.arrivals [] ops = [2, 3, 1] ∧
      Line.Run 2 [] ops (CacheOp.runAll Fifo.step c ops).1 last.entries ∧ last.size ≤ 2 ∧
      (CacheOp.runAll Fifo.step c (.put 5 50 :: .clear :: ops)).2 = last ∧
      last.order <:+ c.arrivals [] ops ∧ last.size = min 2 (c.arrivals [] ops).length := by
  intro c ops last
  obtain ⟨hrun, -, -, hsize, hbefore, hsuffix, hfilled⟩ := run_insertionOrder 2 ops
  have hremove : ∀ k, .remove k ∉ ops := fun k hk => by simp [ops] at hk
  refine ⟨by decide, by decide, hrun, hsize Nat.zero_lt_two, hbefore [.put 5 50], hsuffix, ?_⟩
  exact (hfilled hremove).trans (if_neg (by decide))

end Fifo

end DynamicEval
