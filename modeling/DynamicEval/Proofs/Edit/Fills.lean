import DynamicEval.Proofs.Edit

/-!
# Changes that make a base at most

A change of the base of a value puts new cells behind pointers to nothing on its way, and they stay
if the change leaves the base as it is. Then they hold the zeros of their types, the value and the
cells on the way to its base differ from what they were by pointers to them, and every other cell
is what it was.

## Main definitions

* `Value.Filled`: a value that may have got a new cell behind the pointer to nothing that it leads
  to.
* `Heap.OnWay`: the cells on the way to the base of a value.
* `Edit.Fills`: a change that makes a base at most.

## Main results

* `Value.change_keep_fills`: a change that leaves the base as it is makes a base at most.
-/

namespace DynamicEval

/-- The value `w` is `v`, or `v` with a new cell behind the pointer to nothing that it is, or that
is in its slot. The cell is the `n`th or a later one, and on the heap `h'` it holds the zero of its
type, or a pointer with a new cell in turn. -/
inductive Value.Filled (n : Nat) (h' : Heap) : Value → Value → Prop where
  | refl (v : Value) : Filled n h' v v
  | slot {v w : Value} (hw : Filled n h' v w) : Filled n h' (.slot v) (.slot w)
  | cell {e : Ty} {a : Addr} (hnew : n ≤ a) (ha : a < h'.size)
      (hw : Filled n h' e.zero (h'.get a)) : Filled n h' (.pointer e none) (.pointer e (some a))

/-- A cell is on the way from a value to its base. -/
inductive Heap.OnWay (h : Heap) : Value → Addr → Prop where
  | slot {v : Value} {a : Addr} (hv : OnWay h v a) : OnWay h (.slot v) a
  | here (e : Ty) (a : Addr) : OnWay h (.pointer e (some a)) a
  | behind (e : Ty) {a b : Addr} (hb : OnWay h (h.get a) b) : OnWay h (.pointer e (some a)) b

/-- A change of the value `v` on the heap `h` that changes nothing but, maybe, that pointers to
nothing on the way to the base have new cells. -/
structure Edit.Fills {α : Type} (r : Edit α) (h : Heap) (v : Value) : Prop where
  /-- No cell is lost. -/
  size_le : h.size ≤ r.heap.size
  /-- The value has got a new cell at most. -/
  value : v.Filled h.size r.heap r.value
  /-- So has every cell. -/
  cells : ∀ a < h.size, (h.get a).Filled h.size r.heap (r.heap.get a)
  /-- Cells that are not on the way to the base are what they were. -/
  others : ∀ a < h.size, ¬h.OnWay v a → r.heap.get a = h.get a
  /-- New cells hold zeros, or pointers with new cells in turn. -/
  zeros : ∀ a < r.heap.size, h.size ≤ a → ∃ e : Ty, e.zero.Filled h.size r.heap (r.heap.get a)

/-- What has got new cells has got them also on a later heap, and from fewer cells. -/
theorem Value.Filled.mono {n n' : Nat} {h' h'' : Heap} {v w : Value} (hw : v.Filled n h' w)
    (hn : n' ≤ n) (hs : h'.SameOn h'' (n ≤ ·)) : v.Filled n' h'' w := by
  induction hw with
  | refl v => exact .refl v
  | slot _ ih => exact .slot ih
  | @cell e a hnew ha _ ih =>
    rw [← hs.get_eq a ha hnew] at ih
    exact .cell (Nat.le_trans hn hnew) (Nat.lt_of_lt_of_le ha hs.size_le) ih

namespace Edit.Fills

variable {α : Type} {r : Edit α} {h : Heap} {v : Value} {e : Ty}

theorem keep (h : Heap) (v : Value) (result : Except Error α) : (Edit.keep h v result).Fills h v :=
  ⟨Nat.le_refl _, .refl v, fun _ _ => .refl _, fun _ _ _ => rfl,
    fun _ ha hle => absurd ha (Nat.not_lt.mpr hle)⟩

theorem slot (hr : r.Fills h v) : (r.within .slot).Fills h (.slot v) :=
  ⟨hr.size_le, hr.value.slot, hr.cells, fun a ha hway => hr.others a ha fun hv => hway hv.slot,
    hr.zeros⟩

/-- A change behind a pointer. -/
theorem pointer {a : Addr} (hr : r.Fills h (h.get a)) (ha : a < h.size) (e : Ty) :
    (⟨r.heap.set a r.value, .pointer e (some a), r.result⟩ : Edit α).Fills h
      (.pointer e (some a)) := by
  -- An old cell is written back, so that new ones are as they were.
  have hs : r.heap.SameOn (r.heap.set a r.value) (h.size ≤ ·) :=
    .set r.heap (Nat.not_le.mpr ha) r.value
  refine ⟨Nat.le_trans hr.size_le hs.size_le, .refl _, fun b hb => ?_, fun b hb hway => ?_,
    fun b hb hnew => ?_⟩
  · by_cases hab : a = b
    · subst hab
      dsimp only
      rw [Heap.get_set_self (Nat.lt_of_lt_of_le ha hr.size_le)]
      exact hr.value.mono (Nat.le_refl _) hs
    · dsimp only
      rw [Heap.get_set_of_ne hab]
      exact (hr.cells b hb).mono (Nat.le_refl _) hs
  · have hab : a ≠ b := fun hab => hway (hab ▸ .here e a)
    dsimp only
    rw [Heap.get_set_of_ne hab]
    exact hr.others b hb fun hb => hway (.behind e hb)
  · rw [Heap.size_set] at hb
    obtain ⟨e, he⟩ := hr.zeros b hb hnew
    rw [hs.get_eq b hb hnew]
    exact ⟨e, he.mono (Nat.le_refl _) hs⟩

/-- A change behind a new cell. There is no way to a base behind a pointer to nothing, nor in the
zero of a type. -/
theorem store (hr : r.Fills h e.zero) : (Value.changeNew.store e r).Fills h (.pointer e none) := by
  have halloc := Heap.Appends.alloc r.heap r.value
  have hs := halloc.sameOn (h.size ≤ ·)
  have hold {a : Addr} (ha : a < r.heap.size) :
      (Value.changeNew.store e r).heap.get a = r.heap.get a :=
    halloc.get_eq a ha
  have hsize : (Value.changeNew.store e r).heap.size = r.heap.size + 1 := Heap.size_alloc ..
  have hzero : e.zero.Filled h.size (Value.changeNew.store e r).heap
      ((Value.changeNew.store e r).heap.get r.heap.size) := by
    show e.zero.Filled h.size (r.heap.alloc r.value).1 ((r.heap.alloc r.value).1.get r.heap.size)
    rw [Heap.get_alloc_size]
    exact hr.value.mono (Nat.le_refl _) hs
  refine ⟨Nat.le_trans hr.size_le halloc.size_le, .cell hr.size_le ?_ hzero, fun a ha => ?_,
    fun a ha _ => ?_, fun a ha hnew => ?_⟩
  · rw [hsize]
    exact Nat.lt_succ_self _
  · rw [hold (Nat.lt_of_lt_of_le ha hr.size_le)]
    exact (hr.cells a ha).mono (Nat.le_refl _) hs
  · rw [hold (Nat.lt_of_lt_of_le ha hr.size_le)]
    refine hr.others a ha fun hway => ?_
    cases e <;> cases hway
  · rw [hsize] at ha
    rcases Nat.lt_succ_iff_lt_or_eq.mp ha with ha | rfl
    · obtain ⟨e, he⟩ := hr.zeros a ha hnew
      rw [hold ha]
      exact ⟨e, he.mono (Nat.le_refl _) hs⟩
    · exact ⟨e, hzero⟩

end Edit.Fills

/-! ### Changes that leave the base -/

namespace Value

variable {α : Type} {h : Heap} {result : Except Error α}

theorem changeNew_keep_fills (e : Ty) (h : Heap) (result : Except Error α) :
    (changeNew (fun h u => Edit.keep h u result) e h).Fills h (.pointer e none) := by
  match e with
  | .pointer e => exact (changeNew_keep_fills e h result).store
  | .invalid | .bool | .int _ | .uint _ | .float _ | .string | .list _ | .array _ _ | .map _ _
  | .record _ | .func | .any => exact (Edit.Fills.keep h _ result).store

theorem changeStep_keep_fills {enter : Addr → Heap → Heap × Except Error α}
    (henter : ∀ e, ∀ a < h.size,
      (⟨(enter a h).1, pointer e (some a), (enter a h).2⟩ : Edit α).Fills h (pointer e (some a)))
    {v : Value} (hv : v.WellFormed h) :
    (v.changeStep (fun h u => Edit.keep h u result) enter h).Fills h v := by
  match v with
  | .slot v => exact (changeStep_keep_fills henter (wellFormed_slot.mp hv).2.2).slot
  | .pointer e none => exact changeNew_keep_fills e h result
  | .pointer e (some a) => exact henter e a (wellFormed_pointer.mp hv).1
  | .invalid | .bool _ | .int _ _ | .uint _ _ | .float _ _ | .string _ | .list _ _ | .array _ _
  | .map _ _ _ | .record _ _ | .func _ | .emptySlot => exact .keep h _ result

/-- A change that leaves the base as it is makes a base at most. -/
theorem change_keep_fills (hh : h.WellFormed) {v : Value} (hv : v.WellFormed h)
    (result : Except Error α) : (v.change h fun h u => Edit.keep h u result).Fills h v := by
  suffices ∀ n, (changeWithin (fun h u => Edit.keep h u result) n v h).Fills h v from this h.size
  intro n
  induction n generalizing v with
  | zero => exact changeStep_keep_fills (fun e a _ => .keep h _ _) hv
  | succ n ih => exact changeStep_keep_fills (fun e a ha => (ih (hh a ha)).pointer ha e) hv

end Value

end DynamicEval
