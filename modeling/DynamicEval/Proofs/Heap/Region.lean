import DynamicEval.Proofs.Edit

/-!
# Regions of the heap

A region is a set of cells, free ones among them, that pointers in its cells do not leave. Whatever
is behind a value inside a region is in the region too. A change that takes all its values from
inside a region can only reach the cells there, and leaves every other cell as it is.

## Main definitions

* `Value.Within`: the pointers in a value stay inside a set of cells.
* `Heap.Region`: a set of cells that pointers in its cells do not leave.
* `Heap.Apart`: no cell is behind both of two values.
* `Heap.Clear`: the cells from which no cell behind a value is reached.
* `Heap.StaysIn`: a later heap, changed inside a region only.

## Main results

* `Heap.Region.reaches`: what is behind a value inside a region is in the region.
* `Heap.Region.clear`: the cells from which no cell behind a value is reached are a region.
* `Heap.StaysIn.alloc`, `Heap.StaysIn.set`: new cells, and new content of cells of the region.
* `Heap.StaysIn.agrees`, `Heap.StaysIn.apart`: a change that stays clear of a value.
-/

namespace DynamicEval

/-! ### Values inside a set of cells -/

/-- The pointers in a value name cells that `P` holds of. -/
def Value.Within (v : Value) (P : Addr → Prop) : Prop := ∀ a, v.Points a → P a

namespace Value

variable {P : Addr → Prop} {v w : Value} {e k : Ty}

theorem within_list {items : List Value} :
    (list e items).Within P ↔ ∀ v ∈ items, v.Within P := by
  refine ⟨fun hv w hw a ha => hv a (.list hw ha), fun hitems a ha => ?_⟩
  cases ha with
  | list hw ha => exact hitems _ hw a ha

theorem within_array {items : List Value} :
    (array e items).Within P ↔ ∀ v ∈ items, v.Within P := by
  refine ⟨fun hv w hw a ha => hv a (.array hw ha), fun hitems a ha => ?_⟩
  cases ha with
  | array hw ha => exact hitems _ hw a ha

theorem within_map {entries : List (Key × Value)} :
    (map k e entries).Within P ↔ ∀ entry ∈ entries, entry.2.Within P := by
  refine ⟨fun hv entry hentry a ha => hv a (.map hentry ha), fun hentries a ha => ?_⟩
  cases ha with
  | map hentry ha => exact hentries _ hentry a ha

theorem within_record {r : RecordType} {fields : List Value} :
    (record r fields).Within P ↔ ∀ v ∈ fields, v.Within P := by
  refine ⟨fun hv w hw a ha => hv a (.record hw ha), fun hfields a ha => ?_⟩
  cases ha with
  | record hw ha => exact hfields _ hw a ha

theorem within_slot : (slot v).Within P ↔ v.Within P := by
  refine ⟨fun hv a ha => hv a (.slot ha), fun hv a ha => ?_⟩
  cases ha with
  | slot ha => exact hv a ha

theorem within_pointer {a : Addr} : (pointer e (some a)).Within P ↔ P a := by
  refine ⟨fun hv => hv a (.pointer e a), fun ha b hb => ?_⟩
  cases hb
  exact ha

/-- A value without pointers is inside every set of cells. -/
theorem within_of_not_points (hv : ∀ a, ¬v.Points a) : v.Within P :=
  fun a ha => absurd ha (hv a)

/-- What can be a key has no pointers. -/
theorem within_of_key? {key : Key} (hv : v.key? = some key) : v.Within P := by
  intro a ha
  cases ha <;> cases hv

theorem within_nil : (pointer e none).Within P := by
  intro a ha
  cases ha

theorem Within.peel (hv : v.Within P) : v.peel.Within P := fun a ha => hv a ha.of_peel

theorem Within.boxed (hv : v.Within P) : v.boxed.Within P := by
  cases v with
  | slot v => exact hv
  | emptySlot | invalid => exact within_of_not_points nofun
  | _ => exact within_slot.mpr hv

end Value

theorem Ty.within_zero (t : Ty) (P : Addr → Prop) : t.zero.Within P :=
  Value.within_of_not_points t.not_points_zero

namespace Heap

/-! ### Regions -/

/-- A set of cells that pointers in its cells do not leave. Cells that the heap does not have yet
are in it. -/
structure Region (h : Heap) (P : Addr → Prop) : Prop where
  /-- Free cells are in the set. -/
  free : ∀ a, h.size ≤ a → P a
  /-- Pointers in cells of the set are to cells of the set. -/
  cells : ∀ a, P a → (h.get a).Within P

/-- No cell is behind both of two values. -/
def Apart (h : Heap) (v w : Value) : Prop := ∀ a, h.Reaches v a → ¬h.Reaches w a

/-- The cells from which no cell behind a value is reached. -/
def Clear (h : Heap) (v : Value) (a : Addr) : Prop :=
  ¬h.Reaches v a ∧ h.Apart v (h.get a)

variable {h h' h'' : Heap} {P : Addr → Prop} {v w : Value} {a : Addr}

theorem Apart.symm (ha : h.Apart v w) : h.Apart w v := fun a hw hv => ha a hv hw

/-- What is behind a value inside a region is in the region. -/
theorem Region.reaches (hP : h.Region P) (hv : v.Within P) (hr : h.Reaches v a) : P a := by
  induction hr with
  | direct hp => exact hv _ hp
  | behind hp _ ih => exact ih (hP.cells _ (hv _ hp))

theorem Region.base (hP : h.Region P) (hv : v.Within P) : (v.base h).Within P :=
  fun _ ha => hP.reaches hv (Reaches.direct ha).of_base

/-- The cells from which no cell behind a value is reached are a region. -/
theorem Region.clear (hv : ∀ a, h.Reaches v a → a < h.size) : h.Region (h.Clear v) where
  free a ha := by
    refine ⟨fun hr => Nat.not_lt.mpr ha (hv a hr), fun b _ hb => ?_⟩
    rw [get_of_size_le ha] at hb
    exact not_reaches_invalid hb
  cells a ha b hb := ⟨fun hr => ha.2 b hr (.direct hb), fun c hr hc => ha.2 c hr (.behind hb hc)⟩

/-- What is apart from a value is inside the region that is clear of the value. -/
theorem Apart.within (ha : h.Apart v w) : w.Within (h.Clear v) :=
  fun b hb => ⟨fun hr => ha b hr (.direct hb), fun c hr hc => ha c hr (.behind hb hc)⟩

/-! ### Changes inside a region -/

/-- A later heap on which a region is a region still, with no cell changed outside. -/
structure StaysIn (h : Heap) (P : Addr → Prop) (h' : Heap) : Prop where
  /-- The region is one on the later heap. -/
  region : h'.Region P
  /-- No other cell is changed. -/
  sameOn : h.SameOn h' fun a => ¬P a

theorem Region.staysIn (hP : h.Region P) : h.StaysIn P h := ⟨hP, .refl h _⟩

theorem StaysIn.trans (hs : h.StaysIn P h') (hs' : h'.StaysIn P h'') : h.StaysIn P h'' :=
  ⟨hs'.region, hs.sameOn.trans hs'.sameOn⟩

theorem StaysIn.alloc (hP : h.Region P) (hv : v.Within P) : h.StaysIn P (h.alloc v).1 where
  region := by
    refine ⟨fun a ha => hP.free a ?_, fun a ha => ?_⟩
    · rw [size_alloc] at ha
      exact Nat.le_of_succ_le ha
    · rcases Nat.lt_trichotomy a h.size with hlt | rfl | hgt
      · rw [get_alloc_of_lt hlt]
        exact hP.cells a ha
      · rwa [get_alloc_size]
      · rw [get_of_size_le (by rwa [size_alloc])]
        exact Value.within_of_not_points nofun
  sameOn := (Appends.alloc h v).sameOn _

theorem StaysIn.set (hP : h.Region P) (ha : P a) (hv : v.Within P) : h.StaysIn P (h.set a v) where
  region := by
    refine ⟨fun b hb => hP.free b ?_, fun b hb => ?_⟩
    · rwa [size_set] at hb
    · by_cases heq : a = b
      · cases heq
        rcases Nat.lt_or_ge a h.size with hlt | hge
        · rwa [get_set_self hlt]
        · rw [get_of_size_le (by rwa [size_set])]
          exact Value.within_of_not_points nofun
      · rw [get_set_of_ne heq]
        exact hP.cells b hb
  sameOn := .set h (not_not_intro ha) v

/-- A change that stays clear of a value leaves the cells behind it as they are. -/
theorem StaysIn.agrees (hs : h.StaysIn (h.Clear v) h') (hv : ∀ a, h.Reaches v a → a < h.size) :
    h.Agrees h' v where
  size_le := hs.sameOn.size_le
  get_eq a hr := hs.sameOn.get_eq a (hv a hr) fun ha => ha.1 hr

/-- What is clear of a value stays apart from it. -/
theorem StaysIn.apart (hs : h.StaysIn (h.Clear v) h') (hv : ∀ a, h.Reaches v a → a < h.size)
    (hw : w.Within (h.Clear v)) : h'.Apart v w :=
  fun _ hr hrw => (hs.region.reaches hw hrw).1 ((hs.agrees hv).reaches_iff.mp hr)

end Heap

end DynamicEval
