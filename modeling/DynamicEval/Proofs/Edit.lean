import DynamicEval.Proofs.Coercion
import DynamicEval.Proofs.Heap.Leads
import DynamicEval.Proofs.WellFormed.Edit

/-!
# Changes of the base

A change of the base of a value stays behind the value: it changes no other cell of the heap. When it
succeeds, the value leads to the changed base, through the cells that it led through before and
through new ones behind pointers to nothing. Since no cell is behind itself, what the change did
to the cells behind the base is still there when the cells on the way are written back.

## Main definitions

* `Heap.SameOn`: a later heap with the same content in some of the cells.
* `Heap.Confined`: a later heap that differs in no cell but those behind a value.
* `Heap.IsNewOrBehind`: the cells that a change of a value is free to write.
* `Edit.Carries`: a change of a value that comes down to a change of its base.
* `Value.SameShape`: two values of one type, with contents of one type if they are slots.

## Main results

* `Value.change_confined`: a change of the base stays behind the value.
* `Value.change_induction`: a change of a value that leads to its base is that of the base, carried
  back.
* `Value.change_carries`, `Value.change_carries_of_leads`: a change of a value comes down to a change
  of its base.
-/

namespace DynamicEval

/-! ### Cells that stay as they are -/

/-- A later heap that has the same content in the cells of `h` that `P` holds of. -/
structure Heap.SameOn (h h' : Heap) (P : Addr → Prop) : Prop where
  /-- No cell is lost. -/
  size_le : h.size ≤ h'.size
  /-- The content is the same. -/
  get_eq : ∀ a < h.size, P a → h'.get a = h.get a

/-- A later heap in which no cell is changed but those behind a value. -/
def Heap.Confined (h : Heap) (v : Value) (h' : Heap) : Prop :=
  h.SameOn h' fun a => ¬h.Reaches v a

/-- The cells that were made since `h`, and those behind a value. -/
def Heap.IsNewOrBehind (h : Heap) (v : Value) (a : Addr) : Prop := h.size ≤ a ∨ h.Reaches v a

namespace Heap

variable {h h' h'' : Heap} {v w : Value} {a : Addr} {P Q : Addr → Prop}

theorem SameOn.refl (h : Heap) (P : Addr → Prop) : h.SameOn h P :=
  ⟨Nat.le_refl _, fun _ _ _ => rfl⟩

theorem SameOn.mono (hs : h.SameOn h' P) (hQ : ∀ a, Q a → P a) : h.SameOn h' Q :=
  ⟨hs.size_le, fun a ha hq => hs.get_eq a ha (hQ a hq)⟩

theorem SameOn.trans (hs : h.SameOn h' P) (hs' : h'.SameOn h'' P) : h.SameOn h'' P where
  size_le := Nat.le_trans hs.size_le hs'.size_le
  get_eq a ha hP := by
    rw [hs'.get_eq a (Nat.lt_of_lt_of_le ha hs.size_le) hP, hs.get_eq a ha hP]

theorem SameOn.set (h : Heap) (ha : ¬P a) (v : Value) : h.SameOn (h.set a v) P where
  size_le := Nat.le_of_eq size_set.symm
  get_eq b _ hb := by
    have hne : a ≠ b := by
      rintro rfl
      exact ha hb
    exact get_set_of_ne hne

theorem Appends.sameOn (hh : h.Appends h') (P : Addr → Prop) : h.SameOn h' P :=
  ⟨hh.size_le, fun a ha _ => hh.get_eq a ha⟩

theorem IsNewOrBehind.of_reaches (ha : h.IsNewOrBehind v a)
    (hreaches : ∀ a, h.Reaches v a → h.Reaches w a) : h.IsNewOrBehind w a :=
  ha.imp_right (hreaches a)

/-- What is behind the content of a slot is behind the slot. -/
theorem SameOn.of_slot (hs : h'.SameOn h'' (h.IsNewOrBehind (.slot v))) :
    h'.SameOn h'' (h.IsNewOrBehind v) :=
  hs.mono fun _ ha => ha.of_reaches fun _ hb => hb.of_points fun _ => .slot

/-- A cell that was there and is not behind itself is not what a change of its content writes. -/
theorem not_isNewOrBehind_get (ha : a < h.size) (hacyclic : ¬h.Reaches (h.get a) a) :
    ¬h.IsNewOrBehind (h.get a) a := by
  rintro (hle | hr)
  · exact absurd ha (Nat.not_lt.mpr hle)
  · exact hacyclic hr

/-- A later heap that keeps what a change behind a pointer left keeps the content of the cell, and
what the change of the content left. -/
theorem SameOn.of_pointer {e : Ty}
    (hs : (h'.set a w).SameOn h'' (h.IsNewOrBehind (.pointer e (some a))))
    (hle : h.size ≤ h'.size) (ha : a < h.size) (hacyclic : ¬h.Reaches (h.get a) a) :
    a < h''.size ∧ h''.get a = w ∧ h'.SameOn h'' (h.IsNewOrBehind (h.get a)) := by
  have hcell : h.Reaches (.pointer e (some a)) a := .direct (.pointer e a)
  have hreaches : ∀ b, h.Reaches (h.get a) b → h.Reaches (.pointer e (some a)) b :=
    fun b hb => .behind (.pointer e a) hb
  have hbound : a < h'.size := Nat.lt_of_lt_of_le ha hle
  have hbound' : a < (h'.set a w).size := by rwa [Heap.size_set]
  refine ⟨Nat.lt_of_lt_of_le hbound' hs.size_le, ?_, ?_⟩
  · rw [hs.get_eq a hbound' (.inr hcell), Heap.get_set_self hbound]
  · exact (SameOn.set h' (not_isNewOrBehind_get ha hacyclic) w).trans
      (hs.mono fun b hb => hb.of_reaches hreaches)

/-- A later heap that keeps what a change behind a new cell left keeps the content of the cell, and
what the change of the content left. -/
theorem SameOn.of_store {t : Ty}
    (hs : (h'.alloc w).1.SameOn h'' (h.IsNewOrBehind (.pointer t none)))
    (hle : h.size ≤ h'.size) (hv : ∀ a, ¬h.Reaches v a) :
    h'.size < h''.size ∧ h''.get h'.size = w ∧ h'.SameOn h'' (h.IsNewOrBehind v) := by
  have hbound : h'.size < (h'.alloc w).1.size := by
    rw [Heap.size_alloc]
    exact Nat.lt_succ_self _
  refine ⟨Nat.lt_of_lt_of_le hbound hs.size_le, ?_, ?_⟩
  · rw [hs.get_eq _ hbound (.inl hle), Heap.get_alloc_size]
  · exact ((Appends.alloc h' w).sameOn _).trans
      (hs.mono fun a ha => ha.of_reaches fun a ha => absurd ha (hv a))

end Heap

/-- A change that stays behind a value which only new cells are behind changes no old cell. -/
theorem Heap.Confined.appends {h h' h'' : Heap} {v : Value} (hc : h'.Confined v h'')
    (hh' : h.Appends h') (hnew : ∀ a, h'.Reaches v a → h.size ≤ a) : h.Appends h'' where
  size_le := Nat.le_trans hh'.size_le hc.size_le
  get_eq a ha := by
    rw [← hh'.get_eq a ha]
    refine hc.get_eq a (Nat.lt_of_lt_of_le ha hh'.size_le) fun hr => ?_
    exact Nat.lt_irrefl _ (Nat.lt_of_lt_of_le ha (hnew a hr))

mutual

/-- There is no pointer to a cell in the zero of a type. -/
theorem Ty.not_points_zero (t : Ty) (a : Addr) : ¬t.zero.Points a := by
  match t with
  | .array e n =>
    rintro (_ | _ | _ | @⟨_, _, v, _, hv, hp⟩)
    rw [List.eq_of_mem_replicate hv] at hp
    exact Ty.not_points_zero e a hp
  | .record ⟨name, fields, methods⟩ =>
    rintro (_ | _ | _ | _ | _ | @⟨_, _, v, _, hv, hp⟩)
    exact Ty.not_points_zeroFields fields hv a hp
  | .list e => exact fun hp => by cases hp with | list hv _ => cases hv
  | .map k e => exact fun hp => by cases hp with | map hv _ => cases hv
  | .invalid | .bool | .int _ | .uint _ | .float _ | .string | .func | .pointer _ | .any =>
    exact nofun

theorem Ty.not_points_zeroFields (fs : List Field) {v : Value} (hv : v ∈ Ty.zeroFields fs)
    (a : Addr) : ¬v.Points a := by
  match fs with
  | [] => cases hv
  | ⟨_, ty, _⟩ :: fs =>
    rcases List.mem_cons.mp hv with rfl | hv
    · exact Ty.not_points_zero ty a
    · exact Ty.not_points_zeroFields fs hv a

end

theorem Ty.not_reaches_zero (h : Heap) (t : Ty) (a : Addr) : ¬h.Reaches t.zero a := by
  rintro (hp | ⟨hp, -⟩) <;> exact t.not_points_zero _ hp

/-! ### Replacements -/

namespace Edit

variable {α : Type} {h : Heap} {v : Value} {new : HeapM Value} {P : Value → Prop}

theorem replace_appends (hnew : new.Appends P) (h : Heap) (v : Value) (result : α) :
    h.Appends (replace h v new result).heap := by
  rw [replace]
  split
  · next w h' hrun => exact (hnew h w h' hrun).1
  · exact .refl h

theorem replace_value (hnew : new.Appends P) (hv : P v) (result : α) :
    P (replace h v new result).value := by
  rw [replace]
  split
  · next w h' hrun => exact (hnew h w h' hrun).2
  · exact hv

end Edit

/-! ### Changes of the base -/

/-- A change `r` of a value `v` on the heap `h` that comes down to a change `r₀` of its base `u`. -/
structure Edit.Carries {α : Type} (r : Edit α) (h : Heap) (v : Value) (r₀ : Edit α) (u : Value) :
    Prop where
  /-- No cell is lost. -/
  size_le : h.size ≤ r.heap.size
  /-- What is behind the base is behind the value. -/
  reaches : ∀ a, h.Reaches u a → h.Reaches v a
  /-- The result is the same. -/
  result_eq : r.result = r₀.result
  /-- What the change of the base did to new cells and to those behind the base is still there. -/
  sameOn : r₀.heap.SameOn r.heap (h.IsNewOrBehind u)
  /-- The value leads to the changed base, also on heaps that keep new cells and those behind it. -/
  leads : r₀.value.IsBase → ∀ {h'}, r.heap.SameOn h' (h.IsNewOrBehind v) →
    ∃ as, h'.Leads r.value as r₀.value

namespace Edit.Carries

variable {α : Type} {r r₀ : Edit α} {h : Heap} {v u : Value}

/-- A change of a base. -/
theorem refl {r : Edit α} (hr : h.size ≤ r.heap.size) (u : Value) : r.Carries h u r u :=
  ⟨hr, fun _ => id, rfl, .refl _ _, fun hu _ _ => ⟨[], .base hu⟩⟩

theorem slot (hr : r.Carries h v r₀ u) : (r.within .slot).Carries h (.slot v) r₀ u := by
  have hreaches : ∀ a, h.Reaches v a → h.Reaches (.slot v) a :=
    fun a ha => ha.of_points fun _ => .slot
  refine ⟨hr.size_le, fun a ha => hreaches a (hr.reaches a ha), hr.result_eq, hr.sameOn,
    fun hu h' hs => ?_⟩
  obtain ⟨as, has⟩ := hr.leads hu hs.of_slot
  exact ⟨as, has.slot⟩

/-- A change behind a pointer, whose cell is not behind itself. -/
theorem pointer {a : Addr} (hr : r.Carries h (h.get a) r₀ u) (ha : a < h.size)
    (hacyclic : ¬h.Reaches (h.get a) a) (e : Ty) :
    (⟨r.heap.set a r.value, .pointer e (some a), r.result⟩ : Edit α).Carries h
      (.pointer e (some a)) r₀ u := by
  have hreaches : ∀ b, h.Reaches (h.get a) b → h.Reaches (.pointer e (some a)) b :=
    fun b hb => .behind (.pointer e a) hb
  -- The cell is not behind its own content, so writing it back spoils nothing there.
  have hset := Heap.SameOn.set r.heap (Heap.not_isNewOrBehind_get ha hacyclic) r.value
  refine ⟨?_, fun b hb => hreaches b (hr.reaches b hb), hr.result_eq, ?_, fun hu h' hs => ?_⟩
  · rw [Heap.size_set]
    exact hr.size_le
  · exact hr.sameOn.trans (hset.mono fun b hb => hb.of_reaches hr.reaches)
  · obtain ⟨hbound, hget, hs⟩ := hs.of_pointer hr.size_le ha hacyclic
    obtain ⟨as, has⟩ := hr.leads hu hs
    rw [← hget] at has
    exact ⟨a :: as, .pointer e hbound has⟩

/-- A change behind a new cell. -/
theorem store (hr : r.Carries h v r₀ u) (hv : ∀ a, ¬h.Reaches v a) (e t : Ty) :
    (Value.changeNew.store e r).Carries h (.pointer t none) r₀ u := by
  have halloc := Heap.Appends.alloc r.heap r.value
  refine ⟨Nat.le_trans hr.size_le halloc.size_le, fun a ha => absurd (hr.reaches a ha) (hv a),
    hr.result_eq, hr.sameOn.trans (halloc.sameOn _), fun hu h' hs => ?_⟩
  obtain ⟨hbound, hget, hs⟩ := Heap.SameOn.of_store hs hr.size_le hv
  obtain ⟨as, has⟩ := hr.leads hu hs
  rw [← hget] at has
  exact ⟨r.heap.size :: as, .pointer e hbound has⟩

end Edit.Carries

/-- Two values of one type, with contents of one type if they are slots. -/
def Value.SameShape (w v : Value) : Prop := w.ty = v.ty ∧ w.peel.ty = v.peel.ty

namespace Value

variable {α : Type} {h : Heap} {v : Value} {f : Heap → Value → Edit α} {x : α}

theorem changeNew_carries (hf : ∀ u, u.WellFormed h → h.size ≤ (f h u).heap.size) (e t : Ty) :
    ∃ u, u.WellFormed h ∧ (changeNew f e h).Carries h (.pointer t none) (f h u) u := by
  have hzero (e : Ty) : ∃ u, u.WellFormed h ∧
      (changeNew.store e (f h e.zero)).Carries h (.pointer t none) (f h u) u := by
    have hwf := (e.zero_fits h).wellFormed
    exact ⟨e.zero, hwf, (Edit.Carries.refl (hf _ hwf) _).store (e.not_reaches_zero h) e t⟩
  match e with
  | .pointer e =>
    obtain ⟨u, hu, hr⟩ := changeNew_carries hf e e
    exact ⟨u, hu, hr.store ((Ty.pointer e).not_reaches_zero h) (.pointer e) t⟩
  | .invalid | .bool | .int _ | .uint _ | .float _ | .string | .list _ | .array _ _ | .map _ _
  | .record _ | .func | .any => exact hzero _

/-- A step of a change that succeeds comes down to a change of the base if the change of a cell
does. -/
theorem changeStep_carries (hf : ∀ u, u.WellFormed h → h.size ≤ (f h u).heap.size)
    {enter : Addr → Heap → Heap × Except Error α}
    (henter : ∀ e, ∀ a < h.size, (enter a h).2 = .ok x → ∃ u, u.WellFormed h ∧
      (⟨(enter a h).1, pointer e (some a), (enter a h).2⟩ : Edit α).Carries h
        (pointer e (some a)) (f h u) u)
    {v : Value} (hv : v.WellFormed h) (hx : (v.changeStep f enter h).result = .ok x) :
    ∃ u, u.WellFormed h ∧ (v.changeStep f enter h).Carries h v (f h u) u := by
  match v with
  | .slot v =>
    obtain ⟨u, hu, hr⟩ := changeStep_carries hf henter (wellFormed_slot.mp hv).2.2 hx
    exact ⟨u, hu, hr.slot⟩
  | .pointer e none => exact changeNew_carries hf e e
  | .pointer e (some a) => exact henter e a (wellFormed_pointer.mp hv).1 hx
  | .invalid | .bool _ | .int _ _ | .uint _ _ | .float _ _ | .string _ | .list _ _ | .array _ _
  | .map _ _ _ | .record _ _ | .func _ | .emptySlot => exact ⟨_, hv, .refl (hf _ hv) _⟩

/-- A change of a value that succeeds comes down to a change of its base. -/
theorem change_carries (hh : h.WellFormed) (hacyclic : h.Acyclic) (hv : v.WellFormed h)
    (hf : ∀ u, u.WellFormed h → h.size ≤ (f h u).heap.size) (hx : (v.change h f).result = .ok x) :
    ∃ u, u.WellFormed h ∧ (v.change h f).Carries h v (f h u) u := by
  suffices ∀ n, (changeWithin f n v h).result = .ok x →
      ∃ u, u.WellFormed h ∧ (changeWithin f n v h).Carries h v (f h u) u from this h.size hx
  clear hx
  intro n
  induction n generalizing v with
  | zero => exact changeStep_carries hf (fun _ _ _ (hx : Except.error _ = .ok x) => nomatch hx) hv
  | succ n ih =>
    refine changeStep_carries hf (fun e a ha hx => ?_) hv
    obtain ⟨u, hu, hr⟩ := ih (hh a ha) hx
    exact ⟨u, hu, hr.pointer ha (hacyclic a) e⟩

/-- A change that comes down to one step, whatever is in the cells, is that step. -/
theorem change_of_changeStep {r : Edit α} (hstep : ∀ enter, v.changeStep f enter h = r) :
    v.change h f = r := by
  rw [change]
  cases h.size <;> exact hstep _

section

variable {as : List Addr} {u : Value}

/-- A step of a change of a base is the change. -/
theorem IsBase.changeStep_eq (hu : u.IsBase) (f : Heap → Value → Edit α)
    (enter : Addr → Heap → Heap × Except Error α) (h : Heap) : u.changeStep f enter h = f h u := by
  cases u with
  | pointer => cases hu.1
  | slot => cases hu.2
  | _ => rfl

/-- A change of a value that leads to its base is the change of the base, carried back through the
slots and cells on the way. No cell is met twice there. -/
theorem change_induction {motive : Value → List Addr → Edit α → Prop} (hv : h.Leads v as u)
    (base : motive u [] (f h u))
    (slot : ∀ {v as r}, motive v as r → motive (.slot v) as (r.within .slot))
    (pointer : ∀ (e : Ty) {a as r}, a < h.size → a ∉ as → motive (h.get a) as r →
      motive (.pointer e (some a)) (a :: as)
        ⟨r.heap.set a r.value, .pointer e (some a), r.result⟩) :
    motive v as (v.change h f) := by
  suffices ∀ n, as.length ≤ n → motive v as (changeWithin f n v h) from this h.size hv.length_le
  induction hv with
  | @base u hu =>
    intro n _
    have heq : changeWithin f n u h = f h u := by cases n <;> exact hu.changeStep_eq f _ h
    exact heq ▸ base
  | slot _ ih =>
    intro n hn
    have hr := ih base n hn
    cases n <;> exact slot hr
  | @pointer e a as u ha hcell ih =>
    intro n hn
    cases n with
    | zero => cases hn
    | succ n =>
      have hnodup := List.nodup_cons.mp (Heap.Leads.pointer e ha hcell).nodup
      exact pointer e ha hnodup.1 (ih base n (Nat.le_of_succ_le_succ hn))

/-- A change of a value that leads to its base comes down to a change of the base, be it successful
or not. -/
theorem change_carries_of_leads (hv : h.Leads v as u) (hacyclic : h.AcyclicBehind v)
    (hf : h.size ≤ (f h u).heap.size) : (v.change h f).Carries h v (f h u) u := by
  refine change_induction (motive := fun v _ r => h.AcyclicBehind v → r.Carries h v (f h u) u) hv
    (fun _ => .refl hf u) (fun ih hacyclic => ?_) (fun e a _ _ ha _ ih hacyclic => ?_) hacyclic
  · exact (ih (hacyclic.of_reaches fun _ hr => hr.of_points fun _ => .slot)).slot
  · have hcell := hacyclic.of_reaches fun _ hr => .behind (.pointer e a) hr
    exact (ih hcell).pointer ha (hacyclic a (.direct (.pointer e a))) e

/-- A change that leaves a base leaves the way to it. -/
theorem change_leads (hv : h.Leads v as u) (hf : h.size ≤ (f h u).heap.size)
    (hbase : (f h u).value.IsBase) :
    (v.change h f).heap.Leads (v.change h f).value as (f h u).value := by
  refine (change_induction (motive := fun _ as r =>
    h.size ≤ r.heap.size ∧ r.heap.Leads r.value as (f h u).value) hv ⟨hf, .base hbase⟩
    (fun ⟨hsize, hr⟩ => ⟨hsize, hr.slot⟩) fun e a as r ha hnew ⟨hsize, hr⟩ => ?_).2
  have ha' : a < r.heap.size := Nat.lt_of_lt_of_le ha hsize
  have hset : r.heap.size ≤ (r.heap.set a r.value).size := Nat.le_of_eq Heap.size_set.symm
  have hcell := hr.congr hset fun b hb => Heap.get_set_of_ne fun hab => hnew (hab ▸ hb)
  refine ⟨Nat.le_trans hsize hset, .pointer e (Nat.lt_of_lt_of_le ha' hset) ?_⟩
  rw [Heap.get_set_self ha']
  exact hcell

end

/-! ### Shape -/

theorem SameShape.refl (v : Value) : v.SameShape v := ⟨rfl, rfl⟩

theorem changeNew_value (f : Heap → Value → Edit α) (e : Ty) (h : Heap) :
    ∃ a, (changeNew f e h).value = pointer e (some a) := by
  cases e <;> exact ⟨_, rfl⟩

theorem changeStep_sameShape (hf : ∀ u, (f h u).value.SameShape u)
    (enter : Addr → Heap → Heap × Except Error α) (v : Value) :
    (v.changeStep f enter h).value.SameShape v := by
  match v with
  | .slot v => exact ⟨rfl, (changeStep_sameShape hf enter v).1⟩
  | .pointer e none =>
    obtain ⟨a, ha⟩ := changeNew_value f e h
    show (changeNew f e h).value.SameShape _
    rw [ha]
    exact ⟨rfl, rfl⟩
  | .pointer e (some a) => exact ⟨rfl, rfl⟩
  | .invalid | .bool _ | .int _ _ | .uint _ _ | .float _ _ | .string _ | .list _ _ | .array _ _
  | .map _ _ _ | .record _ _ | .func _ | .emptySlot => exact hf _

/-- A change that keeps the shape of bases keeps the shape of the value. -/
theorem change_sameShape (hf : ∀ u, (f h u).value.SameShape u) (v : Value) :
    (v.change h f).value.SameShape v := by
  rw [change]
  cases h.size <;> exact changeStep_sameShape hf _ v

/-! ### Confinement -/

section

variable {w : Value} (hf : ∀ u, (∀ a, h.Reaches u a → h.Reaches w a) → h.Confined u (f h u).heap)

include hf

theorem changeNew_confined (e : Ty) : h.Confined w (changeNew f e h).heap := by
  have hzero (e : Ty) : h.Confined w (changeNew.store e (f h e.zero)).heap := by
    have hr := hf e.zero fun a ha => absurd ha (e.not_reaches_zero h a)
    exact (hr.mono fun a _ => e.not_reaches_zero h a).trans ((Heap.Appends.alloc _ _).sameOn _)
  match e with
  | .pointer e => exact (changeNew_confined e).trans ((Heap.Appends.alloc _ _).sameOn _)
  | .invalid | .bool | .int _ | .uint _ | .float _ | .string | .list _ | .array _ _ | .map _ _
  | .record _ | .func | .any => exact hzero _

/-- A step of a change stays behind a value if changes of its cells do. -/
theorem changeStep_confined {enter : Addr → Heap → Heap × Except Error α}
    (henter : ∀ a, w.Points a → h.Confined w (enter a h).1) {v : Value}
    (hv : ∀ a, v.Points a → w.Points a) : h.Confined w (v.changeStep f enter h).heap := by
  match v with
  | .slot v =>
    show h.Confined w (v.changeStep f enter h).heap
    exact changeStep_confined henter fun a ha => hv a (.slot ha)
  | .pointer e none => exact changeNew_confined hf e
  | .pointer e (some a) => exact henter a (hv a (.pointer e a))
  | .invalid | .bool _ | .int _ _ | .uint _ _ | .float _ _ | .string _ | .list _ _ | .array _ _
  | .map _ _ _ | .record _ _ | .func _ | .emptySlot =>
    have hreaches {v : Value} (hv : ∀ a, v.Points a → w.Points a) (a : Addr)
        (ha : h.Reaches v a) : h.Reaches w a := ha.of_points hv
    exact (hf _ (hreaches hv)).mono fun a hna ha => hna (hreaches hv a ha)

end

/-- A change of the base stays behind the value if it stays behind the base. -/
theorem change_confined
    (hf : ∀ u, (∀ a, h.Reaches u a → h.Reaches v a) → h.Confined u (f h u).heap) :
    h.Confined v (v.change h f).heap := by
  suffices ∀ n, h.Confined v (changeWithin f n v h).heap from this h.size
  intro n
  induction n generalizing v with
  | zero =>
    refine changeStep_confined hf (fun a _ => ?_) fun _ => id
    exact .refl h _
  | succ n ih =>
    refine changeStep_confined hf (fun a ha => ?_) fun _ => id
    have hcell : ∀ b, h.Reaches (h.get a) b → h.Reaches v b := fun b hb => .behind ha hb
    have hr := ih fun u hu => hf u fun b hb => hcell b (hu b hb)
    refine (hr.mono fun b hnb hb => hnb (hcell b hb)).trans ?_
    exact .set _ (fun hna => hna (.direct ha)) _

end Value

end DynamicEval
