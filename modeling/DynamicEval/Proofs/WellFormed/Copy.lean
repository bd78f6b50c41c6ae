import DynamicEval.Copy
import DynamicEval.Proofs.WellFormed.Edit

/-!
# Copies keep what is well-formed

A deep copy has the type of what it copies, and so has every part and every new cell. Fields that are
not exported get the zero of their declared type. A copy into a destination leaves content of the
type of the destination.

## Main definitions

* `Copied`: what a copy leaves behind.

## Main results

* `Value.deepCopy_copied`: a deep copy is well-formed and of the same type.
* `Value.cloneFrom_fits`: a copy into a destination fits the destination.
-/

namespace DynamicEval

/-- A copy of a value of a type, together with the heap that holds its cells. -/
structure Copied (h : Heap) (t : Ty) (r : Heap × Value) : Prop where
  /-- The heap is a later one. -/
  grows : h.Grows r.1
  /-- The copy is well-formed. -/
  wellFormed : r.2.WellFormed r.1
  /-- The copy has the type. -/
  ty_beq : (r.2.ty == t) = true

theorem Copied.fits {h : Heap} {v : Value} {t : Ty} {r : Heap × Value} (hr : Copied h v.ty r)
    (hv : v.Fits t h) : r.2.Fits t r.1 :=
  ⟨hr.wellFormed, hv.accepts.congr_right hr.ty_beq⟩

/-- Copying of cells, as a copy of what they hold. -/
def CopiesCells (copyCell : Addr → Heap → Heap × Addr) : Prop :=
  ∀ {a h}, h.WellFormed → a < h.size →
    h.Grows (copyCell a h).1 ∧ (copyCell a h).2 < (copyCell a h).1.size ∧
      (((copyCell a h).1.get (copyCell a h).2).ty == (h.get a).ty) = true

section

variable {copyCell : Addr → Heap → Heap × Addr}

mutual

/-- A step of a copy gives a copy if cells are copied. -/
theorem Value.copyStep_copied (hc : CopiesCells copyCell) {h : Heap} (hh : h.WellFormed)
    (v : Value) (hv : v.WellFormed h) : Copied h v.ty (v.copyStep copyCell h) := by
  match v with
  | .list e items =>
    obtain ⟨hgrows, hitems, -⟩ :=
      Value.copyItemsStep_fit hc hh items (Value.wellFormed_list.mp hv)
    exact ⟨hgrows, Value.wellFormed_list.mpr hitems, BEq.rfl⟩
  | .array e items =>
    obtain ⟨hgrows, hitems, hlength⟩ :=
      Value.copyItemsStep_fit hc hh items (Value.wellFormed_array.mp hv)
    refine ⟨hgrows, Value.wellFormed_array.mpr hitems, ?_⟩
    show (Ty.array e _ == Ty.array e items.length) = true
    rw [hlength]
    exact BEq.rfl
  | .map k e entries =>
    have hentries := Value.wellFormed_map.mp hv
    obtain ⟨hgrows, hkeys, hvalues⟩ := Value.copyEntriesStep_fit hc hh entries hentries.values
    exact ⟨hgrows, Value.wellFormed_map.mpr (hentries.of_keys hgrows.toExtends hkeys hvalues),
      BEq.rfl⟩
  | .record r fields =>
    obtain ⟨hgrows, hfields⟩ :=
      Value.copyFieldsStep_fit hc hh fields r.fields (Value.wellFormed_record.mp hv)
    exact ⟨hgrows, Value.wellFormed_record.mpr hfields, BEq.rfl⟩
  | .pointer e (some a) =>
    obtain ⟨ha, hty⟩ := Value.wellFormed_pointer.mp hv
    obtain ⟨hgrows, hbound, hcell⟩ := hc hh ha
    exact ⟨hgrows, .pointer hbound (hty.congr_right hcell), BEq.rfl⟩
  | .slot v =>
    have hr := Value.copyStep_copied hc hh v (Value.wellFormed_slot.mp hv).2.2
    refine ⟨hr.grows, hr.wellFormed.boxed, ?_⟩
    show (Value.ty (Value.boxed _) == Ty.any) = true
    rw [Value.ty_boxed]
    exact BEq.rfl
  | .pointer _ none | .invalid | .bool _ | .int _ _ | .uint _ _ | .float _ _ | .string _ | .func _
  | .emptySlot => exact ⟨hh.grows, hv, BEq.rfl⟩

theorem Value.copyItemsStep_fit (hc : CopiesCells copyCell) {h : Heap} (hh : h.WellFormed) {e : Ty}
    (vs : List Value) (hvs : ∀ v ∈ vs, v.Fits e h) :
    h.Grows (Value.copyItemsStep copyCell vs h).1 ∧
      (∀ w ∈ (Value.copyItemsStep copyCell vs h).2,
        w.Fits e (Value.copyItemsStep copyCell vs h).1) ∧
      (Value.copyItemsStep copyCell vs h).2.length = vs.length := by
  match vs with
  | [] => exact ⟨hh.grows, List.forall_mem_nil _, rfl⟩
  | v :: vs =>
    have hv := hvs v List.mem_cons_self
    have hr := Value.copyStep_copied hc hh v hv.wellFormed
    obtain ⟨hgrows, hws, hlength⟩ := Value.copyItemsStep_fit hc hr.grows.wellFormed vs
      fun w hw => (hvs w (List.mem_cons_of_mem _ hw)).mono hr.grows.toExtends
    refine ⟨hr.grows.trans hgrows, fun w hw => ?_, congrArg (· + 1) hlength⟩
    rcases List.mem_cons.mp hw with rfl | hw
    · exact (hr.fits hv).mono hgrows.toExtends
    · exact hws w hw

theorem Value.copyEntriesStep_fit (hc : CopiesCells copyCell) {h : Heap} (hh : h.WellFormed)
    {e : Ty} (es : List (Key × Value)) (hes : ∀ entry ∈ es, entry.2.Fits e h) :
    h.Grows (Value.copyEntriesStep copyCell es h).1 ∧
      (Value.copyEntriesStep copyCell es h).2.map Prod.fst = es.map Prod.fst ∧
      ∀ entry ∈ (Value.copyEntriesStep copyCell es h).2,
        entry.2.Fits e (Value.copyEntriesStep copyCell es h).1 := by
  match es with
  | [] => exact ⟨hh.grows, rfl, List.forall_mem_nil _⟩
  | (k, v) :: es =>
    have hv := hes (k, v) List.mem_cons_self
    have hr := Value.copyStep_copied hc hh v hv.wellFormed
    obtain ⟨hgrows, hkeys, hws⟩ := Value.copyEntriesStep_fit hc hr.grows.wellFormed es
      fun entry hentry => (hes entry (List.mem_cons_of_mem _ hentry)).mono hr.grows.toExtends
    refine ⟨hr.grows.trans hgrows, congrArg (k :: ·) hkeys, fun entry hentry => ?_⟩
    rcases List.mem_cons.mp hentry with rfl | hentry
    · exact (hr.fits hv).mono hgrows.toExtends
    · exact hws entry hentry

theorem Value.copyFieldsStep_fit (hc : CopiesCells copyCell) {h : Heap} (hh : h.WellFormed)
    (vs : List Value) (fs : List Field)
    (hvs : List.Forall₂ (fun f v => Value.Fits v f.ty h) fs vs) :
    h.Grows (Value.copyFieldsStep copyCell vs fs h).1 ∧
      List.Forall₂ (fun f v => Value.Fits v f.ty (Value.copyFieldsStep copyCell vs fs h).1) fs
        (Value.copyFieldsStep copyCell vs fs h).2 := by
  match vs, fs, hvs with
  | [], [], .nil => exact ⟨hh.grows, .nil⟩
  | v :: vs, f :: fs, .cons hv hvs =>
    have hr : h.Grows (if f.exported then v.copyStep copyCell h else (h, f.ty.zero)).1 ∧
        Value.Fits (if f.exported then v.copyStep copyCell h else (h, f.ty.zero)).2 f.ty
          (if f.exported then v.copyStep copyCell h else (h, f.ty.zero)).1 := by
      split
      · have hr := Value.copyStep_copied hc hh v hv.wellFormed
        exact ⟨hr.grows, hr.fits hv⟩
      · exact ⟨hh.grows, f.ty.zero_fits h⟩
    obtain ⟨hgrows, hws⟩ := Value.copyFieldsStep_fit hc hr.1.wellFormed vs fs
      (hvs.imp fun _ _ hw => hw.mono hr.1.toExtends)
    exact ⟨hr.1.trans hgrows, .cons (hr.2.mono hgrows.toExtends) hws⟩

end

end

namespace Value

variable {h : Heap} {v dest : Value}

/-- A deep copy is well-formed and has the type of what it copies. -/
theorem deepCopy_copied (hh : h.WellFormed) (hv : v.WellFormed h) :
    Copied h v.ty (v.deepCopy h) := by
  suffices ∀ n {h v}, h.WellFormed → v.WellFormed h → Copied h v.ty (copyWithin n v h) from
    this h.size hh hv
  intro n
  induction n with
  | zero => exact fun hh hv =>
    copyStep_copied (fun {a h} hh ha => ⟨hh.grows, ha, BEq.rfl⟩) hh _ hv
  | succ n ih =>
    refine fun hh hv => copyStep_copied (fun {a h} hh ha => ?_) hh _ hv
    have hr := ih hh (hh a ha)
    refine ⟨hr.grows.trans (hr.grows.wellFormed.alloc hr.wellFormed), ?_, ?_⟩
    · show (copyWithin n (h.get a) h).1.size < (Heap.alloc _ _).1.size
      rw [Heap.size_alloc]
      exact Nat.lt_succ_self _
    · show ((Heap.get (Heap.alloc _ _).1 (copyWithin n (h.get a) h).1.size).ty == _) = true
      rw [Heap.get_alloc_size]
      exact hr.ty_beq

/-- A copy into a destination leaves content that fits the destination. -/
theorem cloneFrom_fits (hh : h.WellFormed) (hdest : dest.WellFormed h) (hv : v.WellFormed h) :
    (dest.cloneFrom v h).Fits h dest.ty := by
  rw [cloneFrom]
  split
  · exact (Edit.keep_keeps hh hdest _).fits hdest.fits_ty
  obtain ⟨hgrows, hnew⟩ := dest.ty.fresh_fits hh
  generalize dest.ty.fresh h = r at hgrows hnew ⊢
  obtain ⟨new, h'⟩ := r
  dsimp only at hgrows hnew ⊢
  have hh' := hgrows.wellFormed
  have hb := (hv.mono hgrows.toExtends).base hh'
  split
  · exact ⟨⟨hgrows, hnew.wellFormed⟩, hnew.accepts⟩
  split
  · next hslot =>
    have hr := deepCopy_copied hh' hb
    refine ⟨⟨hgrows.trans hr.grows, hr.wellFormed.boxed⟩, ?_⟩
    show dest.ty.Accepts (boxed _).ty
    rw [ty_boxed, ← isSlot_iff.mp hslot]
    exact hnew.accepts
  · refine Edit.Fits.after (Edit.Keeps.fits (change_keeps hh' hnew.wellFormed ?_) hnew) hgrows
    intro u hu
    split
    · next hty =>
      have hr := deepCopy_copied hh' hb
      exact ⟨⟨hr.grows, hr.wellFormed⟩, BEq.trans hr.ty_beq (BEq.symm hty)⟩
    · exact Edit.keep_keeps hh' hu _

end Value

end DynamicEval
