import DynamicEval.Edit
import DynamicEval.Proofs.WellFormed.Coercion

/-!
# Changes in place keep what is well-formed

A change in place leaves a later heap and well-formed content of its destination, whether it
succeeds, stops half way or fails at once. A change of the base behind pointers and slots keeps the
type of the destination if it keeps that of the base.

## Main definitions

* `Edit.Sound`, `Edit.Keeps`, `Edit.Fits`: well-formed content, of the type that a destination had,
  or that a destination of a type may hold.

## Main results

* `Value.change_keeps`: a change of the base keeps the type of the destination.
* `Value.assign_fits`, `Value.push_sound`, `Value.insert_keeps`, `Value.remove_keeps`,
  `Value.setField_keeps`: the changes of a value by its parts.
-/

namespace DynamicEval

/-! ### What a change leaves behind -/

/-- A change of a heap leaves a later one and well-formed content of its destination. -/
structure Edit.Sound {α : Type} (r : Edit α) (h : Heap) : Prop where
  /-- The heap after the change is a later one. -/
  grows : h.Grows r.heap
  /-- The content of the destination is well-formed. -/
  wellFormed : r.value.WellFormed r.heap

/-- A sound change that leaves content of a type. -/
structure Edit.Keeps {α : Type} (r : Edit α) (h : Heap) (t : Ty) : Prop extends r.Sound h where
  /-- The content is of the type. -/
  ty_beq : (r.value.ty == t) = true

/-- A sound change that leaves content which a destination of a type may hold. -/
structure Edit.Fits {α : Type} (r : Edit α) (h : Heap) (t : Ty) : Prop extends r.Sound h where
  /-- The content is accepted. -/
  accepts : t.Accepts r.value.ty

namespace Edit

variable {α : Type} {r : Edit α} {h : Heap} {v : Value} {t : Ty}

theorem Fits.value_fits (hr : r.Fits h t) : r.value.Fits t r.heap := ⟨hr.wellFormed, hr.accepts⟩

theorem Keeps.fits (hr : r.Keeps h v.ty) (hv : v.Fits t h) : r.Fits h t :=
  ⟨hr.toSound, hv.accepts.congr_right hr.ty_beq⟩

theorem Keeps.after {h' : Heap} (hr : r.Keeps h' t) (hh : h.Grows h') : r.Keeps h t :=
  ⟨⟨hh.trans hr.grows, hr.wellFormed⟩, hr.ty_beq⟩

theorem Fits.after {h' : Heap} (hr : r.Fits h' t) (hh : h.Grows h') : r.Fits h t :=
  ⟨⟨hh.trans hr.grows, hr.wellFormed⟩, hr.accepts⟩

theorem keep_keeps (hh : h.WellFormed) (hv : v.WellFormed h) (result : Except Error α) :
    (keep h v result).Keeps h v.ty :=
  ⟨⟨hh.grows, hv⟩, BEq.rfl⟩

/-- What holds of the content before a replacement and of what a computation gives holds of the
content after it. -/
theorem replace_spec {P : Heap → Value → Prop} {new : HeapM Value} (hh : h.WellFormed) (hv : P h v)
    (hnew : new.Keeps h P) (result : α) :
    h.Grows (replace h v new result).heap ∧
      P (replace h v new result).heap (replace h v new result).value := by
  rw [replace]
  split
  · next w h' hrun => exact hnew w h' hrun
  · exact ⟨hh.grows, hv⟩

theorem replace_fits {new : HeapM Value} (hh : h.WellFormed) (hv : v.Fits t h)
    (hnew : new.Keeps h fun h' w => w.Fits t h') (result : α) :
    (replace h v new result).Fits h t := by
  obtain ⟨hgrows, hfits⟩ := replace_spec hh hv hnew result
  exact ⟨⟨hgrows, hfits.wellFormed⟩, hfits.accepts⟩

theorem replace_keeps {new : HeapM Value} (hh : h.WellFormed) (hv : v.WellFormed h)
    (hnew : new.Keeps h fun h' w => w.WellFormed h' ∧ (w.ty == v.ty) = true) (result : α) :
    (replace h v new result).Keeps h v.ty := by
  obtain ⟨hgrows, hw, hty⟩ := replace_spec hh ⟨hv, BEq.rfl⟩ hnew result
  exact ⟨⟨hgrows, hw⟩, hty⟩

end Edit

theorem Ty.fresh_fits {h : Heap} (hh : h.WellFormed) (t : Ty) :
    h.Grows (t.fresh h).2 ∧ (t.fresh h).1.Fits t (t.fresh h).2 := by
  cases t with
  | pointer e =>
    have hzero := e.zero_fits h
    exact ⟨hh.alloc hzero.wellFormed, hzero.pointer_alloc, Ty.accepts_self _⟩
  | _ => exact ⟨hh.grows, Ty.zero_fits h _⟩

theorem RecordOf.getElem?_of_fieldIndex? (r : RecordType) {name : String} {f : Field} {i : Nat}
    (hf : r.field? name = some f) (hi : r.fieldIndex? name = some i) : r.fields[i]? = some f := by
  rw [field?, List.find?_eq_bind_findIdx?_getElem?] at hf
  rw [fieldIndex?] at hi
  rwa [hi] at hf

theorem forall₂_getElem? {α β : Type} {R : α → β → Prop} {as : List α} {bs : List β} {i : Nat}
    {a : α} {b : β} (hR : List.Forall₂ R as bs) (ha : as[i]? = some a) (hb : bs[i]? = some b) :
    R a b := by
  induction hR generalizing i with
  | nil => cases ha
  | cons hab _ ih =>
    cases i with
    | zero =>
      cases ha
      cases hb
      exact hab
    | succ i => exact ih ha hb

theorem forall₂_set {α β : Type} {R : α → β → Prop} {as : List α} {bs : List β} {i : Nat} {a : α}
    {b : β} (hR : List.Forall₂ R as bs) (ha : as[i]? = some a) (hb : R a b) :
    List.Forall₂ R as (bs.set i b) := by
  induction hR generalizing i with
  | nil => exact .nil
  | cons hab habs ih =>
    cases i with
    | zero =>
      cases ha
      exact .cons hb habs
    | succ i => exact .cons hab (ih ha)

namespace Entries

variable {k e : Ty} {h : Heap} {entries : List (Key × Value)}

theorem WellFormed.erase (he : WellFormed k e h entries) (place : BareKey) :
    WellFormed k e h (Entries.erase place entries) where
  places := (List.filter_sublist.map _).nodup he.places
  keyTypes entry hentry := he.keyTypes entry (List.mem_of_mem_filter hentry)
  keys entry hentry := he.keys entry (List.mem_of_mem_filter hentry)
  values entry hentry := he.values entry (List.mem_of_mem_filter hentry)

theorem mem_of_find?_eq_some {place : BareKey} {v : Value}
    (hv : find? place entries = some v) : ∃ entry ∈ entries, entry.2 = v := by
  induction entries with
  | nil => cases hv
  | cons entry es ih =>
    rw [find?] at hv
    split at hv
    · exact ⟨entry, List.mem_cons_self, Option.some.inj hv⟩
    · obtain ⟨entry, hentry, heq⟩ := ih hv
      exact ⟨entry, List.mem_cons_of_mem _ hentry, heq⟩

end Entries

namespace Value

variable {α : Type} {h : Heap} {v dest : Value} {t : Ty}

/-! ### The base -/

section

variable {f : Heap → Value → Edit α}

theorem store_keeps {r : Edit α} (hr : r.Fits h t) :
    (changeNew.store t r).Keeps h (.pointer t) :=
  ⟨⟨hr.grows.trans (hr.grows.wellFormed.alloc hr.wellFormed), hr.value_fits.pointer_alloc⟩, BEq.rfl⟩

/-- A change behind new cells leaves a pointer. -/
theorem changeNew_keeps (hf : ∀ u, u.WellFormed h → (f h u).Keeps h u.ty) (e : Ty) :
    (changeNew f e h).Keeps h (.pointer e) := by
  have hzero {e : Ty} : (changeNew.store e (f h e.zero)).Keeps h (.pointer e) :=
    store_keeps ((hf _ (e.zero_fits h).wellFormed).fits (e.zero_fits h))
  match e with
  | .pointer e =>
    have hr := changeNew_keeps hf e
    exact store_keeps ⟨hr.toSound, .of_beq hr.ty_beq⟩
  | .invalid | .bool | .int _ | .uint _ | .float _ | .string | .list _ | .array _ _ | .map _ _
  | .record _ | .func | .any => exact hzero

/-- A step of a change of the base keeps the type if changes of cells leave later heaps. -/
theorem changeStep_keeps (hf : ∀ u, u.WellFormed h → (f h u).Keeps h u.ty)
    {enter : Addr → Heap → Heap × Except Error α} (henter : ∀ a < h.size, h.Grows (enter a h).1)
    {v : Value} (hv : v.WellFormed h) : (v.changeStep f enter h).Keeps h v.ty := by
  match v with
  | .slot v =>
    obtain ⟨filled, single, content⟩ := wellFormed_slot.mp hv
    have hr := changeStep_keeps hf henter content
    refine ⟨⟨hr.grows, .slot ?_ ?_ hr.wellFormed⟩, BEq.rfl⟩
    · exact fun hty => filled (Ty.eq_invalid_of_beq (hty ▸ BEq.symm hr.ty_beq))
    · exact fun hty => single (Ty.eq_any_of_beq (hty ▸ BEq.symm hr.ty_beq))
  | .pointer e none => exact changeNew_keeps hf e
  | .pointer e (some a) =>
    have hgrows := henter a (wellFormed_pointer.mp hv).1
    exact ⟨⟨hgrows, hv.mono hgrows.toExtends⟩, BEq.rfl⟩
  | .invalid | .bool _ | .int _ _ | .uint _ _ | .float _ _ | .string _ | .list _ _ | .array _ _
  | .map _ _ _ | .record _ _ | .func _ | .emptySlot => exact hf _ hv

/-- A change of the base keeps the type of the destination if it keeps that of the base. -/
theorem change_keeps (hh : h.WellFormed) (hv : v.WellFormed h)
    (hf : ∀ u, u.WellFormed h → (f h u).Keeps h u.ty) : (v.change h f).Keeps h v.ty := by
  suffices ∀ n, (changeWithin f n v h).Keeps h v.ty from this h.size
  intro n
  induction n generalizing v with
  | zero => exact changeStep_keeps hf (fun _ _ => hh.grows) hv
  | succ n ih =>
    refine changeStep_keeps hf (fun a ha => ?_) hv
    have hcell := ih (hh a ha)
    refine hcell.grows.trans (hcell.grows.wellFormed.set hcell.wellFormed ?_)
    exact BEq.trans hcell.ty_beq (BEq.symm (hcell.grows.ty_beq a ha))

end

/-! ### Parts -/

theorem assignAs_fits (hh : h.WellFormed) (hdest : dest.Fits t h) (hv : v.WellFormed h) :
    (dest.assignAs t v h).Fits h t :=
  Edit.replace_fits hh hdest (t.assign_keeps hh hv) _

/-- A destination that is assigned to may hold what it gets. -/
theorem assign_fits (hh : h.WellFormed) (hdest : dest.WellFormed h) (hv : v.WellFormed h) :
    (dest.assign v h).Fits h dest.ty := by
  rw [assign]
  split
  · exact (Edit.keep_keeps hh hdest _).fits hdest.fits_ty
  · exact assignAs_fits hh hdest.fits_ty hv

/-- Appending keeps a list well-formed. It makes an array longer, which changes its type. -/
theorem push_sound (hh : h.WellFormed) (hdest : dest.WellFormed h) (hv : v.WellFormed h) :
    (dest.push v h).Sound h := by
  have hpush {e : Ty} {items : List Value} (hitems : ∀ w ∈ items, w.Fits e h)
      {whole : List Value → Value}
      (hwhole : ∀ h' ws, (∀ w ∈ ws, w.Fits e h') → (whole ws).WellFormed h') :
      (Edit.replace h (whole items) (return whole (items ++ [← e.coerce v])) ()).Sound h := by
    have hnew := (e.coerce_keeps hh hv).bind (f := fun w => return whole (items ++ [w]))
      fun w h' hgrows hw => .pure hgrows.wellFormed (hwhole h' _ fun u hu => by
        rcases List.mem_append.mp hu with hu | hu
        · exact (hitems u hu).mono hgrows.toExtends
        · rw [List.mem_singleton.mp hu]
          exact hw)
    obtain ⟨hgrows, hwf⟩ := Edit.replace_spec hh (hwhole h items hitems) hnew ()
    exact ⟨hgrows, hwf⟩
  cases dest with
  | list e items => exact hpush (wellFormed_list.mp hdest) fun _ _ => wellFormed_list.mpr
  | array e items => exact hpush (wellFormed_array.mp hdest) fun _ _ => wellFormed_array.mpr
  | _ => exact (Edit.keep_keeps hh hdest _).toSound

/-- Storing an entry keeps a map well-formed. -/
theorem insert_keeps {k : Value} (hh : h.WellFormed) (hdest : dest.WellFormed h)
    (hk : k.WellFormed h) (hv : v.WellFormed h) : (dest.insert k v h).Keeps h dest.ty := by
  cases dest with
  | map kt vt entries =>
    refine Edit.replace_keeps hh hdest ?_ ()
    refine (Entries.insert_keeps hh (wellFormed_map.mp hdest) hk hv).bind fun es h' hgrows hes => ?_
    exact .pure hgrows.wellFormed ⟨wellFormed_map.mpr hes, BEq.rfl⟩
  | _ => exact Edit.keep_keeps hh hdest _

/-- Removing an entry keeps a map well-formed, and what is removed is well-formed. -/
theorem remove_keeps {k : Value} (hh : h.WellFormed) (hdest : dest.WellFormed h) :
    (dest.remove k h).Keeps h dest.ty ∧
      ∀ w, (dest.remove k h).result = .ok (some w) → w.WellFormed h := by
  cases dest with
  | map kt vt entries =>
    have hentries := wellFormed_map.mp hdest
    rw [remove]
    split
    · refine ⟨⟨⟨hh.grows, wellFormed_map.mpr (hentries.erase _)⟩, BEq.rfl⟩, fun w hw => ?_⟩
      obtain ⟨entry, hentry, rfl⟩ := Entries.mem_of_find?_eq_some (Except.ok.inj hw)
      exact (hentries.values entry hentry).wellFormed
    · exact ⟨Edit.keep_keeps hh hdest _, nofun⟩
  | _ => exact ⟨Edit.keep_keeps hh hdest _, nofun⟩

/-- Assigning to a field keeps a record well-formed. -/
theorem setField_keeps {name : String} (hh : h.WellFormed) (hdest : dest.WellFormed h)
    (hv : v.WellFormed h) : (dest.setField name v h).Keeps h dest.ty := by
  cases dest with
  | record r fields =>
    rw [setField]
    split
    · next f i hf hi =>
      refine Edit.replace_keeps hh hdest ?_ ()
      refine (f.ty.coerce_keeps hh hv).bind fun w h' hgrows hw => ?_
      have hfields := wellFormed_record.mp (hdest.mono hgrows.toExtends)
      exact .pure hgrows.wellFormed
        ⟨wellFormed_record.mpr (forall₂_set hfields (r.getElem?_of_fieldIndex? hf hi) hw), BEq.rfl⟩
    · exact Edit.keep_keeps hh hdest _
  | _ => exact Edit.keep_keeps hh hdest _

end Value

end DynamicEval
