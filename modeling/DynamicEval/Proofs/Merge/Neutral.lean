import DynamicEval.Proofs.Merge

/-!
# Zeros never overwrite

A merge asks whether what it is about to store is zero, and a zero is not stored. So a source that
is zero leaves a destination of its type as it is, whatever that holds: the loops over items, fields
and entries have nothing to do, and no cell is made or changed.

## Main results

* `Value.mergeStep_of_isZero`: a step of a merge of a zero changes nothing.
* `Value.merge_of_isZero`: nor does a merge of a zero of a type into a destination of the type.
-/

namespace DynamicEval.Value

variable {h : Heap} {t e : Ty} {v dest source : Value} {done items vs : List Value}

theorem isZero_peel (hv : v.isZero = true) : v.peel.isZero = true := by
  cases v <;> first | exact hv | rfl | cases hv

theorem mergeIntoArray_of_allZero (hvs : allZero vs = true) :
    mergeIntoArray e done items vs h = ⟨h, array e (done ++ items), .ok ()⟩ := by
  induction vs generalizing done items with
  | nil => cases items <;> rfl
  | cons v vs ih =>
    obtain ⟨hv, hvs⟩ := Bool.and_eq_true_iff.mp hvs
    cases items with
    | nil => rfl
    | cons item items =>
      rw [mergeIntoArray, if_pos (isZero_peel hv), ih hvs, List.append_assoc]
      rfl

theorem mergeFieldsStep_of_allZero {enter : Addr → Value → Heap → Edit Unit}
    (hvs : allZero vs = true) (fs : List Field) (ws : List Value) (h : Heap) :
    mergeFieldsStep enter vs fs ws h = (h, ws, .ok ()) := by
  induction vs generalizing fs ws with
  | nil => rfl
  | cons v vs ih =>
    obtain ⟨hv, hvs⟩ := Bool.and_eq_true_iff.mp hvs
    match fs, ws with
    | [], _ | _ :: _, [] => rfl
    | f :: fs, w :: ws => rw [mergeFieldsStep, hv, Bool.or_true, if_pos rfl, ih hvs]

/-- A zero is merged into a value of its type without a change, and nothing into any value. -/
theorem mergeStep_of_isZero (enter : Addr → Value → Heap → Edit Unit)
    (hzero : source.isZero = true)
    (hty : source.isNil = true ∨ (dest.ty == source.ty) = true) :
    source.mergeStep enter dest h = ⟨h, dest, .ok ()⟩ := by
  by_cases hnil : source.isNil = true
  · cases source with
    | invalid | emptySlot => rfl
    | pointer e cell =>
      cases cell with
      | none => rfl
      | some a => cases hzero
    | _ => cases hnil
  replace hty := hty.resolve_left hnil
  have hinto {f : Heap → Value → Edit Unit} (hsource : source.IsBase) (hne : source ≠ .invalid) :
      intoBase source dest h f = f h dest :=
    intoBase_of_isBase (hsource.of_ty_beq hty) (ne_invalid_of_ty_beq hne hty)
  cases source with
  | invalid | emptySlot => exact absurd rfl hnil
  | pointer e cell => cases cell <;> first | cases hzero; done | exact absurd rfl hnil
  | slot => cases hzero
  | list e vs =>
    obtain ⟨e', items, rfl⟩ := exists_list_of_ty_beq hty
    obtain rfl := List.isEmpty_iff.mp hzero
    exact hinto ⟨rfl, rfl⟩ nofun
  | array e vs =>
    obtain ⟨e', items, rfl⟩ := exists_array_of_ty_beq hty
    exact (hinto ⟨rfl, rfl⟩ nofun).trans (mergeIntoArray_of_allZero hzero)
  | record r vs =>
    obtain ⟨r', fields, rfl⟩ := exists_record_of_ty_beq hty
    refine (hinto ⟨rfl, rfl⟩ nofun).trans ((if_pos hty).trans ?_)
    rw [mergeFieldsStep_of_allZero hzero]
  | map k e vs =>
    obtain ⟨k', e', entries, rfl⟩ := exists_map_of_ty_beq hty
    obtain rfl := List.isEmpty_iff.mp hzero
    exact (hinto ⟨rfl, rfl⟩ nofun).trans (if_pos hty)
  | bool | int | uint | float | string | func =>
    refine (hinto ⟨rfl, rfl⟩ nofun).trans ((if_pos hty).trans ?_)
    rw [if_pos hzero]
    rfl

/-- A zero of a type is nothing or has the type of every value that a destination of the type may
hold. -/
theorem Fits.isNil_or_ty_beq (hdest : dest.Fits t h) (hsource : source.Fits t h)
    (ht : t ≠ .invalid) (hzero : source.isZero = true) :
    source.isNil = true ∨ (dest.ty == source.ty) = true := by
  by_cases hs : source.ty = .invalid
  · exact .inl (by rw [eq_invalid_of_ty hs]; rfl)
  have hbeq := hsource.accepts.beq ht hs
  by_cases hd : dest.ty = .invalid
  · -- Only a destination for callables holds nothing, and a callable is never zero.
    cases t with
    | invalid => exact absurd rfl ht
    | func =>
      cases source with
      | func => cases hzero
      | _ => cases hbeq
    | _ => cases hd ▸ hdest.accepts
  · exact .inr (BEq.trans (BEq.symm (hdest.accepts.beq ht hd)) hbeq)

/-- A merge of a zero of a type into a destination of the type succeeds and changes nothing. -/
theorem merge_of_isZero (hdest : dest.Fits t h) (hsource : source.Fits t h) (ht : t ≠ .invalid)
    (hzero : source.isZero = true) : dest.merge source h = ⟨h, dest, .ok ()⟩ :=
  merge_of_mergeStep fun enter =>
    mergeStep_of_isZero enter hzero (hdest.isNil_or_ty_beq hsource ht hzero)

end DynamicEval.Value
