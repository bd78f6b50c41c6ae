import DynamicEval.Proofs.Edit
import DynamicEval.Proofs.Path.Slot

/-!
# What a write along a path leaves alone

A write along a path changes no cell but those behind its destination, and it keeps the type of the
destination. What it makes for a missing key is new: only new cells are behind it.

## Main results

* `Ty.vivify_reaches`, `Ty.vivify_acyclic`: what is made for a missing key.
* `Value.setIn_sameShape`: a write below a destination keeps its shape.
* `Value.setIn_confined`: a write stays behind its destination.
* `Value.set_eq_setIn`: a write goes into a destination with parts.
-/

namespace DynamicEval

/-! ### What is made for a missing key -/

namespace Ty

variable {h : Heap} {a : Addr}

theorem fresh_appends (t : Ty) (h : Heap) : h.Appends (t.fresh h).2 := by
  cases t with
  | pointer e => exact .alloc h e.zero
  | _ => exact .refl h

theorem fresh_reaches {t : Ty} (hr : (t.fresh h).2.Reaches (t.fresh h).1 a) : h.size ≤ a := by
  cases t with
  | pointer e =>
    rcases hr with hp | ⟨hp, hr⟩
    · cases hp
      exact Nat.le_refl _
    · cases hp
      rw [fresh, Heap.get_alloc_size] at hr
      exact absurd hr (e.not_reaches_zero _ a)
  | _ => exact absurd hr (Ty.not_reaches_zero _ _ a)

theorem fresh_acyclic (hh : h.Bounded) (hacyclic : h.Acyclic) (t : Ty) :
    (t.fresh h).2.Acyclic := by
  cases t with
  | pointer e => exact hacyclic.alloc hh (e.zero_fits h).wellFormed.bounded
  | _ => exact hacyclic

theorem vivify_appends (e : Ty) (segment : Value) (h : Heap) :
    h.Appends (e.vivify segment h).2 := by
  cases e with
  | any => exact .refl h
  | _ => exact fresh_appends _ h

/-- Only new cells are behind what is made for a missing key. -/
theorem vivify_reaches {e : Ty} {segment : Value}
    (hr : (e.vivify segment h).2.Reaches (e.vivify segment h).1 a) : h.size ≤ a := by
  cases e with
  | any =>
    rcases hr with hp | ⟨hp, -⟩
    all_goals
      cases hp with
      | slot hp =>
        cases hp with
        | map hentry => cases hentry
  | _ => exact fresh_reaches hr

theorem vivify_acyclic (hh : h.Bounded) (hacyclic : h.Acyclic) (e : Ty) (segment : Value) :
    (e.vivify segment h).2.Acyclic := by
  cases e with
  | any => exact hacyclic
  | _ => exact fresh_acyclic hh hacyclic _

theorem vivify_shape {e : Ty} {segment : Value} (hty : (e.vivify segment h).1.ty = .any) :
    (e.vivify segment h).1.peel.ty ≠ .invalid ∧ (e.vivify segment h).1.peel.ty ≠ .any := by
  cases e with
  | any => exact ⟨nofun, nofun⟩
  | _ => cases hty

end Ty

/-! ### Writes at segments -/

namespace Value

variable {h h' : Heap} {v dest key base : Value} {t k e : Ty} {path : List Value}
  {es : List (Key × Value)}

theorem insertEntry_appends (k e : Ty) (es : List (Key × Value)) (key v : Value) :
    (do return map k e (← Entries.insert k e es key v) : HeapM Value).Appends
      fun w => w.SameShape (map k e es) :=
  (Entries.insert_appends k e es key v).bind fun _ _ => .pure ⟨rfl, rfl⟩

theorem insertMade_appends (k e : Ty) (es : List (Key × Value)) (key : Value) (made : Edit Bool) :
    made.heap.Appends (insertMade k e es key made).heap ∧
      (insertMade k e es key made).value.SameShape (map k e es) := by
  rw [insertMade]
  split
  · exact ⟨.refl _, .refl _⟩
  · have hnew := insertEntry_appends k e es key made.value
    exact ⟨Edit.replace_appends hnew _ _ _, Edit.replace_value hnew (.refl _) _⟩

theorem Selects.sameShape {p : Place} (hp : key.Selects h base p) (w : Value) :
    (p.put w).SameShape base := by
  cases hp with
  | @arrayItem e items i =>
    have hty : (array e (items.set i w)).ty = (array e items).ty := by
      rw [ty, ty, List.length_set]
    exact ⟨hty, hty⟩
  | _ => exact ⟨rfl, rfl⟩

theorem setPart_sameShape (v key : Value) (path : List Value) (h : Heap) (base : Value) :
    (setPart v key path h base).value.SameShape base := by
  unfold setPart
  split
  · exact Edit.replace_value (insertEntry_appends _ _ _ key v) (.refl _) _
  · split
    · next p hp => exact (place?_eq_some.mp hp).sameShape _
    · unfold setMissing
      split
      · exact (insertMade_appends _ _ _ key _).2
      · exact .refl _

/-- A write below a destination keeps its shape. -/
theorem setIn_sameShape (hne : path ≠ []) : (setIn v path t dest h).value.SameShape dest := by
  obtain ⟨key, path, rfl⟩ := List.exists_cons_of_ne_nil hne
  by_cases hempty : dest = emptySlot
  · cases hempty
    exact .refl _
  · rw [setIn_cons hempty]
    exact change_sameShape (setPart_sameShape v key path h) dest

section

variable
  (hrest : ∀ (h : Heap) (t : Ty) (dest : Value), h.Confined dest (setIn v path t dest h).heap)

include hrest

/-- A write at a segment that selects no place adds cells only. -/
theorem setMissing_appends : h.Appends (setMissing v key path h base).heap := by
  unfold setMissing
  split
  · next k e entries segment path =>
    have hold := (hrest _ e _).appends (e.vivify_appends segment h) fun a => Ty.vivify_reaches
    exact hold.trans (insertMade_appends k e entries key _).1
  · exact .refl h

theorem setPart_confined : h.Confined base (setPart v key path h base).heap := by
  unfold setPart
  split
  · exact (Edit.replace_appends (insertEntry_appends _ _ _ key v) _ _ _).sameOn _
  · split
    · next p hp =>
      refine (hrest h p.ty p.content).mono fun a hna hr => hna ?_
      exact hr.of_points fun b hb => (place?_eq_some.mp hp).points hb
    · exact (setMissing_appends hrest).sameOn _

end

/-- A write along a path stays behind its destination. -/
theorem setIn_confined : h.Confined dest (setIn v path t dest h).heap := by
  induction path generalizing t dest h with
  | nil => exact (Edit.replace_appends (t.assign_appends v) h dest _).sameOn _
  | cons key path ih =>
    by_cases hempty : dest = emptySlot
    · cases hempty
      exact .refl h _
    rw [setIn_cons hempty]
    exact change_confined fun u _ => setPart_confined fun _ _ _ => ih

/-- A write at a segment loses no cell. -/
theorem size_le_setPart (v key : Value) (path : List Value) (h : Heap) (base : Value) :
    h.size ≤ (setPart v key path h base).heap.size :=
  (setPart_confined fun _ _ _ => setIn_confined).size_le

/-- A write at a path that is not empty goes into a destination with parts. -/
theorem set_eq_setIn (hne : path ≠ []) (hbasic : dest.isBasic h = false) :
    dest.set v path h = setIn v path dest.ty dest h := by
  have hvalid : ¬dest.isInvalid = true := by
    intro hinvalid
    cases dest with
    | invalid =>
      have hty : invalid.baseTy h = .invalid := Heap.follow_eq_of_step fun _ => rfl
      rw [isBasic, baseKind, hty] at hbasic
      cases hbasic
    | _ => cases hinvalid
  rw [set, if_neg hvalid, hbasic, List.isEmpty_eq_false_iff.mpr hne]
  rfl

end Value

end DynamicEval
