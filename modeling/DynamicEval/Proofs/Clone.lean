import DynamicEval.Proofs.Alike.Copy
import DynamicEval.Proofs.Path.ReadBack

/-!
# Clones

A clone puts a deep copy of the base of a value into a destination, which is reset before. Between
values of one type this works where the reset destination is a slot, and where the type without its
pointers is the type of its zero. It does not for callables, nor for pointers to callables, to slots
or to nothing in particular: their zero is nothing, or an empty slot, which no base is of the type
of. No cell that was there is changed by a clone, not even the one the destination pointed to.

## Main definitions

* `Ty.TakesClone`: whether a reset destination of a type takes the clone of a value of the type.
* `Edit.Clones`: what a clone leaves behind that succeeds.

## Main results

* `Value.cloneFrom_of_ty_beq`: a clone between values of one type succeeds if the type takes it, and
  then the base is a deep copy, up to the identity of cells.
-/

namespace DynamicEval

/-- Whether the zero of a type without pointers is a base of that type. The zero of slots is empty,
that of callables is nothing, and so is what a missing type starts with. -/
def Ty.HasZeroBase (t : Ty) : Prop := t ≠ .any ∧ t ≠ .func ∧ t ≠ .invalid

/-- Whether a reset destination of a type takes the clone of a value of the type: it is a slot, or
it has a base of the declared type. -/
def Ty.TakesClone (t : Ty) : Prop := t = .any ∨ t.stripPointers.HasZeroBase

/-- What a clone of a base into a destination of a type leaves behind that succeeds on a heap. -/
structure Edit.Clones (r : Edit Unit) (h : Heap) (t : Ty) (base : Value) : Prop where
  /-- A clone of nothing leaves the destination reset. -/
  reset : base.isNil = true → (r.value, r.heap) = t.fresh h
  /-- Otherwise the new base is a deep copy, up to the identity of new cells. -/
  copy : base.isNil = false → ∃ cells,
    Pairing cells h.size (base.deepCopy h).1.size h.size r.heap.size ∧
      (base.deepCopy h).2.Same cells (base.deepCopy h).1 r.heap (r.value.base r.heap)

/-! ### Reset destinations -/

namespace Ty

variable {α : Type} {h : Heap} {t u : Ty} {f : Heap → Value → Edit α}

theorem HasZeroBase.beq (ht : t.HasZeroBase) (hu : t.Accepts u) : (u == t) = true := by
  cases t with
  | any => exact absurd rfl ht.1
  | func => exact absurd rfl ht.2.1
  | invalid => exact absurd rfl ht.2.2
  | _ => exact hu

theorem HasZeroBase.ty_zero (ht : t.HasZeroBase) : t.zero.ty = t := by
  cases t with
  | func => exact absurd rfl ht.2.1
  | array e n => rw [zero, Value.ty, List.length_replicate]
  | _ => rfl

theorem ty_zero_of_not_hasZeroBase (ht : ¬t.HasZeroBase) :
    t.zero.ty = .any ∨ t.zero.ty = .invalid := by
  cases t with
  | any => exact .inl rfl
  | func | invalid => exact .inr rfl
  | _ => exact absurd ⟨nofun, nofun, nofun⟩ ht

theorem isSlot_fresh (t : Ty) (h : Heap) : (t.fresh h).1.isSlot = true ↔ t = .any := by
  cases t <;> simp [fresh, zero, Value.isSlot]

theorem result_changeNew (f : Heap → Value → Edit α) (t : Ty) (h : Heap) :
    (Value.changeNew f t h).result = (f h t.stripPointers.zero).result := by
  match t with
  | .pointer e => exact result_changeNew f e h
  | .invalid | .bool | .int _ | .uint _ | .float _ | .string | .list _ | .array _ _ | .map _ _
  | .record _ | .func | .any => rfl

theorem result_changeWithin_zero (f : Heap → Value → Edit α) (n : Nat) (t : Ty) (h : Heap) :
    (Value.changeWithin f n t.zero h).result = (f h t.stripPointers.zero).result := by
  cases t with
  | pointer e => cases n <;> exact result_changeNew f e h
  | _ => cases n <;> rfl

/-- A change of a reset destination has the result of the change of the zero behind its pointers. -/
theorem result_change_fresh (f : Heap → Value → Edit α) (t : Ty) (h : Heap) :
    ((t.fresh h).1.change (t.fresh h).2 f).result =
      (f (t.fresh h).2 t.stripPointers.zero).result := by
  cases t with
  | pointer e =>
    have hcell := result_changeWithin_zero f h.size e (h.alloc e.zero).1
    rw [fresh, Value.change, Heap.size_alloc]
    show (Value.changeWithin f h.size ((h.alloc e.zero).1.get h.size) _).result = _
    rw [Heap.get_alloc_size, hcell]
    rfl
  | _ => exact result_changeWithin_zero f h.size _ h

end Ty

/-! ### Bases of one type -/

/-- Behind the pointers of a type is a base of the type without them, if its zero is one. -/
theorem Heap.Leads.ty_beq {h : Heap} {v u : Value} {as : List Addr} {t : Ty} (hv : h.Leads v as u)
    (hh : h.WellFormed) (hwf : v.WellFormed h) (hty : (v.ty == t) = true)
    (ht : t.stripPointers.HasZeroBase) : (u.ty == t.stripPointers) = true := by
  induction hv generalizing t with
  | @base u hu =>
    cases t with
    | pointer e =>
      cases u with
      | pointer => cases hu.1
      | _ => cases hty
    | _ => exact hty
  | slot =>
    cases Ty.eq_any_of_beq (BEq.symm hty)
    exact absurd rfl ht.1
  | @pointer e a _ _ ha _ ih =>
    cases t with
    | pointer e' =>
      have haccepts := (Value.wellFormed_pointer.mp hwf).2.congr_left hty
      have he : e'.HasZeroBase := by
        refine ⟨?_, ?_, ?_⟩ <;> rintro rfl
        · exact ht.1 rfl
        · exact ht.2.1 rfl
        · exact ht.2.2 rfl
      exact ih (t := e') (hh a ha) (he.beq haccepts) ht
    | _ => cases hty

namespace Value

variable {h : Heap} {dest v : Value}

/-- What a clone does to the base of a reset destination. -/
def putCopy (source : Value) (h : Heap) (target : Value) : Edit Unit :=
  if target.ty == source.ty then
    ⟨(source.deepCopy h).1, (source.deepCopy h).2, return ()⟩
  else
    Edit.keep h target (throw (.cannotClone source.typeName target.typeName))

theorem base_fresh (hh : h.Orderly) (hv : v.WellFormed h) (t : Ty) :
    v.base (t.fresh h).2 = v.base h :=
  ((Ty.fresh_appends t h).agrees hh.bounded hv.bounded).follow_eq (hh.acyclic.behind v) hh.bounded
    hv.bounded baseStep_isLocal

theorem cloneFrom_of_isNil (hh : h.Orderly) (hv : v.WellFormed h) (hdest : dest.ty ≠ .invalid)
    (hnil : (v.base h).isNil = true) :
    dest.cloneFrom v h = ⟨(dest.ty.fresh h).2, (dest.ty.fresh h).1, .ok ()⟩ := by
  have hinvalid : dest.isInvalid = false := Bool.eq_false_iff.mpr (mt isInvalid_iff.mp hdest)
  rw [cloneFrom, hinvalid, if_neg Bool.false_ne_true]
  dsimp only
  rw [base_fresh hh hv, if_pos hnil]
  rfl

theorem cloneFrom_of_any (hdest : dest.ty = .any) (hnil : (v.base h).isNil = false) :
    dest.cloneFrom v h =
      ⟨((v.base h).deepCopy h).1, ((v.base h).deepCopy h).2.boxed, .ok ()⟩ := by
  have hinvalid : dest.isInvalid = false := by
    cases dest <;> first | rfl | cases hdest
  rw [cloneFrom, hinvalid, if_neg Bool.false_ne_true, hdest]
  dsimp only [Ty.fresh, Ty.zero]
  rw [hnil, if_neg Bool.false_ne_true]
  rfl

theorem cloneFrom_of_ne_any (hh : h.Orderly) (hv : v.WellFormed h) (hdest : dest.ty ≠ .invalid)
    (hany : dest.ty ≠ .any) (hnil : (v.base h).isNil = false) :
    dest.cloneFrom v h = (dest.ty.fresh h).1.change (dest.ty.fresh h).2 (v.base h).putCopy := by
  have hinvalid : dest.isInvalid = false := Bool.eq_false_iff.mpr (mt isInvalid_iff.mp hdest)
  have hslot : (dest.ty.fresh h).1.isSlot = false :=
    Bool.eq_false_iff.mpr (mt (Ty.isSlot_fresh _ h).mp hany)
  rw [cloneFrom, hinvalid, if_neg Bool.false_ne_true]
  dsimp only
  rw [base_fresh hh hv, hnil, if_neg Bool.false_ne_true, hslot, if_neg Bool.false_ne_true]
  rfl

/-- A clone between values of one type that are there succeeds if the type takes it. -/
theorem result_cloneFrom (hh : h.Orderly) (hv : v.WellFormed h) (hdest : dest.ty ≠ .invalid)
    (hty : (dest.ty == v.ty) = true) (hnil : (v.base h).isNil = false) :
    (dest.cloneFrom v h).result = .ok () ↔ dest.ty.TakesClone := by
  have hne : v.base h ≠ .invalid := fun heq => by
    rw [heq] at hnil
    cases hnil
  obtain ⟨as, has⟩ := Heap.exists_leads hne
  by_cases hany : dest.ty = .any
  · rw [cloneFrom_of_any hany hnil]
    exact ⟨fun _ => .inl hany, fun _ => rfl⟩
  rw [cloneFrom_of_ne_any hh hv hdest hany hnil, Ty.result_change_fresh, putCopy]
  by_cases hbase : dest.ty.stripPointers.HasZeroBase
  · have hbeq := has.ty_beq hh.wellFormed hv (BEq.symm hty) hbase
    rw [hbase.ty_zero, BEq.symm hbeq, if_pos rfl]
    exact ⟨fun _ => .inr hbase, fun _ => rfl⟩
  · have hbeq : (dest.ty.stripPointers.zero.ty == (v.base h).ty) = false := by
      refine Bool.eq_false_iff.mpr fun hbeq => ?_
      rcases Ty.ty_zero_of_not_hasZeroBase hbase with hzero | hzero <;> rw [hzero] at hbeq
      · exact absurd (isSlot_iff.mpr (Ty.eq_any_of_beq (BEq.symm hbeq)))
          (Bool.eq_false_iff.mp has.isBase.2)
      · exact hne (eq_invalid_of_ty (Ty.eq_invalid_of_beq (BEq.symm hbeq)))
    rw [hbeq, if_neg Bool.false_ne_true]
    exact ⟨nofun, fun htakes => absurd htakes (not_or.mpr ⟨hany, hbase⟩)⟩

end Value

/-! ### Clones are copies -/

theorem Pairing.mono {cells : Addr → Addr → Prop} {n m n' m' k l k' l' : Addr}
    (hcells : Pairing cells n m n' m') (hk : k ≤ n) (hl : m ≤ l) (hk' : k' ≤ n') (hl' : m' ≤ l') :
    Pairing cells k l k' l' where
  unique := hcells.unique
  left a b hab :=
    ⟨Nat.le_trans hk (hcells.left a b hab).1, Nat.lt_of_lt_of_le (hcells.left a b hab).2 hl⟩
  right a b hab :=
    ⟨Nat.le_trans hk' (hcells.right a b hab).1, Nat.lt_of_lt_of_le (hcells.right a b hab).2 hl'⟩

/-- A copy of a base is one. -/
theorem Copies.isBase {h k : Heap} {v w : Value} {n m : Addr} (hw : Copies h k v w n m)
    (hv : v.IsBase) : w.IsBase := by
  cases hw with
  | atom => exact hv
  | slot => cases hv.2
  | pointer => cases hv.1
  | _ => exact ⟨rfl, rfl⟩

namespace Value

variable {h k : Heap} {dest v w : Value} {n m : Addr}

/-- A deep copy that is made after cells were added is a copy. -/
theorem deepCopy_copying_of_appends (hh : h.Orderly) (hk : h.Appends k) (hv : v.WellFormed h) :
    Copying h k v (v.deepCopy k) :=
  copyWithin_copying hh.wellFormed hk hv fun _ has =>
    Nat.le_trans ((hh.acyclic.behind v).length_le hh.bounded hv.bounded has) hk.size_le

/-- Any copy with new cells is the same as the deep copy. -/
theorem exists_same_of_copies (hh : h.Orderly) (hv : v.WellFormed h) (hw : Copies h k v w n m)
    (hn : h.size ≤ n) (hm : m ≤ k.size) :
    ∃ cells, Pairing cells h.size (v.deepCopy h).1.size h.size k.size ∧
      (v.deepCopy h).2.Same cells (v.deepCopy h).1 k w := by
  have hself : v.Alike (·.exported) Eq h h v :=
    .refl hh.wellFormed (hh.acyclic.behind v) hv fun _ => rfl
  have hcopy := deepCopy_copying_of_appends hh (.refl h) hv
  obtain ⟨cells, hcells, hsame⟩ := hself.sameCopies hh.wellFormed hv hcopy.copies hw
  exact ⟨cells, hcells.mono (Nat.le_refl _) (Nat.le_refl _) hn hm, hsame⟩

theorem putCopy_of_ok {target : Value} (hok : (v.putCopy h target).result = .ok ()) :
    v.putCopy h target = ⟨(v.deepCopy h).1, (v.deepCopy h).2, .ok ()⟩ := by
  rw [putCopy] at hok ⊢
  split at hok
  · next hty => rw [if_pos hty]; rfl
  · cases hok

theorem putCopy_appends (hh : h.Orderly) (hv : v.WellFormed h) (hk : h.Appends k) (target : Value) :
    k.Appends (v.putCopy k target).heap := by
  rw [putCopy]
  split
  · exact (deepCopy_copying_of_appends hh hk hv).appends
  · exact .refl k

theorem cloneFrom_appends (hh : h.Orderly) (hv : v.WellFormed h) (dest : Value) :
    h.Appends (dest.cloneFrom v h).heap := by
  have hb := hv.base hh.wellFormed
  by_cases hdest : dest.ty = .invalid
  · rw [cloneFrom, if_pos (isInvalid_iff.mpr hdest)]
    exact .refl h
  cases hnil : (v.base h).isNil with
  | true =>
    rw [cloneFrom_of_isNil hh hv hdest hnil]
    exact Ty.fresh_appends _ h
  | false =>
    by_cases hany : dest.ty = .any
    · rw [cloneFrom_of_any hany hnil]
      exact (deepCopy_copying_of_appends hh (.refl h) hb).appends
    · rw [cloneFrom_of_ne_any hh hv hdest hany hnil]
      have hfresh := Ty.fresh_appends dest.ty h
      refine (change_confined fun u _ => ?_).appends hfresh fun a ha => Ty.fresh_reaches ha
      exact (putCopy_appends hh hb hfresh u).sameOn _

theorem cloneFrom_copies (hh : h.Orderly) (hv : v.WellFormed h) (hdest : dest.ty ≠ .invalid)
    (hnil : (v.base h).isNil = false) (hok : (dest.cloneFrom v h).result = .ok ()) :
    ∃ n m, h.size ≤ n ∧ m ≤ (dest.cloneFrom v h).heap.size ∧
      Copies h (dest.cloneFrom v h).heap (v.base h)
        ((dest.cloneFrom v h).value.base (dest.cloneFrom v h).heap) n m := by
  have hb := hv.base hh.wellFormed
  have hne : v.base h ≠ .invalid := fun heq => by
    rw [heq] at hnil
    cases hnil
  obtain ⟨as, has⟩ := Heap.exists_leads hne
  by_cases hany : dest.ty = .any
  · have hcopy := deepCopy_copying_of_appends hh (.refl h) hb
    have hfilled : ((v.base h).deepCopy h).2.ty ≠ .invalid := by
      rw [hcopy.copies.ty_eq]
      exact fun heq => hne (eq_invalid_of_ty heq)
    have hbase := hcopy.copies.isBase has.isBase
    have hsingle := mt isSlot_iff.mpr (Bool.eq_false_iff.mp hbase.2)
    rw [cloneFrom_of_any hany hnil]
    refine ⟨_, _, Nat.le_refl _, Nat.le_refl _, ?_⟩
    dsimp only
    rw [boxed_eq_slot hfilled hsingle, (Heap.Leads.base hbase).slot.base_eq]
    exact hcopy.copies
  · have hfresh := Ty.fresh_appends dest.ty h
    have hcopy := deepCopy_copying_of_appends hh hfresh hb
    obtain ⟨hgrows, hnew⟩ := dest.ty.fresh_fits hh.wellFormed
    have hacyclic := Ty.fresh_acyclic hh.bounded hh.acyclic dest.ty
    rw [cloneFrom_of_ne_any hh hv hdest hany hnil] at hok ⊢
    obtain ⟨u, -, hr⟩ := change_carries hgrows.wellFormed hacyclic hnew.wellFormed
      (fun u _ => (putCopy_appends hh hb hfresh u).size_le) hok
    rw [putCopy_of_ok (hr.result_eq ▸ hok)] at hr
    obtain ⟨bs, hbs⟩ := hr.leads (hcopy.copies.isBase has.isBase) (.refl _ _)
    refine ⟨_, _, hfresh.size_le, hr.sameOn.size_le, ?_⟩
    rw [hbs.base_eq]
    -- The change of the base writes back only cells that the reset destination points to.
    exact hcopy.copies.congr fun a hn hm => hr.sameOn.get_eq a hm (.inl hn)

/-- **Clones between equal types.** A clone changes no cell that was there. Between values of one
type it succeeds if there is nothing to copy or the type takes the clone, and then the destination
is reset, or its base is the deep copy of the base of the source, up to the identity of cells. -/
theorem cloneFrom_of_ty_beq (hh : h.Orderly) (hv : v.WellFormed h) (hdest : dest.ty ≠ .invalid)
    (hty : (dest.ty == v.ty) = true) :
    h.Appends (dest.cloneFrom v h).heap ∧
    ((dest.cloneFrom v h).result = .ok () ↔
      (v.base h).isNil = true ∨ dest.ty.TakesClone) ∧
    ((dest.cloneFrom v h).result = .ok () →
      (dest.cloneFrom v h).Clones h dest.ty (v.base h)) := by
  refine ⟨cloneFrom_appends hh hv dest, ?_, fun hok => ⟨fun hnil => ?_, fun hnil => ?_⟩⟩
  · cases hnil : (v.base h).isNil with
    | true =>
      rw [cloneFrom_of_isNil hh hv hdest hnil]
      exact ⟨fun _ => .inl rfl, fun _ => rfl⟩
    | false =>
      rw [result_cloneFrom hh hv hdest hty hnil]
      exact ⟨.inr, fun hor => hor.resolve_left Bool.false_ne_true⟩
  · rw [cloneFrom_of_isNil hh hv hdest hnil]
  · obtain ⟨n, m, hn, hm, hcopies⟩ := cloneFrom_copies hh hv hdest hnil hok
    exact exists_same_of_copies hh (hv.base hh.wellFormed) hcopies hn hm

/-- A pointer that is cloned into itself gets a new cell. -/
theorem cloneFrom_five :
    (five.cloneFrom five .ofFive).result = .ok () ∧
      Heap.ofFive.Appends (five.cloneFrom five .ofFive).heap ∧
      (five.cloneFrom five .ofFive).Clones .ofFive five.ty (five.base .ofFive) := by
  have hfive : five.WellFormed .ofFive := .pointer (by decide) BEq.rfl
  obtain ⟨happends, hok, hclones⟩ := @cloneFrom_of_ty_beq .ofFive five five
    ⟨Heap.ofFive_wellFormed, Heap.ofFive_acyclic⟩ hfive nofun BEq.rfl
  have hok := hok.mpr (.inr (.inr ⟨nofun, nofun, nofun⟩))
  exact ⟨hok, happends, hclones hok⟩

/-- A callable. -/
def echo : Value := func ⟨0, "echo", none, .plain "echo", []⟩

/-- Callables are of one type, but none can be cloned into another. -/
theorem not_forall_cloneFrom_ok :
    ¬∀ (h : Heap) (dest v : Value), h.Orderly → dest.WellFormed h → v.WellFormed h →
      (dest.ty == v.ty) = true → dest.ty ≠ .invalid → (dest.cloneFrom v h).result = .ok () := by
  intro hall
  have hecho : echo.WellFormed .empty := .func (List.forall_mem_nil _)
  nomatch hall .empty echo echo ⟨Heap.empty_wellFormed, Heap.empty_acyclic⟩ hecho hecho rfl nofun

end Value

end DynamicEval
