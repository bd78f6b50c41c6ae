import DynamicEval.Proofs.Heap.Region
import DynamicEval.Proofs.Path.Hidden
import DynamicEval.Proofs.Path.Read
import DynamicEval.Proofs.Path.ReadBack

/-!
# Writes that find no place

A write of a value that is there answers false when its path comes to something that has no place
for the next segment and is no map. It does not matter then what the value is. What the write made
on its way stays, and reads find no place there either: neither right after the write nor on a later
heap that keeps what the write made and what is behind its destination.

## Main definitions

* `Value.Stops`: a value at which the way to the base stops, be it a base or a slot with nothing.
* `Edit.LeadsOnly`: a change of a value after which it leads nowhere but to the changed base.
* `Value.PathMisses`: nothing is read at a path after a write that found no place there.

## Main results

* `Value.setIn_of_not_found`: a write that finds no place is the same for all values.
* `Value.change_leadsOnly`, `Value.setIn_leadsOnly`: a change of a value, and a write along a path,
  lead nowhere but to the changed base.
* `Edit.Grows.acyclicBehind`: what has grown leads to no cycle.
* `Value.setIn_misses`: after a write that finds no place, reads find none.
-/

namespace DynamicEval

/-! ### The value does not matter -/

namespace Value

variable {h : Heap} {v w dest key base : Value} {t k e : Ty} {path : List Value}
  {es : List (Key × Value)}

/-- A value that was made for a missing key is stored with the answer of the write in it. -/
theorem result_of_insertMade {made : Edit Bool} {done : Bool}
    (hx : (insertMade k e es key made).result = .ok done) : made.result = .ok done := by
  unfold insertMade at hx
  split at hx
  · cases hx
  · next hdone =>
    obtain ⟨rfl, -⟩ := Edit.replace_eq_of_ok hx
    exact hdone

theorem setPart_of_not_found
    (hrest : ∀ {h : Heap} {t : Ty} {dest : Value}, (setIn v path t dest h).result = .ok false →
      setIn w path t dest h = setIn v path t dest h)
    (hx : (setPart v key path h base).result = .ok false) :
    setPart w key path h base = setPart v key path h base := by
  unfold setPart at hx ⊢
  split at hx
  · obtain ⟨htrue, -⟩ := Edit.replace_eq_of_ok hx
    cases htrue
  · split at hx
    · exact congrArg (Edit.within · _) (hrest hx)
    · unfold setMissing at hx ⊢
      split at hx
      · exact congrArg (insertMade _ _ _ _) (hrest (result_of_insertMade hx))
      · rfl

/-- A write that finds no place is the same for all values that are there. -/
theorem setIn_of_not_found (hv : v.peel.isNil = false) (w : Value)
    (hx : (setIn v path t dest h).result = .ok false) :
    setIn w path t dest h = setIn v path t dest h := by
  induction path generalizing t dest h with
  | nil =>
    obtain ⟨hnil, -⟩ := Edit.replace_eq_of_ok hx
    rw [hv] at hnil
    cases hnil
  | cons key path ih =>
    by_cases hempty : dest = emptySlot
    · subst hempty
      rfl
    obtain ⟨wrap, hwrap, heq⟩ := exists_change_eq (α := Bool) dest h
    rw [setIn_cons hempty, heq] at hx
    rw [setIn_cons hempty, setIn_cons hempty, heq, heq, setPart_of_not_found ih]
    rcases hwrap (setPart v key path h (dest.baseOrNew h)) with hresult | ⟨e, hresult⟩
    · exact hresult.symm.trans hx
    · cases hresult.symm.trans hx

end Value

/-! ### Behind what has grown -/

/-- A cell that is one of those from the `n`th on, as all cells behind it are, and that leads to no
cycle. -/
def Heap.NewAt (n : Nat) (h' : Heap) (a : Addr) : Prop :=
  ∀ b, b = a ∨ h'.Reaches (h'.get a) b → n ≤ b ∧ ¬h'.Reaches (h'.get b) b

/-- A new cell all of whose pointers are to such cells is such a cell. -/
theorem Heap.NewAt.of_points {n : Nat} {h' : Heap} {a : Addr} (ha : n ≤ a)
    (hcells : ∀ b, (h'.get a).Points b → NewAt n h' b) : NewAt n h' a := by
  have hbehind {b : Addr} (hr : h'.Reaches (h'.get a) b) : n ≤ b ∧ ¬h'.Reaches (h'.get b) b := by
    cases hr with
    | direct hp => exact hcells b hp b (.inl rfl)
    | behind hp hr => exact hcells _ hp b (.inr hr)
  rintro b (rfl | hr)
  · exact ⟨ha, fun hr => (hbehind hr).2 hr⟩
  · exact hbehind hr

/-- The pointers in what has grown are those from before, and others to new cells. -/
theorem Value.Grown.points {n : Nat} {h' : Heap} {v w : Value} {a : Addr}
    (hw : v.Grown n h' w) (ha : w.Points a) : v.Points a ∨ h'.NewAt n a := by
  induction hw generalizing a with
  | refl v => exact .inl ha
  | slot _ ih =>
    cases ha with
    | slot ha => exact (ih ha).imp_left .slot
  | @cell e b hnew _ _ ih =>
    cases ha with
    | pointer =>
      exact .inr (.of_points hnew fun c hc => (ih hc).resolve_left (e.not_points_zero c))
  | listItem hv _ ih =>
    cases ha with
    | list hu ha =>
      rcases List.mem_or_eq_of_mem_set hu with hu | rfl
      · exact .inl (.list hu ha)
      · exact (ih ha).imp_left (.list (List.mem_of_getElem? hv))
  | arrayItem hv _ ih =>
    cases ha with
    | array hu ha =>
      rcases List.mem_or_eq_of_mem_set hu with hu | rfl
      · exact .inl (.array hu ha)
      · exact (ih ha).imp_left (.array (List.mem_of_getElem? hv))
  | field hv _ ih =>
    cases ha with
    | record hu ha =>
      rcases List.mem_or_eq_of_mem_set hu with hu | rfl
      · exact .inl (.record hu ha)
      · exact (ih ha).imp_left (.record (List.mem_of_getElem? hv))
  | entry hv _ ih =>
    cases ha with
    | map hu ha =>
      obtain ⟨entry, hentry, rfl⟩ := Entries.mem_of_find?_eq_some hv
      rcases Entries.mem_replace hu with heq | hu
      · rw [heq] at ha
        exact (ih ha).imp_left (.map hentry)
      · exact .inl (.map hu ha)
  | @newEntry k e entries key w _ _ _ ih =>
    cases ha with
    | map hu ha =>
      rcases List.mem_append.mp hu with hu | hu
      · exact .inl (.map hu ha)
      · rw [List.mem_singleton.mp hu] at ha
        exact .inr ((ih ha).resolve_left (e.not_points_zero a))
  | newMap _ _ _ ih =>
    cases ha with
    | map hu ha =>
      rcases List.mem_append.mp hu with hu | hu
      · exact .inl (.map hu ha)
      · rw [List.mem_singleton.mp hu] at ha
        refine .inr ((ih ha).resolve_left ?_)
        rintro (_ | ⟨_ | _ | _ | _ | ⟨hmem, _⟩⟩)
        cases hmem

namespace Edit.Grows

variable {α : Type} {r : Edit α} {h : Heap} {dest v w : Value} {a : Addr}

/-- What is behind a value that has grown was behind it before, or is new and leads to no cycle. -/
theorem reaches_of_grown (hr : r.Grows h dest) (hh : h.Bounded) (hv : v.Bounded h)
    (hw : v.Grown h.size r.heap w) (ha : r.heap.Reaches w a) :
    h.Reaches v a ∨ r.heap.NewAt h.size a := by
  induction ha generalizing v with
  | direct hp => exact (hw.points hp).imp_left .direct
  | @behind w a b hp hb ih =>
    rcases hw.points hp with hp | hnew
    · exact (ih (hh b (hv b hp)) (hr.cells b (hv b hp))).imp_left (.behind hp)
    · exact .inr fun c hc => hnew c (.inr (hc.elim (fun heq => heq ▸ hb) hb.trans))

/-- What is behind the destination afterwards was behind it before, or is new. -/
theorem reaches (hr : r.Grows h dest) (hh : h.Bounded) (hdest : dest.Bounded h)
    (ha : r.heap.Reaches r.value a) : h.Reaches dest a ∨ h.size ≤ a :=
  (hr.reaches_of_grown hh hdest hr.value ha).imp_right fun hnew => (hnew a (.inl rfl)).1

/-- A destination that has grown leads to no cycle if there were none. -/
theorem acyclicBehind (hr : r.Grows h dest) (hh : h.Bounded) (hacyclic : h.Acyclic)
    (hdest : dest.Bounded h) : r.heap.AcyclicBehind r.value := by
  intro a ha hcycle
  rcases hr.reaches_of_grown hh hdest hr.value ha with hold | hnew
  · have hlt := hold.lt hh hdest
    rcases hr.reaches_of_grown hh (hh a hlt) (hr.cells a hlt) hcycle with hcycle | hnew
    · exact hacyclic a hcycle
    · exact Nat.lt_irrefl _ (Nat.lt_of_lt_of_le hlt (hnew a (.inl rfl)).1)
  · exact (hnew a (.inl rfl)).2 hcycle

/-- A destination that has grown shares no cell with a value that it shared none with. -/
theorem apart (hr : r.Grows h dest) (hh : h.Bounded) (hdest : dest.Bounded h) (hv : v.Bounded h)
    (hapart : h.Apart dest v) (hagrees : h.Agrees r.heap v) : r.heap.Apart r.value v := by
  intro a ha hva
  have hva := hagrees.reaches_iff.mp hva
  rcases hr.reaches hh hdest ha with hold | hle
  · exact hapart a hold hva
  · exact Nat.lt_irrefl _ (Nat.lt_of_lt_of_le (hva.lt hh hv) hle)

end Edit.Grows

/-! ### The only way to the changed base -/

/-- A value at which the way to the base stops: a base, or a slot with nothing. -/
def Value.Stops (v : Value) : Prop := v.IsBase ∨ v = .emptySlot

/-- A change `r` of a value `v` that comes down to a change `r₀` of its base `u`, and after which
the value leads nowhere else. -/
structure Edit.LeadsOnly {α : Type} (r : Edit α) (h : Heap) (v : Value) (r₀ : Edit α) (u : Value) :
    Prop extends r.Carries h v r₀ u where
  /-- What the value leads to is the changed base, also on heaps that keep new cells and those
  behind the value. -/
  only {h' : Heap} {as : List Addr} {w : Value} (hs : r.heap.SameOn h' (h.IsNewOrBehind v))
    (hw : h'.Leads r.value as w) : w = r₀.value

/-- Where the way to the base stops, nothing else is led to. -/
theorem Value.Stops.eq_of_leads {h : Heap} {v w : Value} {as : List Addr} (hv : v.Stops)
    (hw : h.Leads v as w) : w = v := by
  cases hw with
  | base => rfl
  | slot =>
    rcases hv with hv | hv
    · cases hv.2
    · cases hv
  | pointer =>
    rcases hv with hv | hv
    · cases hv.1
    · cases hv

/-- A change of a value at which the way to the base stops is made there. -/
theorem Value.Stops.change_eq {α : Type} {u : Value} (hu : u.Stops) (h : Heap)
    (f : Heap → Value → Edit α) : u.change h f = f h u := by
  refine change_of_changeStep fun enter => ?_
  rcases hu with hu | rfl
  · exact hu.changeStep_eq f enter h
  · rfl

theorem Ty.zero_stripPointers_stops (t : Ty) : t.stripPointers.zero.Stops := by
  match t with
  | .pointer e => exact Ty.zero_stripPointers_stops e
  | .any => exact .inr rfl
  | .invalid | .bool | .int _ | .uint _ | .float _ | .string | .list _ | .array _ _ | .map _ _
  | .record _ | .func => exact .inl ⟨rfl, rfl⟩

theorem Value.baseOrNewStep_stops {deref : Addr → Value} (hderef : ∀ a, (deref a).Stops)
    (v : Value) : (v.baseOrNewStep deref).Stops := by
  match v with
  | .slot v => exact baseOrNewStep_stops hderef v
  | .pointer e (some a) => exact hderef a
  | .pointer e none => exact e.zero_stripPointers_stops
  | .emptySlot => exact .inr rfl
  | .invalid | .bool _ | .int _ _ | .uint _ _ | .float _ _ | .string _ | .list _ _ | .array _ _
  | .map _ _ _ | .record _ _ | .func _ => exact .inl ⟨rfl, rfl⟩

/-- At the base as a change sees it, the way to the base stops. -/
theorem Value.baseOrNew_stops (v : Value) (h : Heap) : (v.baseOrNew h).Stops := by
  suffices ∀ n v, (h.unroll invalid baseOrNewStep n v).Stops from this h.size v
  intro n
  induction n with
  | zero => exact baseOrNewStep_stops fun _ => .inl ⟨rfl, rfl⟩
  | succ n ih => exact baseOrNewStep_stops fun a => ih (h.get a)

namespace Edit.LeadsOnly

variable {α : Type} {r r₀ : Edit α} {h : Heap} {v u : Value}

theorem refl {r : Edit α} (hr : h.size ≤ r.heap.size) (hstops : r.value.Stops) (u : Value) :
    r.LeadsOnly h u r u :=
  ⟨.refl hr u, fun _ hw => hstops.eq_of_leads hw⟩

theorem slot (hr : r.LeadsOnly h v r₀ u) : (r.within .slot).LeadsOnly h (.slot v) r₀ u := by
  refine ⟨hr.toCarries.slot, fun hs hw => ?_⟩
  cases hw with
  | base hu => cases hu.2
  | slot hw => exact hr.only hs.of_slot hw

theorem pointer {a : Addr} (hr : r.LeadsOnly h (h.get a) r₀ u) (ha : a < h.size)
    (hacyclic : ¬h.Reaches (h.get a) a) (e : Ty) :
    (⟨r.heap.set a r.value, .pointer e (some a), r.result⟩ : Edit α).LeadsOnly h
      (.pointer e (some a)) r₀ u := by
  refine ⟨hr.toCarries.pointer ha hacyclic e, fun hs hw => ?_⟩
  obtain ⟨-, hget, hs⟩ := hs.of_pointer hr.size_le ha hacyclic
  cases hw with
  | base hu => cases hu.1
  | pointer _ _ hw => exact hr.only hs (hget ▸ hw)

theorem store (hr : r.LeadsOnly h v r₀ u) (hv : ∀ a, ¬h.Reaches v a) (e t : Ty) :
    (Value.changeNew.store e r).LeadsOnly h (.pointer t none) r₀ u := by
  refine ⟨hr.toCarries.store hv e t, fun hs hw => ?_⟩
  obtain ⟨-, hget, hs⟩ := Heap.SameOn.of_store hs hr.size_le hv
  cases hw with
  | base hu => cases hu.1
  | pointer _ _ hw => exact hr.only hs (hget ▸ hw)

end Edit.LeadsOnly

namespace Value

section

variable {α : Type} {h : Heap} {f : Heap → Value → Edit α} {x : α} {v : Value}
  (hf : ∀ u, h.size ≤ (f h u).heap.size) (hstops : ∀ u : Value, u.Stops → (f h u).value.Stops)

include hf hstops

theorem changeNew_leadsOnly (e t : Ty) :
    (changeNew f e h).LeadsOnly h (.pointer t none) (f h e.stripPointers.zero)
      e.stripPointers.zero := by
  have hzero (e : Ty) (he : e.zero.Stops) : (changeNew.store e (f h e.zero)).LeadsOnly h
      (.pointer t none) (f h e.zero) e.zero :=
    (Edit.LeadsOnly.refl (hf _) (hstops _ he) _).store (e.not_reaches_zero h) e t
  match e with
  | .pointer e =>
    exact (changeNew_leadsOnly e e).store ((Ty.pointer e).not_reaches_zero h) (.pointer e) t
  | .any => exact hzero .any (.inr rfl)
  | .invalid | .bool | .int _ | .uint _ | .float _ | .string | .list _ | .array _ _ | .map _ _
  | .record _ | .func => exact hzero _ (.inl ⟨rfl, rfl⟩)

/-- A step of a change leads only to the changed base if the changes of cells do. -/
theorem changeStep_leadsOnly {deref : Addr → Value}
    {enter : Addr → Heap → Heap × Except Error α}
    (henter : ∀ e, ∀ a < h.size, (enter a h).2 = .ok x →
      (⟨(enter a h).1, pointer e (some a), (enter a h).2⟩ : Edit α).LeadsOnly h
        (pointer e (some a)) (f h (deref a)) (deref a))
    {v : Value} (hv : v.WellFormed h) (hx : (v.changeStep f enter h).result = .ok x) :
    (v.changeStep f enter h).LeadsOnly h v (f h (v.baseOrNewStep deref))
      (v.baseOrNewStep deref) := by
  match v with
  | .slot v => exact (changeStep_leadsOnly henter (wellFormed_slot.mp hv).2.2 hx).slot
  | .pointer e none => exact changeNew_leadsOnly hf hstops e e
  | .pointer e (some a) => exact henter e a (wellFormed_pointer.mp hv).1 hx
  | .emptySlot => exact .refl (hf _) (hstops _ (.inr rfl)) _
  | .invalid | .bool _ | .int _ _ | .uint _ _ | .float _ _ | .string _ | .list _ _ | .array _ _
  | .map _ _ _ | .record _ _ | .func _ => exact .refl (hf _) (hstops _ (.inl ⟨rfl, rfl⟩)) _

/-- A change that succeeds leads only to the changed base, which is the base as a change sees it. -/
theorem change_leadsOnly (hh : h.WellFormed) (hacyclic : h.Acyclic) (hv : v.WellFormed h)
    (hx : (v.change h f).result = .ok x) :
    (v.change h f).LeadsOnly h v (f h (v.baseOrNew h)) (v.baseOrNew h) := by
  suffices ∀ n, (changeWithin f n v h).result = .ok x →
      (changeWithin f n v h).LeadsOnly h v (f h (h.unroll .invalid baseOrNewStep n v))
        (h.unroll .invalid baseOrNewStep n v) from this h.size hx
  clear hx
  intro n
  induction n generalizing v with
  | zero =>
    exact changeStep_leadsOnly hf hstops
      (fun _ _ _ (hx : Except.error _ = .ok x) => nomatch hx) hv
  | succ n ih =>
    refine changeStep_leadsOnly hf hstops (fun e a ha hx => ?_) hv
    exact (ih (hh a ha) hx).pointer ha (hacyclic a) e

end

/-! ### Reads after a write that finds no place -/

section

variable {h h₀ h' : Heap} {v key base : Value} {k e : Ty} {path : List Value} {p : Place}
  {es : List (Key × Value)}

/-- Whether a value is a base is told by its type. -/
theorem isBase_iff_ty : base.IsBase ↔ (∀ e, base.ty ≠ .pointer e) ∧ base.ty ≠ .any := by
  cases base <;> simp [IsBase, isPointer, isSlot, ty]

/-- A write at a segment does not put a pointer or the content of a slot where the way to the base
stops. -/
theorem setPart_stops (v key : Value) (path : List Value) (h : Heap) {base : Value}
    (hbase : base.Stops) : (setPart v key path h base).value.Stops := by
  rcases hbase with hbase | rfl
  · refine .inl (isBase_iff_ty.mpr ?_)
    rw [(setPart_sameShape v key path h base).1]
    exact isBase_iff_ty.mp hbase
  · exact .inr rfl

/-- A write leads only to what a write at the first segment makes of the base. -/
theorem setIn_leadsOnly {dest : Value} {t : Ty} {done : Bool} (hh : h.WellFormed)
    (hacyclic : h.Acyclic) (hdest : dest.WellFormed h) (hempty : dest ≠ emptySlot)
    (hx : (setIn v (key :: path) t dest h).result = .ok done) :
    (setIn v (key :: path) t dest h).LeadsOnly h dest (setPart v key path h (dest.baseOrNew h))
      (dest.baseOrNew h) := by
  rw [setIn_cons hempty] at hx ⊢
  exact change_leadsOnly (size_le_setPart v key path h) (fun _ => setPart_stops v key path h) hh
    hacyclic hdest hx

/-- Nothing is read at a path after a write of `v` there has answered false, be it right after the
write or on a later heap that keeps what is new and what is behind the destination. -/
def PathMisses (v : Value) (path : List Value) : Prop :=
  ∀ {h h' : Heap} {t : Ty} {dest : Value}, h.WellFormed → h.Acyclic → dest.WellFormed h →
    (setIn v path t dest h).result = .ok false →
    (setIn v path t dest h).heap.SameOn h' (h.IsNewOrBehind dest) →
    (setIn v path t dest h).value.walk? h' path = none

/-- What is stored for a missing key is what the write has found nothing in, and so do reads. -/
theorem insertMade_misses {new : Value} (hrest : PathMisses v path) (hh : h.Bounded)
    (hkey : ∀ a, ¬key.Points a) (happends : h.Appends h₀) (hh₀ : h₀.WellFormed)
    (hacyclic₀ : h₀.Acyclic) (hnew : new.WellFormed h₀)
    (hreaches : ∀ a, h₀.Reaches new a → h.size ≤ a)
    (hself : ∀ h', (e.coerce (setIn v path e new h₀).value).run h' =
      .ok ((setIn v path e new h₀).value, h'))
    (hx : (insertMade k e es key (setIn v path e new h₀)).result = .ok false)
    (hs : (insertMade k e es key (setIn v path e new h₀)).heap.SameOn h'
      (h.IsNewOrBehind (map k e es)))
    (hp : key.Selects h' (insertMade k e es key (setIn v path e new h₀)).value p) :
    p.content.walk? h' path = none := by
  have hmisses := @hrest h₀ h' e new hh₀ hacyclic₀ hnew
  have hconfined : h₀.Confined new (setIn v path e new h₀).heap := setIn_confined
  generalize setIn v path e new h₀ = made at *
  have hsize := Nat.le_trans happends.size_le hconfined.size_le
  obtain ⟨hagrees, hacyclic, hbounded⟩ := Heap.Steady.of_not_points hkey hsize
  obtain ⟨hdone, es', heq, hplace⟩ :=
    insertMade_of_ok hh hacyclic hbounded hagrees (fun _ => hself _) hx
  rw [heq] at hs hp
  have hlater := Heap.Steady.of_not_points hkey (Nat.le_trans hsize hs.size_le)
  obtain ⟨q, hq, -, hcontent⟩ := hplace h' hlater.agrees
  cases hp.unique hq
  rw [hcontent]
  refine hmisses hdone (hs.mono fun a ha => .inl ?_)
  rcases ha with hle | hr
  · exact Nat.le_trans happends.size_le hle
  · exact hreaches a hr

/-- A write at a segment leaves nothing to be read if writes along the rest of the path leave
nothing. -/
theorem setPart_misses (hrest : PathMisses v path) (hh : h.WellFormed) (hacyclic : h.Acyclic)
    (hbase : base.WellFormed h) (hkey : ∀ a, ¬key.Points a)
    (hx : (setPart v key path h base).result = .ok false)
    (hs : (setPart v key path h base).heap.SameOn h' (h.IsNewOrBehind base))
    (hp : key.Selects h' (setPart v key path h base).value p) :
    p.content.walk? h' path = none := by
  have hsize := size_le_setPart v key path h base
  have hsteady := Heap.Steady.of_not_points hkey (Nat.le_trans hsize hs.size_le)
  clear hsize
  generalize hr : setPart v key path h base = r at hx hs hp
  unfold setPart at hr
  split at hr
  · subst hr
    obtain ⟨htrue, -⟩ := Edit.replace_eq_of_ok hx
    cases htrue
  split at hr
  · next q hq =>
    subst hr
    have hq := place?_eq_some.mp hq
    obtain ⟨q', hq', -, hcontent⟩ := hq.put hh.bounded hsteady.acyclic hsteady.bounded
      hsteady.agrees (setIn v path q.ty q.content h).value
    cases hp.unique hq'
    rw [hcontent]
    refine hrest hh hacyclic (hq.fits hbase).content.wellFormed hx (hs.mono fun a ha => ?_)
    exact ha.of_reaches fun b hb => hb.of_points fun c => hq.points
  · next hfree =>
    unfold setMissing at hr
    split at hr
    · next k e es segment path _ =>
      subst hr
      obtain ⟨hgrows, hnew⟩ := e.vivify_fits hh segment
      exact insertMade_misses hrest hh.bounded hkey (e.vivify_appends segment h) hgrows.wellFormed
        (Ty.vivify_acyclic hh.bounded hacyclic e segment) hnew.wellFormed
        (fun a => Ty.vivify_reaches)
        (fun h' => coerce_of_sameShape_vivify (setIn_sameShape (List.cons_ne_nil _ _))) hx hs hp
    · subst hr
      have hp : base.place? key h' = some p := place?_eq_some.mpr hp
      rw [hsteady.place?_eq hh.bounded] at hp
      cases hfree.symm.trans hp

/-- After a write that finds no place for a value that is there, reads find none at the path, whose
segments are without pointers. -/
theorem setIn_misses (hv : v.peel.isNil = false) (hpath : ∀ s ∈ path, ∀ a, ¬s.Points a) :
    PathMisses v path := by
  intro h h' t dest hh hacyclic hdest hx hs
  induction path generalizing t dest h h' with
  | nil =>
    obtain ⟨hnil, -⟩ := Edit.replace_eq_of_ok hx
    rw [hv] at hnil
    cases hnil
  | cons key path ih =>
    obtain ⟨hkey, hpath⟩ := List.forall_mem_cons.mp hpath
    have hnone {u : Value} (hu : ∀ {as w p}, h'.Leads u as w → key.Selects h' w p →
        p.content.walk? h' path = none) : u.walk? h' (key :: path) = none := by
      rw [walk?, part?_eq_place?]
      cases hp : (u.base h').place? key h' with
      | none => rfl
      | some p =>
        have hp := place?_eq_some.mp hp
        obtain ⟨as, has⟩ := Heap.exists_leads hp.base_ne
        exact hu has hp
    by_cases hempty : dest = emptySlot
    · subst hempty
      refine hnone fun hw hp => ?_
      cases Stops.eq_of_leads (.inr rfl) hw
      cases hp
    have hr := setIn_leadsOnly hh hacyclic hdest hempty hx
    refine hnone fun hw hp => ?_
    cases hr.only hs hw
    refine setPart_misses (fun hh => ih hpath hh) hh hacyclic (hdest.baseOrNew hh) hkey
      (hr.result_eq ▸ hx) ?_ hp
    exact hr.sameOn.trans (hs.mono fun a ha => ha.of_reaches hr.reaches)

end

end Value

end DynamicEval
