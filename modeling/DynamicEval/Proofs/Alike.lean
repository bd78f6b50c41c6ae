import DynamicEval.Proofs.Copy
import DynamicEval.Proofs.Path.Read
import Mathlib.Data.List.Nodup

/-!
# Values that look alike

Two values, each on a heap of its own, are alike if they differ in the fields of records that nobody
sees, and in which cells their pointers name, but not in what the cells hold. Where all fields are
seen, they are the same value up to the identity of cells. Maps are compared place by place: the
order in which their places were filled is not looked at.

## Main definitions

* `Value.Alike`: values that look alike where some fields are seen and some cells stand for others.
* `Value.Same`: values that look alike where all fields are seen.
* `Heap.Orderly`: a well-formed heap without cycles.

## Main results

* `Ty.zero_alike`: the zero of a type looks alike everywhere.
* `Value.Alike.refl`: a value looks like itself.
* `Heap.Orderly.follow_eq`: following a step over the heap is one step, and following from there.
* `Value.Alike.base`, `Value.Alike.baseTy_eq`: alike values have alike bases of the same type.
-/

namespace DynamicEval

/-- Two values look alike on their heaps if of every record only the fields are looked at that are
`seen`, and of every pointer the content of its cell. One cell stands for another if `cells` relates
them: a relation that is one-to-one keeps apart what is shared and what is not. -/
inductive Value.Alike (seen : Field → Bool) (cells : Addr → Addr → Prop) (h h' : Heap) :
    Value → Value → Prop where
  | atom {v : Value} (hv : v.isAtom = true) : Alike seen cells h h' v v
  | list {e : Ty} {vs ws : List Value} (hlength : vs.length = ws.length)
      (hitems : ∀ x ∈ vs.zip ws, Alike seen cells h h' x.1 x.2) :
      Alike seen cells h h' (.list e vs) (.list e ws)
  | array {e : Ty} {vs ws : List Value} (hlength : vs.length = ws.length)
      (hitems : ∀ x ∈ vs.zip ws, Alike seen cells h h' x.1 x.2) :
      Alike seen cells h h' (.array e vs) (.array e ws)
  /-- The same keys have values that are alike. -/
  | map {k e : Ty} {es fs : List (Key × Value)}
      (hkeys : (es.map Prod.fst).Perm (fs.map Prod.fst))
      (hvalues : ∀ x ∈ es, ∀ y ∈ fs, x.1 = y.1 → Alike seen cells h h' x.2 y.2) :
      Alike seen cells h h' (.map k e es) (.map k e fs)
  /-- Only fields that are seen have to be alike. -/
  | record {r : RecordType} {vs ws : List Value} (hlength : vs.length = ws.length)
      (hfields : ∀ x ∈ r.fields.zip (vs.zip ws), seen x.1 = true →
        Alike seen cells h h' x.2.1 x.2.2) : Alike seen cells h h' (.record r vs) (.record r ws)
  | pointer {e : Ty} {a b : Addr} (hcells : cells a b)
      (hcell : Alike seen cells h h' (h.get a) (h'.get b)) :
      Alike seen cells h h' (.pointer e (some a)) (.pointer e (some b))
  | slot {v w : Value} (hv : Alike seen cells h h' v w) :
      Alike seen cells h h' (.slot v) (.slot w)

/-- Two values are the same on their heaps, up to the identity of cells. -/
abbrev Value.Same (cells : Addr → Addr → Prop) (h h' : Heap) (v w : Value) : Prop :=
  v.Alike (fun _ => true) cells h h' w

mutual

/-- The zero of a type looks alike everywhere. -/
theorem Ty.zero_alike (seen : Field → Bool) (cells : Addr → Addr → Prop) (h h' : Heap) (t : Ty) :
    t.zero.Alike seen cells h h' t.zero := by
  match t with
  | .array e n =>
    refine .array rfl fun x hx => ?_
    obtain ⟨hx, hx'⟩ := List.of_mem_zip hx
    rw [List.eq_of_mem_replicate hx, List.eq_of_mem_replicate hx']
    exact Ty.zero_alike seen cells h h' e
  | .record ⟨name, fields, methods⟩ =>
    refine .record rfl fun x hx _ => ?_
    obtain ⟨-, hx⟩ := List.of_mem_zip hx
    exact Ty.zeroFields_alike seen cells h h' fields x.2 hx
  | .list e => exact .list rfl (List.forall_mem_nil _)
  | .map k e => exact .map (.refl _) (List.forall_mem_nil _)
  | .invalid | .bool | .int _ | .uint _ | .float _ | .string | .func | .pointer _ | .any =>
    exact .atom rfl

theorem Ty.zeroFields_alike (seen : Field → Bool) (cells : Addr → Addr → Prop) (h h' : Heap)
    (fs : List Field) :
    ∀ x ∈ (Ty.zeroFields fs).zip (Ty.zeroFields fs), x.1.Alike seen cells h h' x.2 := by
  match fs with
  | [] => exact List.forall_mem_nil _
  | ⟨_, t, _⟩ :: fs =>
    exact List.forall_mem_cons.mpr
      ⟨Ty.zero_alike seen cells h h' t, Ty.zeroFields_alike seen cells h h' fs⟩

end

/-- A well-formed heap without cycles. -/
structure Heap.Orderly (h : Heap) : Prop where
  /-- The cells are well-formed. -/
  wellFormed : h.WellFormed
  /-- No cell is behind itself. -/
  acyclic : h.Acyclic

/-! ### Following pointers -/

namespace Heap.Orderly

variable {h : Heap} {v : Value}

theorem bounded (hh : h.Orderly) : h.Bounded := hh.wellFormed.bounded

/-- What a step reads behind a pointer is what following it reads there. -/
theorem follow_eq (hh : h.Orderly) (hv : v.Bounded h) {α : Type} {stop : α}
    {step : (Addr → α) → Value → α} (hstep : IsLocal step) :
    h.follow stop step v = step (fun a => h.follow stop step (h.get a)) v :=
  ((hh.acyclic.behind v).unroll_eq hh.bounded hv hstep (Nat.le_succ _)).symm

end Heap.Orderly

namespace Value

variable {seen : Field → Bool} {cells : Addr → Addr → Prop} {h h' : Heap} {v w : Value}

theorem Bounded.slot (hv : (slot v).Bounded h) : v.Bounded h := fun a ha => hv a (.slot ha)

theorem Bounded.cell {e : Ty} {a : Addr} (hv : (pointer e (some a)).Bounded h) (hh : h.Bounded) :
    (h.get a).Bounded h :=
  hh a (hv a (.pointer e a))

namespace Alike

/-- More cells may stand for others. -/
theorem mono {cells' : Addr → Addr → Prop} (hcells : ∀ a b, cells a b → cells' a b)
    (hvw : v.Alike seen cells h h' w) : v.Alike seen cells' h h' w := by
  induction hvw with
  | atom hv => exact .atom hv
  | list hlength _ ih => exact .list hlength ih
  | array hlength _ ih => exact .array hlength ih
  | map hkeys _ ih => exact .map hkeys ih
  | record hlength _ ih => exact .record hlength ih
  | pointer hab _ ih => exact .pointer (hcells _ _ hab) ih
  | slot _ ih => exact .slot ih

theorem eq_of_mem_zip_self {α : Type} {as : List α} {x : α × α} (hx : x ∈ as.zip as) :
    x.1 = x.2 ∧ x.1 ∈ as := by
  induction as with
  | nil => cases hx
  | cons a as ih =>
    rcases List.mem_cons.mp hx with rfl | hx
    · exact ⟨rfl, List.mem_cons_self⟩
    · obtain ⟨heq, hmem⟩ := ih hx
      exact ⟨heq, List.mem_cons_of_mem _ hmem⟩

/-- A value looks like itself if the cells do that it points to. -/
theorem of_cells (hv : v.WellFormed h)
    (hcells : ∀ a, v.Points a → cells a a ∧ (h.get a).Alike seen cells h h (h.get a)) :
    v.Alike seen cells h h v := by
  have hitems {vs : List Value} (hself : ∀ v ∈ vs, v.Alike seen cells h h v) :
      ∀ x ∈ vs.zip vs, x.1.Alike seen cells h h x.2 := by
    intro x hx
    obtain ⟨heq, hmem⟩ := eq_of_mem_zip_self hx
    exact heq ▸ hself x.1 hmem
  induction hv with
  | list _ _ ih => exact .list rfl (hitems fun v hv => ih v hv fun a ha => hcells a (.list hv ha))
  | array _ _ ih => exact .array rfl (hitems fun v hv => ih v hv fun a ha => hcells a (.array hv ha))
  | map places _ _ _ _ _ ih =>
    refine .map (.refl _) fun x hx y hy hxy => ?_
    obtain rfl := List.inj_on_of_nodup_map places hx hy (congrArg Key.bare hxy)
    exact ih x hx fun a ha => hcells a (.map hx ha)
  | record types _ ih =>
    have hfields := hitems fun v hv => ih v hv fun a ha => hcells a (.record hv ha)
    exact .record rfl fun x hx _ => hfields x.2 (List.of_mem_zip hx).2
  | pointer => exact .pointer (hcells _ (.pointer _ _)).1 (hcells _ (.pointer _ _)).2
  | slot _ _ _ ih => exact .slot (ih fun a ha => hcells a (.slot ha))
  | _ => exact .atom rfl

/-- A value looks like itself if no cell behind it is behind itself. -/
theorem refl (hh : h.WellFormed) (hacyclic : h.AcyclicBehind v) (hv : v.WellFormed h)
    (hcells : ∀ a, cells a a) : v.Alike seen cells h h v := by
  suffices ∀ n {v}, v.WellFormed h → (∀ as, h.Chain v as → as.length ≤ n) →
      v.Alike seen cells h h v from
    this h.size hv fun _ has => hacyclic.length_le hh.bounded hv.bounded has
  intro n
  induction n with
  | zero =>
    refine fun hv hshort => of_cells hv fun a ha => ?_
    nomatch hshort [a] (.cons ha (.nil _))
  | succ n ih =>
    exact fun hv hshort => of_cells hv fun a ha =>
      ⟨hcells a, ih (hh a (hv.bounded a ha)) fun as has =>
        Nat.le_of_succ_le_succ (hshort _ (.cons ha has))⟩
theorem peel (hvw : v.Alike seen cells h h' w) : v.peel.Alike seen cells h h' w.peel := by
  cases hvw with
  | @atom v hv =>
    cases v with
    | emptySlot => exact .atom rfl
    | slot => cases hv
    | _ => exact .atom hv
  | list hlength hitems => exact .list hlength hitems
  | array hlength hitems => exact .array hlength hitems
  | map hkeys hvalues => exact .map hkeys hvalues
  | record hlength hfields => exact .record hlength hfields
  | pointer hcells hcell => exact .pointer hcells hcell
  | slot hv => exact hv

theorem isNil_eq (hvw : v.Alike seen cells h h' w) : v.isNil = w.isNil := by
  cases hvw <;> rfl

/-- Steps that look through slots and pointers give related results for alike values if they do so
where there is neither. -/
theorem follow (hh : h.Orderly) (hh' : h'.Orderly) {α : Type} {R : α → α → Prop} {stop : α}
    {step : (Addr → α) → Value → α} (hlocal : IsLocal step)
    (hslot : ∀ deref v, step deref (.slot v) = step deref v)
    (hpointer : ∀ deref e a, step deref (.pointer e (some a)) = deref a)
    (hbase : ∀ deref deref' {v w : Value}, v.Alike seen cells h h' w →
      (∀ u, v ≠ .slot u) → (∀ e a, v ≠ .pointer e (some a)) → R (step deref v) (step deref' w))
    (hvw : v.Alike seen cells h h' w) (hv : v.Bounded h) (hw : w.Bounded h') :
    R (h.follow stop step v) (h'.follow stop step w) := by
  induction hvw with
  | pointer _ _ ih =>
    rw [hh.follow_eq hv hlocal, hh'.follow_eq hw hlocal, hpointer, hpointer]
    exact ih (hv.cell hh.bounded) (hw.cell hh'.bounded)
  | slot _ ih =>
    have ih := ih hv.slot hw.slot
    rw [hh.follow_eq hv.slot hlocal, hh'.follow_eq hw.slot hlocal] at ih
    rwa [hh.follow_eq hv hlocal, hh'.follow_eq hw hlocal, hslot, hslot]
  | atom hatom =>
    rw [hh.follow_eq hv hlocal, hh'.follow_eq hw hlocal]
    refine hbase _ _ (.atom hatom) ?_ ?_
    · rintro u rfl
      cases hatom
    · rintro e a rfl
      cases hatom
  | list hlength hitems =>
    rw [hh.follow_eq hv hlocal, hh'.follow_eq hw hlocal]
    exact hbase _ _ (.list hlength hitems) nofun nofun
  | array hlength hitems =>
    rw [hh.follow_eq hv hlocal, hh'.follow_eq hw hlocal]
    exact hbase _ _ (.array hlength hitems) nofun nofun
  | map hkeys hvalues =>
    rw [hh.follow_eq hv hlocal, hh'.follow_eq hw hlocal]
    exact hbase _ _ (.map hkeys hvalues) nofun nofun
  | record hlength hfields =>
    rw [hh.follow_eq hv hlocal, hh'.follow_eq hw hlocal]
    exact hbase _ _ (.record hlength hfields) nofun nofun

/-- Alike values have alike bases. -/
theorem base (hh : h.Orderly) (hh' : h'.Orderly) (hvw : v.Alike seen cells h h' w)
    (hv : v.Bounded h) (hw : w.Bounded h') : (v.base h).Alike seen cells h h' (w.base h') := by
  refine hvw.follow hh hh' baseStep_isLocal (fun _ _ => rfl) (fun _ _ _ => rfl) ?_ hv hw
  intro deref deref' v w hvw hslot hpointer
  cases hvw with
  | @atom v hatom =>
    cases v with
    | pointer e cell =>
      cases cell with
      | none => exact .atom rfl
      | some a => cases hatom
    | emptySlot => exact .atom rfl
    | slot v => cases hatom
    | _ => exact .atom hatom
  | list hlength hitems => exact .list hlength hitems
  | array hlength hitems => exact .array hlength hitems
  | map hkeys hvalues => exact .map hkeys hvalues
  | record hlength hfields => exact .record hlength hfields
  | pointer => exact absurd rfl (hpointer _ _)
  | slot => exact absurd rfl (hslot _)

/-- Alike values have bases of the same type. -/
theorem baseTy_eq (hh : h.Orderly) (hh' : h'.Orderly) (hvw : v.Alike seen cells h h' w)
    (hv : v.Bounded h) (hw : w.Bounded h') : v.baseTy h = w.baseTy h' := by
  refine hvw.follow hh hh' baseTyStep_isLocal (fun _ _ => rfl) (fun _ _ _ => rfl) ?_ hv hw
  intro deref deref' v w hvw hslot hpointer
  cases hvw with
  | @atom v hatom =>
    cases v with
    | pointer e cell =>
      cases cell with
      | none => rfl
      | some a => cases hatom
    | slot v => cases hatom
    | _ => rfl
  | array hlength hitems => exact congrArg (Ty.array _) hlength
  | list | map | record => rfl
  | pointer => exact absurd rfl (hpointer _ _)
  | slot => exact absurd rfl (hslot _)

end Alike

end Value

end DynamicEval
