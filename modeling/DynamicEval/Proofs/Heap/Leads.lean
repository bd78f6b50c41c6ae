import DynamicEval.Proofs.Heap.Reach

/-!
# The way to the base

A value leads to its base through pointers and slots. The cells on the way are determined by the
value, so that no cell is met twice, and there are no more of them than the heap has.

## Main definitions

* `Value.IsBase`: neither a pointer nor a slot.
* `Heap.Leads`: the way from a value to its base.

## Main results

* `Heap.Leads.nodup`: no cell is met twice.
* `Heap.Leads.base_eq`: what a value leads to is its base.
* `Heap.exists_leads`: a value leads to its base if there is one.
-/

namespace DynamicEval

/-- Neither a pointer nor a slot. -/
def Value.IsBase (v : Value) : Prop := v.isPointer = false ∧ v.isSlot = false

/-- A value leads to a base, through the given cells. -/
inductive Heap.Leads (h : Heap) : Value → List Addr → Value → Prop where
  | base {u : Value} (hu : u.IsBase) : Leads h u [] u
  | slot {v : Value} {as : List Addr} {u : Value} (hv : Leads h v as u) : Leads h (.slot v) as u
  | pointer (e : Ty) {a : Addr} {as : List Addr} {u : Value} (ha : a < h.size)
      (hcell : Leads h (h.get a) as u) : Leads h (.pointer e (some a)) (a :: as) u

namespace Value

variable {u : Value}

theorem IsBase.baseStep_eq (hu : u.IsBase) (deref : Addr → Value) : u.baseStep deref = u := by
  cases u with
  | pointer => cases hu.1
  | emptySlot | slot => cases hu.2
  | _ => rfl

end Value

namespace Heap.Leads

variable {h : Heap} {v u w : Value} {a : Addr} {as bs : List Addr}

/-- There is one way at most. -/
theorem unique (hv : h.Leads v as u) (hv' : h.Leads v bs w) : as = bs ∧ u = w := by
  induction hv generalizing bs with
  | base hu =>
    cases hv' with
    | base => exact ⟨rfl, rfl⟩
    | slot => cases hu.2
    | pointer => cases hu.1
  | slot _ ih =>
    cases hv' with
    | base hu => cases hu.2
    | slot hv' => exact ih hv'
  | pointer e ha _ ih =>
    cases hv' with
    | base hu => cases hu.1
    | pointer _ _ hv' =>
      obtain ⟨rfl, rfl⟩ := ih hv'
      exact ⟨rfl, rfl⟩

/-- From a cell on the way, what is left of the way is shorter. -/
theorem suffix (hv : h.Leads v as u) (ha : a ∈ as) :
    ∃ bs, h.Leads (h.get a) bs u ∧ bs.length < as.length := by
  induction hv with
  | base => cases ha
  | slot _ ih => exact ih ha
  | pointer e _ hcell ih =>
    rcases List.mem_cons.mp ha with rfl | ha
    · exact ⟨_, hcell, Nat.lt_succ_self _⟩
    · obtain ⟨bs, hbs, hlt⟩ := ih ha
      exact ⟨bs, hbs, Nat.lt_succ_of_lt hlt⟩

/-- No cell is met twice. -/
theorem nodup (hv : h.Leads v as u) : as.Nodup := by
  induction hv with
  | base => exact List.nodup_nil
  | slot _ ih => exact ih
  | pointer e _ hcell ih =>
    refine List.nodup_cons.mpr ⟨fun hmem => ?_, ih⟩
    obtain ⟨bs, hbs, hlt⟩ := hcell.suffix hmem
    rw [(hcell.unique hbs).1] at hlt
    exact Nat.lt_irrefl _ hlt

theorem length_le (hv : h.Leads v as u) : as.length ≤ h.size := by
  have hlt : ∀ a ∈ as, a < h.size := by
    induction hv with
    | base => exact nofun
    | slot _ ih => exact ih
    | pointer e ha _ ih =>
      intro b hb
      rcases List.mem_cons.mp hb with rfl | hb
      · exact ha
      · exact ih b hb
  exact length_le_size hv.nodup hlt

/-- A heap with the same cells on the way has the same way. -/
theorem congr {h' : Heap} (hv : h.Leads v as u) (hsize : h.size ≤ h'.size)
    (hget : ∀ a ∈ as, h'.get a = h.get a) : h'.Leads v as u := by
  induction hv with
  | base hu => exact .base hu
  | slot _ ih => exact (ih hget).slot
  | pointer e ha _ ih =>
    obtain ⟨hcell, hget⟩ := List.forall_mem_cons.mp hget
    exact .pointer e (Nat.lt_of_lt_of_le ha hsize) (hcell ▸ ih hget)

/-- A step that looks through slots and pointers comes to the base. -/
theorem follow_eq {α : Type} {stop r : α} {step : (Addr → α) → Value → α}
    (hslot : ∀ deref v, step deref (.slot v) = step deref v)
    (hpointer : ∀ deref e a, step deref (.pointer e (some a)) = deref a)
    (hbase : ∀ deref, step deref u = r) (hv : h.Leads v as u) : h.follow stop step v = r := by
  suffices ∀ n, as.length ≤ n → h.unroll stop step n v = r from this h.size hv.length_le
  induction hv with
  | base =>
    intro n _
    cases n <;> exact hbase _
  | slot _ ih =>
    intro n hn
    rw [← ih hbase n hn]
    cases n <;> exact hslot _ _
  | pointer e _ _ ih =>
    intro n hn
    cases n with
    | zero => cases hn
    | succ n =>
      rw [unroll, hpointer]
      exact ih hbase n (Nat.le_of_succ_le_succ hn)

theorem isBase (hv : h.Leads v as u) : u.IsBase := by
  induction hv with
  | base hu => exact hu
  | slot _ ih | pointer _ _ _ ih => exact ih

/-- What a value leads to is its base. -/
theorem base_eq (hv : h.Leads v as u) : v.base h = u :=
  hv.follow_eq (fun _ _ => rfl) (fun _ _ _ => rfl) hv.isBase.baseStep_eq

/-- What is behind the value that another leads to is behind that one. -/
theorem reaches (hv : h.Leads v as u) (ha : h.Reaches u a) : h.Reaches v a :=
  Reaches.of_base (hv.base_eq.symm ▸ ha)

end Heap.Leads

section

variable {h : Heap} {v : Value}

/-- A step to the base leads there if the steps at cells do. -/
theorem Heap.leads_baseStep {deref : Addr → Value}
    (hderef : ∀ a, deref a ≠ .invalid → ∃ as, h.Leads (h.get a) as (deref a)) {v : Value}
    (hv : v.baseStep deref ≠ .invalid) : ∃ as, h.Leads v as (v.baseStep deref) := by
  match v with
  | .slot v =>
    obtain ⟨as, has⟩ := leads_baseStep hderef (v := v) hv
    exact ⟨as, has.slot⟩
  | .pointer e (some a) =>
    obtain ⟨as, has⟩ := hderef a hv
    by_cases ha : a < h.size
    · exact ⟨a :: as, .pointer e ha has⟩
    · -- A cell that is not there holds nothing.
      rw [get_of_size_le (Nat.not_lt.mp ha)] at has
      exact absurd (has.unique (.base ⟨rfl, rfl⟩)).2 hv
  | .pointer _ none | .emptySlot | .invalid => exact absurd rfl hv
  | .bool _ | .int _ _ | .uint _ _ | .float _ _ | .string _ | .list _ _ | .array _ _ | .map _ _ _
  | .record _ _ | .func _ => exact ⟨[], .base ⟨rfl, rfl⟩⟩

/-- A value leads to its base if there is one. -/
theorem Heap.exists_leads (hv : v.base h ≠ .invalid) : ∃ as, h.Leads v as (v.base h) := by
  suffices ∀ n v, h.unroll .invalid Value.baseStep n v ≠ .invalid →
      ∃ as, h.Leads v as (h.unroll .invalid Value.baseStep n v) from this h.size v hv
  intro n
  induction n with
  | zero => exact fun v => leads_baseStep fun _ hne => absurd rfl hne
  | succ n ih => exact fun v => leads_baseStep fun a => ih (h.get a)

end

end DynamicEval
