import DynamicEval.Proofs.Alike

/-!
# Values without what is not exported

A value is redacted by setting every field of its records to zero that is not exported. Two values
are the same to the public if they are the same up to the identity of cells once they and all cells
are redacted. This is to say that they look alike where the exported fields are seen.

## Main definitions

* `Value.redact`, `Heap.redact`: a value and a heap with the fields set to zero that are not
  exported.
* `Value.PublicEq`: values that are the same once they are redacted.

## Main results

* `Value.publicEq_iff_alike`: values are the same to the public if they look alike where the
  exported fields are seen.
-/

namespace DynamicEval

mutual

/-- A value with all fields of records set to the zero of their type that are not exported. -/
def Value.redact : Value → Value
  | .list e items => .list e (Value.redactItems items)
  | .array e items => .array e (Value.redactItems items)
  | .map k e entries => .map k e (Value.redactEntries entries)
  | .record r fields => .record r (Value.redactFields fields r.fields)
  | .slot v => .slot v.redact
  | v => v
termination_by structural v => v

/-- Redacts values one by one. -/
def Value.redactItems : List Value → List Value
  | [] => []
  | v :: vs => v.redact :: Value.redactItems vs
termination_by structural vs => vs

/-- Redacts the values of a map. -/
def Value.redactEntries : List (Key × Value) → List (Key × Value)
  | [] => []
  | (k, v) :: es => (k, v.redact) :: Value.redactEntries es
termination_by structural es => es

/-- Redacts the exported ones among the fields of a record and sets the others to zero. -/
def Value.redactFields : List Value → List Field → List Value
  | v :: vs, f :: fs => (if f.exported then v.redact else f.ty.zero) :: Value.redactFields vs fs
  | _, _ => []
termination_by structural vs => vs

end

/-- A heap with all cells redacted. -/
def Heap.redact (h : Heap) : Heap := ⟨h.cells.map Value.redact⟩

/-- Two values are the same up to the identity of cells once all fields that are not exported are
set to zero, at any depth and behind all pointers and slots. One cell stands for another if `cells`
relates them. -/
def Value.PublicEq (cells : Addr → Addr → Prop) (h h' : Heap) (v w : Value) : Prop :=
  v.redact.Same cells h.redact h'.redact w.redact

/-! ### Redacted parts -/

namespace Heap

@[simp] theorem get_redact (h : Heap) (a : Addr) : h.redact.get a = (h.get a).redact := by
  rw [get, get, redact, Array.getD_eq_getD_getElem?, Array.getD_eq_getD_getElem?,
    Array.getElem?_map]
  cases h.cells[a]? <;> rfl

end Heap

namespace Value

variable {cells : Addr → Addr → Prop} {h h' : Heap} {v w : Value}

theorem redactItems_eq_map (vs : List Value) : redactItems vs = vs.map redact := by
  induction vs with
  | nil => rfl
  | cons v vs ih => rw [redactItems, ih, List.map_cons]

theorem redactEntries_eq_map (es : List (Key × Value)) :
    redactEntries es = es.map fun entry => (entry.1, entry.2.redact) := by
  induction es with
  | nil => rfl
  | cons entry es ih => rw [redactEntries, ih, List.map_cons]

theorem map_fst_redactEntries (es : List (Key × Value)) :
    (redactEntries es).map Prod.fst = es.map Prod.fst := by
  rw [redactEntries_eq_map, List.map_map]
  rfl

theorem length_redactFields (fs : List Field) (vs : List Value) :
    (redactFields vs fs).length = min fs.length vs.length := by
  induction fs generalizing vs with
  | nil => cases vs <;> simp [redactFields]
  | cons f fs ih => cases vs <;> simp [redactFields, ih]

/-- The redacted fields of two records of one type at the same places. -/
theorem zip_redactFields (fs : List Field) (vs ws : List Value) :
    fs.zip ((redactFields vs fs).zip (redactFields ws fs)) = (fs.zip (vs.zip ws)).map fun x =>
      (x.1, if x.1.exported then (x.2.1.redact, x.2.2.redact) else (x.1.ty.zero, x.1.ty.zero)) := by
  induction fs generalizing vs ws with
  | nil => rfl
  | cons f fs ih =>
    cases vs with
    | nil => rfl
    | cons v vs =>
      cases ws with
      | nil => rfl
      | cons w ws =>
        simp only [redactFields, List.zip_cons_cons, List.map_cons, ih]
        cases f.exported <;> rfl

theorem redact_eq_self (hv : v.isAtom = true) : v.redact = v := by
  cases v with
  | list | array | map | record | slot => cases hv
  | _ => rfl

/-- Nothing but a value without parts and without a cell becomes one by being redacted. -/
theorem isAtom_redact (v : Value) : v.redact.isAtom = v.isAtom := by
  cases v <;> rfl

/-! ### Alike where the exported fields are seen -/

/-- Values that look alike where the exported fields are seen are the same once redacted. -/
theorem Alike.publicEq (hvw : v.Alike (·.exported) cells h h' w) : v.PublicEq cells h h' w := by
  induction hvw with
  | atom hatom =>
    rw [PublicEq, redact_eq_self hatom]
    exact .atom hatom
  | list hlength _ ih =>
    rw [PublicEq, redact, redact, redactItems_eq_map, redactItems_eq_map]
    refine .list (by simpa using hlength) ?_
    rw [List.zip_map]
    exact List.forall_mem_map.mpr ih
  | array hlength _ ih =>
    rw [PublicEq, redact, redact, redactItems_eq_map, redactItems_eq_map]
    refine .array (by simpa using hlength) ?_
    rw [List.zip_map]
    exact List.forall_mem_map.mpr ih
  | map hkeys _ ih =>
    refine .map (by rwa [map_fst_redactEntries, map_fst_redactEntries]) ?_
    rw [redactEntries_eq_map, redactEntries_eq_map]
    exact List.forall_mem_map.mpr fun x hx => List.forall_mem_map.mpr fun y hy => ih x hx y hy
  | @record r vs ws hlength _ ih =>
    refine .record (by rw [length_redactFields, length_redactFields, hlength]) ?_
    rw [zip_redactFields]
    refine List.forall_mem_map.mpr fun x hx _ => ?_
    by_cases hexported : x.1.exported = true
    · simpa only [if_pos hexported, PublicEq] using ih x hx hexported
    · simpa only [if_neg hexported] using x.1.ty.zero_alike _ _ _ _
  | pointer hcells _ ih =>
    refine .pointer hcells ?_
    rwa [Heap.get_redact, Heap.get_redact]
  | slot _ ih => exact .slot ih

/-- Values that are the same once redacted look alike where the exported fields are seen. -/
theorem PublicEq.alike (hh : h.WellFormed) (hh' : h'.WellFormed) (hvw : v.PublicEq cells h h' w)
    (hv : v.WellFormed h) (hw : w.WellFormed h') : v.Alike (·.exported) cells h h' w := by
  rw [PublicEq] at hvw
  generalize hv' : v.redact = v', hw' : w.redact = w' at hvw
  induction hvw generalizing v w with
  | atom hatom =>
    have hv := hatom
    have hw := hatom
    rw [← hv', isAtom_redact] at hv
    rw [← hw', isAtom_redact] at hw
    rw [← redact_eq_self hv, ← redact_eq_self hw, hv', hw']
    exact .atom hatom
  | list hlength _ ih =>
    cases v <;> cases hv'
    cases w <;> cases hw'
    rw [redactItems_eq_map, redactItems_eq_map] at hlength ih
    rw [List.zip_map] at ih
    refine .list (by simpa using hlength) fun x hx => ?_
    obtain ⟨hx₁, hx₂⟩ := List.of_mem_zip hx
    exact ih _ (List.mem_map_of_mem hx) (wellFormed_list.mp hv _ hx₁).wellFormed
      (wellFormed_list.mp hw _ hx₂).wellFormed rfl rfl
  | array hlength _ ih =>
    cases v <;> cases hv'
    cases w <;> cases hw'
    rw [redactItems_eq_map, redactItems_eq_map] at hlength ih
    rw [List.zip_map] at ih
    refine .array (by simpa using hlength) fun x hx => ?_
    obtain ⟨hx₁, hx₂⟩ := List.of_mem_zip hx
    exact ih _ (List.mem_map_of_mem hx) (wellFormed_array.mp hv _ hx₁).wellFormed
      (wellFormed_array.mp hw _ hx₂).wellFormed rfl rfl
  | map hkeys _ ih =>
    cases v <;> cases hv'
    cases w <;> cases hw'
    rw [map_fst_redactEntries, map_fst_redactEntries] at hkeys
    rw [redactEntries_eq_map, redactEntries_eq_map] at ih
    refine .map hkeys fun x hx y hy hxy => ?_
    exact ih _ (List.mem_map_of_mem hx) _ (List.mem_map_of_mem hy) hxy
      ((wellFormed_map.mp hv).values x hx).wellFormed
      ((wellFormed_map.mp hw).values y hy).wellFormed rfl rfl
  | record _ _ ih =>
    cases v <;> cases hv'
    cases w <;> cases hw'
    have hv := wellFormed_record.mp hv
    have hw := wellFormed_record.mp hw
    rw [zip_redactFields] at ih
    refine .record (hv.length_eq.symm.trans hw.length_eq) fun x hx hexported => ?_
    obtain ⟨hx₁, hx₂⟩ := List.of_mem_zip (List.of_mem_zip hx).2
    obtain ⟨_, _, hv⟩ := exists_fits_of_mem hv hx₁
    obtain ⟨_, _, hw⟩ := exists_fits_of_mem hw hx₂
    refine ih _ (List.mem_map_of_mem hx) rfl hv.wellFormed hw.wellFormed ?_ ?_ <;>
      rw [if_pos hexported]
  | pointer hcells _ ih =>
    cases v <;> cases hv'
    cases w <;> cases hw'
    rw [Heap.get_redact, Heap.get_redact] at ih
    have hv := (wellFormed_pointer.mp hv).1
    have hw := (wellFormed_pointer.mp hw).1
    exact .pointer hcells (ih (hh _ hv) (hh' _ hw) rfl rfl)
  | slot _ ih =>
    cases v <;> cases hv'
    cases w <;> cases hw'
    exact .slot (ih (wellFormed_slot.mp hv).2.2 (wellFormed_slot.mp hw).2.2 rfl rfl)

/-- Values are the same to the public if they look alike where the exported fields are seen. -/
theorem publicEq_iff_alike (hh : h.WellFormed) (hh' : h'.WellFormed) (hv : v.WellFormed h)
    (hw : w.WellFormed h') : v.PublicEq cells h h' w ↔ v.Alike (·.exported) cells h h' w :=
  ⟨fun hvw => hvw.alike hh hh' hv hw, Alike.publicEq⟩

end Value

end DynamicEval
