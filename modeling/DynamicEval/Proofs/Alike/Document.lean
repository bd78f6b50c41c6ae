import DynamicEval.Proofs.Alike.Path
import DynamicEval.Proofs.Json.RoundTrip

/-!
# Documents of values that look alike

Members of an object have no order, so two documents are the same if their objects have the same
documents under the same names. Values that look alike are rendered as the same document. Maps of
which two keys are shown under one name are left out: which of their values is rendered depends on
the order in which the places were filled.

## Main definitions

* `Document.Same`: documents that differ in the order of members only.
* `Value.Renders`: the values that are rendered with a value.
* `Value.DistinctNames`: no two keys of a rendered map are shown under one name.

## Main results

* `Value.toDocument_list`, `Value.toDocument_map`, … : the documents of values with parts.
* `Value.Alike.toDocument`: values that look alike are rendered as the same document.
-/

namespace DynamicEval

/-- Two documents are the same up to the order of the members of objects. -/
inductive Document.Same : Document → Document → Prop where
  | refl (d : Document) : Same d d
  | list {ds es : List Document} (hlength : ds.length = es.length)
      (hitems : ∀ x ∈ ds.zip es, Same x.1 x.2) : Same (.list ds) (.list es)
  /-- Members are found by their names. -/
  | object {ms ns : List (String × Document)}
      (hnames : ∀ name, (Assoc.find? name ms).isSome = (Assoc.find? name ns).isSome)
      (hmembers : ∀ name d e, Assoc.find? name ms = some d → Assoc.find? name ns = some e →
        Same d e) : Same (.object ms) (.object ns)

/-- A value is rendered with another one: it is the value itself or part of it, but no part of a
field that is not exported. -/
inductive Value.Renders (h : Heap) : Value → Value → Prop where
  | refl (v : Value) : Renders h v v
  | list {e : Ty} {items : List Value} {v u : Value} (hmem : v ∈ items) (hu : Renders h v u) :
      Renders h (.list e items) u
  | array {e : Ty} {items : List Value} {v u : Value} (hmem : v ∈ items) (hu : Renders h v u) :
      Renders h (.array e items) u
  | map {k e : Ty} {entries : List (Key × Value)} {entry : Key × Value} {u : Value}
      (hmem : entry ∈ entries) (hu : Renders h entry.2 u) : Renders h (.map k e entries) u
  | record {r : RecordType} {fields : List Value} {f : Field} {v u : Value}
      (hmem : (f, v) ∈ r.fields.zip fields) (hf : f.exported = true) (hu : Renders h v u) :
      Renders h (.record r fields) u
  | pointer {e : Ty} {a : Addr} {u : Value} (hu : Renders h (h.get a) u) :
      Renders h (.pointer e (some a)) u
  | slot {v u : Value} (hu : Renders h v u) : Renders h (.slot v) u

/-- No two keys of a map that is rendered with a value are shown under one name. -/
def Value.DistinctNames (v : Value) (h : Heap) : Prop :=
  ∀ k e entries, v.Renders h (.map k e entries) → (entries.map fun entry => entry.1.text).Nodup

/-! ### Rendering over the heap -/

section

variable {deref deref' : Addr → Document}

mutual

theorem Value.documentStep_congr (v : Value) (hd : ∀ a, v.Points a → deref a = deref' a) :
    v.documentStep deref = v.documentStep deref' := by
  match v with
  | .pointer e (some a) => exact hd a (.pointer e a)
  | .slot v => exact Value.documentStep_congr v fun a ha => hd a (.slot ha)
  | .list e items =>
    rw [Value.documentStep, Value.documentStep,
      Value.documentsStep_congr items fun v hv a ha => hd a (.list hv ha)]
  | .array e items =>
    rw [Value.documentStep, Value.documentStep,
      Value.documentsStep_congr items fun v hv a ha => hd a (.array hv ha)]
  | .map k e entries =>
    rw [Value.documentStep, Value.documentStep,
      Value.entryMembersStep_congr entries fun entry hentry a ha => hd a (.map hentry ha)]
  | .record r fields =>
    rw [Value.documentStep, Value.documentStep,
      Value.fieldMembersStep_congr fields fun v hv a ha => hd a (.record hv ha)]
  | .pointer _ none | .emptySlot | .invalid | .bool _ | .int _ _ | .uint _ _ | .float _ _
  | .string _ | .func _ => rfl

theorem Value.documentsStep_congr (vs : List Value)
    (hd : ∀ v ∈ vs, ∀ a, v.Points a → deref a = deref' a) :
    Value.documentsStep deref vs = Value.documentsStep deref' vs := by
  match vs with
  | [] => rfl
  | v :: vs =>
    rw [Value.documentsStep, Value.documentsStep,
      Value.documentStep_congr v (hd v List.mem_cons_self),
      Value.documentsStep_congr vs fun w hw => hd w (List.mem_cons_of_mem _ hw)]

theorem Value.entryMembersStep_congr (es : List (Key × Value))
    (hd : ∀ entry ∈ es, ∀ a, entry.2.Points a → deref a = deref' a)
    (members : List (String × Document)) :
    Value.entryMembersStep deref es members = Value.entryMembersStep deref' es members := by
  match es with
  | [] => rfl
  | (k, v) :: es =>
    rw [Value.entryMembersStep, Value.entryMembersStep,
      Value.documentStep_congr v (hd (k, v) List.mem_cons_self),
      Value.entryMembersStep_congr es fun w hw => hd w (List.mem_cons_of_mem _ hw)]

theorem Value.fieldMembersStep_congr (vs : List Value)
    (hd : ∀ v ∈ vs, ∀ a, v.Points a → deref a = deref' a) (fs : List Field)
    (members : List (String × Document)) :
    Value.fieldMembersStep deref vs fs members = Value.fieldMembersStep deref' vs fs members := by
  match vs, fs with
  | [], _ | _ :: _, [] => rfl
  | v :: vs, f :: fs =>
    rw [Value.fieldMembersStep, Value.fieldMembersStep,
      Value.documentStep_congr v (hd v List.mem_cons_self),
      Value.fieldMembersStep_congr vs fun w hw => hd w (List.mem_cons_of_mem _ hw)]

end

end

namespace Value

theorem documentStep_isLocal : IsLocal documentStep := fun v hd => documentStep_congr v hd

variable {h : Heap} {v : Value} {e k : Ty}

/-- A value is rendered in one step if its cells are. -/
theorem toDocument_eq (hh : h.Orderly) (hv : v.Bounded h) :
    v.toDocument h = v.documentStep fun a => (h.get a).toDocument h :=
  hh.follow_eq hv documentStep_isLocal

theorem documentsStep_eq_map (deref : Addr → Document) (vs : List Value) :
    documentsStep deref vs = vs.map (·.documentStep deref) := by
  induction vs with
  | nil => rfl
  | cons v vs ih => rw [documentsStep, ih, List.map_cons]

theorem toDocument_list {items : List Value} (hh : h.Orderly) (hv : (list e items).Bounded h) :
    (list e items).toDocument h = .list (items.map (·.toDocument h)) := by
  rw [toDocument_eq hh hv, documentStep, documentsStep_eq_map]
  refine congrArg Document.list (List.map_congr_left fun v hmem => ?_)
  exact (toDocument_eq hh fun a ha => hv a (.list hmem ha)).symm

theorem toDocument_array {items : List Value} (hh : h.Orderly) (hv : (array e items).Bounded h) :
    (array e items).toDocument h = .list (items.map (·.toDocument h)) := by
  rw [toDocument_eq hh hv, documentStep, documentsStep_eq_map]
  refine congrArg Document.list (List.map_congr_left fun v hmem => ?_)
  exact (toDocument_eq hh fun a ha => hv a (.array hmem ha)).symm

theorem toDocument_map {entries : List (Key × Value)} (hh : h.Orderly)
    (hv : (map k e entries).Bounded h) (hnodup : (entries.map fun entry => entry.1.text).Nodup) :
    (map k e entries).toDocument h =
      .object (entries.map fun entry => (entry.1.text, entry.2.toDocument h)) := by
  rw [toDocument_eq hh hv, documentStep, entryMembersStep_eq hnodup fun _ _ => rfl, List.nil_append]
  refine congrArg Document.object (List.map_congr_left fun entry hmem => ?_)
  rw [toDocument_eq hh fun a ha => hv a (.map hmem ha)]

theorem toDocument_pointer {a : Addr} (hh : h.Orderly) (hv : (pointer e (some a)).Bounded h) :
    (pointer e (some a)).toDocument h = (h.get a).toDocument h :=
  toDocument_eq hh hv

theorem toDocument_slot (hh : h.Orderly) (hv : (slot v).Bounded h) :
    (slot v).toDocument h = v.toDocument h := by
  rw [toDocument_eq hh hv, toDocument_eq hh hv.slot, documentStep]

end Value

/-! ### The same members -/

namespace Document.Same

/-- Lists are the same if the documents of their items are, in turn. -/
theorem list_map {f g : Value → Document} {vs ws : List Value} (hlength : vs.length = ws.length)
    (hitems : ∀ x ∈ vs.zip ws, (f x.1).Same (g x.2)) :
    Same (.list (vs.map f)) (.list (ws.map g)) := by
  refine .list (by simpa using hlength) ?_
  rw [List.zip_map]
  exact List.forall_mem_map.mpr hitems

/-- Objects that have the same documents under the same names are the same. -/
theorem of_find? {ms ns : List (String × Document)}
    (hfind : ∀ name, Option.Rel Same (Assoc.find? name ms) (Assoc.find? name ns)) :
    Same (.object ms) (.object ns) := by
  refine .object (fun name => ?_) fun name d e hd he => ?_
  · have hde := hfind name
    generalize Assoc.find? name ms = d, Assoc.find? name ns = e at hde ⊢
    cases hde <;> rfl
  · have hde := hfind name
    rw [hd, he] at hde
    cases hde with
    | some hde => exact hde

end Document.Same

namespace Value

variable {deref deref' : Addr → Document}

/-- The exported fields of two records of one type become the same members if their documents are
the same. -/
theorem rel_find?_fieldMembersStep {fs : List Field} {vs ws : List Value}
    (hlength : vs.length = ws.length)
    (hfields : ∀ x ∈ fs.zip (vs.zip ws), x.1.exported = true →
      (x.2.1.documentStep deref).Same (x.2.2.documentStep deref'))
    {ms ns : List (String × Document)}
    (hms : ∀ name, Option.Rel Document.Same (Assoc.find? name ms) (Assoc.find? name ns))
    (name : String) :
    Option.Rel Document.Same (Assoc.find? name (fieldMembersStep deref vs fs ms))
      (Assoc.find? name (fieldMembersStep deref' ws fs ns)) := by
  induction fs generalizing vs ws ms ns with
  | nil => cases vs <;> cases ws <;> exact hms name
  | cons f fs ih =>
    cases vs with
    | nil =>
      cases List.eq_nil_of_length_eq_zero hlength.symm
      exact hms name
    | cons v vs =>
      obtain ⟨w, ws, rfl⟩ := List.exists_cons_of_length_eq_add_one hlength.symm
      obtain ⟨hf, hfields⟩ := List.forall_mem_cons.mp hfields
      rw [fieldMembersStep, fieldMembersStep]
      refine ih (Nat.succ.inj hlength) hfields fun name => ?_
      by_cases hexported : f.exported = true
      · rw [if_pos hexported, if_pos hexported, Assoc.find?_put, Assoc.find?_put]
        split
        · exact .some (hf hexported)
        · exact hms name
      · rw [if_neg hexported, if_neg hexported]
        exact hms name

theorem mem_zip_of_mem_zip_zip {α β γ : Type} {as : List α} {bs : List β} {cs : List γ}
    {x : α × β × γ} (hx : x ∈ as.zip (bs.zip cs)) : (x.1, x.2.1) ∈ as.zip bs := by
  obtain ⟨i, hi⟩ := List.mem_iff_getElem?.mp hx
  obtain ⟨ha, hbc⟩ := List.getElem?_zip_eq_some.mp hi
  have hb := (List.getElem?_zip_eq_some.mp hbc).1
  exact List.mem_of_getElem? (List.getElem?_zip_eq_some.mpr ⟨ha, hb⟩)

/-- Values that look alike are rendered as the same document. -/
theorem Alike.toDocument {seen : Field → Bool} {cells : Addr → Addr → Prop} {h h' : Heap}
    {v w : Value} (hseen : ∀ f : Field, f.exported = true → seen f = true) (hh : h.Orderly)
    (hh' : h'.Orderly) (hvw : v.Alike seen cells h h' w) (hv : v.Bounded h) (hw : w.Bounded h')
    (hnames : v.DistinctNames h) : (v.toDocument h).Same (w.toDocument h') := by
  induction hvw with
  | @atom v hatom =>
    rw [toDocument_eq hh hv, toDocument_eq hh' hw]
    cases v with
    | pointer e cell =>
      cases cell with
      | none => exact .refl _
      | some a => cases hatom
    | list | array | map | record | slot => cases hatom
    | _ => exact .refl _
  | list hlength _ ih =>
    rw [toDocument_list hh hv, toDocument_list hh' hw]
    refine .list_map hlength fun x hx => ?_
    obtain ⟨hx₁, hx₂⟩ := List.of_mem_zip hx
    exact ih x hx (fun a ha => hv a (.list hx₁ ha)) (fun a ha => hw a (.list hx₂ ha))
      fun k e es hes => hnames k e es (.list hx₁ hes)
  | array hlength _ ih =>
    rw [toDocument_array hh hv, toDocument_array hh' hw]
    refine .list_map hlength fun x hx => ?_
    obtain ⟨hx₁, hx₂⟩ := List.of_mem_zip hx
    exact ih x hx (fun a ha => hv a (.array hx₁ ha)) (fun a ha => hw a (.array hx₂ ha))
      fun k e es hes => hnames k e es (.array hx₁ hes)
  | @map kt et es fs hkeys _ ih =>
    have hnodup := hnames kt et es (.refl _)
    have hnodup' : (fs.map fun entry => entry.1.text).Nodup := by
      have hperm := hkeys.map Key.text
      rw [List.map_map, List.map_map] at hperm
      exact hperm.nodup hnodup
    rw [toDocument_map hh hv hnodup, toDocument_map hh' hw hnodup']
    refine .of_find? (Assoc.rel_find? Key.text hkeys (fun x hx y hy hxy => ?_) hnodup)
    exact ih x hx y hy hxy (fun a ha => hv a (.map hx ha)) (fun a ha => hw a (.map hy ha))
      fun k e es hes => hnames k e es (.map hx hes)
  | @record r vs ws hlength _ ih =>
    rw [toDocument_eq hh hv, toDocument_eq hh' hw]
    refine .of_find? (rel_find?_fieldMembersStep hlength (fun x hx hexported => ?_) fun _ => .none)
    obtain ⟨hx₁, hx₂⟩ := List.of_mem_zip (List.of_mem_zip hx).2
    have hv₁ : x.2.1.Bounded h := fun a ha => hv a (.record hx₁ ha)
    have hw₂ : x.2.2.Bounded h' := fun a ha => hw a (.record hx₂ ha)
    have hmem : (x.1, x.2.1) ∈ r.fields.zip vs := mem_zip_of_mem_zip_zip hx
    rw [← toDocument_eq hh hv₁, ← toDocument_eq hh' hw₂]
    exact ih x hx (hseen _ hexported) hv₁ hw₂
      fun k e es hes => hnames k e es (.record hmem hexported hes)
  | pointer _ _ ih =>
    rw [toDocument_pointer hh hv, toDocument_pointer hh' hw]
    exact ih (hv.cell hh.bounded) (hw.cell hh'.bounded)
      fun k e es hes => hnames k e es (.pointer hes)
  | slot _ ih =>
    rw [toDocument_slot hh hv, toDocument_slot hh' hw]
    exact ih hv.slot hw.slot fun k e es hes => hnames k e es (.slot hes)

end Value

end DynamicEval
