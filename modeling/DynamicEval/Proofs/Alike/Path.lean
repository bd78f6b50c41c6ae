import DynamicEval.Proofs.Alike
import DynamicEval.Proofs.Assoc
import DynamicEval.Proofs.Key

/-!
# Reads of values that look alike

What a path selects in two values that look alike looks alike too, as long as all exported fields
are seen: a segment finds its way by the structure of the base alone, and in a record it selects
exported fields only. The same goes for dotted identifiers and for the parts that are listed.

## Main definitions

* `Heap.Shares`: a value that stands on two heaps, with the same cells behind it.

## Main results

* `Value.Alike.part?`: what a segment selects in alike values.
* `Value.Alike.fieldAt?`, `Value.Alike.propAt?`: the values at a path.
* `Value.Alike.propById?`: the values at a dotted identifier.
* `Value.Alike.pairs`: the parts, with what selects them.
-/

namespace DynamicEval

/-! ### Segments that two heaps share -/

/-- A value that stands on two heaps, with the same cells behind it on both. On one heap that is
every value whose pointers are to its cells. -/
structure Heap.Shares (h h' : Heap) (v : Value) : Prop where
  /-- The pointers in the value are to cells of the first heap. -/
  bounded : v.Bounded h
  /-- The pointers in the value are to cells of the second heap. -/
  bounded' : v.Bounded h'
  /-- The cells behind the value are the same. -/
  get_eq : ∀ a, h.Reaches v a → h'.get a = h.get a

namespace Heap.Shares

variable {h h' : Heap} {v key : Value}

theorem symm (hs : h.Shares h' v) : h'.Shares h v where
  bounded := hs.bounded'
  bounded' := hs.bounded
  get_eq a ha := (hs.get_eq a (ha.of_get_eq hs.get_eq)).symm

/-- A value without pointers stands on any two heaps. -/
theorem of_not_points (hv : ∀ a, ¬v.Points a) : h.Shares h' v where
  bounded a ha := absurd ha (hv a)
  bounded' a ha := absurd ha (hv a)
  get_eq := by rintro a (hp | ⟨hp, -⟩) <;> exact absurd hp (hv _)

theorem steady (hs : h.Shares h' v) (hh : h.Orderly) (hle : h.size ≤ h'.size) : h.Steady h' v :=
  ⟨⟨hle, hs.get_eq⟩, hh.acyclic.behind v, hs.bounded⟩

/-- A segment that two heaps share selects the same place in a base on both. -/
theorem place?_eq (hs : h.Shares h' key) (hh : h.Orderly) (hh' : h'.Orderly) (base : Value) :
    base.place? key h' = base.place? key h := by
  rcases Nat.le_total h.size h'.size with hle | hle
  · exact (hs.steady hh hle).place?_eq hh.bounded base
  · exact ((hs.symm.steady hh' hle).place?_eq hh'.bounded base).symm

end Heap.Shares

/-! ### Related entries and items -/

/-- The items at one place of two lists are related if those at this place of the pairs are. -/
theorem rel_getElem? {α β : Type} {R : α → β → Prop} {vs : List α} {ws : List β} {i : Nat}
    (hlength : vs.length = ws.length) (hitem : ∀ x, (vs.zip ws)[i]? = some x → R x.1 x.2) :
    Option.Rel R vs[i]? ws[i]? := by
  rcases Nat.lt_or_ge i vs.length with hi | hi
  · have hv := List.getElem?_eq_getElem hi
    have hw := List.getElem?_eq_getElem (hlength ▸ hi : i < ws.length)
    rw [hv, hw]
    exact .some (hitem (vs[i], ws[i]) (List.getElem?_zip_eq_some.mpr ⟨hv, hw⟩))
  · rw [List.getElem?_eq_none hi, List.getElem?_eq_none (hlength ▸ hi)]
    exact .none

/-- Items with their places are related in turn if the items are. -/
theorem forall₂_zipIdx {α β : Type} {R : α → β → Prop} {vs : List α} {ws : List β}
    (hlength : vs.length = ws.length) (hitems : ∀ x ∈ vs.zip ws, R x.1 x.2) :
    List.Forall₂ (fun x y => R x.1 y.1 ∧ x.2 = y.2) vs.zipIdx ws.zipIdx := by
  refine List.forall₂_iff_get.mpr ⟨by simpa using hlength, fun i hi hi' => ?_⟩
  simp only [List.get_eq_getElem, List.getElem_zipIdx, and_true]
  rw [List.length_zipIdx] at hi hi'
  refine hitems (vs[i], ws[i]) (List.mem_of_getElem? (i := i) ?_)
  exact List.getElem?_zip_eq_some.mpr ⟨List.getElem?_eq_getElem hi, List.getElem?_eq_getElem hi'⟩

/-- The exported fields of two records of one type are related in turn if the fields are. -/
theorem forall₂_exportedFields {R : Value → Value → Prop} {r : RecordType} {vs ws : List Value}
    (hlength : vs.length = ws.length)
    (hfields : ∀ x ∈ r.fields.zip (vs.zip ws), x.1.exported = true → R x.2.1 x.2.2) :
    List.Forall₂ (fun x y => x.1 = y.1 ∧ R x.2 y.2) (Value.exportedFields r vs)
      (Value.exportedFields r ws) := by
  rw [Value.exportedFields, Value.exportedFields]
  generalize r.fields = fs at hfields
  induction fs generalizing vs ws with
  | nil => exact .nil
  | cons f fs ih =>
    cases vs with
    | nil =>
      cases List.eq_nil_of_length_eq_zero hlength.symm
      exact .nil
    | cons v vs =>
      obtain ⟨w, ws, rfl⟩ := List.exists_cons_of_length_eq_add_one hlength.symm
      obtain ⟨hf, hfields⟩ := List.forall_mem_cons.mp hfields
      have ih := ih (Nat.succ.inj hlength) hfields
      by_cases hexported : f.exported = true
      · simpa [hexported] using ⟨hf hexported, ih⟩
      · simpa [hexported] using ih

/-- Entries with the same keys have related values under each name of a key, if the values of the
same key are related and no two keys have the same name. -/
theorem Assoc.rel_find? {ι κ α β γ δ : Type} [DecidableEq κ] {R : γ → δ → Prop} {f : α → γ}
    {g : β → δ} {es : List (ι × α)} {fs : List (ι × β)} (name : ι → κ)
    (hkeys : (es.map Prod.fst).Perm (fs.map Prod.fst))
    (hvalues : ∀ x ∈ es, ∀ y ∈ fs, x.1 = y.1 → R (f x.2) (g y.2))
    (hnodup : (es.map fun x => name x.1).Nodup) (k : κ) :
    Option.Rel R (find? k (es.map fun x => (name x.1, f x.2)))
      (find? k (fs.map fun y => (name y.1, g y.2))) := by
  have hnames : (es.map fun x => name x.1).Perm (fs.map fun y => name y.1) := by
    simpa only [List.map_map, Function.comp_def] using hkeys.map name
  have hes : (es.map fun x => (name x.1, f x.2)).map Prod.fst = es.map fun x => name x.1 :=
    List.map_map
  have hfs : (fs.map fun y => (name y.1, g y.2)).map Prod.fst = fs.map fun y => name y.1 :=
    List.map_map
  cases hv : find? k (es.map fun x => (name x.1, f x.2)) with
  | none =>
    rw [find?_eq_none_iff, hes, hnames.mem_iff, ← hfs, ← find?_eq_none_iff] at hv
    rw [hv]
    exact .none
  | some c =>
    obtain ⟨x, hx, heq⟩ := List.mem_map.mp (mem_of_find?_eq_some hv)
    cases heq
    obtain ⟨y, hy, hxy⟩ := List.mem_map.mp (hkeys.subset (List.mem_map_of_mem hx))
    have hfound := find?_of_mem (hfs ▸ hnames.nodup hnodup)
      (List.mem_map_of_mem (f := fun y => (name y.1, g y.2)) hy)
    rw [hxy] at hfound
    rw [hfound]
    exact .some (hvalues x hx y hy hxy.symm)

namespace Entries

variable {α β : Type} {R : α → β → Prop} {es : List (Key × α)} {fs : List (Key × β)}

theorem find?_eq_assoc (place : BareKey) (es : List (Key × α)) :
    find? place es = Assoc.find? place (es.map fun x => (x.1.bare, x.2)) := by
  induction es with
  | nil => rfl
  | cons x es ih => rw [find?, List.map_cons, Assoc.find?, ih]

/-- Entries with the same keys are listed in one order, with related values if the values of the
same key are. -/
theorem forall₂_sorted (hkeys : (es.map Prod.fst).Perm (fs.map Prod.fst))
    (hvalues : ∀ x ∈ es, ∀ y ∈ fs, x.1 = y.1 → R x.2 y.2)
    (hnodup : (es.map fun entry => entry.1.bare).Nodup) :
    List.Forall₂ (fun x y => x.1 = y.1 ∧ R x.2 y.2) (sorted es) (sorted fs) := by
  have heq := map_fst_sorted_eq hkeys hnodup
  have hlength : (sorted es).length = (sorted fs).length := by
    simpa only [List.length_map] using congrArg List.length heq
  refine List.forall₂_iff_zip.mpr ⟨hlength, fun {x y} hxy => ?_⟩
  have hfst : x.1 = y.1 := by
    rw [← List.forall₂_eq_eq_eq, List.forall₂_map_left_iff, List.forall₂_map_right_iff] at heq
    exact List.forall₂_zip heq hxy
  obtain ⟨hx, hy⟩ := List.of_mem_zip hxy
  exact ⟨hfst, hvalues x (List.mem_mergeSort.mp hx) y (List.mem_mergeSort.mp hy) hfst⟩

end Entries

/-- The place of an exported field is that of a field that is exported. -/
theorem RecordOf.exists_exported_of_exportedIndex? (r : RecordType) {name : String} {i : Nat}
    (hi : r.exportedIndex? name = some i) :
    ∃ f, r.field? name = some f ∧ r.fields[i]? = some f ∧ f.exported = true := by
  obtain ⟨f, hf⟩ := r.exists_field?_of_exportedIndex? hi
  refine ⟨f, hf, r.getElem?_of_fieldIndex? hf (r.fieldIndex?_of_exportedIndex? hi), ?_⟩
  rw [exportedIndex?, hf] at hi
  by_contra hexported
  cases (if_neg hexported).symm.trans hi

/-! ### Reads -/

namespace Value.Alike

variable {seen : Field → Bool} {cells : Addr → Addr → Prop} {h h' : Heap} {v w key : Value}
  {path : List Value}

/-- A segment selects alike contents in alike bases. -/
theorem place? (hseen : ∀ f : Field, f.exported = true → seen f = true)
    (hvw : v.Alike seen cells h h' w) (hv : v.WellFormed h) (key : Value) (k : Heap) :
    Option.Rel (Alike seen cells h h') ((v.place? key k).map (·.content))
      ((w.place? key k).map (·.content)) := by
  cases hvw with
  | atom hatom =>
    cases v with
    | list | array | map | record => cases hatom
    | _ => exact .none
  | list hlength hitems | array hlength hitems =>
    simp only [Value.place?, itemPlace?, Option.map_bind, Function.comp_def, Option.map_map,
      Option.map_id']
    cases key.index? k with
    | none => exact .none
    | some i => exact rel_getElem? hlength fun x hx => hitems x (List.mem_of_getElem? hx)
  | @map kt _ _ _ hkeys hvalues =>
    simp only [Value.place?, entryPlace?, Option.map_bind, Function.comp_def, Option.map_map,
      Option.map_id']
    cases Key.place? kt key k with
    | none => exact .none
    | some place =>
      rw [Option.bind_some, Option.bind_some, Entries.find?_eq_assoc, Entries.find?_eq_assoc]
      have hnodup := (wellFormed_map.mp hv).places
      exact Assoc.rel_find? (f := id) (g := id) Key.bare hkeys hvalues hnodup place
  | @record r vs ws hlength hfields =>
    simp only [Value.place?, fieldPlace?]
    cases hi : r.exportedIndex? (key.toText k) with
    | none => exact .none
    | some i =>
      obtain ⟨f, hf, hget, hexported⟩ := r.exists_exported_of_exportedIndex? hi
      simp only [hf, Option.bind_some, Option.map_map, Function.comp_def, Option.map_id']
      -- The fields at this place are seen, so they have to be alike.
      refine rel_getElem? hlength fun x hx => hfields (f, x) ?_ (hseen f hexported)
      exact List.mem_of_getElem? (List.getElem?_zip_eq_some.mpr ⟨hget, hx⟩)
  | pointer | slot => exact .none

theorem baseKind_eq (hh : h.Orderly) (hh' : h'.Orderly) (hvw : v.Alike seen cells h h' w)
    (hv : v.WellFormed h) (hw : w.WellFormed h') : v.baseKind h = w.baseKind h' :=
  congrArg Ty.kind (hvw.baseTy_eq hh hh' hv.bounded hw.bounded)

section

variable (hseen : ∀ f : Field, f.exported = true → seen f = true) (hh : h.Orderly)
  (hh' : h'.Orderly) (hvw : v.Alike seen cells h h' w) (hv : v.WellFormed h) (hw : w.WellFormed h')

include hseen hh hh' hvw hv hw

/-- A segment selects alike parts. -/
theorem part? (hkey : h.Shares h' key) :
    Option.Rel (Alike seen cells h h') (v.part? key h) (w.part? key h') := by
  rw [part?_eq_place?, part?_eq_place?, hkey.place?_eq hh hh']
  have hbase := hvw.base hh hh' hv.bounded hw.bounded
  exact hbase.place? hseen (hv.base hh.wellFormed) key h

/-- The segments of a path select alike values one after the other. -/
theorem walk? (hpath : ∀ key ∈ path, h.Shares h' key) :
    Option.Rel (Alike seen cells h h') (v.walk? h path) (w.walk? h' path) := by
  induction path generalizing v w with
  | nil => exact .some hvw
  | cons key path ih =>
    obtain ⟨hkey, hpath⟩ := List.forall_mem_cons.mp hpath
    have hparts := hvw.part? hseen hh hh' hv hw hkey
    rw [Value.walk?, Value.walk?]
    generalize hp : v.part? key h = p, hq : w.part? key h' = q at hparts ⊢
    cases hparts with
    | none => exact .none
    | some hpq =>
      have hp := part?_wellFormed hh.wellFormed hv hp
      exact ih hpq hp (part?_wellFormed hh'.wellFormed hw hq) hpath

/-- The values at a path are alike. -/
theorem fieldAt? (hpath : ∀ key ∈ path, h.Shares h' key) :
    Option.Rel (Alike seen cells h h') (v.fieldAt? path h) (w.fieldAt? path h') := by
  rw [Value.fieldAt?, Value.fieldAt?, isBasic, isBasic, hvw.baseKind_eq hh hh' hv hw, hvw.isNil_eq]
  split
  · exact .none
  · exact hvw.walk? hseen hh hh' hv hw hpath

/-- The values at a path are alike out of their slots. -/
theorem propAt? (hpath : ∀ key ∈ path, h.Shares h' key) :
    Option.Rel (Alike seen cells h h') (v.propAt? path h) (w.propAt? path h') := by
  have hfields := hvw.fieldAt? hseen hh hh' hv hw hpath
  rw [Value.propAt?, Value.propAt?]
  generalize v.fieldAt? path h = p, w.fieldAt? path h' = q at hfields ⊢
  cases hfields with
  | none => exact .none
  | some hpq => exact .some hpq.peel

/-- The values at a dotted identifier are alike. -/
theorem propById? (ident : String) :
    Option.Rel (Alike seen cells h h') (v.propById? ident h) (w.propById? ident h') := by
  have hkey (s : String) : h.Shares h' (.string s) := .of_not_points nofun
  have hpath : ∀ key ∈ pathOf ident, h.Shares h' key := List.forall_mem_map.mpr fun s _ => hkey s
  have hident := hvw.propAt? hseen hh hh' hv hw hpath
  have hwhole := hvw.propAt? hseen hh hh' hv hw (List.forall_mem_singleton.mpr (hkey ident))
  rw [Value.propById?, Value.propById?, isBasic, isBasic, isMap, isMap,
    hvw.baseKind_eq hh hh' hv hw, hvw.isNil_eq]
  split
  · exact .none
  generalize v.propAt? (pathOf ident) h = p, w.propAt? (pathOf ident) h' = q at hident ⊢
  cases hident with
  | some hpq => exact .some hpq
  | none =>
    dsimp only
    split
    · exact hwhole
    · exact .none

/-- The parts that are listed have the same selectors and are alike. -/
theorem pairs :
    List.Forall₂ (fun x y => x.1 = y.1 ∧ x.2.Alike seen cells h h' y.2) (v.pairs h)
      (w.pairs h') := by
  have hbase := hvw.base hh hh' hv.bounded hw.bounded
  have hwf := hv.base hh.wellFormed
  rw [Value.pairs, Value.pairs, isBasic, isBasic, hvw.baseKind_eq hh hh' hv hw, hvw.isNil_eq]
  split
  · exact .nil
  generalize v.base h = a, w.base h' = b at hbase hwf ⊢
  cases hbase with
  | atom hatom =>
    cases a with
    | list | array | map | record => cases hatom
    | _ => exact .nil
  | list hlength hitems | array hlength hitems =>
    rw [List.forall₂_map_left_iff, List.forall₂_map_right_iff]
    exact (forall₂_zipIdx hlength hitems).imp fun x y hxy =>
      ⟨congrArg (fun i : Nat => int .word (.ofNat i)) hxy.2, hxy.1.peel⟩
  | map hkeys hvalues =>
    rw [List.forall₂_map_left_iff, List.forall₂_map_right_iff]
    have hnodup := (wellFormed_map.mp hwf).places
    exact (Entries.forall₂_sorted hkeys hvalues hnodup).imp fun x y hxy =>
      ⟨congrArg Key.value hxy.1, hxy.2.peel⟩
  | record hlength hfields =>
    rw [List.forall₂_map_left_iff, List.forall₂_map_right_iff]
    exact (forall₂_exportedFields hlength fun x hx hf => hfields x hx (hseen _ hf)).imp
      fun x y hxy => ⟨congrArg string hxy.1, hxy.2.peel⟩
  | pointer | slot => exact .nil

end

end Value.Alike

end DynamicEval
