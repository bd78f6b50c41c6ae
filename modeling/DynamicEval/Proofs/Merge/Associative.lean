import DynamicEval.Proofs.Merge.Neutral
import DynamicEval.Proofs.WellFormed.Merge
import DynamicEval.Proofs.Zero

/-!
# Merges one after another

Where no pointer, slot or missing type occurs in a type, merges of its lists, arrays, maps and
records are associative, and merging the zero of the type changes nothing.

The rules of a merge ask whether the source is zero, and where sources are merged first they ask
this about what came of it. For parts that are not united the answer is that of the later source.
For parts that are united it does not matter: a union with a zero is the destination, so the rules
may as well unite without asking.

## Main definitions

* `Ty.isStatic`: whether no pointer, slot or missing type occurs in a type.

## Main results

* `Value.union_of_isZero`: a union with a zero changes nothing.
* `Value.union_assoc`, `Value.unionFields_assoc`, `Value.unionEntries_assoc`: unions of values,
  fields and entries are associative.
* `Value.merge_assoc`: merges are associative, and the zero of the type is neutral.
-/

namespace DynamicEval

/-! ### Static types -/

mutual

/-- Whether no pointer, slot or missing type occurs in a type. -/
def Ty.isStatic : Ty → Bool
  | .invalid | .pointer _ | .any => false
  | .list e | .array e _ => e.isStatic
  | .map k e => k.isStatic && e.isStatic
  | .record ⟨_, fields, _⟩ => Ty.areStatic fields
  | .bool | .int _ | .uint _ | .float _ | .string | .func => true
termination_by structural t => t

/-- Whether the types of fields are static. -/
def Ty.areStatic : List Field → Bool
  | [] => true
  | ⟨_, ty, _⟩ :: fs => ty.isStatic && Ty.areStatic fs
termination_by structural fs => fs

end

mutual

theorem Ty.isStatic_core (t : Ty) : t.core.isStatic = t.isStatic := by
  match t with
  | .list e | .array e _ | .pointer e => simp [Ty.core, Ty.isStatic, Ty.isStatic_core e]
  | .map k e => simp [Ty.core, Ty.isStatic, Ty.isStatic_core k, Ty.isStatic_core e]
  | .record ⟨_, fields, _⟩ => simp [Ty.core, Ty.isStatic, Ty.areStatic_coreFields fields]
  | .invalid | .bool | .string | .func | .any | .int _ | .uint _ | .float _ => rfl

theorem Ty.areStatic_coreFields (fs : List Field) :
    Ty.areStatic (Ty.coreFields fs) = Ty.areStatic fs := by
  match fs with
  | [] => rfl
  | ⟨_, ty, _⟩ :: fs =>
    simp [Ty.coreFields, Ty.areStatic, Ty.isStatic_core ty, Ty.areStatic_coreFields fs]

end

theorem Ty.isBasic_core (t : Ty) : t.core.isBasic = t.isBasic := by
  match t with
  | .pointer e => exact Ty.isBasic_core e
  | .record ⟨_, _, _⟩ | .list _ | .array _ _ | .map _ _ | .invalid | .bool | .string | .func | .any
  | .int _ | .uint _ | .float _ => rfl

namespace Ty

variable {t u : Ty}

theorem isStatic_of_beq (h : (t == u) = true) : t.isStatic = u.isStatic := by
  rw [← isStatic_core t, ← isStatic_core u, beq_iff.mp h]

theorem areStatic_iff {fs : List Field} :
    areStatic fs = true ↔ ∀ f ∈ fs, f.ty.isStatic = true := by
  induction fs with
  | nil => exact ⟨fun _ => List.forall_mem_nil _, fun _ => rfl⟩
  | cons f fs ih => rw [areStatic, Bool.and_eq_true_iff, ih, List.forall_mem_cons]

theorem ne_invalid_of_isStatic (ht : t.isStatic = true) : t ≠ .invalid := by
  rintro rfl
  cases ht

theorem isBasic_of_isStatic (ht : t.isStatic = true) : t.isBasic = !t.kind.isStructured := by
  cases t <;> first | rfl | cases ht

/-- A destination of a static type holds values of static types, and nothing if it is one for
callables. -/
theorem Accepts.isStatic (hu : t.Accepts u) (ht : t.isStatic = true) (hne : u ≠ .invalid) :
    u.isStatic = true := by
  cases t with
  | invalid | any | pointer => cases ht
  | func =>
    obtain rfl := hu.resolve_right hne
    rfl
  | _ => exact isStatic_of_beq hu ▸ ht

end Ty

/-! ### Values of static types -/

namespace Value

variable {h : Heap} {v w x y z : Value} {t : Ty}

namespace Fits

theorem peel_eq_self (hv : v.Fits t h) (ht : t.isStatic = true) : v.peel = v := by
  refine Value.peel_eq_self fun hty => ?_
  have haccepts := hty ▸ hv.accepts
  rw [haccepts.eq_any (Ty.ne_invalid_of_isStatic ht)] at ht
  cases ht

theorem isStructured_eq (hv : v.Fits t h) (ht : t.isStatic = true) :
    v.ty.kind.isStructured = t.kind.isStructured := by
  have hty := hv.accepts
  cases t with
  | invalid | any | pointer => cases ht
  | func => rcases hty with hty | hty <;> exact hty ▸ rfl
  | _ => exact Ty.isStructured_of_beq hty

theorem ty_beq_of_isStructured (hv : v.Fits t h) (ht : t.isStatic = true)
    (hkind : t.kind.isStructured = true) : (v.ty == t) = true := by
  have hty := hv.accepts
  cases t with
  | list | array | map | record => exact hty
  | int w | uint w | float w => cases w <;> cases hkind
  | _ => cases hkind

/-- Values with parts that fit one static type have equal types. -/
theorem ty_beq_ty (hv : v.Fits t h) (hw : w.Fits t h) (ht : t.isStatic = true)
    (hkind : v.ty.kind.isStructured = true) : (w.ty == v.ty) = true := by
  rw [hv.isStructured_eq ht] at hkind
  exact BEq.trans (hw.ty_beq_of_isStructured ht hkind)
    (BEq.symm (hv.ty_beq_of_isStructured ht hkind))

/-- A value that fits a static type is plain. -/
theorem isPlain (hv : v.Fits t h) (ht : t.isStatic = true) : v.IsPlain := by
  obtain ⟨hv, hty⟩ := hv
  induction hv generalizing t with
  | @list e items types _ ih | @array e items types _ ih =>
    have he : e.isStatic = true := hty.isStatic ht nofun
    exact ⟨Ty.ne_invalid_of_isStatic he, arePlain_iff.mpr fun v hv => ih v hv he (types v hv)⟩
  | @map k e entries _ _ _ types _ _ ih =>
    have he : e.isStatic = true := (Bool.and_eq_true_iff.mp (hty.isStatic ht nofun)).2
    exact ⟨Ty.ne_invalid_of_isStatic he,
      entriesPlain_iff.mpr fun entry hentry => ih entry hentry he (types entry hentry)⟩
  | @record r fields types parts ih =>
    have hr : Ty.areStatic r.fields = true := hty.isStatic ht nofun
    refine arePlain_iff.mpr fun v hv => ?_
    obtain ⟨f, hf, hfits⟩ := exists_fits_of_mem (wellFormed_record.mp (.record types parts)) hv
    exact ih v hv (Ty.areStatic_iff.mp hr f hf) hfits.accepts
  | pointer | nil | emptySlot | slot => cases hty.isStatic ht nofun
  | _ => trivial

end Fits

/-! ### Unions of static values -/

/-- A value without parts is not united. -/
theorem union_of_not_isStructured (hx : x.Fits t h) (ht : t.isStatic = true)
    (hkind : x.ty.kind.isStructured = false) (y : Value) : x.union y = x := by
  cases x with
  | slot => cases hx.accepts.isStatic ht nofun
  | list | array | map | record => cases hkind
  | _ => rfl

theorem merge_of_isStatic (hx : x.Fits t h) (hy : y.Fits t h) (ht : t.isStatic = true)
    (hkind : t.kind.isStructured = true) : x.merge y h = ⟨h, x.union y, .ok ()⟩ := by
  have hypeel := hy.peel_eq_self ht
  have hykind : y.peel.ty.kind.isStructured = true := by rw [hypeel, hy.isStructured_eq ht, hkind]
  have hty : (x.peel.ty == y.peel.ty) = true := by
    rw [hypeel, hx.peel_eq_self ht]
    exact hy.ty_beq_ty hx ht (hypeel ▸ hykind)
  refine merge_of_mergeStep fun enter => ?_
  rw [mergeStep_eq_union hx.wellFormed (hx.isPlain ht) y hy.wellFormed (hy.isPlain ht) hykind hty,
    hypeel]

theorem union_fits (hh : h.WellFormed) (hx : x.Fits t h) (hy : y.Fits t h)
    (ht : t.isStatic = true) : (x.union y).Fits t h := by
  cases hkind : t.kind.isStructured with
  | false =>
    rw [union_of_not_isStructured hx ht (by rw [hx.isStructured_eq ht, hkind])]
    exact hx
  | true =>
    have hkeeps := merge_keeps hh hx.wellFormed hy.wellFormed
    rw [merge_of_isStatic hx hy ht hkind] at hkeeps
    exact (hkeeps.fits hx).value_fits

/-- Declarations of one record type unite fields alike. -/
theorem unionFields_congr {fs gs : List Field} (hfs : Ty.coreFields fs = Ty.coreFields gs)
    (xs ys : List Value) : unionFields fs xs ys = unionFields gs xs ys := by
  induction fs generalizing gs xs ys with
  | nil =>
    cases gs with
    | nil => rfl
    | cons g gs => cases hfs
  | cons f fs ih =>
    cases gs with
    | nil => cases hfs
    | cons g gs =>
      obtain ⟨hfield, hfs⟩ := List.cons.inj hfs
      obtain ⟨-, hty, hexported⟩ := FieldOf.mk.inj hfield
      cases xs with
      | nil => rfl
      | cons x xs =>
        cases ys with
        | nil => rfl
        | cons y ys =>
          rw [unionFields, unionFields, ih hfs, hexported, ← Ty.isBasic_core, hty, Ty.isBasic_core]

/-- A union with a zero changes nothing, since a merge of a zero does not. -/
theorem union_of_isZero (hx : x.Fits t h) (hy : y.Fits t h) (ht : t.isStatic = true)
    (hzero : y.isZero = true) : x.union y = x := by
  cases hkind : t.kind.isStructured with
  | false => exact union_of_not_isStructured hx ht (by rw [hx.isStructured_eq ht, hkind]) y
  | true =>
    have hmerge := merge_of_isZero hx hy (Ty.ne_invalid_of_isStatic ht) hzero
    rw [merge_of_isStatic hx hy ht hkind] at hmerge
    exact congrArg Edit.value hmerge

theorem zipWith_zipWith (xs ys zs : List Value) :
    List.zipWith (fun x y => if y.peel.isZero then x else y)
        (List.zipWith (fun x y => if y.peel.isZero then x else y) xs ys) zs =
      List.zipWith (fun x y => if y.peel.isZero then x else y) xs
        (List.zipWith (fun x y => if y.peel.isZero then x else y) ys zs) := by
  induction xs generalizing ys zs with
  | nil => rfl
  | cons x xs ih =>
    cases ys with
    | nil => rfl
    | cons y ys =>
      cases zs with
      | nil => rfl
      | cons z zs =>
        simp only [List.zipWith_cons_cons, ih]
        by_cases hz : z.peel.isZero = true <;> simp [hz]

/-- Static values at one place are united if they have parts; otherwise that of the source replaces
that of the destination unless it is zero. -/
theorem unionAt_of_isStatic (hx : x.Fits t h) (hy : y.Fits t h) (ht : t.isStatic = true) :
    x.unionAt y = if t.kind.isStructured then x.union y else if y.isZero then x else y := by
  rw [unionAt, hx.peel_eq_self ht, hy.peel_eq_self ht, hx.isStructured_eq ht]
  cases hkind : t.kind.isStructured with
  | false => rfl
  | true =>
    have hty := hy.ty_beq_ty hx ht (by rw [hy.isStructured_eq ht, hkind])
    rw [hty]
    rfl

/-- Exported fields of static records follow the rule for the entries of maps: where a zero would
be united, the union changes nothing. -/
theorem unionField_of_isStatic {f : Field} (hx : x.Fits f.ty h) (hy : y.Fits f.ty h)
    (hf : f.ty.isStatic = true) :
    (if !f.exported || y.isZero then x else if f.ty.isBasic then y else x.union y) =
      if f.exported then x.unionAt y else x := by
  rw [unionAt_of_isStatic hx hy hf, Ty.isBasic_of_isStatic hf]
  cases f.exported with
  | false => rfl
  | true =>
    cases hzero : y.isZero with
    | false => cases f.ty.kind.isStructured <;> rfl
    | true =>
      rw [union_of_isZero hx hy hf hzero]
      cases f.ty.kind.isStructured <;> rfl

theorem unionAt_fits (hh : h.WellFormed) (hx : x.Fits t h) (hy : y.Fits t h)
    (ht : t.isStatic = true) : (x.unionAt y).Fits t h := by
  rw [unionAt_of_isStatic hx hy ht]
  split
  · exact union_fits hh hx hy ht
  · split
    · exact hx
    · exact hy

theorem unionAt_assoc (hh : h.WellFormed) (hx : x.Fits t h) (hy : y.Fits t h) (hz : z.Fits t h)
    (ht : t.isStatic = true) (hassoc : (x.union y).union z = x.union (y.union z)) :
    (x.unionAt y).unionAt z = x.unionAt (y.unionAt z) := by
  rw [unionAt_of_isStatic (unionAt_fits hh hx hy ht) hz ht,
    unionAt_of_isStatic hx (unionAt_fits hh hy hz ht) ht, unionAt_of_isStatic hx hy ht,
    unionAt_of_isStatic hy hz ht]
  cases t.kind.isStructured with
  | true => exact hassoc
  | false => by_cases hzero : z.isZero = true <;> simp [hzero]

end Value

/-! ### Unions of entries -/

namespace Entries

variable {α : Type} {place : BareKey}

theorem find?_append (es fs : List (Key × α)) :
    find? place (es ++ fs) = (find? place es).or (find? place fs) := by
  induction es with
  | nil => rfl
  | cons entry es ih =>
    rw [List.cons_append, find?, find?, ih]
    split <;> rfl

/-- Entries picked out by their places are found at those. -/
theorem find?_filter (p : BareKey → Bool) (es : List (Key × α)) :
    find? place (es.filter fun entry => p entry.1.bare) =
      if p place then find? place es else none := by
  induction es with
  | nil => cases p place <;> rfl
  | cons entry es ih =>
    rw [List.filter_cons, find?]
    by_cases heq : entry.1.bare = place
    · subst heq
      cases hp : p entry.1.bare with
      | false => rw [if_neg Bool.false_ne_true, ih, hp]; rfl
      | true => rw [if_pos rfl, find?, if_pos rfl, if_pos rfl, if_pos rfl]
    · rw [if_neg heq, ← ih]
      split
      · rw [find?, if_neg heq]
      · rfl

end Entries

namespace Value

variable {h : Heap} {t : Ty} {place : BareKey} {xs ys zs : List (Key × Value)}

theorem find?_unionEntries (xs ys : List (Key × Value)) :
    Entries.find? place (unionEntries xs ys) =
      (Entries.find? place xs).map fun x => ((Entries.find? place ys).map x.unionAt).getD x := by
  induction xs with
  | nil => rfl
  | cons entry xs ih =>
    obtain ⟨k, x⟩ := entry
    rw [unionEntries_cons, Entries.find?, Entries.find?, ih]
    split
    · next heq => rw [heq]; rfl
    · rfl

/-- At a place of the union of maps is the value of the destination, united with that of the source,
or else that of the source. -/
theorem find?_joinEntries (xs ys : List (Key × Value)) :
    Entries.find? place (joinEntries xs ys) =
      match Entries.find? place xs with
      | none => Entries.find? place ys
      | some x => some (((Entries.find? place ys).map x.unionAt).getD x) := by
  rw [joinEntries, Entries.find?_append, find?_unionEntries,
    Entries.find?_filter fun place => (Entries.find? place xs).isNone]
  cases Entries.find? place xs <;> rfl

theorem filter_unionEntries (p : BareKey → Bool) (xs ys : List (Key × Value)) :
    (unionEntries xs ys).filter (fun entry => p entry.1.bare) =
      unionEntries (xs.filter fun entry => p entry.1.bare) ys := by
  induction xs with
  | nil => rfl
  | cons entry xs ih =>
    obtain ⟨k, x⟩ := entry
    rw [unionEntries_cons, List.filter_cons, List.filter_cons, ih]
    split
    · rw [unionEntries_cons]
    · rfl

theorem unionEntries_append (xs xs' ys : List (Key × Value)) :
    unionEntries (xs ++ xs') ys = unionEntries xs ys ++ unionEntries xs' ys := by
  induction xs with
  | nil => rfl
  | cons entry xs ih => rw [List.cons_append, unionEntries_cons, unionEntries_cons, ih]; rfl

/-- Unions of maps are associative if those of the entries of the destination are. -/
theorem joinEntries_assoc
    (hassoc : unionEntries (unionEntries xs ys) zs = unionEntries xs (joinEntries ys zs)) :
    joinEntries (joinEntries xs ys) zs = joinEntries xs (joinEntries ys zs) := by
  have hnone (place : BareKey) :
      (Entries.find? place (joinEntries xs ys)).isNone =
        ((Entries.find? place xs).isNone && (Entries.find? place ys).isNone) := by
    rw [find?_joinEntries]
    cases Entries.find? place xs <;> rfl
  rw [joinEntries, joinEntries.eq_def xs (joinEntries ys zs), ← hassoc]
  simp only [hnone]
  rw [joinEntries, joinEntries, unionEntries_append, List.append_assoc, List.filter_append,
    filter_unionEntries fun place => (Entries.find? place xs).isNone, List.filter_filter]

end Value

/-! ### Associativity -/

section

variable {h : Heap}

mutual

/-- Unions of values of one static type are associative. -/
theorem Value.union_assoc (hh : h.WellFormed) {t : Ty} (ht : t.isStatic = true) (x : Value)
    {y z : Value} (hx : x.Fits t h) (hy : y.Fits t h) (hz : z.Fits t h) :
    (x.union y).union z = x.union (y.union z) := by
  match x with
  | .list e xs =>
    obtain ⟨_, ys, rfl⟩ := Value.exists_list_of_ty_beq (hx.ty_beq_ty hy ht rfl)
    obtain ⟨_, zs, rfl⟩ := Value.exists_list_of_ty_beq (hx.ty_beq_ty hz ht rfl)
    exact congrArg (Value.list e) (List.append_assoc xs ys zs)
  | .array e xs =>
    obtain ⟨_, ys, rfl⟩ := Value.exists_array_of_ty_beq (hx.ty_beq_ty hy ht rfl)
    obtain ⟨_, zs, rfl⟩ := Value.exists_array_of_ty_beq (hx.ty_beq_ty hz ht rfl)
    exact congrArg (Value.array e) (Value.zipWith_zipWith xs ys zs)
  | .map k e xs =>
    have hyty := hx.ty_beq_ty hy ht rfl
    have hzty := hx.ty_beq_ty hz ht rfl
    obtain ⟨_, _, ys, rfl⟩ := Value.exists_map_of_ty_beq hyty
    obtain ⟨_, _, zs, rfl⟩ := Value.exists_map_of_ty_beq hzty
    obtain ⟨hyk, hye⟩ := Bool.and_eq_true_iff.mp hyty
    obtain ⟨hzk, hze⟩ := Bool.and_eq_true_iff.mp hzty
    have he : e.isStatic = true := (Bool.and_eq_true_iff.mp (hx.accepts.isStatic ht nofun)).2
    have hassoc := Value.unionEntries_assoc hh he xs ys zs
      (Value.wellFormed_map.mp hx.wellFormed).values
      ((Value.wellFormed_map.mp hy.wellFormed).congr hyk hye).values
      ((Value.wellFormed_map.mp hz.wellFormed).congr hzk hze).values
    exact congrArg (Value.map k e) (Value.joinEntries_assoc hassoc)
  | .record r xs =>
    have hyty := hx.ty_beq_ty hy ht rfl
    have hzty := hx.ty_beq_ty hz ht rfl
    obtain ⟨_, ys, rfl⟩ := Value.exists_record_of_ty_beq hyty
    obtain ⟨_, zs, rfl⟩ := Value.exists_record_of_ty_beq hzty
    have hr : Ty.areStatic r.fields = true := hx.accepts.isStatic ht nofun
    have hassoc := Value.unionFields_assoc hh r.fields hr xs ys zs
      (Value.wellFormed_record.mp hx.wellFormed)
      (Value.forall₂_fits_congr (Ty.fields_beq_of_record_beq (BEq.symm hyty))
        (Value.wellFormed_record.mp hy.wellFormed))
      (Value.forall₂_fits_congr (Ty.fields_beq_of_record_beq (BEq.symm hzty))
        (Value.wellFormed_record.mp hz.wellFormed))
    rw [Value.union, Value.union, Value.union, Value.union, hassoc,
      Value.unionFields_congr (Ty.coreFields_eq_of_record_beq hyty)]
  | .slot _ => cases hx.accepts.isStatic ht nofun
  | .invalid | .bool _ | .int _ _ | .uint _ _ | .float _ _ | .string _ | .func _ | .pointer _ _
  | .emptySlot => rfl

/-- Unions of fields of one static record type are associative. -/
theorem Value.unionFields_assoc (hh : h.WellFormed) (fs : List Field)
    (hfs : Ty.areStatic fs = true) (xs ys zs : List Value)
    (hxs : List.Forall₂ (fun f v => Value.Fits v f.ty h) fs xs)
    (hys : List.Forall₂ (fun f v => Value.Fits v f.ty h) fs ys)
    (hzs : List.Forall₂ (fun f v => Value.Fits v f.ty h) fs zs) :
    Value.unionFields fs (Value.unionFields fs xs ys) zs =
      Value.unionFields fs xs (Value.unionFields fs ys zs) := by
  match fs, xs, ys, zs, hxs, hys, hzs with
  | [], [], [], [], .nil, .nil, .nil => rfl
  | f :: fs, x :: xs, y :: ys, z :: zs, .cons hx hxs, .cons hy hys, .cons hz hzs =>
    obtain ⟨hf, hfs⟩ := Bool.and_eq_true_iff.mp hfs
    have hrest := Value.unionFields_assoc hh fs hfs xs ys zs hxs hys hzs
    have hassoc := Value.unionAt_assoc hh hx hy hz hf (Value.union_assoc hh hf x hx hy hz)
    have hxy : (if f.exported then x.unionAt y else x).Fits f.ty h := by
      split
      · exact Value.unionAt_fits hh hx hy hf
      · exact hx
    have hyz : (if f.exported then y.unionAt z else y).Fits f.ty h := by
      split
      · exact Value.unionAt_fits hh hy hz hf
      · exact hy
    simp only [Value.unionFields, hrest, Value.unionField_of_isStatic hx hy hf,
      Value.unionField_of_isStatic hy hz hf, Value.unionField_of_isStatic hxy hz hf,
      Value.unionField_of_isStatic hx hyz hf]
    cases f.exported with
    | false => rfl
    | true => exact congrArg (· :: _) hassoc

/-- Unions of the entries of maps of one static type are associative. -/
theorem Value.unionEntries_assoc (hh : h.WellFormed) {t : Ty} (ht : t.isStatic = true)
    (xs ys zs : List (Key × Value)) (hxs : ∀ entry ∈ xs, entry.2.Fits t h)
    (hys : ∀ entry ∈ ys, entry.2.Fits t h) (hzs : ∀ entry ∈ zs, entry.2.Fits t h) :
    Value.unionEntries (Value.unionEntries xs ys) zs =
      Value.unionEntries xs (Value.joinEntries ys zs) := by
  match xs with
  | [] => rfl
  | (k, x) :: xs =>
    obtain ⟨hx, hxs⟩ := List.forall_mem_cons.mp hxs
    have hrest := Value.unionEntries_assoc hh ht xs ys zs hxs hys hzs
    simp only [Value.unionEntries_cons, hrest, Value.find?_joinEntries]
    congr 2
    cases hy : Entries.find? k.bare ys with
    | none => rfl
    | some y =>
      cases hz : Entries.find? k.bare zs with
      | none => rfl
      | some z =>
        obtain ⟨entry, hentry, rfl⟩ := Entries.mem_of_find?_eq_some hy
        obtain ⟨entry', hentry', rfl⟩ := Entries.mem_of_find?_eq_some hz
        have hy := hys entry hentry
        have hz := hzs entry' hentry'
        exact Value.unionAt_assoc hh hx hy hz ht (Value.union_assoc hh ht x hx hy hz)

end

end

namespace Value

/-- **Merges are associative.** Merging two static values of one type into a third, one after the
other or the one into the other first, succeeds and gives one value, and merging the zero of the
type changes nothing. -/
theorem merge_assoc {h : Heap} {t : Ty} {a b c : Value} (hh : h.WellFormed)
    (ht : t.isStatic = true) (hkind : t.kind.isStructured = true)
    (ha : a.WellFormed h) (hb : b.WellFormed h) (hc : c.WellFormed h)
    (haty : (a.ty == t) = true) (hbty : (b.ty == t) = true) (hcty : (c.ty == t) = true) :
    (∃ ab bc abc, a.merge b h = ⟨h, ab, .ok ()⟩ ∧ ab.merge c h = ⟨h, abc, .ok ()⟩ ∧
      b.merge c h = ⟨h, bc, .ok ()⟩ ∧ a.merge bc h = ⟨h, abc, .ok ()⟩) ∧
    a.merge t.zero h = ⟨h, a, .ok ()⟩ := by
  have ha : a.Fits t h := ha.fits haty
  have hb : b.Fits t h := hb.fits hbty
  have hc : c.Fits t h := hc.fits hcty
  refine ⟨⟨a.union b, b.union c, (a.union b).union c, merge_of_isStatic ha hb ht hkind,
    merge_of_isStatic (union_fits hh ha hb ht) hc ht hkind, merge_of_isStatic hb hc ht hkind, ?_⟩,
    ?_⟩
  · rw [merge_of_isStatic ha (union_fits hh hb hc ht) ht hkind, union_assoc hh ht a ha hb hc]
  · exact merge_of_isZero ha (Ty.zero_fits h t) (Ty.ne_invalid_of_isStatic ht) (Ty.isZero_zero t)

/-- A map with one list of numbers. -/
def row (key : String) (ns : List Int64) : Value :=
  map .string (.list (.int .word)) [(.string key, list (.int .word) (ns.map (int .word)))]

theorem row_wellFormed (key : String) (ns : List Int64) : (row key ns).WellFormed .empty := by
  have hnumbers : ∀ v ∈ ns.map (int .word), v.Fits (.int .word) .empty := fun v hv => by
    obtain ⟨n, -, rfl⟩ := List.mem_map.mp hv
    exact ⟨.int rfl, Ty.accepts_self _⟩
  exact wellFormed_map.mpr (Entries.WellFormed.nil.put (Ty.acceptsKey_string key) (.string key)
    ⟨wellFormed_list.mpr hnumbers, Ty.accepts_self _⟩)

/-- An empty list that only the second map has is joined with that of the third either way. -/
theorem merge_assoc_rows :
    (∃ ab bc abc, (row "a" [1]).merge (row "b" []) .empty = ⟨.empty, ab, .ok ()⟩ ∧
      ab.merge (row "b" [2]) .empty = ⟨.empty, abc, .ok ()⟩ ∧
      (row "b" []).merge (row "b" [2]) .empty = ⟨.empty, bc, .ok ()⟩ ∧
      (row "a" [1]).merge bc .empty = ⟨.empty, abc, .ok ()⟩) ∧
    (row "a" [1]).merge (map .string (.list (.int .word)) []) .empty =
      ⟨.empty, row "a" [1], .ok ()⟩ :=
  merge_assoc (t := .map .string (.list (.int .word))) Heap.empty_wellFormed rfl rfl
    (row_wellFormed "a" [1]) (row_wellFormed "b" []) (row_wellFormed "b" [2]) rfl rfl rfl

end Value

end DynamicEval
