import DynamicEval.Path.Typing
import DynamicEval.Proofs.Path.Slot

/-!
# Declared types along paths

A path is walked over values and over declared types. The walk over values looks through pointers
and slots and selects from what stands there; the one over types looks through pointer types and
selects from the declared type behind them. While both go on, the content of a place fits its
declared type, and a place declared with parts holds a base of just that type, so the walk over types
tells what the one over values comes to. It breaks off early only at a place whose declared type says
nothing about the content: a slot, or a place without a type.

## Main definitions

* `Ty.isOpen`: the type says nothing about the content of a place.
* `Heap.Passes`: the places that a walk over values comes through.

## Main results

* `Ty.exists_part?_of_selects`: a type has a part wherever a value of the type has one.
* `Value.walk?_fits`: what the walk over values comes to fits what the walk over types comes to.
* `Value.exists_walk?_of_not_isOpen`: the walk over types goes as far as the one over values.
* `Value.fieldAt?_typed`: both for the value at a path.
-/

namespace DynamicEval

/-! ### Equal types -/

namespace Ty

variable {t t' u : Ty}

/-- A declared type that does not tell what its place holds: that of slots, and no type at all. -/
def isOpen : Ty → Bool
  | any | invalid => true
  | _ => false

theorem core_stripPointers (t : Ty) : t.stripPointers.core = t.core.stripPointers := by
  fun_induction stripPointers t with
  | case1 e ih => exact ih
  | case2 t hne =>
    cases t with
    | pointer e => exact absurd rfl (hne e)
    | _ => rfl

/-- Equal types are equal behind their pointers. -/
theorem stripPointers_beq (h : (t == t') = true) :
    (t.stripPointers == t'.stripPointers) = true := by
  rw [beq_iff] at h ⊢
  rw [core_stripPointers, core_stripPointers, h]

theorem isOpen_core (t : Ty) : t.core.isOpen = t.isOpen := by
  cases t <;> rfl

theorem isOpen_congr (h : (t == t') = true) : t.isOpen = t'.isOpen := by
  rw [← isOpen_core t, ← isOpen_core t', beq_iff.mp h]

theorem stripPointers_of_isOpen (ht : t.isOpen = true) : t.stripPointers = t := by
  cases t <;> first | rfl | cases ht

/-- A place that is not open holds only what is of its type, but for nothing at all. -/
theorem Accepts.isOpen_or_beq (ht : t.Accepts u) (hne : u ≠ invalid) :
    t.isOpen = true ∨ (t == u) = true := by
  cases t with
  | invalid | any => exact .inl rfl
  | func =>
    rcases ht with rfl | rfl
    · exact .inr BEq.rfl
    · exact absurd rfl hne
  | _ => exact .inr (BEq.symm ht)

/-- A field is found by its name among the cores of fields. -/
theorem find?_coreFields (name : String) (fs : List Field) :
    ((coreFields fs).find? fun f => f.name = name) =
      (fs.find? fun f => f.name = name).map fun f => ⟨f.name, f.ty.core, f.exported⟩ := by
  have hmap : coreFields fs = fs.map fun f => ⟨f.name, f.ty.core, f.exported⟩ := by
    induction fs with
    | nil => rfl
    | cons f fs ih => exact congrArg (_ :: ·) ih
  rw [hmap, List.find?_map]
  rfl

/-- Equal record types declare a name with equal types. -/
theorem exists_field?_of_record_beq {r r' : RecordType} {name : String} {f' : Field}
    (h : (record r == record r') = true) (hf' : r'.field? name = some f') :
    ∃ f, r.field? name = some f ∧ (f.ty == f'.ty) = true := by
  have hcore := congrArg (List.find? fun f => f.name = name) (coreFields_eq_of_record_beq h)
  rw [find?_coreFields, find?_coreFields, show r'.fields.find? _ = _ from hf'] at hcore
  obtain ⟨f, hf, hty⟩ := Option.map_eq_some_iff.mp hcore
  exact ⟨f, hf, beq_iff.mpr (congrArg FieldOf.ty hty)⟩

end Ty

/-! ### Places on the way -/

/-- From a place of a declared type, with the value that it holds, a walk over values along a path
comes through another: through the place itself, through the cells behind pointers, and through the
places that the segments select. -/
inductive Heap.Passes (h : Heap) : Ty → Value → List Value → Ty → Value → Prop where
  | here (t : Ty) (v : Value) : Passes h t v [] t v
  | pointee (t : Ty) {e d : Ty} {a : Addr} {path : List Value} {u : Value}
      (hcell : Passes h e (h.get a) path d u) : Passes h t (.pointer e (some a)) path d u
  | part (t : Ty) {v key : Value} {p : Place} {path : List Value} {d : Ty} {u : Value}
      (hp : key.Selects h (v.base h) p) (hcontent : Passes h p.ty p.content path d u) :
      Passes h t v (key :: path) d u

variable {h : Heap} {v u w key base : Value} {t t' : Ty} {as : List Addr} {path : List Value}
  {p : Place}

theorem Value.IsBase.stripPointers_ty (hu : u.IsBase) : u.ty.stripPointers = u.ty := by
  cases u with
  | pointer => cases hu.1
  | _ => rfl

/-- A place leads to a base of its type behind all pointers, or else that type is open and the walk
comes through an open place on the way. -/
theorem Heap.Leads.stripPointers_beq_or (hlead : h.Leads v as u) (hh : h.WellFormed)
    (hu : u ≠ .invalid) (hv : v.Fits t h) :
    (t.stripPointers == u.ty) = true ∨
      t.stripPointers.isOpen = true ∧ ∃ d w, h.Passes t v [] d w ∧ d.isOpen = true := by
  have hopen {t : Ty} {v : Value} (ht : t.isOpen = true) :
      t.stripPointers.isOpen = true ∧ ∃ d w, h.Passes t v [] d w ∧ d.isOpen = true :=
    ⟨by rwa [Ty.stripPointers_of_isOpen ht], t, v, .here t v, ht⟩
  induction hlead generalizing t with
  | base hbase =>
    refine (hv.accepts.isOpen_or_beq (mt Value.eq_invalid_of_ty hu)).symm.imp (fun hbeq => ?_) hopen
    rw [← hbase.stripPointers_ty]
    exact Ty.stripPointers_beq hbeq
  | slot _ _ =>
    exact .inr (hopen ((hv.accepts.isOpen_or_beq nofun).elim id Ty.isOpen_congr))
  | @pointer e a as u ha _ ih =>
    rcases hv.accepts.isOpen_or_beq nofun with ht | hbeq
    · exact .inr (hopen ht)
    have hstrip : (t.stripPointers == (Ty.pointer e).stripPointers) = true :=
      Ty.stripPointers_beq hbeq
    have hcell : (h.get a).Fits e h := ⟨hh a ha, (Value.wellFormed_pointer.mp hv.wellFormed).2⟩
    refine (ih hu hcell).imp (BEq.trans hstrip) ?_
    rintro ⟨he, d, w, hpass, hd⟩
    exact ⟨(Ty.isOpen_congr hstrip).trans he, d, w, .pointee t hpass, hd⟩

/-! ### Both walks -/

/-- A type has a part wherever a value of the type has one. -/
theorem Ty.exists_part?_of_selects (hp : key.Selects h base p)
    (ht : (t.stripPointers == base.ty) = true) :
    ∃ T, t.part? key h = some T ∧ (T == p.ty) = true := by
  rw [part?]
  generalize t.stripPointers = s at ht
  cases hp with
  | entry _ _ =>
    cases s with
    | map k e => exact ⟨e, rfl, (Bool.and_eq_true_iff.mp (map_beq.symm.trans ht)).2⟩
    | _ => cases ht
  | field _ hf _ =>
    cases s with
    | record r =>
      obtain ⟨f, hf, hty⟩ := exists_field?_of_record_beq ht hf
      exact ⟨f.ty, congrArg (Option.map _) hf, hty⟩
    | _ => cases ht
  | listItem _ _ =>
    cases s with
    | list e => exact ⟨e, rfl, ht⟩
    | _ => cases ht
  | arrayItem _ _ =>
    cases s with
    | array e n => exact ⟨e, rfl, (Bool.and_eq_true_iff.mp ht).2⟩
    | _ => cases ht

/-- The walk over no type at all breaks off at once. -/
theorem Ty.at?_eq_walk? (hne : path ≠ []) : t.at? path h = t.walk? h path := by
  obtain ⟨key, path, rfl⟩ := List.exists_cons_of_ne_nil hne
  cases t <;> rfl

theorem Ty.stripPointers_isOpen_of_part? {T : Ty} (hT : t.part? key h = some T) :
    t.stripPointers.isOpen = false := by
  rw [part?] at hT
  generalize t.stripPointers = s at hT
  cases s <;> first | rfl | cases hT

namespace Value

/-- What a walk over values comes to fits what the walk over the declared types comes to. -/
theorem walk?_fits {T : Ty} (hh : h.WellFormed) (hv : v.Fits t h) (hw : v.walk? h path = some w)
    (hT : t.walk? h path = some T) : w.Fits T h := by
  induction path generalizing v t with
  | nil =>
    cases hw
    cases hT
    exact hv
  | cons key path ih =>
    obtain ⟨p, hp, hw⟩ := exists_selects_of_walk? hw
    obtain ⟨e, he, hT⟩ := Option.bind_eq_some_iff.mp hT
    obtain ⟨as, hlead⟩ := Heap.exists_leads hp.base_ne
    rcases hlead.stripPointers_beq_or hh hp.base_ne hv with hbeq | ⟨hopen, -⟩
    · obtain ⟨e', he', hty⟩ := Ty.exists_part?_of_selects hp hbeq
      obtain rfl := Option.some.inj (he.symm.trans he')
      have hcontent := (hp.fits (hv.wellFormed.base hh)).content
      exact ih ⟨hcontent.wellFormed, hcontent.accepts.congr_left (BEq.symm hty)⟩ hw hT
    · rw [Ty.stripPointers_isOpen_of_part? he] at hopen
      cases hopen

/-- The walk over the declared types goes on as long as the one over values comes through no open
place. -/
theorem exists_walk?_of_not_isOpen (hh : h.WellFormed) (hv : v.Fits t h) (ht : (t' == t) = true)
    (hw : v.walk? h path = some w)
    (hclosed : ∀ pre d u, pre <+: path → pre ≠ path → h.Passes t v pre d u → d.isOpen = false) :
    ∃ T, t'.walk? h path = some T := by
  induction path generalizing v t t' with
  | nil => exact ⟨t', rfl⟩
  | cons key path ih =>
    obtain ⟨p, hp, hw⟩ := exists_selects_of_walk? hw
    obtain ⟨as, hlead⟩ := Heap.exists_leads hp.base_ne
    rcases hlead.stripPointers_beq_or hh hp.base_ne hv with hbeq | ⟨-, d, u, hpass, hopen⟩
    · obtain ⟨e, he, hty⟩ := Ty.exists_part?_of_selects hp
        (BEq.trans (Ty.stripPointers_beq ht) hbeq)
      have hcontent := (hp.fits (hv.wellFormed.base hh)).content
      obtain ⟨T, hT⟩ := ih hcontent hty hw fun pre d u hpre hne hpass =>
        hclosed (key :: pre) d u ((List.prefix_cons_inj key).mpr hpre)
          (fun heq => hne (List.cons.inj heq).2) (.part t hp hpass)
      exact ⟨T, by rw [Ty.walk?, he]; exact hT⟩
    · rw [hclosed [] d u List.nil_prefix (List.cons_ne_nil key path).symm hpass] at hopen
      cases hopen

/-- What is at a path fits the type that the walk over the declared types comes to, which is found
wherever the walk over values comes through no open place before the end of the path. -/
theorem fieldAt?_typed (hh : h.WellFormed) (hv : v.WellFormed h)
    (hw : v.fieldAt? path h = some w) :
    (∀ T, v.ty.at? path h = some T → w.Fits T h) ∧
      ((∀ pre d u, pre <+: path → pre ≠ path → h.Passes v.ty v pre d u → d.isOpen = false) →
        ∃ T, v.ty.at? path h = some T) := by
  obtain ⟨hne, hwalk⟩ := walk?_of_fieldAt? hw
  rw [Ty.at?_eq_walk? hne]
  exact ⟨fun T => walk?_fits hh hv.fits_ty hwalk,
    exists_walk?_of_not_isOpen hh hv.fits_ty BEq.rfl hwalk⟩

/-- An item of a list behind a pointer. -/
theorem fieldAt?_typed_pointer :
    let items := list (.int .word) [int .word 5, int .word 7]
    let h := (Heap.empty.alloc items).1
    let v := pointer items.ty (some 0)
    let path := [int .word 1]
    (h.WellFormed ∧ v.WellFormed h ∧ v.fieldAt? path h = some (int .word 7) ∧
      ∀ pre d u, pre <+: path → pre ≠ path → h.Passes v.ty v pre d u → d.isOpen = false) ∧
      v.ty.at? path h = some (.int .word) ∧ (int .word 7).Fits (.int .word) h := by
  intro items h v path
  have hitems : items.WellFormed .empty := by
    refine wellFormed_list.mpr fun u hu => ?_
    rcases List.mem_pair.mp hu with rfl | rfl <;> exact ⟨.int rfl, BEq.rfl⟩
  have hh : h.WellFormed := (Heap.empty_wellFormed.alloc hitems).wellFormed
  have hv : v.WellFormed h := .pointer (by decide) BEq.rfl
  have hw : v.fieldAt? path h = some (int .word 7) := rfl
  have hclosed : ∀ pre d u, pre <+: path → pre ≠ path → h.Passes v.ty v pre d u →
      d.isOpen = false := by
    intro pre d u hpre hne hpass
    -- Only the pointer and its cell come before the item.
    rcases List.prefix_cons_iff.mp hpre with rfl | ⟨rest, rfl, hrest⟩
    · have hpass : h.Passes (.pointer items.ty) (pointer items.ty (some 0)) [] d u := hpass
      cases hpass with
      | here => rfl
      | pointee _ hcell =>
        cases hcell
        rfl
    · cases List.prefix_nil.mp hrest
      exact absurd rfl hne
  obtain ⟨hfits, hexists⟩ := fieldAt?_typed hh hv hw
  obtain ⟨T, hT⟩ := hexists hclosed
  exact ⟨⟨hh, hv, hw, hclosed⟩, rfl, hfits _ rfl⟩

end Value

end DynamicEval
