import DynamicEval.Proofs.Merge.Halts
import DynamicEval.Proofs.Region.Coercion
import DynamicEval.Proofs.Reordered

/-!
# Merges in every order

A merge goes through the entries of its source in their order and changes those of its destination
one by one. What it leaves at a place depends on what source and destination have there, and on
nothing that was merged before, since no cell is changed where no value points to one. So the result
is read off place by place, and it differs in the order of entries at most where source and
destination do.

## Main definitions

* `Ty.hold`: what becomes of a value that fits a type when it is coerced into it out of its slot.
* `Value.mergedAt`: what a merge leaves at a place of a map.
* `Value.EntryMerged`, `Value.IsMerged`: what a merge of an entry and of all entries leaves.
* `Value.MergesAlike`: values that are merged into reordered destinations with the same outcome.

## Main results

* `Value.mergeEntriesStep_run`: the entries that a merge leaves, by their keys and place by place.
* `Value.Reordered.merge`: merges of reordered values leave reordered values.
-/

namespace DynamicEval

/-! ### Values that fit -/

/-- What coercion into a type makes of a value that fits it and is taken out of its slot: pointers
to nothing point to what the type says, and without a type there is no slot. -/
def Ty.hold : Ty → Value → Value
  | .invalid, v => v.peel
  | .pointer e, _ => .pointer e none
  | _, v => v

namespace Value

variable {h h' : Heap} {v v' w w' d d' : Value} {t e : Ty} {items items' vs vs' : List Value}
  {enter enter' : Addr → Value → Heap → Edit Unit}

/-- A value that points to no cell. -/
abbrev CellFree (v : Value) : Prop := v.Within fun _ => False

theorem Fits.coerce_hold (hv : v.Fits t h) (hfree : v.CellFree) :
    (t.coerce v.peel).run h = .ok (t.hold v, h) := by
  by_cases hinvalid : t = .invalid
  · subst hinvalid
    rfl
  cases v with
  | pointer e cell =>
    cases cell with
    | some a => exact (hfree a (.pointer e a)).elim
    | none =>
      cases t with
      | pointer => rfl
      | invalid => exact absurd rfl hinvalid
      | func => rcases hv.accepts with hty | hty <;> cases hty
      | _ => cases hv.accepts
  | _ =>
    have hhold : ∀ u : Value, u.Fits t h → u.isPointer = false → t.hold u = u := by
      intro u hu hpointer
      cases t with
      | invalid => exact absurd rfl hinvalid
      | pointer => cases u <;> first | cases hpointer; done | cases hu.accepts
      | _ => rfl
    rw [hhold _ hv rfl]
    exact Ty.coerce_peel hv hinvalid rfl

theorem Reordered.hold (hvv : v.Reordered v') (t : Ty) : (t.hold v).Reordered (t.hold v') := by
  cases t with
  | invalid => exact hvv.peel
  | pointer e => exact .atom rfl
  | _ => exact hvv

/-! ### Lists and arrays -/

theorem mergeIntoList_hold (hvs : ∀ v ∈ vs, v.Fits e h) (hfree : ∀ v ∈ vs, v.CellFree) :
    mergeIntoList e items vs h = ⟨h, .list e (items ++ vs.map e.hold), .ok ()⟩ := by
  induction vs generalizing items with
  | nil =>
    rw [List.map_nil, List.append_nil]
    rfl
  | cons v vs ih =>
    obtain ⟨hv, hvs⟩ := List.forall_mem_cons.mp hvs
    obtain ⟨hvfree, hfree⟩ := List.forall_mem_cons.mp hfree
    rw [mergeIntoList, hv.coerce_hold hvfree]
    dsimp only
    rw [ih hvs hfree, List.append_assoc]
    rfl

/-- The item of an array after a merge with one that holds `y` there. -/
def mergedItem (e : Ty) (x y : Value) : Value := if y.peel.isZero then x else e.hold y

theorem Reordered.mergedItem (hvv : v.Reordered v') (hww : w.Reordered w') (e : Ty) :
    (mergedItem e v w).Reordered (mergedItem e v' w') := by
  rw [Value.mergedItem, Value.mergedItem, ← hww.peel.isZero_eq]
  split
  · exact hvv
  · exact hww.hold e

theorem forall₂_mergedItem (e : Ty) (hitems : List.Forall₂ Reordered items items')
    (hvs : List.Forall₂ Reordered vs vs') :
    List.Forall₂ Reordered (List.zipWith (mergedItem e) items vs)
      (List.zipWith (mergedItem e) items' vs') := by
  induction hitems generalizing vs vs' with
  | nil => exact .nil
  | cons hitem _ ih =>
    cases hvs with
    | nil => exact .nil
    | cons hv hvs => exact .cons (hitem.mergedItem hv e) (ih hvs)

theorem mergeIntoArray_hold {done : List Value} (hlength : items.length = vs.length)
    (hvs : ∀ v ∈ vs, v.Fits e h) (hfree : ∀ v ∈ vs, v.CellFree) :
    mergeIntoArray e done items vs h =
      ⟨h, .array e (done ++ List.zipWith (mergedItem e) items vs), .ok ()⟩ := by
  induction vs generalizing done items with
  | nil =>
    obtain rfl := List.eq_nil_of_length_eq_zero hlength
    rfl
  | cons v vs ih =>
    obtain ⟨item, items, rfl⟩ := List.exists_cons_of_length_eq_add_one hlength
    obtain ⟨hv, hvs⟩ := List.forall_mem_cons.mp hvs
    obtain ⟨hvfree, hfree⟩ := List.forall_mem_cons.mp hfree
    have hlength := Nat.succ.inj hlength
    rw [mergeIntoArray, List.zipWith_cons_cons, mergedItem]
    split
    · rw [ih hlength hvs hfree, List.append_assoc]
      rfl
    · rw [hv.coerce_hold hvfree]
      dsimp only
      rw [ih hlength hvs hfree, List.append_assoc]
      rfl

/-! ### Destinations -/

theorem Reordered.refill (hdd : d.Reordered d') (hvv : v.Reordered v') :
    (d.refill v).Reordered (d'.refill v') := by
  cases hdd with
  | @atom d hd =>
    cases d with
    | slot => cases hd
    | _ => exact hvv
  | slot => exact .slot hvv
  | _ => exact hvv

/-! ### Entries -/

/-- What a merge leaves at a place of a map whose value in the source is `y`, where the destination
has a value or none. -/
def mergedAt (enter : Addr → Value → Heap → Edit Unit) (et : Ty) (h : Heap) (y : Value) :
    Option Value → Value
  | none => et.hold y
  | some x =>
    if !x.peel.isBasic h && x.peel.ty == y.peel.ty then (y.mergeStep enter x h).value
    else if y.peel.isZero then x
    else et.hold y

/-- What a merge leaves at a place of a map, where destination and source have a value or none. -/
def mergedPlace (enter : Addr → Value → Heap → Edit Unit) (et : Ty) (h : Heap)
    (x : Option Value) : Option Value → Option Value
  | none => x
  | some y => some (mergedAt enter et h y x)

/-- The entries that a merge of one entry into the entries `ds` leaves. -/
structure EntryMerged (enter : Addr → Value → Heap → Edit Unit) (et : Ty) (h : Heap) (key : Key)
    (v : Value) (ds ds₁ : List (Key × Value)) : Prop where
  /-- No place is filled twice. -/
  places : (ds₁.map fun entry => entry.1.bare).Nodup
  /-- A new key comes last. -/
  keys : ds₁.map Prod.fst =
    ds.map Prod.fst ++ [key].filter fun key => (Entries.find? key.bare ds).isNone
  /-- The value at the place of the entry depends on what was there. -/
  found : Entries.find? key.bare ds₁ = some (mergedAt enter et h v (Entries.find? key.bare ds))
  /-- The values at other places are kept. -/
  others (place : BareKey) (hne : place ≠ key.bare) :
    Entries.find? place ds₁ = Entries.find? place ds

/-- The entries that a merge of the entries `es` into `ds` leaves: those of `ds`, and behind them
those of `es` at places that `ds` does not fill. -/
structure IsMerged (enter : Addr → Value → Heap → Edit Unit) (et : Ty) (h : Heap)
    (ds es rs : List (Key × Value)) : Prop where
  /-- No place is filled twice. -/
  places : (rs.map fun entry => entry.1.bare).Nodup
  /-- The new keys come last. -/
  keys : rs.map Prod.fst = ds.map Prod.fst ++
    (es.map Prod.fst).filter fun key => (Entries.find? key.bare ds).isNone
  /-- The value at a place depends on what was there. -/
  find?_eq (place : BareKey) : Entries.find? place rs =
    mergedPlace enter et h (Entries.find? place ds) (Entries.find? place es)

section

variable {kt et : Ty} {key : Key} {x : Value} {ds ds₁ es rs : List (Key × Value)}

theorem EntryMerged.put (hds : (ds.map fun entry => entry.1.bare).Nodup)
    (hnone : Entries.find? key.bare ds = none) :
    EntryMerged enter et h key v ds (Entries.put key (et.hold v) ds) where
  places := Entries.nodup_places_put hds
  keys := by
    rw [Entries.put_of_find?_eq_none hnone, List.map_append, List.filter_cons, hnone]
    rfl
  found := by
    rw [Entries.find?_put, hnone]
    rfl
  others _ hne := Entries.find?_put_of_ne hne

theorem EntryMerged.replace (hds : (ds.map fun entry => entry.1.bare).Nodup)
    (hx : Entries.find? key.bare ds = some x) :
    EntryMerged enter et h key v ds
      (Entries.replace key.bare (mergedAt enter et h v (some x)) ds) where
  places := Entries.nodup_places_replace hds
  keys := by
    rw [Entries.map_fst_replace, List.filter_cons, hx]
    exact (List.append_nil _).symm
  found := by rw [Entries.find?_replace hx, hx]
  others _ hne := Entries.find?_replace_of_ne hne

theorem IsMerged.nil (hds : (ds.map fun entry => entry.1.bare).Nodup) :
    IsMerged enter et h ds [] ds where
  places := hds
  keys := (List.append_nil _).symm
  find?_eq _ := rfl

/-- The first entry of the source is merged before the others, which have other places. -/
theorem IsMerged.cons (hds₁ : EntryMerged enter et h key v ds ds₁)
    (hrs : IsMerged enter et h ds₁ es rs) (hkey : Entries.find? key.bare es = none) :
    IsMerged enter et h ds ((key, v) :: es) rs where
  places := hrs.places
  keys := by
    have hfilter : (es.map Prod.fst).filter (fun key => (Entries.find? key.bare ds₁).isNone) =
        (es.map Prod.fst).filter fun key => (Entries.find? key.bare ds).isNone := by
      refine List.filter_congr fun other hother => ?_
      obtain ⟨entry, hentry, rfl⟩ := List.mem_map.mp hother
      rw [hds₁.others]
      intro heq
      exact Entries.find?_eq_none_iff.mp hkey (List.mem_map.mpr ⟨entry, hentry, heq⟩)
    rw [hrs.keys, hds₁.keys, hfilter, List.append_assoc, ← List.filter_append]
    rfl
  find?_eq place := by
    rw [hrs.find?_eq, Entries.find?]
    split
    · next heq =>
      rw [← heq, hkey, hds₁.found]
      rfl
    · next hne => rw [hds₁.others place (Ne.symm hne)]

/-- A merge goes on behind the first entry, if that of values with parts does not fail there. -/
theorem mergeEntriesStep_cons (hkey : kt.AcceptsKey key) (hv : v.Fits et h) (hfree : v.CellFree)
    (hds : (ds.map fun entry => entry.1.bare).Nodup)
    (hmerge : ∀ x, Entries.find? key.bare ds = some x →
      (!x.peel.isBasic h && x.peel.ty == v.peel.ty) = true →
        ∃ u, v.mergeStep enter x h = ⟨h, u, .ok ()⟩) :
    ∃ ds₁, EntryMerged enter et h key v ds ds₁ ∧ ∀ es,
      mergeEntriesStep enter kt et ((key, v) :: es) ds h =
        mergeEntriesStep enter kt et es ds₁ h := by
  cases hx : Entries.find? key.bare ds with
  | none =>
    refine ⟨_, .put hds hx, fun es => ?_⟩
    rw [mergeEntriesStep, Key.place?_value hkey]
    dsimp only [Option.bind_some]
    rw [hx]
    dsimp only [Option.map_none]
    rw [Entries.run_insert_value hkey, hv.coerce_hold hfree]
    rfl
  | some x =>
    refine ⟨_, .replace hds hx, fun es => ?_⟩
    rw [mergeEntriesStep, Key.place?_value hkey]
    dsimp only [Option.bind_some]
    rw [hx]
    dsimp only [Option.map_some]
    rw [mergedAt]
    split
    · next hparts =>
      obtain ⟨u, hu⟩ := hmerge x hx hparts
      rw [hu]
    split
    · rw [Entries.replace_find? hx]
    · rw [hv.coerce_hold hfree]

/-- A merge of entries succeeds and leaves the heap as it is, if it does where values with parts are
merged into each other. -/
theorem mergeEntriesStep_run (hes : Entries.WellFormed kt et h es)
    (hfree : ∀ y ∈ es, y.2.CellFree) (hds : (ds.map fun entry => entry.1.bare).Nodup)
    (hmerges : ∀ y ∈ es, ∀ x, Entries.find? y.1.bare ds = some x →
      (!x.peel.isBasic h && x.peel.ty == y.2.peel.ty) = true →
        ∃ u, y.2.mergeStep enter x h = ⟨h, u, .ok ()⟩) :
    ∃ rs, mergeEntriesStep enter kt et es ds h = (h, rs, .ok ()) ∧
      IsMerged enter et h ds es rs := by
  induction es generalizing ds with
  | nil => exact ⟨ds, rfl, .nil hds⟩
  | cons y es ih =>
    obtain ⟨key, v⟩ := y
    obtain ⟨hmerge, hmerges⟩ := List.forall_mem_cons.mp hmerges
    obtain ⟨hvfree, hfree⟩ := List.forall_mem_cons.mp hfree
    have hnew : Entries.find? key.bare es = none :=
      Entries.find?_eq_none_iff.mpr (List.nodup_cons.mp hes.places).1
    obtain ⟨ds₁, hds₁, hstep⟩ := mergeEntriesStep_cons (hes.keyTypes (key, v) List.mem_cons_self)
      (hes.values (key, v) List.mem_cons_self) hvfree hds hmerge
    -- What is left at the place of the entry does not concern the others.
    obtain ⟨rs, hrun, hrs⟩ := ih hes.tail hfree hds₁.places fun y hy x hx => by
      refine hmerges y hy x ((hds₁.others _ fun heq => ?_).symm.trans hx)
      exact Entries.find?_eq_none_iff.mp hnew (List.mem_map.mpr ⟨y, hy, heq⟩)
    exact ⟨rs, (hstep es).trans hrun, .cons hds₁ hrs hnew⟩

end

end Value

/-! ### Merges of reordered values -/

/-- Two changes succeed and leave their heaps as they are, and what they leave is the same but for
the order of entries. -/
def Edit.SettleAlike (h h' : Heap) (r r' : Edit Unit) : Prop :=
  ∃ u u', r = ⟨h, u, .ok ()⟩ ∧ r' = ⟨h', u', .ok ()⟩ ∧ u.Reordered u'

namespace Value

open Edit

variable {h h' : Heap} {v v' d d' : Value} {t e : Ty} {items items' vs vs' ws ws' : List Value}
  {enter enter' : Addr → Value → Heap → Edit Unit}

/-- Merges of two values into reordered destinations of their type leave the same but for the order
of entries. -/
def MergesAlike (enter enter' : Addr → Value → Heap → Edit Unit) (h h' : Heap) (v v' : Value) :
    Prop :=
  ∀ d d' : Value, d.WellFormed h → d.CellFree → d.Reordered d' →
    (d.peel.ty == v.peel.ty) = true →
      SettleAlike h h' (v.mergeStep enter d h) (v'.mergeStep enter' d' h')

/-- A merge into a destination on the left succeeds: it stands for itself on the right. -/
theorem MergesAlike.exists_left (hmerge : MergesAlike enter enter' h h' v v') (hd : d.WellFormed h)
    (hfree : d.CellFree) (hty : (d.peel.ty == v.peel.ty) = true) :
    ∃ u, v.mergeStep enter d h = ⟨h, u, .ok ()⟩ := by
  obtain ⟨u, -, hu, -⟩ := hmerge d d hd hfree hd.reordered hty
  exact ⟨u, hu⟩

/-- A merge into a destination on the right succeeds: it stands for itself on the left. -/
theorem MergesAlike.exists_right (hmerge : MergesAlike enter enter' h h' v v')
    (hh : h.Reordered h') (hvv : v.Reordered v') (hd : d.WellFormed h') (hfree : d.CellFree)
    (hty : (d.peel.ty == v'.peel.ty) = true) :
    ∃ u, v'.mergeStep enter' d h' = ⟨h', u, .ok ()⟩ := by
  have hd := hd.mono hh.symm.extend
  obtain ⟨-, u, -, hu, -⟩ := hmerge d d hd hfree hd.reordered (hvv.peel.ty_eq ▸ hty)
  exact ⟨u, hu⟩

section

variable {kt et k e : Ty} {ds ds' es es' : List (Key × Value)}

theorem Reordered.cellFree_entries (hmaps : (Value.map kt et es).Reordered (Value.map kt et es'))
    (hfree : ∀ x ∈ es, x.2.CellFree) : ∀ y ∈ es', y.2.CellFree := by
  intro y hy a ha
  obtain ⟨x, hx, hxy⟩ := exists_mem_entries hmaps.entries.1 hy
  exact hfree x hx a ((hmaps.entries.2 x hx y hy hxy).points ha)

theorem Reordered.mergedAt (hh : h.Reordered h') (hvv : v.Reordered v') {x x' : Option Value}
    (hxx : Option.Rel Reordered x x') (hx : ∀ d ∈ x, d.WellFormed h ∧ d.CellFree)
    (hmerges : MergesAlike enter enter' h h' v v') :
    (mergedAt enter et h v x).Reordered (mergedAt enter' et h' v' x') := by
  cases hxx with
  | none => exact hvv.hold et
  | @some d d' hdd =>
    rw [Value.mergedAt, Value.mergedAt, ← hdd.peel.isBasic_eq hh, ← hdd.peel.ty_eq,
      ← hvv.peel.ty_eq, ← hvv.peel.isZero_eq]
    split
    · next hparts =>
      obtain ⟨u, u', hu, hu', huu⟩ := hmerges d d' (hx d rfl).1 (hx d rfl).2 hdd
        (Bool.and_eq_true_iff.mp hparts).2
      rw [hu, hu']
      exact huu
    split
    · exact hdd
    · exact hvv.hold et

theorem Reordered.mergedPlace (hh : h.Reordered h') {x x' y y' : Option Value}
    (hxx : Option.Rel Reordered x x') (hx : ∀ d ∈ x, d.WellFormed h ∧ d.CellFree)
    (hyy : Option.Rel Reordered y y') (hmerges : Option.Rel (MergesAlike enter enter' h h') y y') :
    Option.Rel Reordered (mergedPlace enter et h x y) (mergedPlace enter' et h' x' y') := by
  cases hyy with
  | none => exact hxx
  | some hyy =>
    cases hmerges with
    | some hmerge => exact .some (hyy.mergedAt hh hxx hx hmerge)

/-- What merges of reordered entries leave is reordered if it is place by place. -/
theorem IsMerged.reordered {rs rs' : List (Key × Value)} (hrs : IsMerged enter et h ds es rs)
    (hrs' : IsMerged enter' et h' ds' es' rs') (hdd : (Value.map k e ds).Reordered (map k e ds'))
    (hds : (ds.map fun entry => entry.1.bare).Nodup)
    (hee : (Value.map kt et es).Reordered (map kt et es'))
    (hrel : ∀ place, Option.Rel Reordered (Entries.find? place rs) (Entries.find? place rs')) :
    (Value.map k e rs).Reordered (map k e rs') := by
  refine .map ?_ fun x hx y hy hxy => ?_
  · have hfilter : (fun key : Key => (Entries.find? key.bare ds').isNone) =
        fun key : Key => (Entries.find? key.bare ds).isNone := by
      funext key
      have hdrel := Entries.rel_find? hdd.entries.1 hdd.entries.2 hds key.bare
      generalize Entries.find? key.bare ds = x at hdrel ⊢
      generalize Entries.find? key.bare ds' = x' at hdrel ⊢
      cases hdrel <;> rfl
    rw [hrs.keys, hrs'.keys, hfilter]
    exact hdd.entries.1.append (hee.entries.1.filter _)
  · have hrel := hrel x.1.bare
    rw [Entries.find?_of_mem hrs.places hx, hxy, Entries.find?_of_mem hrs'.places hy] at hrel
    cases hrel with
    | some hrel => exact hrel

/-- Merges of entries leave the same but for the order of entries, if those of their values do. -/
theorem mergeEntriesStep_settles (hh : h.Reordered h')
    (hdd : (map k e ds).Reordered (map k e ds')) (hds : Entries.WellFormed k e h ds)
    (hdsfree : ∀ x ∈ ds, x.2.CellFree) (hee : (map kt et es).Reordered (map kt et es'))
    (hes : Entries.WellFormed kt et h es) (hfree : ∀ x ∈ es, x.2.CellFree)
    (hmerges : ∀ x ∈ es, ∀ y ∈ es', x.1 = y.1 → MergesAlike enter enter' h h' x.2 y.2) :
    ∃ rs rs', mergeEntriesStep enter kt et es ds h = (h, rs, .ok ()) ∧
      mergeEntriesStep enter' kt et es' ds' h' = (h', rs', .ok ()) ∧
        (map k e rs).Reordered (map k e rs') := by
  have hds' := wellFormed_map.mp (hdd.wellFormed hh (wellFormed_map.mpr hds))
  have hes' := wellFormed_map.mp (hee.wellFormed hh (wellFormed_map.mpr hes))
  obtain ⟨rs, hrun, hrs⟩ := mergeEntriesStep_run hes hfree hds.places fun x hx d hd hparts => by
    obtain ⟨y, hy, hyx⟩ := Reordered.exists_mem_entries hee.entries.1.symm hx
    obtain ⟨z, hz, rfl⟩ := Entries.mem_of_find?_eq_some hd
    exact (hmerges x hx y hy hyx.symm).exists_left (hds.values z hz).wellFormed (hdsfree z hz)
      (Bool.and_eq_true_iff.mp hparts).2
  obtain ⟨rs', hrun', hrs'⟩ := mergeEntriesStep_run hes' (hee.cellFree_entries hfree) hds'.places
    fun y hy d hd hparts => by
      obtain ⟨x, hx, hxy⟩ := Reordered.exists_mem_entries hee.entries.1 hy
      obtain ⟨z, hz, rfl⟩ := Entries.mem_of_find?_eq_some hd
      exact (hmerges x hx y hy hxy).exists_right hh (hee.entries.2 x hx y hy hxy)
        (hds'.values z hz).wellFormed (hdd.cellFree_entries hdsfree z hz)
        (Bool.and_eq_true_iff.mp hparts).2
  refine ⟨rs, rs', hrun, hrun', hrs.reordered hrs' hdd hds.places hee fun place => ?_⟩
  rw [hrs.find?_eq, hrs'.find?_eq]
  refine Reordered.mergedPlace hh (Entries.rel_find? hdd.entries.1 hdd.entries.2 hds.places place)
    (fun d hd => ?_) (Entries.rel_find? hee.entries.1 hee.entries.2 hes.places place)
    (Entries.rel_find? hee.entries.1 hmerges hes.places place)
  obtain ⟨x, hx, rfl⟩ := Entries.mem_of_find?_eq_some hd
  exact ⟨(hds.values x hx).wellFormed, hdsfree x hx⟩

end

/-! ### Fields -/

/-- A value of a declared type with parts has that type. -/
theorem Fits.peel_ty_beq (hv : v.Fits t h) (ht : t.isBasic = false) :
    (v.peel.ty == t) = true := by
  have hty := hv.accepts
  cases t with
  | list | array | map | record | pointer => cases v <;> first | exact hty | cases hty
  | int w | uint w | float w => cases w <;> cases ht
  | _ => cases ht

/-- Merges of fields leave the same but for the order of entries, if those of their values do. -/
theorem mergeFieldsStep_settles {fs : List Field} (hvv : List.Forall₂ Reordered vs vs')
    (hww : List.Forall₂ Reordered ws ws')
    (hvs : List.Forall₂ (fun f v => Fits v (FieldOf.ty f) h) fs vs)
    (hws : List.Forall₂ (fun f v => Fits v (FieldOf.ty f) h) fs ws)
    (hfree : ∀ w ∈ ws, w.CellFree)
    (hmerges : ∀ x ∈ vs.zip vs', MergesAlike enter enter' h h' x.1 x.2) :
    ∃ us us', mergeFieldsStep enter vs fs ws h = (h, us, .ok ()) ∧
      mergeFieldsStep enter' vs' fs ws' h' = (h', us', .ok ()) ∧
        List.Forall₂ Reordered us us' := by
  induction fs generalizing vs vs' ws ws' with
  | nil =>
    cases hvs
    cases hws
    cases hvv
    cases hww
    exact ⟨[], [], rfl, rfl, .nil⟩
  | cons f fs ih =>
    cases hvs with | cons hv hvs =>
    cases hws with | cons hw hws =>
    cases hvv with | cons hvv hvvs =>
    cases hww with | cons hww hwws =>
    obtain ⟨hmerge, hmerges⟩ := List.forall_mem_cons.mp hmerges
    obtain ⟨hwfree, hfree⟩ := List.forall_mem_cons.mp hfree
    obtain ⟨us, us', hrun, hrun', hus⟩ := ih hvvs hwws hvs hws hfree hmerges
    rw [mergeFieldsStep, mergeFieldsStep, ← hvv.isZero_eq, hrun, hrun']
    split
    · exact ⟨_, _, rfl, rfl, .cons hww hus⟩
    split
    · exact ⟨_, _, rfl, rfl, .cons hvv hus⟩
    next hbasic =>
    have hbasic : f.ty.isBasic = false := by simpa using hbasic
    obtain ⟨u, u', hu, hu', huu⟩ := hmerge _ _ hw.wellFormed hwfree hww
      (BEq.trans (hw.peel_ty_beq hbasic) (BEq.symm (hv.peel_ty_beq hbasic)))
    rw [hu, hu']
    dsimp only
    rw [hrun, hrun']
    exact ⟨_, _, rfl, rfl, .cons huu hus⟩

/-! ### Steps -/

/-- Where the base of a destination is changed into that of a reordered one, all of the destination
is. -/
theorem settle_intoBase {f f' : Heap → Value → Edit Unit} {u u' : Value} (hdd : d.Reordered d')
    (hv : v.IsBase) (hne : v ≠ .invalid) (hty : (d.peel.ty == v.ty) = true)
    (hu : f h d.peel = ⟨h, u, .ok ()⟩) (hu' : f' h' d'.peel = ⟨h', u', .ok ()⟩)
    (huu : u.Reordered u') : SettleAlike h h' (intoBase v d h f) (intoBase v' d' h' f') := by
  have hty' : (d'.peel.ty == v.ty) = true := hdd.peel.ty_eq ▸ hty
  refine ⟨d.refill u, d'.refill u', ?_, ?_, hdd.refill huu⟩
  · rw [intoBase_of_isBase_peel (hv.of_ty_beq hty) (ne_invalid_of_ty_beq hne hty), hu]
    rfl
  · rw [intoBase_of_isBase_peel (hv.of_ty_beq hty') (ne_invalid_of_ty_beq hne hty'), hu']
    rfl

/-- A scalar replaces one of its type unless it is zero. -/
theorem mergesAlike_scalar
    (hstep : ∀ enter d h, v.mergeStep enter d h = intoBase v d h fun h base =>
      if base.ty == v.ty then keep h (if v.isZero then base else v) (return ())
      else mergeMismatch h base v)
    (hv : v.IsBase) (hne : v ≠ .invalid) (hatom : v.isAtom = true) :
    MergesAlike enter enter' h h' v v := by
  intro d d' _ _ hdd hty
  have hty : (d.peel.ty == v.ty) = true := peel_eq_self (isBase_iff_ty.mp hv).2 ▸ hty
  rw [hstep, hstep]
  refine settle_intoBase hdd hv hne hty (if_pos hty) (if_pos (hdd.peel.ty_eq ▸ hty)) ?_
  split
  · exact hdd.peel
  · exact .atom hatom

theorem mergesAlike_list (hh : h.Reordered h') (hvv : (list e vs).Reordered (list e vs'))
    (hv : (list e vs).WellFormed h) (hfree : (list e vs).CellFree) :
    MergesAlike enter enter' h h' (list e vs) (list e vs') := by
  intro d d' _ _ hdd hty
  obtain ⟨e', items, hdest⟩ := exists_list_of_ty_beq hty
  obtain ⟨items', hdest', hitems⟩ := (hdest ▸ hdd.peel).exists_list
  obtain ⟨_, ⟨⟩, hvs⟩ := hvv.exists_list
  have hbeq : (e == e') = true := by
    rw [hdest] at hty
    exact BEq.symm hty
  have hrun : mergeIntoList e' items vs h = ⟨h, list e' (items ++ vs.map e'.hold), .ok ()⟩ :=
    mergeIntoList_hold (fun x hx => (wellFormed_list.mp hv x hx).congr_left hbeq)
      fun x hx a ha => hfree a (.list hx ha)
  have hrun' : mergeIntoList e' items' vs' h' =
      ⟨h', list e' (items' ++ vs'.map e'.hold), .ok ()⟩ :=
    mergeIntoList_hold
      (fun x hx => (wellFormed_list.mp (hvv.wellFormed hh hv) x hx).congr_left hbeq)
      fun x hx a ha => hfree a (hvv.points (.list hx ha))
  have hall : List.Forall₂ Reordered (items ++ vs.map e'.hold) (items' ++ vs'.map e'.hold) :=
    List.rel_append hitems (List.rel_map (fun _ _ hvw => hvw.hold e') hvs)
  exact settle_intoBase hdd ⟨rfl, rfl⟩ nofun hty (by rw [hdest]; exact hrun)
    (by rw [hdest']; exact hrun') (.list hall.length_eq fun _ hx => List.forall₂_zip hall hx)

theorem mergesAlike_array (hh : h.Reordered h') (hvv : (array e vs).Reordered (array e vs'))
    (hv : (array e vs).WellFormed h) (hfree : (array e vs).CellFree) :
    MergesAlike enter enter' h h' (array e vs) (array e vs') := by
  intro d d' _ _ hdd hty
  obtain ⟨e', items, hdest⟩ := exists_array_of_ty_beq hty
  obtain ⟨items', hdest', hitems⟩ := (hdest ▸ hdd.peel).exists_array
  obtain ⟨_, ⟨⟩, hvs⟩ := hvv.exists_array
  obtain ⟨hlength, hbeq⟩ : items.length = vs.length ∧ (e == e') = true := by
    rw [hdest] at hty
    obtain ⟨hlength, hbeq⟩ := Bool.and_eq_true_iff.mp hty
    exact ⟨of_decide_eq_true hlength, BEq.symm hbeq⟩
  have hlength' : items'.length = vs'.length := by
    rw [← hitems.length_eq, hlength, hvs.length_eq]
  have hrun : mergeIntoArray e' [] items vs h =
      ⟨h, array e' (List.zipWith (mergedItem e') items vs), .ok ()⟩ :=
    mergeIntoArray_hold hlength (fun x hx => (wellFormed_array.mp hv x hx).congr_left hbeq)
      fun x hx a ha => hfree a (.array hx ha)
  have hrun' : mergeIntoArray e' [] items' vs' h' =
      ⟨h', array e' (List.zipWith (mergedItem e') items' vs'), .ok ()⟩ :=
    mergeIntoArray_hold hlength'
      (fun x hx => (wellFormed_array.mp (hvv.wellFormed hh hv) x hx).congr_left hbeq)
      fun x hx a ha => hfree a (hvv.points (.array hx ha))
  have hall := forall₂_mergedItem e' hitems hvs
  exact settle_intoBase hdd ⟨rfl, rfl⟩ nofun hty (by rw [hdest]; exact hrun)
    (by rw [hdest']; exact hrun') (.array hall.length_eq fun _ hx => List.forall₂_zip hall hx)

theorem mergesAlike_record {r : RecordType} (hvv : (record r vs).Reordered (record r vs'))
    (hv : (record r vs).WellFormed h)
    (hmerges : ∀ x ∈ vs.zip vs', MergesAlike enter enter' h h' x.1 x.2) :
    MergesAlike enter enter' h h' (record r vs) (record r vs') := by
  intro d d' hd hdfree hdd hty
  obtain ⟨r', ws, hdest⟩ := exists_record_of_ty_beq hty
  obtain ⟨ws', hdest', hws⟩ := (hdest ▸ hdd.peel).exists_record
  obtain ⟨_, ⟨⟩, hvs⟩ := hvv.exists_record
  have hbeq : (Ty.record r' == Ty.record r) = true := by
    rw [hdest] at hty
    exact hty
  obtain ⟨us, us', hrun, hrun', hall⟩ := mergeFieldsStep_settles hvs hws
    (forall₂_fits_congr (Ty.fields_beq_of_record_beq hbeq) (wellFormed_record.mp hv))
    (wellFormed_record.mp (hdest ▸ hd.peel))
    (fun w hw a ha => hdfree a (Points.of_peel (hdest ▸ .record hw ha))) hmerges
  have hrecords : (record r' us).Reordered (record r' us') :=
    .record hall.length_eq fun _ hx => List.forall₂_zip hall hx
  refine settle_intoBase hdd ⟨rfl, rfl⟩ nofun hty ?_ ?_ hrecords
  · rw [hdest]
    dsimp only
    rw [if_pos hbeq, hrun]
  · rw [hdest']
    dsimp only
    rw [if_pos hbeq, hrun']

theorem mergesAlike_map {k : Ty} {es es' : List (Key × Value)} (hh : h.Reordered h')
    (hvv : (map k e es).Reordered (map k e es')) (hv : (map k e es).WellFormed h)
    (hfree : (map k e es).CellFree)
    (hmerges : ∀ x ∈ es, ∀ y ∈ es', x.1 = y.1 → MergesAlike enter enter' h h' x.2 y.2) :
    MergesAlike enter enter' h h' (map k e es) (map k e es') := by
  intro d d' hd hdfree hdd hty
  obtain ⟨k', e', ds, hdest⟩ := exists_map_of_ty_beq hty
  obtain ⟨ds', hdest', hds⟩ := (hdest ▸ hdd.peel).exists_map
  have hbeq : (Ty.map k' e' == Ty.map k e) = true := by
    rw [hdest] at hty
    exact hty
  obtain ⟨hk, he⟩ := Bool.and_eq_true_iff.mp (Ty.map_beq ▸ hbeq)
  obtain ⟨rs, rs', hrun, hrun', hall⟩ := mergeEntriesStep_settles hh hds
    (wellFormed_map.mp (hdest ▸ hd.peel))
    (fun x hx a ha => hdfree a (Points.of_peel (hdest ▸ .map hx ha)))
    (.map hvv.entries.1 hvv.entries.2)
    ((wellFormed_map.mp hv).congr (BEq.symm hk) (BEq.symm he))
    (fun x hx a ha => hfree a (.map hx ha)) hmerges
  refine settle_intoBase hdd ⟨rfl, rfl⟩ nofun hty ?_ ?_ hall
  · rw [hdest]
    dsimp only
    rw [if_pos hbeq, hrun]
  · rw [hdest']
    dsimp only
    rw [if_pos hbeq, hrun']

/-- Steps of merges of reordered values of one type leave reordered values, if these point to no
cells. -/
theorem Reordered.mergesAlike (hh : h.Reordered h') (hvv : v.Reordered v')
    (hv : v.WellFormed h) (hfree : v.CellFree) : MergesAlike enter enter' h h' v v' := by
  induction hvv with
  | @atom v hatom =>
    cases v with
    | invalid | emptySlot => exact fun d d' _ _ hdd _ => ⟨d, d', rfl, rfl, hdd⟩
    | pointer e cell =>
      cases cell with
      | none => exact fun d d' _ _ hdd _ => ⟨d, d', rfl, rfl, hdd⟩
      | some => cases hatom
    | bool | int | uint | float | string | func =>
      exact mergesAlike_scalar (fun _ _ _ => rfl) ⟨rfl, rfl⟩ nofun hatom
    | list | array | map | record | slot => cases hatom
  | pointer e a => exact (hfree a (.pointer e a)).elim
  | list hlength hitems => exact mergesAlike_list hh (.list hlength hitems) hv hfree
  | array hlength hitems => exact mergesAlike_array hh (.array hlength hitems) hv hfree
  | map hkeys hvalues ih =>
    refine mergesAlike_map hh (.map hkeys hvalues) hv hfree fun x hx y hy hxy => ?_
    exact ih x hx y hy hxy ((wellFormed_map.mp hv).values x hx).wellFormed
      fun a ha => hfree a (.map hx ha)
  | record hlength hfields ih =>
    refine mergesAlike_record (.record hlength hfields) hv fun x hx => ?_
    have hmem := (List.of_mem_zip hx).1
    obtain ⟨_, _, hfits⟩ := exists_fits_of_mem (wellFormed_record.mp hv) hmem
    exact ih x hx hfits.wellFormed fun a ha => hfree a (.record hmem ha)
  | slot hvv ih =>
    obtain ⟨-, hsingle, hv⟩ := wellFormed_slot.mp hv
    intro d d' hd hdfree hdd hty
    exact ih hv (fun a ha => hfree a (.slot ha)) d d' hd hdfree hdd
      ((peel_eq_self hsingle).symm ▸ hty)

/-- Merges of reordered values of one type that point to no cells succeed and leave reordered
values. -/
theorem Reordered.merge (hh : h.Reordered h') (hdd : d.Reordered d') (hd : d.WellFormed h)
    (hdfree : d.CellFree) (hvv : v.Reordered v') (hv : v.WellFormed h) (hfree : v.CellFree)
    (hty : (d.peel.ty == v.peel.ty) = true) : SettleAlike h h' (d.merge v h) (d'.merge v' h') := by
  rw [Value.merge, Value.merge, ← hh.size_eq]
  cases h.size with
  | zero => exact hvv.mergesAlike hh hv hfree d d' hd hdfree hdd hty
  | succ n => exact hvv.mergesAlike hh hv hfree d d' hd hdfree hdd hty

end Value

end DynamicEval
