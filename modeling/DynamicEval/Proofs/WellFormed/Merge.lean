import DynamicEval.Merge
import DynamicEval.Proofs.WellFormed.Path

/-!
# Merges keep what is well-formed

A merge keeps the type of its destination, and whatever part of it was changed still fits, also when
the merge stops half way. Parts are taken over as they are only between values of one type; all
others are coerced.

## Main definitions

* `MergesCells`: merges of the content of cells.

## Main results

* `Value.mergeStep_keeps`: a step of a merge keeps the type of its destination.
* `Value.merge_keeps`: a merge keeps the type of its destination.
-/

namespace DynamicEval

namespace Value

variable {h : Heap} {source dest : Value} {e : Ty} {items vs : List Value}

/-! ### Lists and bases -/

theorem mergeIntoList_keeps (hh : h.WellFormed) (hitems : ∀ w ∈ items, w.Fits e h)
    (hvs : ∀ v ∈ vs, v.WellFormed h) : (mergeIntoList e items vs h).Keeps h (.list e) := by
  induction vs generalizing items h with
  | nil => exact Edit.keep_keeps hh (wellFormed_list.mpr hitems) _
  | cons v vs ih =>
    have hv := (hvs v List.mem_cons_self).peel
    rw [mergeIntoList]
    split
    · next w h' hrun =>
      obtain ⟨hgrows, hw⟩ := e.coerce_keeps hh hv w h' hrun
      refine (ih hgrows.wellFormed (fun u hu => ?_) fun u hu => ?_).after hgrows
      · rcases List.mem_append.mp hu with hu | hu
        · exact (hitems u hu).mono hgrows.toExtends
        · rw [List.mem_singleton.mp hu]
          exact hw
      · exact (hvs u (List.mem_cons_of_mem _ hu)).mono hgrows.toExtends
    · exact Edit.keep_keeps hh (wellFormed_list.mpr hitems) _

theorem mergeIntoArray_keeps {done : List Value} (hh : h.WellFormed)
    (hitems : ∀ w ∈ done ++ items, w.Fits e h) (hvs : ∀ v ∈ vs, v.WellFormed h) :
    (mergeIntoArray e done items vs h).Keeps h (.array e (done ++ items).length) := by
  have hkeep (result : Except Error Unit) :
      (Edit.keep h (array e (done ++ items)) result).Keeps h (.array e (done ++ items).length) :=
    Edit.keep_keeps hh (wellFormed_array.mpr hitems) result
  induction vs generalizing done items h with
  | nil => cases items <;> exact hkeep _
  | cons v vs ih =>
    cases items with
    | nil => exact hkeep _
    | cons item items =>
      -- The item at hand moves to those that are done, as it is or replaced.
      have hnext {w : Value} {h' : Heap} (hgrows : h.Grows h') (hw : w.Fits e h') :
          (mergeIntoArray e (done ++ [w]) items vs h').Keeps h
            (.array e (done ++ item :: items).length) := by
        have hitems' : ∀ u ∈ (done ++ [w]) ++ items, u.Fits e h' := by
          intro u hu
          rw [List.append_assoc, List.mem_append, List.mem_append, List.mem_singleton] at hu
          rcases hu with hu | rfl | hu
          · exact (hitems u (List.mem_append_left _ hu)).mono hgrows.toExtends
          · exact hw
          · exact (hitems u (by simp [hu])).mono hgrows.toExtends
        have hlength : (done ++ item :: items).length = ((done ++ [w]) ++ items).length := by simp
        rw [hlength]
        refine (ih hgrows.wellFormed hitems' (fun u hu => ?_) fun result => ?_).after hgrows
        · exact (hvs u (List.mem_cons_of_mem _ hu)).mono hgrows.toExtends
        · exact Edit.keep_keeps hgrows.wellFormed (wellFormed_array.mpr hitems') result
      rw [mergeIntoArray]
      split
      · exact hnext hh.grows (hitems item (by simp))
      · split
        · next w h' hrun =>
          obtain ⟨hgrows, hw⟩ := e.coerce_keeps hh (hvs v List.mem_cons_self).peel w h' hrun
          exact hnext hgrows hw
        · exact hkeep _

theorem intoBase_keeps {f : Heap → Value → Edit Unit} (hh : h.WellFormed)
    (hsource : source.WellFormed h) (hdest : dest.WellFormed h)
    (hf : ∀ u, u.WellFormed h → (f h u).Keeps h u.ty) :
    (intoBase source dest h f).Keeps h dest.ty := by
  rw [intoBase]
  split
  · exact Edit.keep_keeps hh hdest _
  · refine change_keeps hh hdest fun u hu => ?_
    split
    · refine ⟨⟨hh.grows, hsource.boxed⟩, ?_⟩
      show (source.boxed.ty == Ty.any) = true
      rw [ty_boxed]
      exact BEq.rfl
    · exact hf u hu

/-- A base and a source of one type may stand for each other. -/
theorem choose_keeps {base : Value} (hh : h.WellFormed) (hbase : base.WellFormed h)
    (hsource : source.WellFormed h) (hty : (base.ty == source.ty) = true) (b : Bool) :
    (Edit.keep h (if b then base else source) (return ()) : Edit Unit).Keeps h base.ty := by
  cases b with
  | false => exact ⟨⟨hh.grows, hsource⟩, BEq.symm hty⟩
  | true => exact Edit.keep_keeps hh hbase _

/-- Values fit fields if they fit fields of equal types. -/
theorem forall₂_fits_congr {fs gs : List Field}
    (hfs : List.Forall₂ (fun f g => (FieldOf.ty f == FieldOf.ty g) = true) fs gs)
    (hvs : List.Forall₂ (fun f v => Fits v f.ty h) gs vs) :
    List.Forall₂ (fun f v => Fits v f.ty h) fs vs := by
  induction hfs generalizing vs with
  | nil =>
    cases hvs
    exact .nil
  | cons hty _ ih =>
    cases hvs with
    | cons hv hvs =>
      exact .cons ⟨hv.wellFormed, hv.accepts.congr_left (BEq.symm hty)⟩ (ih hvs)

end Value

/-! ### Steps -/

/-- Merging of the content of cells into destinations. -/
def MergesCells (enter : Addr → Value → Heap → Edit Unit) : Prop :=
  ∀ {a dest h}, h.WellFormed → a < h.size → dest.WellFormed h →
    (enter a dest h).Keeps h dest.ty

section

variable {enter : Addr → Value → Heap → Edit Unit}

mutual

/-- A step of a merge keeps the type of its destination if merges of cells do. -/
theorem Value.mergeStep_keeps (he : MergesCells enter) {h : Heap} (hh : h.WellFormed)
    {dest : Value} (hdest : dest.WellFormed h) (source : Value) (hsource : source.WellFormed h) :
    (source.mergeStep enter dest h).Keeps h dest.ty := by
  match source with
  | .slot v => exact Value.mergeStep_keeps he hh hdest v (Value.wellFormed_slot.mp hsource).2.2
  | .pointer e (some a) => exact he hh (Value.wellFormed_pointer.mp hsource).1 hdest
  | .invalid | .emptySlot | .pointer _ none => exact Edit.keep_keeps hh hdest _
  | .list e vs =>
    refine Value.intoBase_keeps hh hsource hdest fun u hu => ?_
    have hvs := fun v hv => (Value.wellFormed_list.mp hsource v hv).wellFormed
    split
    · exact Value.mergeIntoList_keeps hh (Value.wellFormed_list.mp hu) hvs
    · exact Value.mergeIntoArray_keeps hh (Value.wellFormed_array.mp hu) hvs
    · exact Edit.keep_keeps hh hu _
  | .array e vs =>
    refine Value.intoBase_keeps hh hsource hdest fun u hu => ?_
    have hvs := fun v hv => (Value.wellFormed_array.mp hsource v hv).wellFormed
    split
    · exact Value.mergeIntoList_keeps hh (Value.wellFormed_list.mp hu) hvs
    · exact Value.mergeIntoArray_keeps hh (Value.wellFormed_array.mp hu) hvs
    · exact Edit.keep_keeps hh hu _
  | .record r vs =>
    refine Value.intoBase_keeps hh hsource hdest fun u hu => ?_
    split
    · next r' fields =>
      split
      · next hty =>
        have hvs := Value.forall₂_fits_congr (Ty.fields_beq_of_record_beq hty)
          (Value.wellFormed_record.mp hsource)
        obtain ⟨hgrows, hfields⟩ := Value.mergeFieldsStep_fit he hh vs r'.fields fields hvs
          (Value.wellFormed_record.mp hu)
        exact ⟨⟨hgrows, Value.wellFormed_record.mpr hfields⟩, BEq.rfl⟩
      · exact Edit.keep_keeps hh hu _
    · exact Edit.keep_keeps hh hu _
  | .map k e vs =>
    refine Value.intoBase_keeps hh hsource hdest fun u hu => ?_
    split
    · next k' e' entries =>
      split
      · have hvs := Value.wellFormed_map.mp hsource
        obtain ⟨hgrows, hentries⟩ := Value.mergeEntriesStep_fit he hh vs entries hvs.keys
          (fun entry hentry => (hvs.values entry hentry).wellFormed) (Value.wellFormed_map.mp hu)
        exact ⟨⟨hgrows, Value.wellFormed_map.mpr hentries⟩, BEq.rfl⟩
      · exact Edit.keep_keeps hh hu _
    · exact Edit.keep_keeps hh hu _
  | .bool _ | .int _ _ | .uint _ _ | .float _ _ | .string _ | .func _ =>
    refine Value.intoBase_keeps hh hsource hdest fun u hu => ?_
    split
    · next hty => exact Value.choose_keeps hh hu hsource hty _
    · exact Edit.keep_keeps hh hu _

theorem Value.mergeFieldsStep_fit (he : MergesCells enter) {h : Heap} (hh : h.WellFormed)
    (vs : List Value) (fs : List Field) (ws : List Value)
    (hvs : List.Forall₂ (fun f v => Value.Fits v f.ty h) fs vs)
    (hws : List.Forall₂ (fun f v => Value.Fits v f.ty h) fs ws) :
    h.Grows (Value.mergeFieldsStep enter vs fs ws h).1 ∧
      List.Forall₂ (fun f v => Value.Fits v f.ty (Value.mergeFieldsStep enter vs fs ws h).1) fs
        (Value.mergeFieldsStep enter vs fs ws h).2.1 := by
  match vs, fs, ws, hvs, hws with
  | [], [], [], .nil, .nil => exact ⟨hh.grows, .nil⟩
  | v :: vs, f :: fs, w :: ws, .cons hv hvs, .cons hw hws =>
    -- A field of the destination is settled, and the ones behind it come next.
    have hnext {u : Value} {h' : Heap} (hgrows : h.Grows h') (hu : u.Fits f.ty h') :
        h.Grows (Value.mergeFieldsStep enter vs fs ws h').1 ∧
          List.Forall₂ (fun f v => Value.Fits v f.ty (Value.mergeFieldsStep enter vs fs ws h').1)
            (f :: fs) (u :: (Value.mergeFieldsStep enter vs fs ws h').2.1) := by
      obtain ⟨hgrows', hfields⟩ := Value.mergeFieldsStep_fit he hgrows.wellFormed vs fs ws
        (hvs.imp fun _ _ hw => hw.mono hgrows.toExtends)
        (hws.imp fun _ _ hw => hw.mono hgrows.toExtends)
      exact ⟨hgrows.trans hgrows', .cons (hu.mono hgrows'.toExtends) hfields⟩
    rw [Value.mergeFieldsStep]
    split
    · exact hnext hh.grows hw
    · split
      · exact hnext hh.grows hv
      · have hr := Value.mergeStep_keeps he hh hw.wellFormed v hv.wellFormed
        have hfits := hr.fits hw
        dsimp only
        split
        · exact ⟨hr.grows, .cons hfits.value_fits
            (hws.imp fun _ _ hw => hw.mono hr.grows.toExtends)⟩
        · exact hnext hr.grows hfits.value_fits

theorem Value.mergeEntriesStep_fit (he : MergesCells enter) {h : Heap} (hh : h.WellFormed)
    {kt et : Ty} (es entries : List (Key × Value))
    (hkeys : ∀ entry ∈ es, entry.1.value.WellFormed h)
    (hvalues : ∀ entry ∈ es, entry.2.WellFormed h)
    (hentries : Entries.WellFormed kt et h entries) :
    h.Grows (Value.mergeEntriesStep enter kt et es entries h).1 ∧
      Entries.WellFormed kt et (Value.mergeEntriesStep enter kt et es entries h).1
        (Value.mergeEntriesStep enter kt et es entries h).2.1 := by
  match es with
  | [] => exact ⟨hh.grows, hentries⟩
  | (k, v) :: es =>
    have hk := hkeys (k, v) List.mem_cons_self
    have hv := hvalues (k, v) List.mem_cons_self
    have hnext {entries' : List (Key × Value)} {h' : Heap} (hgrows : h.Grows h')
        (hentries : Entries.WellFormed kt et h' entries') :
        h.Grows (Value.mergeEntriesStep enter kt et es entries' h').1 ∧
          Entries.WellFormed kt et (Value.mergeEntriesStep enter kt et es entries' h').1
            (Value.mergeEntriesStep enter kt et es entries' h').2.1 := by
      obtain ⟨hgrows', hentries'⟩ := Value.mergeEntriesStep_fit he hgrows.wellFormed es entries'
        (fun entry hentry => (hkeys entry (List.mem_cons_of_mem _ hentry)).mono hgrows.toExtends)
        (fun entry hentry => (hvalues entry (List.mem_cons_of_mem _ hentry)).mono hgrows.toExtends)
        hentries
      exact ⟨hgrows.trans hgrows', hentries'⟩
    rw [Value.mergeEntriesStep]
    dsimp only
    split
    · next place w hw =>
      obtain ⟨place', -, hfind⟩ := Option.bind_eq_some_iff.mp hw
      obtain ⟨w', hfind, heq⟩ := Option.map_eq_some_iff.mp hfind
      cases heq
      obtain ⟨entry, hentry, rfl⟩ := Entries.mem_of_find?_eq_some hfind
      have hfits := hentries.values entry hentry
      split
      · have hr := Value.mergeStep_keeps he hh hfits.wellFormed v hv
        have hreplaced := (hentries.mono hr.grows.toExtends).replace (hr.fits hfits).value_fits place
        split
        · exact ⟨hr.grows, hreplaced⟩
        · exact hnext hr.grows hreplaced
      · split
        · exact hnext hh.grows hentries
        · split
          · exact ⟨hh.grows, hentries⟩
          · next u h' hrun =>
            obtain ⟨hgrows, hu⟩ := et.coerce_keeps hh hv.peel u h' hrun
            exact hnext hgrows ((hentries.mono hgrows.toExtends).replace hu place)
    · split
      · exact ⟨hh.grows, hentries⟩
      · next entries' h' hrun =>
        obtain ⟨hgrows, hentries'⟩ := Entries.insert_keeps hh hentries hk hv.peel entries' h' hrun
        exact hnext hgrows hentries'

end

end

/-- A merge is a step whose merges of cells keep the types of their destinations. -/
theorem Value.exists_mergeWithin_eq (n : Nat) :
    ∃ enter, mergeWithin n = mergeStep enter ∧ MergesCells enter := by
  induction n with
  | zero => exact ⟨_, rfl, fun hh _ hdest => Edit.keep_keeps hh hdest _⟩
  | succ n ih =>
    obtain ⟨enter, heq, he⟩ := ih
    refine ⟨_, rfl, fun {a _ _} hh ha hdest => ?_⟩
    rw [heq]
    exact mergeStep_keeps he hh hdest _ (hh a ha)

/-- A merge keeps the type of its destination, whether it succeeds or stops half way. -/
theorem Value.merge_keeps {h : Heap} {source dest : Value} (hh : h.WellFormed)
    (hdest : dest.WellFormed h) (hsource : source.WellFormed h) :
    (dest.merge source h).Keeps h dest.ty := by
  obtain ⟨enter, heq, he⟩ := exists_mergeWithin_eq h.size
  rw [merge, heq]
  exact mergeStep_keeps he hh hdest source hsource

end DynamicEval
