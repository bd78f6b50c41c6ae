import DynamicEval.Merge
import DynamicEval.Proofs.Path.Place
import DynamicEval.Proofs.Region.Coercion
import DynamicEval.Proofs.WellFormed.Path

/-!
# Changes stay inside a region

A change of a value inside a region, with values from inside the region, leaves content inside the
region and every cell outside as it is, whether it succeeds, stops half way or fails at once. This
holds of writes along paths, whatever the segments are, of merges and of stores into cells.

## Main definitions

* `Edit.StaysIn`: a change that stays inside a region.

## Main results

* `Value.change_staysIn`: a change of a value stays inside a region if the change of the base does.
* `Value.set_staysIn`, `Value.setById_staysIn`, `Value.merge_staysIn`, `Value.store_staysIn`: the
  changes of a value.
-/

namespace DynamicEval

/-- A change of a heap inside a region only, with content of its destination that is inside the
region. -/
structure Edit.StaysIn {α : Type} (r : Edit α) (h : Heap) (P : Addr → Prop) : Prop
    extends h.StaysIn P r.heap where
  /-- The content is inside the region. -/
  within : r.value.Within P

namespace Edit

variable {α : Type} {r : Edit α} {h h' : Heap} {P : Addr → Prop} {v : Value}

theorem StaysIn.after (hr : r.StaysIn h' P) (hs : h.StaysIn P h') : r.StaysIn h P :=
  ⟨hs.trans hr.toStaysIn, hr.within⟩

theorem keep_staysIn (hP : h.Region P) (hv : v.Within P) (result : Except Error α) :
    (keep h v result).StaysIn h P :=
  ⟨hP.staysIn, hv⟩

theorem replace_staysIn {new : HeapM Value} (hP : h.Region P) (hv : v.Within P)
    (hnew : new.StaysIn P fun w => w.Within P) (result : α) :
    (replace h v new result).StaysIn h P := by
  rw [replace]
  split
  · next w h' hrun =>
    obtain ⟨hs, hw⟩ := hnew h w h' hP hrun
    exact ⟨hs, hw⟩
  · exact ⟨hP.staysIn, hv⟩

end Edit

theorem Entries.within_replace {P : Addr → Prop} {es : List (Key × Value)} {v : Value}
    (hes : ∀ entry ∈ es, entry.2.Within P) (hv : v.Within P) (place : BareKey) :
    ∀ entry ∈ Entries.replace place v es, entry.2.Within P := by
  intro entry hentry
  rcases Entries.mem_replace hentry with heq | hentry
  · rwa [heq]
  · exact hes entry hentry

namespace Value

variable {α : Type} {h : Heap} {P : Addr → Prop} {v w dest key base source : Value}
  {t k e : Ty} {path : List Value}

/-! ### The base -/

section

variable {f : Heap → Value → Edit α}

theorem changeNew.store_staysIn {r : Edit α} (hr : r.StaysIn h P) (e : Ty) :
    (changeNew.store e r).StaysIn h P where
  toStaysIn := hr.toStaysIn.trans (.alloc hr.region hr.within)
  within := within_pointer.mpr (hr.region.free _ (Nat.le_refl _))

theorem changeNew_staysIn (hf : ∀ u, u.Within P → (f h u).StaysIn h P) (e : Ty) :
    (changeNew f e h).StaysIn h P := by
  have hzero (e : Ty) : (changeNew.store e (f h e.zero)).StaysIn h P :=
    changeNew.store_staysIn (hf _ (e.within_zero P)) e
  match e with
  | .pointer e => exact changeNew.store_staysIn (changeNew_staysIn hf e) _
  | .invalid | .bool | .int _ | .uint _ | .float _ | .string | .list _ | .array _ _ | .map _ _
  | .record _ | .func | .any => exact hzero _

/-- A step of a change stays inside a region if changes of cells do. -/
theorem changeStep_staysIn (hf : ∀ u, u.Within P → (f h u).StaysIn h P)
    {enter : Addr → Heap → Heap × Except Error α}
    (henter : ∀ a, P a → h.StaysIn P (enter a h).1) {v : Value} (hv : v.Within P) :
    (v.changeStep f enter h).StaysIn h P := by
  match v with
  | .slot v =>
    have hr := changeStep_staysIn hf henter (within_slot.mp hv)
    exact ⟨hr.toStaysIn, within_slot.mpr hr.within⟩
  | .pointer e none => exact changeNew_staysIn hf e
  | .pointer e (some a) => exact ⟨henter a (within_pointer.mp hv), hv⟩
  | .invalid | .bool _ | .int _ _ | .uint _ _ | .float _ _ | .string _ | .list _ _ | .array _ _
  | .map _ _ _ | .record _ _ | .func _ | .emptySlot => exact hf _ hv

/-- A change of a value stays inside a region if the change of the base does. -/
theorem change_staysIn (hP : h.Region P) (hf : ∀ u, u.Within P → (f h u).StaysIn h P)
    (hv : v.Within P) : (v.change h f).StaysIn h P := by
  suffices ∀ n, (changeWithin f n v h).StaysIn h P from this h.size
  intro n
  induction n generalizing v with
  | zero => exact changeStep_staysIn hf (fun _ _ => hP.staysIn) hv
  | succ n ih =>
    refine changeStep_staysIn hf (fun a ha => ?_) hv
    have hr := ih (hP.cells a ha)
    exact hr.toStaysIn.trans (.set hr.region ha hr.within)

end

/-! ### Writes -/

theorem assignAs_staysIn (hP : h.Region P) (hdest : dest.Within P) (hv : v.Within P) :
    (dest.assignAs t v h).StaysIn h P :=
  Edit.replace_staysIn hP hdest (t.assign_staysIn hv) _

theorem assign_staysIn (hP : h.Region P) (hdest : dest.Within P) (hv : v.Within P) :
    (dest.assign v h).StaysIn h P := by
  rw [assign]
  split
  · exact Edit.keep_staysIn hP hdest _
  · exact assignAs_staysIn hP hdest hv

theorem insertEntry_staysIn {es : List (Key × Value)} (hes : (map k e es).Within P)
    (hv : v.Within P) (key : Value) :
    (do return map k e (← Entries.insert k e es key v) : HeapM Value).StaysIn P
      fun w => w.Within P :=
  (Entries.insert_staysIn (within_map.mp hes) hv key).bind fun _ hes => .pure (within_map.mpr hes)

/-- A place in a value inside a region has its content there, and so has a place that other content
from there is put at. -/
theorem Selects.within {p : Place} (hp : key.Selects h base p) (hbase : base.Within P) :
    p.content.Within P ∧ ∀ w, w.Within P → (p.put w).Within P := by
  have hset {vs : List Value} (hvs : ∀ u ∈ vs, u.Within P) {w : Value} (hw : w.Within P) (i : Nat) :
      ∀ u ∈ vs.set i w, u.Within P := by
    intro u hu
    rcases List.mem_or_eq_of_mem_set hu with hu | rfl
    · exact hvs u hu
    · exact hw
  cases hp with
  | entry hplace hu =>
    have hes := within_map.mp hbase
    obtain ⟨entry, hentry, rfl⟩ := Entries.mem_of_find?_eq_some hu
    exact ⟨hes entry hentry, fun w hw => within_map.mpr (Entries.within_replace hes hw _)⟩
  | field _ _ hu =>
    have hvs := within_record.mp hbase
    exact ⟨hvs _ (List.mem_of_getElem? hu), fun w hw => within_record.mpr (hset hvs hw _)⟩
  | listItem _ hu =>
    have hvs := within_list.mp hbase
    exact ⟨hvs _ (List.mem_of_getElem? hu), fun w hw => within_list.mpr (hset hvs hw _)⟩
  | arrayItem _ hu =>
    have hvs := within_array.mp hbase
    exact ⟨hvs _ (List.mem_of_getElem? hu), fun w hw => within_array.mpr (hset hvs hw _)⟩

theorem insertMade_staysIn {es : List (Key × Value)} {made : Edit Bool}
    (hes : (map k e es).Within P) (hmade : made.StaysIn h P) (key : Value) :
    (insertMade k e es key made).StaysIn h P := by
  rw [insertMade]
  split
  · exact ⟨hmade.toStaysIn, hes⟩
  · have hnew := insertEntry_staysIn hes hmade.within key
    exact (Edit.replace_staysIn hmade.region hes hnew _).after hmade.toStaysIn

end Value

theorem Ty.fresh_staysIn {h : Heap} {P : Addr → Prop} (hP : h.Region P) (t : Ty) :
    h.StaysIn P (t.fresh h).2 ∧ (t.fresh h).1.Within P := by
  cases t with
  | pointer e =>
    exact ⟨.alloc hP (e.within_zero P), Value.within_pointer.mpr (hP.free _ (Nat.le_refl _))⟩
  | _ => exact ⟨hP.staysIn, Ty.within_zero _ P⟩

theorem Ty.vivify_staysIn {h : Heap} {P : Addr → Prop} (hP : h.Region P) (e : Ty)
    (segment : Value) :
    h.StaysIn P (e.vivify segment h).2 ∧ (e.vivify segment h).1.Within P := by
  cases e with
  | any =>
    refine ⟨hP.staysIn, Value.within_slot.mpr (Value.within_map.mpr ?_)⟩
    exact List.forall_mem_nil _
  | _ => exact Ty.fresh_staysIn hP _

namespace Value

variable {h : Heap} {P : Addr → Prop} {v dest key base source : Value} {t k e : Ty}
  {path items vs : List Value}

theorem setPart_staysIn (hP : h.Region P) (hbase : base.Within P) (hv : v.Within P)
    (hrest : ∀ {h' t dest}, h'.Region P → dest.Within P → (setIn v path t dest h').StaysIn h' P) :
    (setPart v key path h base).StaysIn h P := by
  have hmissing : (setMissing v key path h base).StaysIn h P := by
    unfold setMissing
    split
    · next k e entries segment path =>
      obtain ⟨hs, hnew⟩ := e.vivify_staysIn hP segment
      exact insertMade_staysIn hbase ((hrest hs.region hnew).after hs) key
    · exact Edit.keep_staysIn hP hbase _
  unfold setPart
  split
  · exact Edit.replace_staysIn hP hbase (insertEntry_staysIn hbase hv key) _
  · split
    · next p hp =>
      obtain ⟨hcontent, hput⟩ := (place?_eq_some.mp hp).within hbase
      have hr := hrest (t := p.ty) hP hcontent
      exact ⟨hr.toStaysIn, hput _ hr.within⟩
    · exact hmissing

/-- A write along a path stays inside a region, whatever the segments of the path are. -/
theorem setIn_staysIn (hP : h.Region P) (hdest : dest.Within P) (hv : v.Within P) :
    (setIn v path t dest h).StaysIn h P := by
  induction path generalizing t dest h with
  | nil => exact assignAs_staysIn hP hdest hv
  | cons key path ih =>
    by_cases hempty : dest = emptySlot
    · cases hempty
      exact Edit.keep_staysIn hP hdest _
    rw [setIn_cons hempty]
    exact change_staysIn hP (fun u hu => setPart_staysIn hP hu hv ih) hdest

theorem set_staysIn (hP : h.Region P) (hdest : dest.Within P) (hv : v.Within P)
    (path : List Value) : (dest.set v path h).StaysIn h P := by
  rw [set]
  split
  · exact Edit.keep_staysIn hP hdest _
  · split
    · exact assign_staysIn hP hdest hv
    · exact setIn_staysIn hP hdest hv

theorem setById_staysIn (hP : h.Region P) (hdest : dest.Within P) (hv : v.Within P)
    (ident : String) : (dest.setById v ident h).StaysIn h P := by
  have hr := set_staysIn hP hdest hv (pathOf ident)
  rw [setById]
  split
  · split
    · exact (set_staysIn hr.region hr.within hv _).after hr.toStaysIn
    · exact hr
  · exact hr

theorem store_staysIn (hP : h.Region P) (hdest : dest.Within P) (hv : v.Within P) :
    (dest.store v h).StaysIn h P := by
  unfold store
  split
  · exact ⟨.set hP (within_pointer.mp hdest) hv, hdest⟩
  · exact ⟨.alloc hP hv, within_pointer.mpr (hP.free _ (Nat.le_refl _))⟩
  · exact Edit.keep_staysIn hP hdest _

/-! ### Merges -/

theorem mergeIntoList_staysIn (hP : h.Region P) (hitems : ∀ w ∈ items, w.Within P)
    (hvs : ∀ v ∈ vs, v.Within P) : (mergeIntoList e items vs h).StaysIn h P := by
  induction vs generalizing items h with
  | nil => exact Edit.keep_staysIn hP (within_list.mpr hitems) _
  | cons v vs ih =>
    rw [mergeIntoList]
    split
    · next w h' hrun =>
      have hv := (hvs v List.mem_cons_self).peel
      obtain ⟨hs, hw⟩ := e.coerce_staysIn v.peel hv h w h' hP hrun
      refine (ih hs.region ?_ fun u hu => hvs u (List.mem_cons_of_mem _ hu)).after hs
      exact List.forall_mem_append.mpr ⟨hitems, List.forall_mem_singleton.mpr hw⟩
    · exact Edit.keep_staysIn hP (within_list.mpr hitems) _

theorem mergeIntoArray_staysIn {done : List Value} (hP : h.Region P)
    (hdone : ∀ w ∈ done, w.Within P) (hitems : ∀ w ∈ items, w.Within P)
    (hvs : ∀ v ∈ vs, v.Within P) : (mergeIntoArray e done items vs h).StaysIn h P := by
  have hkeep (result : Except Error Unit) :
      (Edit.keep h (array e (done ++ items)) result).StaysIn h P :=
    Edit.keep_staysIn hP (within_array.mpr (List.forall_mem_append.mpr ⟨hdone, hitems⟩)) result
  induction vs generalizing done items h with
  | nil => cases items <;> exact hkeep _
  | cons v vs ih =>
    cases items with
    | nil => exact hkeep _
    | cons item items =>
      obtain ⟨hitem, hitems⟩ := List.forall_mem_cons.mp hitems
      -- The item at hand moves to those that are done, as it is or replaced.
      have hnext {w : Value} {h' : Heap} (hs : h.StaysIn P h') (hw : w.Within P) :
          (mergeIntoArray e (done ++ [w]) items vs h').StaysIn h P := by
        have hdone' : ∀ u ∈ done ++ [w], u.Within P :=
          List.forall_mem_append.mpr ⟨hdone, List.forall_mem_singleton.mpr hw⟩
        refine (ih hs.region hdone' hitems (fun u hu => hvs u (List.mem_cons_of_mem _ hu))
          fun result => ?_).after hs
        exact Edit.keep_staysIn hs.region
          (within_array.mpr (List.forall_mem_append.mpr ⟨hdone', hitems⟩)) result
      rw [mergeIntoArray]
      split
      · exact hnext hP.staysIn hitem
      · split
        · next w h' hrun =>
          have hv := (hvs v List.mem_cons_self).peel
          obtain ⟨hs, hw⟩ := e.coerce_staysIn v.peel hv h w h' hP hrun
          exact hnext hs hw
        · exact hkeep _

theorem intoBase_staysIn {f : Heap → Value → Edit Unit} (hP : h.Region P)
    (hsource : source.Within P) (hdest : dest.Within P)
    (hf : ∀ u, u.Within P → (f h u).StaysIn h P) : (intoBase source dest h f).StaysIn h P := by
  rw [intoBase]
  split
  · exact Edit.keep_staysIn hP hdest _
  · refine change_staysIn hP (fun u hu => ?_) hdest
    split
    · exact Edit.keep_staysIn hP hsource.boxed _
    · exact hf u hu

end Value

/-- Merges of the content of cells of a region that stay inside the region. -/
def MergesInside (P : Addr → Prop) (enter : Addr → Value → Heap → Edit Unit) : Prop :=
  ∀ {a dest h}, P a → h.Region P → dest.Within P → (enter a dest h).StaysIn h P

section

variable {P : Addr → Prop} {enter : Addr → Value → Heap → Edit Unit}

mutual

/-- A step of a merge stays inside a region if merges of cells do. -/
theorem Value.mergeStep_staysIn (he : MergesInside P enter) {h : Heap} (hP : h.Region P)
    {dest : Value} (hdest : dest.Within P) (source : Value) (hsource : source.Within P) :
    (source.mergeStep enter dest h).StaysIn h P := by
  match source with
  | .slot v => exact Value.mergeStep_staysIn he hP hdest v (Value.within_slot.mp hsource)
  | .pointer e (some a) => exact he (Value.within_pointer.mp hsource) hP hdest
  | .invalid | .emptySlot | .pointer _ none => exact Edit.keep_staysIn hP hdest _
  | .list e vs =>
    refine Value.intoBase_staysIn hP hsource hdest fun u hu => ?_
    have hvs := Value.within_list.mp hsource
    split
    · exact Value.mergeIntoList_staysIn hP (Value.within_list.mp hu) hvs
    · exact Value.mergeIntoArray_staysIn hP (List.forall_mem_nil _) (Value.within_array.mp hu) hvs
    · exact Edit.keep_staysIn hP hu _
  | .array e vs =>
    refine Value.intoBase_staysIn hP hsource hdest fun u hu => ?_
    have hvs := Value.within_array.mp hsource
    split
    · exact Value.mergeIntoList_staysIn hP (Value.within_list.mp hu) hvs
    · exact Value.mergeIntoArray_staysIn hP (List.forall_mem_nil _) (Value.within_array.mp hu) hvs
    · exact Edit.keep_staysIn hP hu _
  | .record r vs =>
    refine Value.intoBase_staysIn hP hsource hdest fun u hu => ?_
    split
    · next r' fields =>
      split
      · obtain ⟨hs, hfields⟩ := Value.mergeFieldsStep_staysIn he hP vs r'.fields fields
          (Value.within_record.mp hsource) (Value.within_record.mp hu)
        exact ⟨hs, Value.within_record.mpr hfields⟩
      · exact Edit.keep_staysIn hP hu _
    · exact Edit.keep_staysIn hP hu _
  | .map k e vs =>
    refine Value.intoBase_staysIn hP hsource hdest fun u hu => ?_
    split
    · next k' e' entries =>
      split
      · obtain ⟨hs, hentries⟩ := Value.mergeEntriesStep_staysIn (k := k') (e := e') he hP vs entries
          (Value.within_map.mp hsource) (Value.within_map.mp hu)
        exact ⟨hs, Value.within_map.mpr hentries⟩
      · exact Edit.keep_staysIn hP hu _
    · exact Edit.keep_staysIn hP hu _
  | .bool _ | .int _ _ | .uint _ _ | .float _ _ | .string _ | .func _ =>
    refine Value.intoBase_staysIn hP hsource hdest fun u hu => ?_
    split
    · refine Edit.keep_staysIn hP ?_ _
      split
      · exact hu
      · exact hsource
    · exact Edit.keep_staysIn hP hu _

theorem Value.mergeFieldsStep_staysIn (he : MergesInside P enter) {h : Heap} (hP : h.Region P)
    (vs : List Value) (fs : List Field) (ws : List Value) (hvs : ∀ v ∈ vs, v.Within P)
    (hws : ∀ w ∈ ws, w.Within P) :
    h.StaysIn P (Value.mergeFieldsStep enter vs fs ws h).1 ∧
      ∀ w ∈ (Value.mergeFieldsStep enter vs fs ws h).2.1, w.Within P := by
  match vs, fs, ws with
  | v :: vs, f :: fs, w :: ws =>
    obtain ⟨hv, hvs⟩ := List.forall_mem_cons.mp hvs
    obtain ⟨hw, hws⟩ := List.forall_mem_cons.mp hws
    -- A field of the destination is settled, and the ones behind it come next.
    have hnext {u : Value} {h' : Heap} (hs : h.StaysIn P h') (hu : u.Within P) :
        h.StaysIn P (Value.mergeFieldsStep enter vs fs ws h').1 ∧
          ∀ w ∈ u :: (Value.mergeFieldsStep enter vs fs ws h').2.1, w.Within P := by
      obtain ⟨hs', hfields⟩ := Value.mergeFieldsStep_staysIn he hs.region vs fs ws hvs hws
      exact ⟨hs.trans hs', List.forall_mem_cons.mpr ⟨hu, hfields⟩⟩
    rw [Value.mergeFieldsStep]
    split
    · exact hnext hP.staysIn hw
    · split
      · exact hnext hP.staysIn hv
      · have hr := Value.mergeStep_staysIn he hP hw v hv
        dsimp only
        split
        · exact ⟨hr.toStaysIn, List.forall_mem_cons.mpr ⟨hr.within, hws⟩⟩
        · exact hnext hr.toStaysIn hr.within
  | [], _, _ | _ :: _, [], _ | _ :: _, _ :: _, [] => exact ⟨hP.staysIn, hws⟩

theorem Value.mergeEntriesStep_staysIn (he : MergesInside P enter) {h : Heap} {k e : Ty}
    (hP : h.Region P)
    (es entries : List (Key × Value)) (hes : ∀ entry ∈ es, entry.2.Within P)
    (hentries : ∀ entry ∈ entries, entry.2.Within P) :
    h.StaysIn P (Value.mergeEntriesStep enter k e es entries h).1 ∧
      ∀ entry ∈ (Value.mergeEntriesStep enter k e es entries h).2.1, entry.2.Within P := by
  match es with
  | [] => exact ⟨hP.staysIn, hentries⟩
  | (key, v) :: es =>
    obtain ⟨hv, hes⟩ := List.forall_mem_cons.mp hes
    have hnext {entries' : List (Key × Value)} {h' : Heap} (hs : h.StaysIn P h')
        (hentries : ∀ entry ∈ entries', entry.2.Within P) :
        h.StaysIn P (Value.mergeEntriesStep enter k e es entries' h').1 ∧
          ∀ entry ∈ (Value.mergeEntriesStep enter k e es entries' h').2.1, entry.2.Within P := by
      obtain ⟨hs', hentries'⟩ := Value.mergeEntriesStep_staysIn he hs.region es entries' hes hentries
      exact ⟨hs.trans hs', hentries'⟩
    rw [Value.mergeEntriesStep]
    dsimp only
    split
    · next place w hw =>
      obtain ⟨place', -, hfind⟩ := Option.bind_eq_some_iff.mp hw
      obtain ⟨w', hfind, heq⟩ := Option.map_eq_some_iff.mp hfind
      cases heq
      obtain ⟨entry, hentry, rfl⟩ := Entries.mem_of_find?_eq_some hfind
      split
      · have hr := Value.mergeStep_staysIn he hP (hentries entry hentry) v hv
        split
        · exact ⟨hr.toStaysIn, Entries.within_replace hentries hr.within place⟩
        · exact hnext hr.toStaysIn (Entries.within_replace hentries hr.within place)
      · split
        · exact hnext hP.staysIn hentries
        · split
          · exact ⟨hP.staysIn, hentries⟩
          · next u h' hrun =>
            obtain ⟨hs, hu⟩ := e.coerce_staysIn v.peel hv.peel h u h' hP hrun
            exact hnext hs (Entries.within_replace hentries hu place)
    · split
      · exact ⟨hP.staysIn, hentries⟩
      · next entries' h' hrun =>
        obtain ⟨hs, hentries'⟩ :=
          Entries.insert_staysIn hentries hv.peel key.value h entries' h' hP hrun
        exact hnext hs hentries'

end

end

/-- A merge of a source inside a region stays inside the region. -/
theorem Value.merge_staysIn {h : Heap} {P : Addr → Prop} {source dest : Value} (hP : h.Region P)
    (hdest : dest.Within P) (hsource : source.Within P) : (dest.merge source h).StaysIn h P := by
  suffices ∀ n {h dest source}, h.Region P → dest.Within P → source.Within P →
      (mergeWithin n source dest h).StaysIn h P from this h.size hP hdest hsource
  intro n
  induction n with
  | zero =>
    intro h dest source hP hdest hsource
    exact mergeStep_staysIn (fun _ hP hdest => Edit.keep_staysIn hP hdest _) hP hdest source hsource
  | succ n ih =>
    intro h dest source hP hdest hsource
    exact mergeStep_staysIn (fun ha hP hdest => ih hP hdest (hP.cells _ ha)) hP hdest source hsource

end DynamicEval
