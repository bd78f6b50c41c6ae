import DynamicEval.Proofs.Heap.Unshared
import DynamicEval.Proofs.Merge.Associative
import DynamicEval.Proofs.Path.Miss

/-!
# Where a merge of parts ends

A merge goes through the items, fields or entries of its source in order, and the first that it
cannot deal with ends it. So there is a number of parts that are merged, and what is left behind is
what they have left: the part at hand cannot be coerced into the type that the base declares, and
nothing is done about it. Only a field or an entry that is merged into one of the destination may
have changed that one before the merge of these ended in its turn.

## Main definitions

* `Value.beginning`: a value with its first parts only.
* `Value.Meets`: the part of a base that a part of a source is merged into.
* `Value.Halts`: how a merge ends at a part of its source.
* `Value.GoesInto`: whether a source goes into a base at all.

## Main results

* `Value.exists_stop`: a loop that fails does so at one of its steps.
* `Value.mergeStep_halts`: a step of a merge of bases that fails ends at a part of the source, or
  the source does not go into the base.
-/

namespace DynamicEval

/-- Adds an entry whose key may be one of a map: what can fail is the coercion of the value. -/
theorem Entries.run_insert_value {h : Heap} {kt : Ty} {key : Key} (hkey : kt.AcceptsKey key)
    (et : Ty) (es : List (Key × Value)) (v : Value) :
    (Entries.insert kt et es key.value v).run h =
      ((et.coerce v).run h).map fun w => (Entries.put key w.1 es, w.2) := by
  rw [Entries.insert, StateT.run_bind, Key.coerceWith_value hkey]
  show ((et.coerce v >>= fun w => return Entries.put key w es) : HeapM _).run h = _
  rw [StateT.run_bind]
  cases (et.coerce v).run h <;> rfl

namespace Value

/-! ### Parts -/

/-- The value with its first `k` parts only; the other fields of a record are zero. -/
def beginning (k : Nat) : Value → Value
  | list e items => list e (items.take k)
  | array e items => array e (items.take k)
  | map kt et entries => map kt et (entries.take k)
  | record r fields => record r (fields.take k ++ (Ty.zeroFields r.fields).drop k)
  | v => v

/-- The `k`th part of a source is merged into the part `w` of a base: into the field at the same
position, or into the value at the place of the same key. Other content of that part is put into the
base by `put`. -/
inductive Meets (h : Heap) : Value → Nat → Value → Value → (Value → Value) → Prop where
  | field {r r' : RecordType} {vs fields : List Value} {k : Nat} {w : Value}
      (hw : fields[k]? = some w) :
      Meets h (record r vs) k (record r' fields) w fun u => record r' (fields.set k u)
  | entry {kt et kt' et' : Ty} {es entries : List (Key × Value)} {k : Nat} {key : Key}
      {v w : Value} {place : BareKey} (hkey : es[k]? = some (key, v))
      (hplace : Key.place? kt' key.value h = some place)
      (hw : Entries.find? place entries = some w) :
      Meets h (map kt et es) k (map kt' et' entries) w
        fun u => map kt' et' (Entries.replace place u entries)

/-- How a merge of a source fails with the outcome `r`, where `first k` is the outcome of a merge of
its first `k` parts only. These are merged, and the next part ends the merge, be there more of them
or not: it cannot be coerced into the declared type of the parts of the base, and nothing more is
done; or it is merged into a part of the base, and that merge fails. -/
inductive Halts (enter : Addr → Value → Heap → Edit Unit) (source : Value)
    (first : Nat → Edit Unit) : Edit Unit → Prop where
  | before {k : Nat} {h : Heap} {base v : Value} {t : Ty} {e : Error}
      (hfirst : first k = ⟨h, base, .ok ()⟩) (hlast : first (k + 1) = ⟨h, base, .error e⟩)
      (hv : source.partAt? k = some v) (ht : base.ty.elem? = some t)
      (herr : (t.coerce v.peel).run h = .error e) : Halts enter source first ⟨h, base, .error e⟩
  | inside {k : Nat} {h : Heap} {base v w : Value} {put : Value → Value} {e : Error}
      (hfirst : first k = ⟨h, base, .ok ()⟩)
      (hlast : first (k + 1) = (v.mergeStep enter w h).within put)
      (hv : source.partAt? k = some v) (hw : Meets h source k base w put)
      (herr : (v.mergeStep enter w h).result = .error e) :
      Halts enter source first ((v.mergeStep enter w h).within put)

/-- Whether a source goes into a base: both have items, or they are of one type. A slot that holds
nothing takes the source as it is. -/
def GoesInto (source base : Value) : Prop :=
  base = emptySlot ∨ (base.items?.isSome = true ∧ source.items?.isSome = true) ∨
    (base.ty == source.ty) = true

section

variable {h : Heap} {v w base : Value} {k : Nat} {put : Value → Value}

theorem Meets.wellFormed (hw : Meets h v k base w put) (hbase : base.WellFormed h) :
    w.WellFormed h := by
  cases hw with
  | field hw => exact wellFormed_of_partAt? (k := k) hbase hw
  | entry _ _ hw =>
    obtain ⟨entry, hentry, rfl⟩ := Entries.mem_of_find?_eq_some hw
    exact ((wellFormed_map.mp hbase).values entry hentry).wellFormed

theorem WellFormed.beginning (hv : v.WellFormed h) (k : Nat) : (v.beginning k).WellFormed h := by
  cases v with
  | list e items =>
    exact wellFormed_list.mpr fun w hw => wellFormed_list.mp hv w (List.mem_of_mem_take hw)
  | array e items =>
    exact wellFormed_array.mpr fun w hw => wellFormed_array.mp hv w (List.mem_of_mem_take hw)
  | map kt et entries =>
    have hentries := wellFormed_map.mp hv
    refine wellFormed_map.mpr ⟨?_, ?_, ?_, ?_⟩
    · rw [List.map_take]
      exact hentries.places.sublist (List.take_sublist _ _)
    · exact fun entry hentry => hentries.keyTypes entry (List.mem_of_mem_take hentry)
    · exact fun entry hentry => hentries.keys entry (List.mem_of_mem_take hentry)
    · exact fun entry hentry => hentries.values entry (List.mem_of_mem_take hentry)
  | record r fields =>
    have hfields : List.Forall₂ (fun f v => Fits v f.ty h) (r.fields.take k ++ r.fields.drop k)
        (fields.take k ++ (Ty.zeroFields r.fields).drop k) :=
      List.rel_append (List.forall₂_take k (wellFormed_record.mp hv))
        (List.forall₂_drop k (Ty.zeroFields_fit h r.fields))
    rw [List.take_append_drop] at hfields
    exact wellFormed_record.mpr hfields
  | _ => exact hv

theorem IsBase.beginning (hv : v.IsBase) (hne : v ≠ .invalid) (k : Nat) :
    (v.beginning k).IsBase ∧ v.beginning k ≠ .invalid := by
  cases v with
  | list | array | map | record => exact ⟨⟨rfl, rfl⟩, nofun⟩
  | _ => exact ⟨hv, hne⟩

end

/-! ### Loops -/

section

variable {α σ : Type} {f : List α → σ → Edit Unit} {Fails : α → σ → Edit Unit → Prop}

/-- Where every step of a loop goes on in some state or ends the loop, a loop that fails does so at
one of its steps: the steps before it succeed, and those behind it play no role. -/
theorem exists_stop {as : List α} {s : σ} {e : Error} (hnil : ∀ s, (f [] s).result = .ok ())
    (hcons : ∀ a ∈ as, ∀ s, (∃ s', ∀ as, f (a :: as) s = f as s') ∨
      ∃ r, Fails a s r ∧ ∀ as, f (a :: as) s = r)
    (herr : (f as s).result = .error e) :
    ∃ k a s', as[k]? = some a ∧ f (as.take k) s = f [] s' ∧ f (as.take (k + 1)) s = f as s ∧
      Fails a s' (f as s) := by
  induction as generalizing s with
  | nil => cases (hnil s).symm.trans herr
  | cons a as ih =>
    obtain ⟨ha, has⟩ := List.forall_mem_cons.mp hcons
    rcases ha s with ⟨s', hnext⟩ | ⟨r, hfails, hstop⟩
    · rw [hnext] at herr
      obtain ⟨k, b, s₁, hb, hfirst, hlast, hfails⟩ := ih has herr
      refine ⟨k + 1, b, s₁, hb, ?_, ?_, (hnext as).symm ▸ hfails⟩
      · rw [List.take_succ_cons, hnext, hfirst]
      · rw [List.take_succ_cons, hnext, hnext, hlast]
    · exact ⟨0, a, s, rfl, rfl, (hstop _).trans (hstop as).symm, (hstop as).symm ▸ hfails⟩

end

section

variable {enter : Addr → Value → Heap → Edit Unit} {h : Heap} {e : Ty} {items vs : List Value}
  {source : Value} {err : Error}

/-! ### Lists and arrays -/

theorem mergeIntoList_halts (hsource : ∀ k, source.partAt? k = vs[k]?)
    (herr : (mergeIntoList e items vs h).result = .error err) :
    Halts enter source (fun k => mergeIntoList e items (vs.take k) h)
      (mergeIntoList e items vs h) := by
  have hcons (v : Value) (s : List Value × Heap) :
      (∃ s' : List Value × Heap, ∀ vs, mergeIntoList e s.1 (v :: vs) s.2 =
        mergeIntoList e s'.1 vs s'.2) ∨
      ∃ r, (∃ err, (e.coerce v.peel).run s.2 = .error err ∧
          Edit.keep s.2 (list e s.1) (throw err) = r) ∧
        ∀ vs, mergeIntoList e s.1 (v :: vs) s.2 = r := by
    cases hrun : (e.coerce v.peel).run s.2 with
    | ok w => exact .inl ⟨(s.1 ++ [w.1], w.2), fun vs => by rw [mergeIntoList, hrun]⟩
    | error err => exact .inr ⟨_, ⟨err, rfl, rfl⟩, fun vs => by rw [mergeIntoList, hrun]⟩
  obtain ⟨k, v, s', hv, hfirst, hlast, err, hrun, hstop⟩ := exists_stop
    (f := fun vs (s : List Value × Heap) => mergeIntoList e s.1 vs s.2) (fun _ => rfl)
    (fun v _ => hcons v) (s := (items, h)) herr
  dsimp only at hlast hstop
  rw [← hstop] at hlast ⊢
  exact .before hfirst hlast ((hsource k).trans hv) rfl hrun

theorem mergeIntoArray_halts {done : List Value} (hsource : ∀ k, source.partAt? k = vs[k]?)
    (herr : (mergeIntoArray e done items vs h).result = .error err) :
    Halts enter source (fun k => mergeIntoArray e done items (vs.take k) h)
      (mergeIntoArray e done items vs h) := by
  -- The merge ends also where there are no items left to replace, and then it succeeds.
  have hend {done items vs : List Value} {h : Heap} (hempty : items = [] ∨ vs = []) :
      mergeIntoArray e done items vs h = Edit.keep h (array e (done ++ items)) (return ()) := by
    rcases hempty with rfl | rfl
    · cases vs <;> rfl
    · cases items <;> rfl
  have hcons (v : Value) (s : List Value × List Value × Heap) :
      (∃ s' : List Value × List Value × Heap, ∀ vs, mergeIntoArray e s.1 s.2.1 (v :: vs) s.2.2 =
        mergeIntoArray e s'.1 s'.2.1 vs s'.2.2) ∨
      ∃ r, (∃ err, (e.coerce v.peel).run s.2.2 = .error err ∧
          Edit.keep s.2.2 (array e (s.1 ++ s.2.1)) (throw err) = r) ∧
        ∀ vs, mergeIntoArray e s.1 s.2.1 (v :: vs) s.2.2 = r := by
    obtain ⟨done, items, h⟩ := s
    cases items with
    | nil =>
      exact .inl ⟨(done, [], h), fun vs => (hend (.inl rfl)).trans (hend (.inl rfl)).symm⟩
    | cons item items =>
      by_cases hzero : v.peel.isZero = true
      · exact .inl ⟨(done ++ [item], items, h), fun vs => by rw [mergeIntoArray, if_pos hzero]⟩
      · cases hrun : (e.coerce v.peel).run h with
        | ok w =>
          exact .inl ⟨(done ++ [w.1], items, w.2), fun vs => by
            rw [mergeIntoArray, if_neg hzero, hrun]⟩
        | error err =>
          exact .inr ⟨_, ⟨err, rfl, rfl⟩, fun vs => by rw [mergeIntoArray, if_neg hzero, hrun]⟩
  obtain ⟨k, v, s', hv, hfirst, hlast, err, hrun, hstop⟩ := exists_stop
    (f := fun vs (s : List Value × List Value × Heap) => mergeIntoArray e s.1 s.2.1 vs s.2.2)
    (fun s => by rw [hend (.inr rfl)]; rfl) (fun v _ => hcons v) (s := (done, items, h)) herr
  dsimp only at hfirst hlast hstop
  rw [← hstop] at hlast ⊢
  exact .before (hfirst.trans (hend (.inr rfl))) hlast ((hsource k).trans hv) rfl hrun

/-! ### Maps -/

/-- A merge of entries into a map. -/
def mergeIntoMap (enter : Addr → Value → Heap → Edit Unit) (kt et : Ty)
    (es entries : List (Key × Value)) (h : Heap) : Edit Unit :=
  let (h, entries, result) := mergeEntriesStep enter kt et es entries h
  ⟨h, map kt et entries, result⟩

/-- An entry of a source is merged, or it ends the merge, as its value cannot be coerced or as the
merge into the value at its place fails. -/
theorem mergeIntoMap_cons (enter : Addr → Value → Heap → Edit Unit) (et : Ty) {kt : Ty} {key : Key}
    (hkey : kt.AcceptsKey key) (v : Value) (entries : List (Key × Value)) (h : Heap) :
    (∃ s' : List (Key × Value) × Heap, ∀ es,
      mergeIntoMap enter kt et ((key, v) :: es) entries h = mergeIntoMap enter kt et es s'.1 s'.2) ∨
    (∃ e, (et.coerce v.peel).run h = .error e ∧ ∀ es,
      mergeIntoMap enter kt et ((key, v) :: es) entries h = ⟨h, map kt et entries, .error e⟩) ∨
    ∃ place w e, Key.place? kt key.value h = some place ∧ Entries.find? place entries = some w ∧
      (v.mergeStep enter w h).result = .error e ∧ ∀ es,
        mergeIntoMap enter kt et ((key, v) :: es) entries h =
          (v.mergeStep enter w h).within fun u => map kt et (Entries.replace place u entries) := by
  cases hfound : (Key.place? kt key.value h).bind
      fun place => (Entries.find? place entries).map fun w => (place, w) with
  | none =>
    have hinsert := Entries.run_insert_value (h := h) hkey et entries v.peel
    cases hrun : (et.coerce v.peel).run h with
    | ok w =>
      rw [hrun] at hinsert
      exact .inl ⟨(Entries.put key w.1 entries, w.2), fun es => by
        simp only [mergeIntoMap, mergeEntriesStep, hfound, hinsert, Except.map]⟩
    | error e =>
      rw [hrun] at hinsert
      exact .inr (.inl ⟨e, rfl, fun es => by
        simp only [mergeIntoMap, mergeEntriesStep, hfound, hinsert, Except.map]⟩)
  | some found =>
    obtain ⟨place, hplace, hfind⟩ := Option.bind_eq_some_iff.mp hfound
    obtain ⟨w, hw, rfl⟩ := Option.map_eq_some_iff.mp hfind
    by_cases hparts : (!w.peel.isBasic h && w.peel.ty == v.peel.ty) = true
    · cases hr : (v.mergeStep enter w h).result with
      | ok =>
        exact .inl ⟨(Entries.replace place (v.mergeStep enter w h).value entries,
          (v.mergeStep enter w h).heap), fun es => by
            simp only [mergeIntoMap, mergeEntriesStep, hfound, if_pos hparts, hr]⟩
      | error e =>
        refine .inr (.inr ⟨place, w, e, hplace, hw, hr, fun es => ?_⟩)
        simp only [mergeIntoMap, mergeEntriesStep, hfound, if_pos hparts, hr, Edit.within]
    · by_cases hzero : v.peel.isZero = true
      · exact .inl ⟨(entries, h), fun es => by
          simp only [mergeIntoMap, mergeEntriesStep, hfound, if_neg hparts, if_pos hzero]⟩
      · cases hrun : (et.coerce v.peel).run h with
        | ok s' =>
          exact .inl ⟨(Entries.replace place s'.1 entries, s'.2), fun es => by
            simp only [mergeIntoMap, mergeEntriesStep, hfound, if_neg hparts, if_neg hzero, hrun]⟩
        | error e =>
          exact .inr (.inl ⟨e, rfl, fun es => by
            simp only [mergeIntoMap, mergeEntriesStep, hfound, if_neg hparts, if_neg hzero, hrun]⟩)

theorem mergeIntoMap_halts {kt et kt' et' : Ty} {es entries : List (Key × Value)}
    (hkeys : ∀ entry ∈ es, kt.AcceptsKey entry.1)
    (herr : (mergeIntoMap enter kt et es entries h).result = .error err) :
    Halts enter (map kt' et' es) (fun k => mergeIntoMap enter kt et (es.take k) entries h)
      (mergeIntoMap enter kt et es entries h) := by
  let first (k : Nat) : Edit Unit := mergeIntoMap enter kt et (es.take k) entries h
  let Fails (entry : Key × Value) (s : List (Key × Value) × Heap) (r : Edit Unit) : Prop :=
    ∀ {k}, es[k]? = some entry → first k = ⟨s.2, map kt et s.1, .ok ()⟩ → first (k + 1) = r →
      Halts enter (map kt' et' es) first r
  have hpart {entry : Key × Value} {k : Nat} (hentry : es[k]? = some entry) :
      (map kt' et' es).partAt? k = some entry.2 := by
    rw [partAt?, hentry]
    rfl
  have hcons (entry : Key × Value) (hentry : entry ∈ es) (s : List (Key × Value) × Heap) :
      (∃ s' : List (Key × Value) × Heap, ∀ es, mergeIntoMap enter kt et (entry :: es) s.1 s.2 =
        mergeIntoMap enter kt et es s'.1 s'.2) ∨
      ∃ r, Fails entry s r ∧ ∀ es, mergeIntoMap enter kt et (entry :: es) s.1 s.2 = r := by
    rcases mergeIntoMap_cons enter et (hkeys entry hentry) entry.2 s.1 s.2 with hnext |
      ⟨e, hrun, hstop⟩ | ⟨place, w, e, hplace, hw, hr, hstop⟩
    · exact .inl hnext
    · exact .inr ⟨_, fun hk hfirst hlast => .before hfirst hlast (hpart hk) rfl hrun, hstop⟩
    · exact .inr ⟨_, fun hk hfirst hlast =>
        .inside hfirst hlast (hpart hk) (.entry hk hplace hw) hr, hstop⟩
  obtain ⟨k, entry, s', hentry, hfirst, hlast, hstop⟩ := exists_stop
    (f := fun es (s : List (Key × Value) × Heap) => mergeIntoMap enter kt et es s.1 s.2)
    (fun _ => rfl) hcons (s := (entries, h)) herr
  exact hstop hentry hfirst hlast

/-! ### Records -/

/-- A merge of fields into a record. -/
def mergeIntoRecord (enter : Addr → Value → Heap → Edit Unit) (r : RecordType)
    (vs fields : List Value) (h : Heap) : Edit Unit :=
  let (h, fields, result) := mergeFieldsStep enter vs r.fields fields h
  ⟨h, record r fields, result⟩

/-- A field of a source is merged, or it ends the merge within the field of the destination. -/
theorem mergeFieldsStep_cons (enter : Addr → Value → Heap → Edit Unit) (v w : Value) (f : Field)
    (fs : List Field) (ws : List Value) (h : Heap) :
    (∃ h' u, ∀ vs, mergeFieldsStep enter (v :: vs) (f :: fs) (w :: ws) h =
      ((mergeFieldsStep enter vs fs ws h').1, u :: (mergeFieldsStep enter vs fs ws h').2.1,
        (mergeFieldsStep enter vs fs ws h').2.2)) ∨
    ∃ e, (v.mergeStep enter w h).result = .error e ∧ ∀ vs,
      mergeFieldsStep enter (v :: vs) (f :: fs) (w :: ws) h =
        ((v.mergeStep enter w h).heap, (v.mergeStep enter w h).value :: ws, .error e) := by
  by_cases hskip : (!f.exported || v.isZero) = true
  · exact .inl ⟨h, w, fun vs => by rw [mergeFieldsStep, if_pos hskip]⟩
  · by_cases hbasic : f.ty.isBasic = true
    · exact .inl ⟨h, v, fun vs => by rw [mergeFieldsStep, if_neg hskip, if_pos hbasic]⟩
    · cases hr : (v.mergeStep enter w h).result with
      | ok =>
        refine .inl ⟨(v.mergeStep enter w h).heap, (v.mergeStep enter w h).value, fun vs => ?_⟩
        simp only [mergeFieldsStep, if_neg hskip, if_neg hbasic, hr]
      | error e =>
        refine .inr ⟨e, rfl, fun vs => ?_⟩
        simp only [mergeFieldsStep, if_neg hskip, if_neg hbasic, hr]

theorem allZero_drop {zs : List Value} (hzs : allZero zs = true) (k : Nat) :
    allZero (zs.drop k) = true :=
  allZero_iff.mpr fun z hz => allZero_iff.mp hzs z (List.mem_of_mem_drop hz)

/-- Zeros behind the fields of a source play no role. -/
theorem mergeFieldsStep_append_of_allZero {zs : List Value} (hzs : allZero zs = true)
    (vs : List Value) (fs : List Field) (ws : List Value) (h : Heap) :
    mergeFieldsStep enter (vs ++ zs) fs ws h = mergeFieldsStep enter vs fs ws h := by
  induction vs generalizing fs ws h with
  | nil => exact mergeFieldsStep_of_allZero hzs fs ws h
  | cons v vs ih =>
    match fs, ws with
    | [], _ | _ :: _, [] => rfl
    | f :: fs, w :: ws =>
      rw [List.cons_append]
      rcases mergeFieldsStep_cons enter v w f fs ws h with ⟨h', u, hnext⟩ | ⟨e, -, hstop⟩
      · rw [hnext, hnext, ih]
      · rw [hstop, hstop]

/-- A merge of fields that fails ends within a field. The fields before it are put back in front of
what becomes of the others, so that the loop has no state to which they belong. -/
theorem mergeFieldsStep_halts {fs : List Field} {ws : List Value}
    (herr : (mergeFieldsStep enter vs fs ws h).2.2 = .error err) :
    ∃ k v w h₁ ws₁ e, vs[k]? = some v ∧ ws₁[k]? = some w ∧
      mergeFieldsStep enter (vs.take k) fs ws h = (h₁, ws₁, .ok ()) ∧
      mergeFieldsStep enter (vs.take (k + 1)) fs ws h = mergeFieldsStep enter vs fs ws h ∧
      (v.mergeStep enter w h₁).result = .error e ∧
      mergeFieldsStep enter vs fs ws h =
        ((v.mergeStep enter w h₁).heap, ws₁.set k (v.mergeStep enter w h₁).value, .error e) := by
  induction vs generalizing fs ws h with
  | nil => cases herr
  | cons v vs ih =>
    match fs, ws, herr with
    | f :: fs, w :: ws, herr =>
      rcases mergeFieldsStep_cons enter v w f fs ws h with ⟨h', u, hnext⟩ | ⟨e, hr, hstop⟩
      · rw [hnext] at herr
        obtain ⟨k, v', w', h₁, ws₁, e, hv, hw, hfirst, hlast, hr, hstop⟩ := ih herr
        refine ⟨k + 1, v', w', h₁, u :: ws₁, e, hv, hw, ?_, ?_, hr, ?_⟩
        · rw [List.take_succ_cons, hnext, hfirst]
        · rw [List.take_succ_cons, hnext, hnext, hlast]
        · rw [hnext, hstop]
          rfl
      · exact ⟨0, v, w, h, w :: ws, e, rfl, rfl, rfl, (hstop _).trans (hstop vs).symm, hr, hstop vs⟩

theorem mergeIntoRecord_halts {r r' : RecordType} {fields : List Value}
    (herr : (mergeIntoRecord enter r vs fields h).result = .error err) :
    Halts enter (record r' vs) (fun k => mergeIntoRecord enter r (vs.take k) fields h)
      (mergeIntoRecord enter r vs fields h) := by
  obtain ⟨k, v, w, h₁, fields₁, e, hv, hw, hfirst, hlast, hr, hstop⟩ := mergeFieldsStep_halts herr
  have hedit : mergeIntoRecord enter r vs fields h =
      (v.mergeStep enter w h₁).within fun u => record r (fields₁.set k u) := by
    rw [mergeIntoRecord, hstop, ← hr]
    rfl
  have hsame : mergeIntoRecord enter r (vs.take (k + 1)) fields h =
      mergeIntoRecord enter r vs fields h := by
    rw [mergeIntoRecord, hlast]
    rfl
  rw [hedit]
  exact .inside (k := k) (by rw [mergeIntoRecord, hfirst]) (hsame.trans hedit) hv (.field hw) hr

/-! ### Bases -/

/-- A source does not go into a base of another type, unless both have items. -/
theorem not_goesInto {u : Value} (hu : u.IsBase) (hitems : u.items? = none ∨ source.items? = none)
    (hty : ¬(u.ty == source.ty) = true) : ¬source.GoesInto u := by
  rintro (hempty | ⟨hu', hs⟩ | hty')
  · rw [hempty] at hu
    cases hu.2
  · rcases hitems with hitems | hitems
    · rw [hitems] at hu'
      cases hu'
    · rw [hitems] at hs
      cases hs
  · exact hty hty'

/-- A list and an array are merged in the same way. -/
theorem mergeStep_halts_of_items {u : Value} (hu : u.IsBase) (hne : u ≠ .invalid)
    {wrap : List Value → Value} (hwrap : wrap = list e ∨ wrap = array e)
    (herr : ((wrap vs).mergeStep enter u h).result = .error err) :
    (¬(wrap vs).GoesInto u ∧ ∃ e, (wrap vs).mergeStep enter u h = Edit.keep h u (throw e)) ∨
      Halts enter (wrap vs) (fun k => ((wrap vs).beginning k).mergeStep enter u h)
        ((wrap vs).mergeStep enter u h) := by
  have hpart (k : Nat) : (wrap vs).partAt? k = vs[k]? := by
    rcases hwrap with rfl | rfl <;> rfl
  have hbeginning (k : Nat) : (wrap vs).beginning k = wrap (vs.take k) := by
    rcases hwrap with rfl | rfl <;> rfl
  cases u with
  | list e' items =>
    have hrun (vs : List Value) : (wrap vs).mergeStep enter (list e' items) h =
        mergeIntoList e' items vs h := by
      rcases hwrap with rfl | rfl <;> exact intoBase_of_isBase hu hne
    simp only [hbeginning, hrun] at herr ⊢
    exact .inr (mergeIntoList_halts hpart herr)
  | array e' items =>
    have hrun (vs : List Value) : (wrap vs).mergeStep enter (array e' items) h =
        mergeIntoArray e' [] items vs h := by
      rcases hwrap with rfl | rfl <;> exact intoBase_of_isBase hu hne
    simp only [hbeginning, hrun] at herr ⊢
    exact .inr (mergeIntoArray_halts hpart herr)
  | _ =>
    rcases hwrap with rfl | rfl <;>
      exact .inl ⟨not_goesInto hu (.inl rfl) nofun, _, intoBase_of_isBase hu hne⟩

/-- A step of a merge of bases that fails ends at a part of the source, unless the source does not
go into the base: then nothing is done. -/
theorem mergeStep_halts {u : Value} (hu : u.IsBase) (hne : u ≠ .invalid) (hsource : source.IsBase)
    (hwf : source.WellFormed h) (herr : (source.mergeStep enter u h).result = .error err) :
    (¬source.GoesInto u ∧ ∃ e, source.mergeStep enter u h = Edit.keep h u (throw e)) ∨
      Halts enter source (fun k => (source.beginning k).mergeStep enter u h)
        (source.mergeStep enter u h) := by
  cases source with
  | invalid => cases herr
  | emptySlot | slot => cases hsource.2
  | pointer => cases hsource.1
  | list e vs => exact mergeStep_halts_of_items hu hne (.inl rfl) herr
  | array e vs => exact mergeStep_halts_of_items hu hne (.inr rfl) herr
  | map k e es =>
    cases u with
    | map k' e' entries =>
      by_cases hty : (Ty.map k' e' == Ty.map k e) = true
      · have hrun (es : List (Key × Value)) : (map k e es).mergeStep enter (map k' e' entries) h =
            mergeIntoMap enter k' e' es entries h :=
          (intoBase_of_isBase hu hne).trans (if_pos hty)
        obtain ⟨hk, he⟩ := Bool.and_eq_true_iff.mp (Ty.map_beq ▸ hty)
        have hes := (wellFormed_map.mp hwf).congr (BEq.symm hk) (BEq.symm he)
        simp only [beginning, hrun] at herr ⊢
        exact .inr (mergeIntoMap_halts hes.keyTypes herr)
      · exact .inl
          ⟨not_goesInto hu (.inl rfl) hty, _, (intoBase_of_isBase hu hne).trans (if_neg hty)⟩
    | _ => exact .inl ⟨not_goesInto hu (.inr rfl) nofun, _, intoBase_of_isBase hu hne⟩
  | record r vs =>
    cases u with
    | record r' fields =>
      by_cases hty : (Ty.record r' == Ty.record r) = true
      · have hrun (vs : List Value) : (record r vs).mergeStep enter (record r' fields) h =
            mergeIntoRecord enter r' vs fields h :=
          (intoBase_of_isBase hu hne).trans (if_pos hty)
        have hfirst (k : Nat) : ((record r vs).beginning k).mergeStep enter (record r' fields) h =
            mergeIntoRecord enter r' (vs.take k) fields h := by
          have hzeros := allZero_drop (Ty.allZero_zeroFields r.fields) k
          rw [beginning, hrun, mergeIntoRecord, mergeFieldsStep_append_of_allZero hzeros]
          rfl
        simp only [hfirst, hrun] at herr ⊢
        exact .inr (mergeIntoRecord_halts herr)
      · exact .inl
          ⟨not_goesInto hu (.inl rfl) hty, _, (intoBase_of_isBase hu hne).trans (if_neg hty)⟩
    | _ => exact .inl ⟨not_goesInto hu (.inr rfl) nofun, _, intoBase_of_isBase hu hne⟩
  | _ =>
    simp only [mergeStep, intoBase_of_isBase hu hne] at herr ⊢
    split at herr
    · cases herr
    · next hty => exact .inl ⟨not_goesInto hu (.inr rfl) hty, _, if_neg hty⟩

end

end Value

end DynamicEval
