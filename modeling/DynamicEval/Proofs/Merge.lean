import DynamicEval.Proofs.Coercion
import DynamicEval.Proofs.Edit
import DynamicEval.Proofs.Path.Slot
import DynamicEval.Proofs.WellFormed.Scope

/-!
# What a merge computes

Between lists, arrays, maps or records of one type, with no pointers in them, a merge does not fail
and computes their union: lists are joined, items of an array and fields of a record that are not
zero replace those at their places, and so do entries of a map, where parts of one type are united
in turn.

The union is defined by recursion on the destination, and says what becomes of each of its entries;
the merge goes through the entries of the source. So the induction over the entries of a source says
where a merge stands that has dealt with the first of them: the entries of the destination are
united with the rest as they would have been with all.

## Main definitions

* `Value.union`: the union of a destination with a source.
* `Value.IsPlain`: a value without pointers whose parts have declared types.

## Main results

* `Value.mergeStep_eq_union`, `Value.mergeFieldsStep_eq_union`, `Value.mergeEntriesStep_eq_union`: a
  step of a merge unites values, fields and entries.
* `Value.merge_eq_union`: a merge computes the union.
-/

namespace DynamicEval

/-! ### Unions -/

mutual

/-- The union of a list, an array, a record or a map with one of the same type. What is in a slot
stays in the slot. -/
def Value.union : Value → Value → Value
  | .slot x, y => .slot (x.union y)
  | .list e xs, .list _ ys => .list e (xs ++ ys)
  | .array e xs, .array _ ys =>
    .array e (List.zipWith (fun x y => if y.peel.isZero then x else y) xs ys)
  | .record r xs, .record _ ys => .record r (Value.unionFields r.fields xs ys)
  | .map k e xs, .map _ _ ys =>
    .map k e (Value.unionEntries xs ys ++
      ys.filter fun entry => (Entries.find? entry.1.bare xs).isNone)
  | x, _ => x
termination_by structural x => x

/-- The union of the fields of records. A field that is not exported or zero in the source is kept,
one of a basic type is replaced, and any other is united with that of the source. -/
def Value.unionFields : List Field → List Value → List Value → List Value
  | f :: fs, x :: xs, y :: ys =>
    (if !f.exported || y.isZero then x else if f.ty.isBasic then y else x.union y) ::
      Value.unionFields fs xs ys
  | _, xs, _ => xs
termination_by structural _ xs => xs

/-- The entries of a destination in the union of maps. Values with parts of one type are united, and
otherwise a value of the source replaces that of the destination unless it is zero. -/
def Value.unionEntries : List (Key × Value) → List (Key × Value) → List (Key × Value)
  | [], _ => []
  | (k, x) :: xs, ys =>
    let value :=
      match Entries.find? k.bare ys with
      | none => x
      | some y =>
        if x.peel.ty.kind.isStructured && x.peel.ty == y.peel.ty then x.union y.peel
        else if y.peel.isZero then x
        else y
    (k, value) :: Value.unionEntries xs ys
termination_by structural xs => xs

end

/-- What becomes of the value of a destination at a place that a source fills. -/
def Value.unionAt (x y : Value) : Value :=
  if x.peel.ty.kind.isStructured && x.peel.ty == y.peel.ty then x.union y.peel
  else if y.peel.isZero then x
  else y

/-! ### Plain values -/

mutual

/-- A value without pointers in it, in which the items of every list and array and the values of
every map have a declared type. -/
def Value.IsPlain : Value → Prop
  | .pointer _ _ => False
  | .slot v => v.IsPlain
  | .list e vs | .array e vs => e ≠ .invalid ∧ Value.ArePlain vs
  | .map _ e entries => e ≠ .invalid ∧ Value.EntriesPlain entries
  | .record _ vs => Value.ArePlain vs
  | .invalid | .bool _ | .int _ _ | .uint _ _ | .float _ _ | .string _ | .func _ | .emptySlot => True
termination_by structural v => v

/-- Plain values. -/
def Value.ArePlain : List Value → Prop
  | [] => True
  | v :: vs => v.IsPlain ∧ Value.ArePlain vs
termination_by structural vs => vs

/-- Entries with plain values. -/
def Value.EntriesPlain : List (Key × Value) → Prop
  | [] => True
  | (_, v) :: entries => v.IsPlain ∧ Value.EntriesPlain entries
termination_by structural entries => entries

end

namespace Value

variable {h : Heap} {v w x y dest source : Value} {e t : Ty} {items vs xs ys : List Value}

theorem arePlain_iff : ArePlain vs ↔ ∀ v ∈ vs, v.IsPlain := by
  induction vs with
  | nil => exact ⟨fun _ => List.forall_mem_nil _, fun _ => trivial⟩
  | cons v vs ih => rw [ArePlain, ih, List.forall_mem_cons]

theorem entriesPlain_iff {entries : List (Key × Value)} :
    EntriesPlain entries ↔ ∀ entry ∈ entries, entry.2.IsPlain := by
  induction entries with
  | nil => exact ⟨fun _ => List.forall_mem_nil _, fun _ => trivial⟩
  | cons entry entries ih => rw [EntriesPlain, ih, List.forall_mem_cons]

theorem IsPlain.isPointer_eq (hv : v.IsPlain) : v.isPointer = false := by
  cases v <;> first | rfl | exact hv.elim

theorem IsPlain.peel (hv : v.IsPlain) : v.peel.IsPlain := by
  cases v <;> exact hv

/-- A plain value is its own base, once it is out of its slot. -/
theorem isBasic_peel (hv : v.WellFormed h) (hplain : v.IsPlain) :
    v.peel.isBasic h = !v.peel.ty.kind.isStructured := by
  have hty : v.peel.baseTy h = v.peel.ty := by
    cases v with
    | slot w =>
      have hsingle := (wellFormed_slot.mp hv).2.1
      cases w <;> first
        | exact absurd rfl hsingle
        | exact hplain.elim
        | exact Heap.follow_eq_of_step fun _ => rfl
    | pointer => exact hplain.elim
    | _ => exact Heap.follow_eq_of_step fun _ => rfl
  rw [isBasic, baseKind, hty]

theorem Fits.congr_left {t' : Ty} (hv : v.Fits t h) (ht : (t == t') = true) : v.Fits t' h :=
  ⟨hv.wellFormed, hv.accepts.congr_left ht⟩

/-! ### Destinations with parts -/

/-- New content for what holds the value that a destination holds. -/
def refill : Value → Value → Value
  | slot _, x => slot x
  | _, x => x

theorem peel_of_isStructured (hv : v.ty.kind.isStructured = true) : v.peel = v :=
  peel_eq_self fun hty => by rw [hty] at hv; cases hv

theorem isBase_of_isStructured (hv : v.ty.kind.isStructured = true) : v.IsBase ∧ v ≠ .invalid := by
  cases v with
  | invalid | pointer | emptySlot | slot => cases hv
  | _ => exact ⟨⟨rfl, rfl⟩, nofun⟩

theorem change_of_isBase_peel {f : Heap → Value → Edit Unit} (hdest : dest.peel.IsBase)
    (hne : dest.peel ≠ .invalid) : dest.change h f = (f h dest.peel).within dest.refill := by
  refine change_of_changeStep fun enter => ?_
  cases dest with
  | slot x => cases x <;> first | rfl | cases hdest.1; done | cases hdest.2
  | pointer => cases hdest.1
  | emptySlot => exact absurd rfl hne
  | _ => rfl

/-- A destination that holds a base is changed there. -/
theorem intoBase_of_isBase_peel {f : Heap → Value → Edit Unit} (hdest : dest.peel.IsBase)
    (hne : dest.peel ≠ .invalid) :
    intoBase source dest h f = (f h dest.peel).within dest.refill := by
  have hinvalid : dest.isInvalid = false := by
    cases dest <;> first | rfl | exact absurd rfl hne
  rw [intoBase, hinvalid, if_neg Bool.false_ne_true, change_of_isBase_peel hdest hne]
  congr 1
  split
  · next heq =>
    rw [heq] at hdest
    cases hdest.2
  · rfl

theorem isInvalid_eq_false (hv : v ≠ .invalid) : v.isInvalid = false :=
  Bool.eq_false_iff.mpr fun hinvalid => hv (eq_invalid_of_ty (isInvalid_iff.mp hinvalid))

theorem intoBase_of_isBase {f : Heap → Value → Edit Unit} (hdest : dest.IsBase)
    (hne : dest ≠ .invalid) : intoBase source dest h f = f h dest := by
  cases dest with
  | invalid => exact absurd rfl hne
  | emptySlot | slot => cases hdest.2
  | _ => exact intoBase_of_isBase_peel hdest hne

theorem intoBase_of_isStructured {f : Heap → Value → Edit Unit}
    (hdest : dest.peel.ty.kind.isStructured = true) :
    intoBase source dest h f = (f h dest.peel).within dest.refill :=
  intoBase_of_isBase_peel (isBase_of_isStructured hdest).1 (isBase_of_isStructured hdest).2

/-- A merge that comes down to one step, whatever is in the cells, is that step. -/
theorem merge_of_mergeStep {r : Edit Unit} (hstep : ∀ enter, source.mergeStep enter dest h = r) :
    dest.merge source h = r := by
  rw [merge]
  cases h.size <;> exact hstep _

theorem union_of_peel (hdest : dest.peel.ty.kind.isStructured = true) (y : Value) :
    dest.union y = dest.refill (dest.peel.union y) := by
  cases dest <;> first | rfl | cases hdest

/-! ### Lists and arrays -/

theorem mergeIntoList_eq (hvs : ∀ v ∈ vs, v.Fits e h) (he : e ≠ .invalid)
    (hplain : ∀ v ∈ vs, v.IsPlain) :
    mergeIntoList e items vs h = ⟨h, .list e (items ++ vs), .ok ()⟩ := by
  induction vs generalizing items with
  | nil =>
    rw [List.append_nil]
    rfl
  | cons v vs ih =>
    obtain ⟨hv, hvs⟩ := List.forall_mem_cons.mp hvs
    obtain ⟨hvplain, hplain⟩ := List.forall_mem_cons.mp hplain
    rw [mergeIntoList, Ty.coerce_peel hv he hvplain.isPointer_eq]
    have hrest := @ih (items ++ [v]) hvs hplain
    simpa using hrest

theorem mergeIntoArray_eq {done : List Value} (hlength : items.length = vs.length)
    (hvs : ∀ v ∈ vs, v.Fits e h) (he : e ≠ .invalid) (hplain : ∀ v ∈ vs, v.IsPlain) :
    mergeIntoArray e done items vs h =
      ⟨h, .array e (done ++ List.zipWith (fun x y => if y.peel.isZero then x else y) items vs),
        .ok ()⟩ := by
  induction vs generalizing done items with
  | nil =>
    obtain rfl := List.eq_nil_of_length_eq_zero hlength
    rfl
  | cons v vs ih =>
    cases items with
    | nil => cases hlength
    | cons item items =>
      obtain ⟨hv, hvs⟩ := List.forall_mem_cons.mp hvs
      obtain ⟨hvplain, hplain⟩ := List.forall_mem_cons.mp hplain
      have hlength := Nat.succ.inj hlength
      rw [mergeIntoArray, List.zipWith_cons_cons]
      split
      · rw [ih hlength hvs hplain, List.append_assoc]
        rfl
      · rw [Ty.coerce_peel hv he hvplain.isPointer_eq]
        dsimp only
        rw [ih hlength hvs hplain, List.append_assoc]
        rfl

/-! ### Types with parts -/

/-- A value of the type of a base is a base. -/
theorem IsBase.of_ty_beq (hv : v.IsBase) (hty : (w.ty == v.ty) = true) : w.IsBase := by
  cases w with
  | pointer => cases v <;> first | cases hv.1; done | cases hty
  | slot | emptySlot => cases v <;> first | cases hv.2; done | cases hty
  | _ => exact ⟨rfl, rfl⟩

theorem ne_invalid_of_ty_beq (hne : v ≠ .invalid) (hty : (w.ty == v.ty) = true) :
    w ≠ .invalid := by
  rintro rfl
  exact hne (eq_invalid_of_ty (Ty.eq_invalid_of_beq (BEq.symm hty)))

theorem exists_list_of_ty_beq (hty : (v.ty == .list e) = true) :
    ∃ e' items, v = .list e' items := by
  cases v <;> first | exact ⟨_, _, rfl⟩ | cases hty

theorem exists_array_of_ty_beq {n : Nat} (hty : (v.ty == .array e n) = true) :
    ∃ e' items, v = .array e' items := by
  cases v <;> first | exact ⟨_, _, rfl⟩ | cases hty

theorem exists_record_of_ty_beq {r : RecordType} (hty : (v.ty == .record r) = true) :
    ∃ r' fields, v = .record r' fields := by
  cases v <;> first | exact ⟨_, _, rfl⟩ | cases hty

theorem exists_map_of_ty_beq {k : Ty} (hty : (v.ty == .map k e) = true) :
    ∃ k' e' entries, v = .map k' e' entries := by
  cases v <;> first | exact ⟨_, _, _, rfl⟩ | cases hty

end Value

/-! ### Entries -/

namespace Entries

variable {α : Type} {place place' : BareKey} {k : Key} {a b : α} {es : List (Key × α)}

theorem find?_eq_none_iff :
    find? place es = none ↔ place ∉ es.map fun entry => entry.1.bare := by
  induction es with
  | nil => simp [find?]
  | cons entry es ih =>
    rw [find?, List.map_cons, List.mem_cons, not_or, ← ih]
    split
    · next heq => simp [heq]
    · next hne => simp [Ne.symm hne]

theorem nodup_places_replace (hes : (es.map fun entry => entry.1.bare).Nodup) :
    ((replace place a es).map fun entry => entry.1.bare).Nodup := by
  have hfst := congrArg (List.map Key.bare) (map_fst_replace place a es)
  rw [List.map_map, List.map_map] at hfst
  exact hfst ▸ hes

theorem find?_append_singleton :
    find? place (es ++ [(k, a)]) = (find? place es).or (if k.bare = place then some a else none) := by
  induction es with
  | nil => rfl
  | cons entry es ih =>
    rw [List.cons_append, find?, find?, ih]
    split <;> rfl

end Entries

namespace Value

variable {h : Heap} {place : BareKey} {k : Key} {u v w x y : Value} {entries es : List (Key × Value)}

theorem unionEntries_cons (k : Key) (x : Value) (xs ys : List (Key × Value)) :
    unionEntries ((k, x) :: xs) ys =
      (k, ((Entries.find? k.bare ys).map x.unionAt).getD x) :: unionEntries xs ys := by
  rw [unionEntries]
  cases Entries.find? k.bare ys <;> rfl

/-- An entry of the source at a place that the destination does not fill changes none of its
entries. -/
theorem unionEntries_cons_of_find?_eq_none (hnone : Entries.find? k.bare entries = none) :
    unionEntries entries ((k, v) :: es) = unionEntries entries es := by
  induction entries with
  | nil => rfl
  | cons entry entries ih =>
    obtain ⟨j, x⟩ := entry
    rw [Entries.find?] at hnone
    split at hnone
    · cases hnone
    · next hne =>
      rw [unionEntries_cons, unionEntries_cons, ih hnone, Entries.find?, if_neg (Ne.symm hne)]

/-- An entry of the source at a place that the destination fills is dealt with there, if no other
entry of the source has its place. -/
theorem unionEntries_replace (hnodup : (entries.map fun entry => entry.1.bare).Nodup)
    (hw : Entries.find? k.bare entries = some w) (hes : Entries.find? k.bare es = none) :
    unionEntries (Entries.replace k.bare (w.unionAt v) entries) es =
      unionEntries entries ((k, v) :: es) := by
  induction entries with
  | nil => cases hw
  | cons entry entries ih =>
    obtain ⟨j, x⟩ := entry
    obtain ⟨hj, hnodup⟩ := List.nodup_cons.mp hnodup
    rw [Entries.find?] at hw
    rw [Entries.replace]
    split at hw
    · next heq =>
      cases hw
      have hnone : Entries.find? k.bare entries = none :=
        Entries.find?_eq_none_iff.mpr (heq ▸ hj)
      rw [if_pos heq, unionEntries_cons, unionEntries_cons,
        unionEntries_cons_of_find?_eq_none hnone, heq, hes, Entries.find?, if_pos rfl]
      rfl
    · next hne =>
      rw [if_neg hne, unionEntries_cons, unionEntries_cons, ih hnodup hw, Entries.find?,
        if_neg (Ne.symm hne)]

/-- An entry at a place that the source does not fill is kept as it is. -/
theorem unionEntries_append_singleton (hes : Entries.find? k.bare es = none) :
    unionEntries (entries ++ [(k, v)]) es = unionEntries entries es ++ [(k, v)] := by
  induction entries with
  | nil =>
    rw [List.nil_append, unionEntries_cons, hes]
    rfl
  | cons entry entries ih =>
    obtain ⟨j, x⟩ := entry
    rw [List.cons_append, unionEntries_cons, unionEntries_cons, ih, List.cons_append]

/-- The entries of the union of maps: those of the destination, and those of the source at places
that the destination does not fill. -/
def joinEntries (xs ys : List (Key × Value)) : List (Key × Value) :=
  unionEntries xs ys ++ ys.filter fun entry => (Entries.find? entry.1.bare xs).isNone

theorem joinEntries_nil (xs : List (Key × Value)) : joinEntries xs [] = xs := by
  rw [joinEntries, List.filter_nil, List.append_nil]
  induction xs with
  | nil => rfl
  | cons entry xs ih => rw [unionEntries_cons, ih, Entries.find?]; rfl

private theorem filter_isNone_congr {xs xs' : List (Key × Value)}
    (hes : Entries.find? k.bare es = none)
    (hfind : ∀ place, place ≠ k.bare → Entries.find? place xs' = Entries.find? place xs) :
    es.filter (fun entry => (Entries.find? entry.1.bare xs').isNone) =
      es.filter fun entry => (Entries.find? entry.1.bare xs).isNone := by
  refine List.filter_congr fun entry hentry => ?_
  have hne : entry.1.bare ≠ k.bare := fun heq =>
    Entries.find?_eq_none_iff.mp hes (heq ▸ List.mem_map_of_mem hentry)
  rw [hfind _ hne]

/-- Where the destination fills the place of the first entry of the source, the value there is dealt
with first. -/
theorem joinEntries_replace (hnodup : (entries.map fun entry => entry.1.bare).Nodup)
    (hw : Entries.find? k.bare entries = some w) (hes : Entries.find? k.bare es = none) :
    joinEntries (Entries.replace k.bare (w.unionAt v) entries) es =
      joinEntries entries ((k, v) :: es) := by
  rw [joinEntries, joinEntries, unionEntries_replace hnodup hw hes,
    filter_isNone_congr hes fun _ hne => Entries.find?_replace_of_ne hne, List.filter_cons, hw]
  rfl

/-- Where it does not, the entry is added first. -/
theorem joinEntries_put (hnone : Entries.find? k.bare entries = none)
    (hes : Entries.find? k.bare es = none) :
    joinEntries (Entries.put k v entries) es = joinEntries entries ((k, v) :: es) := by
  have hfind : ∀ place, place ≠ k.bare →
      Entries.find? place (entries ++ [(k, v)]) = Entries.find? place entries := by
    intro place hne
    rw [Entries.find?_append_singleton, if_neg (Ne.symm hne), Option.or_none]
  rw [Entries.put_of_find?_eq_none hnone, joinEntries, joinEntries,
    unionEntries_append_singleton hes, unionEntries_cons_of_find?_eq_none hnone,
    filter_isNone_congr hes hfind, List.filter_cons, hnone, List.append_assoc]
  rfl

end Value

/-! ### Steps -/

theorem Ty.isStructured_of_beq {t u : Ty} (h : (t == u) = true) :
    t.kind.isStructured = u.kind.isStructured := by
  have hcore := Ty.beq_iff.mp h
  cases t <;> cases u <;> simp_all [Ty.core, Ty.kind, Kind.isStructured]

theorem Entries.WellFormed.tail {h : Heap} {k e : Ty} {entry : Key × Value}
    {es : List (Key × Value)} (hes : Entries.WellFormed k e h (entry :: es)) :
    Entries.WellFormed k e h es where
  places := (List.nodup_cons.mp hes.places).2
  keyTypes := (List.forall_mem_cons.mp hes.keyTypes).2
  keys := (List.forall_mem_cons.mp hes.keys).2
  values := (List.forall_mem_cons.mp hes.values).2

theorem Entries.WellFormed.congr {h : Heap} {k k' e e' : Ty} {es : List (Key × Value)}
    (hes : Entries.WellFormed k e h es) (hk : (k == k') = true) (he : (e == e') = true) :
    Entries.WellFormed k' e' h es where
  places := hes.places
  keyTypes entry hentry := by
    obtain ⟨v, hv, hkey⟩ := hes.keyTypes entry hentry
    exact ⟨v, hv.congr_left hk, hkey⟩
  keys := hes.keys
  values entry hentry :=
    ⟨(hes.values entry hentry).wellFormed, (hes.values entry hentry).accepts.congr_left he⟩

/-- A plain value of a declared type with parts has that type. -/
theorem Value.Fits.ty_beq {h : Heap} {v : Value} {t : Ty} (hv : v.Fits t h) (hplain : v.IsPlain)
    (ht : t.isBasic = false) : (v.ty == t) = true ∧ v.ty.kind.isStructured = true := by
  cases t with
  | pointer e =>
    have hty := hv.accepts
    cases v <;> first | exact hplain.elim | cases hty
  | list | array | map | record =>
    have hty : (v.ty == _) = true := hv.accepts
    refine ⟨hty, ?_⟩
    cases v <;> first | rfl | cases hty
  | int w | uint w | float w => cases w <;> cases ht
  | _ => cases ht

section

variable {h : Heap} {enter : Addr → Value → Heap → Edit Unit}

mutual

/-- A step of a merge unites values with parts of one type. -/
theorem Value.mergeStep_eq_union {dest : Value} (hdest : dest.WellFormed h) (hplain : dest.IsPlain)
    (source : Value) (hsource : source.WellFormed h) (hsplain : source.IsPlain)
    (hkind : source.peel.ty.kind.isStructured = true)
    (hty : (dest.peel.ty == source.peel.ty) = true) :
    source.mergeStep enter dest h = ⟨h, dest.union source.peel, .ok ()⟩ := by
  match source with
  | .slot v =>
    obtain ⟨-, hsingle, hv⟩ := Value.wellFormed_slot.mp hsource
    have hpeel : v.peel = v := Value.peel_eq_self hsingle
    have hkind : v.peel.ty.kind.isStructured = true := by rwa [hpeel]
    have hty : (dest.peel.ty == v.peel.ty) = true := by rwa [hpeel]
    have hstep := Value.mergeStep_eq_union hdest hplain v hv hsplain hkind hty
    rwa [hpeel] at hstep
  | .list e vs =>
    obtain ⟨e', items, hdest'⟩ := Value.exists_list_of_ty_beq hty
    have hstructured : dest.peel.ty.kind.isStructured = true := hdest' ▸ rfl
    rw [hdest'] at hty
    have hvs := fun v hv => (Value.wellFormed_list.mp hsource v hv).congr_left (BEq.symm hty)
    have he : e' ≠ .invalid := fun he => hsplain.1 (Ty.eq_invalid_of_beq (he ▸ BEq.symm hty))
    rw [Value.mergeStep, Value.intoBase_of_isStructured hstructured,
      Value.union_of_peel hstructured, hdest']
    dsimp only
    rw [Value.mergeIntoList_eq hvs he (Value.arePlain_iff.mp hsplain.2)]
    rfl
  | .array e vs =>
    obtain ⟨e', items, hdest'⟩ := Value.exists_array_of_ty_beq hty
    have hstructured : dest.peel.ty.kind.isStructured = true := hdest' ▸ rfl
    rw [hdest'] at hty
    obtain ⟨hlength, hbeq⟩ : items.length = vs.length ∧ (e' == e) = true := by
      obtain ⟨hlength, hbeq⟩ := Bool.and_eq_true_iff.mp hty
      exact ⟨of_decide_eq_true hlength, hbeq⟩
    have hvs := fun v hv => (Value.wellFormed_array.mp hsource v hv).congr_left (BEq.symm hbeq)
    have he : e' ≠ .invalid := fun he => hsplain.1 (Ty.eq_invalid_of_beq (he ▸ BEq.symm hbeq))
    rw [Value.mergeStep, Value.intoBase_of_isStructured hstructured,
      Value.union_of_peel hstructured, hdest']
    dsimp only
    rw [Value.mergeIntoArray_eq hlength hvs he (Value.arePlain_iff.mp hsplain.2)]
    rfl
  | .record r vs =>
    obtain ⟨r', fields, hdest'⟩ := Value.exists_record_of_ty_beq hty
    have hstructured : dest.peel.ty.kind.isStructured = true := hdest' ▸ rfl
    have hfields := hdest.peel
    have hfplain := hplain.peel
    rw [hdest'] at hty hfields hfplain
    have hvs := Value.forall₂_fits_congr (Ty.fields_beq_of_record_beq hty)
      (Value.wellFormed_record.mp hsource)
    have hstep := Value.mergeFieldsStep_eq_union vs r'.fields fields hvs hsplain
      (Value.wellFormed_record.mp hfields) hfplain
    have hty : (Ty.record r' == Ty.record r) = true := hty
    rw [Value.mergeStep, Value.intoBase_of_isStructured hstructured,
      Value.union_of_peel hstructured, hdest']
    dsimp only
    rw [if_pos hty, hstep]
    rfl
  | .map k e es =>
    obtain ⟨k', e', entries, hdest'⟩ := Value.exists_map_of_ty_beq hty
    have hstructured : dest.peel.ty.kind.isStructured = true := hdest' ▸ rfl
    have hentries := hdest.peel
    have heplain := hplain.peel
    rw [hdest'] at hty hentries heplain
    have hty : (Ty.map k' e' == Ty.map k e) = true := hty
    obtain ⟨hk, he⟩ := Bool.and_eq_true_iff.mp (Ty.map_beq ▸ hty)
    have hentries := Value.wellFormed_map.mp hentries
    have hes := (Value.wellFormed_map.mp hsource).congr (BEq.symm hk) (BEq.symm he)
    have hstep := Value.mergeEntriesStep_eq_union heplain.1 es entries hes hsplain.2 hentries.places
      fun entry _ w hw => by
        obtain ⟨found, hfound, rfl⟩ := Entries.mem_of_find?_eq_some hw
        exact ⟨(hentries.values found hfound).wellFormed,
          Value.entriesPlain_iff.mp heplain.2 found hfound⟩
    rw [Value.mergeStep, Value.intoBase_of_isStructured hstructured,
      Value.union_of_peel hstructured, hdest']
    dsimp only
    rw [if_pos hty, hstep]
    rfl
  | .int w _ | .uint w _ | .float w _ => cases w <;> cases hkind
  | .invalid | .bool _ | .string _ | .func _ | .pointer _ _ | .emptySlot => cases hkind

/-- A step of a merge unites fields. -/
theorem Value.mergeFieldsStep_eq_union (vs : List Value) (fs : List Field) (ws : List Value)
    (hvs : List.Forall₂ (fun f v => Value.Fits v f.ty h) fs vs) (hvplain : Value.ArePlain vs)
    (hws : List.Forall₂ (fun f v => Value.Fits v f.ty h) fs ws) (hwplain : Value.ArePlain ws) :
    Value.mergeFieldsStep enter vs fs ws h = (h, Value.unionFields fs ws vs, .ok ()) := by
  match vs, fs, ws, hvs, hws with
  | [], [], [], .nil, .nil => rfl
  | v :: vs, f :: fs, w :: ws, .cons hv hvs, .cons hw hws =>
    have hrest := Value.mergeFieldsStep_eq_union vs fs ws hvs hvplain.2 hws hwplain.2
    rw [Value.mergeFieldsStep, Value.unionFields]
    split
    · rw [hrest]
    · split
      · rw [hrest]
      · next hbasic =>
        obtain ⟨hvty, hvkind⟩ := hv.ty_beq hvplain.1 (by simpa using hbasic)
        obtain ⟨hwty, hwkind⟩ := hw.ty_beq hwplain.1 (by simpa using hbasic)
        have hvpeel := Value.peel_of_isStructured hvkind
        have hwpeel := Value.peel_of_isStructured hwkind
        have hstep := Value.mergeStep_eq_union hw.wellFormed hwplain.1 v hv.wellFormed hvplain.1
          (hvpeel.symm ▸ hvkind) (by rw [hvpeel, hwpeel]; exact BEq.trans hwty (BEq.symm hvty))
        rw [hstep, hvpeel]
        dsimp only
        rw [hrest]

/-- A step of a merge unites entries. -/
theorem Value.mergeEntriesStep_eq_union {kt et : Ty} (het : et ≠ .invalid)
    (es entries : List (Key × Value)) (hes : Entries.WellFormed kt et h es)
    (hplain : Value.EntriesPlain es)
    (hnodup : (entries.map fun entry => entry.1.bare).Nodup)
    (hentries : ∀ entry ∈ es, ∀ w, Entries.find? entry.1.bare entries = some w →
      w.WellFormed h ∧ w.IsPlain) :
    Value.mergeEntriesStep enter kt et es entries h =
      (h, Value.joinEntries entries es, .ok ()) := by
  match es with
  | [] =>
    rw [Value.joinEntries_nil]
    rfl
  | (k, v) :: es =>
    obtain ⟨hk, hnodup'⟩ := List.nodup_cons.mp hes.places
    have hfree : Entries.find? k.bare es = none := Entries.find?_eq_none_iff.mpr hk
    have hkey := hes.keyTypes (k, v) List.mem_cons_self
    have hv := hes.values (k, v) List.mem_cons_self
    -- What becomes of the value at the place of the entry does not concern those behind it.
    have hnext (entries' : List (Key × Value))
        (hnodup' : (entries'.map fun entry => entry.1.bare).Nodup)
        (hfind : ∀ place, place ≠ k.bare →
          Entries.find? place entries' = Entries.find? place entries) :
        Value.mergeEntriesStep enter kt et es entries' h =
          (h, Value.joinEntries entries' es, .ok ()) := by
      refine Value.mergeEntriesStep_eq_union het es entries' hes.tail hplain.2 hnodup'
        fun entry hentry w hw => hentries entry (List.mem_cons_of_mem _ hentry) w ?_
      have hne : entry.1.bare ≠ k.bare := fun heq =>
        Entries.find?_eq_none_iff.mp hfree (heq ▸ List.mem_map_of_mem hentry)
      rwa [hfind _ hne] at hw
    rw [Value.mergeEntriesStep, Key.place?_value hkey]
    dsimp only [Option.bind_some]
    cases hw : Entries.find? k.bare entries with
    | some w =>
      obtain ⟨hwWf, hwplain⟩ := hentries (k, v) List.mem_cons_self w hw
      have hreplaced (u : Value) := hnext (Entries.replace k.bare u entries)
        (Entries.nodup_places_replace hnodup) fun _ hne => Entries.find?_replace_of_ne hne
      rw [← Value.joinEntries_replace hnodup hw hfree]
      dsimp only [Option.map_some]
      rw [Value.isBasic_peel hwWf hwplain, Bool.not_not, Value.unionAt]
      split
      · next hparts =>
        obtain ⟨hwkind, hty⟩ := Bool.and_eq_true_iff.mp hparts
        have hstep := Value.mergeStep_eq_union hwWf hwplain v hv.wellFormed hplain.1
          (Ty.isStructured_of_beq hty ▸ hwkind) hty
        rw [hstep]
        exact hreplaced _
      · split
        · rw [hnext entries hnodup fun _ _ => rfl, Entries.replace_find? hw]
        · rw [Ty.coerce_peel hv het hplain.1.isPointer_eq]
          exact hreplaced v
    | none =>
      rw [← Value.joinEntries_put hw hfree]
      dsimp only [Option.map_none]
      rw [Entries.insert_value entries hkey hv het hplain.1.isPointer_eq]
      refine hnext _ (Entries.nodup_places_put hnodup) fun _ hne => ?_
      rw [Entries.put_of_find?_eq_none hw, Entries.find?_append_singleton, if_neg (Ne.symm hne),
        Option.or_none]

end

end

namespace Value

/-- **A merge computes the union.** Between plain lists, arrays, maps or records of one type it
succeeds, leaves the heap as it is, and the destination becomes the union with the source. -/
theorem merge_eq_union {h : Heap} {dest source : Value} (hdest : dest.WellFormed h)
    (hsource : source.WellFormed h) (hplain : dest.IsPlain) (hsplain : source.IsPlain)
    (hkind : dest.ty.kind.isStructured = true) (hty : (dest.ty == source.ty) = true) :
    dest.merge source h = ⟨h, dest.union source, .ok ()⟩ := by
  have hskind : source.ty.kind.isStructured = true := Ty.isStructured_of_beq hty ▸ hkind
  have hpeel := peel_of_isStructured hkind
  have hspeel := peel_of_isStructured hskind
  have hstep (enter : Addr → Value → Heap → Edit Unit) :
      source.mergeStep enter dest h = ⟨h, dest.union source, .ok ()⟩ := by
    rw [← hspeel] at hskind
    rw [← hpeel, ← hspeel] at hty
    have hstep : source.mergeStep enter dest h = ⟨h, dest.union source.peel, .ok ()⟩ :=
      mergeStep_eq_union hdest hplain source hsource hsplain hskind hty
    rwa [hspeel] at hstep
  rw [merge]
  cases h.size with
  | zero => exact hstep _
  | succ n => exact hstep _

/-- Lists below a key are joined, a zero does not overwrite, and a new key comes last. -/
theorem merge_counts :
    (map .string .any [(.string "counts", slot (list (.int .word) [int .word 1])),
      (.string "total", slot (int .word 4))]).merge
        (map .string .any [(.string "note", slot (string "x")),
          (.string "total", slot (int .word 0)),
          (.string "counts", slot (list (.int .word) [int .word 2, int .word 3]))]) .empty =
      ⟨.empty, map .string .any [
        (.string "counts", slot (list (.int .word) [int .word 1, int .word 2, int .word 3])),
        (.string "total", slot (int .word 4)), (.string "note", slot (string "x"))], .ok ()⟩ := by
  have hnumbers (ns : List Int64) :
      (list (.int .word) (ns.map (int .word))).WellFormed .empty :=
    wellFormed_list.mpr fun v hv => by
      obtain ⟨n, -, rfl⟩ := List.mem_map.mp hv
      exact ⟨.int rfl, Ty.accepts_self _⟩
  refine merge_eq_union
    (wellFormed_map.mpr ((Entries.WellFormed.nil.putText "counts" (hnumbers [1])).putText "total"
      (.int rfl)))
    (wellFormed_map.mpr (((Entries.WellFormed.nil.putText "note" (.string "x")).putText "total"
      (.int rfl)).putText "counts" (hnumbers [2, 3])))
    ⟨nofun, ⟨nofun, trivial, trivial⟩, trivial, trivial⟩
    ⟨nofun, trivial, trivial, ⟨nofun, trivial, trivial, trivial⟩, trivial⟩ rfl rfl

end Value

end DynamicEval
