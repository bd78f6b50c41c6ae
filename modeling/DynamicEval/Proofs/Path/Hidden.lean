import DynamicEval.Path.Typing
import DynamicEval.Proofs.Path.Growth

/-!
# Fields that paths do not see

A path that comes to a record and names a field there that is not exported leads nowhere: nothing is
read at it, and a write stores nothing, whatever its value is. That is so as well if the write itself
makes the record on its way, behind a pointer to nothing or for a missing entry of a map. Declared
types are found by name alone, so that the type at such a path is told nevertheless.

## Main definitions

* `Value.baseOrNew`: the base of a value, or what a change puts behind a pointer to nothing.
* `Value.Hides`: a path that comes to a record and names a hidden field of it.
* `Value.HidesOnWrite`: the same for the records that a write makes.
* `Value.Unseen`: what reads, writes and identifiers do at a path to a hidden field.

## Main results

* `Value.exists_change_eq`: a change of a value is a change of its base, carried back.
* `Value.setIn_of_hides`: a write to a hidden field of a record that is there changes nothing.
* `Value.HidesOnWrite.unseen`: nothing is read at a hidden field, and nothing is stored.
* `Value.mem_pairs_record`: the parts that are listed of a record are exported.
-/

namespace DynamicEval

namespace Value

/-! ### The base as a change sees it -/

/-- One step to the base as a change sees it, where `deref` gives the one of a cell. -/
def baseOrNewStep (deref : Addr → Value) : Value → Value
  | pointer _ (some a) => deref a
  | pointer e none => e.stripPointers.zero
  | slot v => v.baseOrNewStep deref
  | v => v

/-- The base of a value, or, behind a pointer to nothing, the zero that a change puts there. -/
def baseOrNew (v : Value) (h : Heap) : Value :=
  h.follow invalid baseOrNewStep v

theorem WellFormed.baseOrNewStep {h : Heap} {deref : Addr → Value}
    (hderef : ∀ a < h.size, (deref a).WellFormed h) {v : Value} (hv : v.WellFormed h) :
    (v.baseOrNewStep deref).WellFormed h := by
  match v with
  | .slot v =>
    rw [Value.baseOrNewStep]
    exact WellFormed.baseOrNewStep hderef (wellFormed_slot.mp hv).2.2
  | .pointer e (some a) => exact hderef a (wellFormed_pointer.mp hv).1
  | .pointer e none => exact (Ty.zero_fits h _).wellFormed
  | .emptySlot | .invalid | .bool _ | .int _ _ | .uint _ _ | .float _ _ | .string _ | .list _ _
  | .array _ _ | .map _ _ _ | .record _ _ | .func _ => exact hv

theorem WellFormed.baseOrNew {h : Heap} {v : Value} (hv : v.WellFormed h) (hh : h.WellFormed) :
    (v.baseOrNew h).WellFormed h := by
  suffices ∀ n, (h.unroll .invalid Value.baseOrNewStep n v).WellFormed h from this h.size
  intro n
  induction n generalizing v with
  | zero => exact hv.baseOrNewStep fun _ _ => .invalid
  | succ n ih => exact hv.baseOrNewStep fun a ha => ih (hh a ha)

section

variable {α : Type} {h : Heap} {v : Value}

/-- A way to carry a change of the base back to the value: the result is the same, or the base was
not reached. -/
def CarriesBack (wrap : Edit α → Edit α) : Prop :=
  ∀ r, (wrap r).result = r.result ∨ ∃ e, (wrap r).result = .error e

theorem exists_changeNew_eq (e : Ty) (h : Heap) : ∃ wrap : Edit α → Edit α, CarriesBack wrap ∧
    ∀ f, changeNew f e h = wrap (f h e.stripPointers.zero) := by
  match e with
  | .pointer e =>
    obtain ⟨wrap, hwrap, heq⟩ := exists_changeNew_eq e h
    exact ⟨fun r => changeNew.store (.pointer e) (wrap r), hwrap, fun f =>
      congrArg (changeNew.store (.pointer e)) (heq f)⟩
  | .invalid | .bool | .int _ | .uint _ | .float _ | .string | .list _ | .array _ _ | .map _ _
  | .record _ | .func | .any =>
    exact ⟨changeNew.store _, fun r => .inl rfl, fun f => rfl⟩

/-- A step of a change is a change of the base if the changes of cells are. -/
theorem exists_changeStep_eq {deref : Addr → Value}
    {enter : (Heap → Value → Edit α) → Addr → Heap → Heap × Except Error α}
    (henter : ∀ e a, ∃ wrap : Edit α → Edit α, CarriesBack wrap ∧ ∀ f,
      (⟨(enter f a h).1, pointer e (some a), (enter f a h).2⟩ : Edit α) = wrap (f h (deref a)))
    (v : Value) : ∃ wrap : Edit α → Edit α, CarriesBack wrap ∧
      ∀ f, v.changeStep f (enter f) h = wrap (f h (v.baseOrNewStep deref)) := by
  match v with
  | .slot v =>
    obtain ⟨wrap, hwrap, heq⟩ := exists_changeStep_eq henter v
    exact ⟨fun r => (wrap r).within slot, hwrap, fun f => congrArg (Edit.within · slot) (heq f)⟩
  | .pointer e none => exact exists_changeNew_eq e h
  | .pointer e (some a) => exact henter e a
  | .invalid | .bool _ | .int _ _ | .uint _ _ | .float _ _ | .string _ | .list _ _ | .array _ _
  | .map _ _ _ | .record _ _ | .func _ | .emptySlot =>
    exact ⟨id, fun r => .inl rfl, fun f => rfl⟩

/-- A change of a value is a change of its base, carried back in a way that does not depend on the
change. -/
theorem exists_change_eq (v : Value) (h : Heap) : ∃ wrap : Edit α → Edit α, CarriesBack wrap ∧
    ∀ f, v.change h f = wrap (f h (v.baseOrNew h)) := by
  suffices ∀ n v, ∃ wrap : Edit α → Edit α, CarriesBack wrap ∧
      ∀ f, changeWithin f n v h = wrap (f h (h.unroll invalid baseOrNewStep n v)) from
    this h.size v
  intro n
  induction n with
  | zero =>
    let enter (_ : Heap → Value → Edit α) (_ : Addr) (h : Heap) : Heap × Except Error α :=
      (h, throw .unaddressable)
    refine @exists_changeStep_eq α h _ enter fun e a => ?_
    exact ⟨fun _ => ⟨h, pointer e (some a), throw .unaddressable⟩, fun r => .inr ⟨_, rfl⟩,
      fun f => rfl⟩
  | succ n ih =>
    let enter (f : Heap → Value → Edit α) (a : Addr) (h : Heap) : Heap × Except Error α :=
      let r := changeWithin f n (h.get a) h
      (r.heap.set a r.value, r.result)
    refine @exists_changeStep_eq α h _ enter fun e a => ?_
    obtain ⟨wrap, hwrap, heq⟩ := ih (h.get a)
    refine ⟨fun r => ⟨(wrap r).heap.set a (wrap r).value, pointer e (some a), (wrap r).result⟩,
      hwrap, fun f => ?_⟩
    dsimp only [enter]
    rw [heq f]

end

section

variable {h : Heap} {v : Value}

/-- The zero of a type has the type, unless it has none. -/
theorem ty_zero {t : Ty} (ht : t.zero.ty ≠ .invalid) : t.zero.ty = t := by
  cases t with
  | array e n => rw [Ty.zero, ty, List.length_replicate]
  | invalid | func => exact absurd rfl ht
  | _ => rfl

/-- Where there is a base, a change sees it. -/
theorem baseOrNew_eq_base (hv : v.base h ≠ .invalid) : v.baseOrNew h = v.base h := by
  obtain ⟨as, has⟩ := Heap.exists_leads hv
  refine has.follow_eq (fun _ _ => rfl) (fun _ _ _ => rfl) fun deref => ?_
  generalize v.base h = u at has
  have hu := has.isBase
  cases u with
  | pointer => cases hu.1
  | slot => cases hu.2
  | _ => rfl

theorem baseTyStep_eq_baseOrNewStep {deref : Addr → Value} {derefTy : Addr → Ty}
    (hderef : ∀ a, (deref a).ty.kind.isStructured = true → derefTy a = (deref a).ty) {v : Value}
    (hv : (v.baseOrNewStep deref).ty.kind.isStructured = true) :
    v.baseTyStep derefTy = (v.baseOrNewStep deref).ty := by
  match v with
  | .slot v => exact baseTyStep_eq_baseOrNewStep hderef (v := v) hv
  | .pointer e none =>
    have hzero : e.stripPointers.zero.ty.kind.isStructured = true := hv
    have hty : e.stripPointers.zero.ty = e.stripPointers := by
      refine ty_zero fun hty => ?_
      rw [hty] at hzero
      cases hzero
    exact hty.symm
  | .pointer e (some a) => exact hderef a hv
  | .emptySlot => cases hv
  | .invalid | .bool _ | .int _ _ | .uint _ _ | .float _ _ | .string _ | .list _ _ | .array _ _
  | .map _ _ _ | .record _ _ | .func _ => rfl

/-- A value that has parts for a change is no basic value. -/
theorem isBasic_of_baseOrNew (hv : (v.baseOrNew h).ty.kind.isStructured = true) :
    v.isBasic h = false := by
  have hty : v.baseTy h = (v.baseOrNew h).ty := by
    suffices ∀ n v, (h.unroll .invalid baseOrNewStep n v).ty.kind.isStructured = true →
        h.unroll .invalid baseTyStep n v = (h.unroll .invalid baseOrNewStep n v).ty from
      this h.size v hv
    intro n
    induction n with
    | zero =>
      intro v
      refine baseTyStep_eq_baseOrNewStep fun a hstop => ?_
      cases hstop
    | succ n ih => exact fun v => baseTyStep_eq_baseOrNewStep fun a => ih (h.get a)
  rw [isBasic, baseKind, hty, hv]
  rfl

end

/-! ### Hidden fields on the way -/

/-- A path that comes to a record and names a field there that is not exported. -/
inductive Hides (h : Heap) : Value → List Value → Prop where
  | here {v key : Value} {path : List Value} {r : RecordType} {fields : List Value} {f : Field}
      (hbase : v.base h = record r fields) (hf : r.field? (key.toText h) = some f)
      (hhidden : f.exported = false) : Hides h v (key :: path)
  | inside {v key : Value} {path : List Value} {p : Place} (hp : key.Selects h (v.base h) p)
      (hrest : Hides h p.content path) : Hides h v (key :: path)

/-- A path along which a write comes to a record, be it there or made on the way, and names a field
there that is not exported. -/
inductive HidesOnWrite : Heap → Value → List Value → Prop where
  | here {h : Heap} {v key : Value} {path : List Value} {r : RecordType} {fields : List Value}
      {f : Field} (hbase : v.baseOrNew h = record r fields)
      (hf : r.field? (key.toText h) = some f) (hhidden : f.exported = false) :
      HidesOnWrite h v (key :: path)
  | inside {h : Heap} {v key : Value} {path : List Value} {p : Place}
      (hp : key.Selects h (v.baseOrNew h) p) (hrest : HidesOnWrite h p.content path) :
      HidesOnWrite h v (key :: path)
  | made {h : Heap} {v key segment : Value} {path : List Value} {k e : Ty}
      {entries : List (Key × Value)} (hbase : v.baseOrNew h = map k e entries)
      (hfree : (map k e entries).place? key h = none)
      (hrest : HidesOnWrite (e.vivify segment h).2 (e.vivify segment h).1 (segment :: path)) :
      HidesOnWrite h v (key :: segment :: path)

variable {h : Heap} {v w dest key base : Value} {t : Ty} {path : List Value} {r : RecordType}
  {fields : List Value} {f : Field}

theorem Hides.onWrite (hides : dest.Hides h path) : dest.HidesOnWrite h path := by
  induction hides with
  | here hbase hf hhidden =>
    refine .here ((baseOrNew_eq_base ?_).trans hbase) hf hhidden
    rw [hbase]
    nofun
  | inside hp _ ih =>
    refine .inside ?_ ih
    rwa [baseOrNew_eq_base hp.base_ne]

theorem HidesOnWrite.ne_nil (hides : dest.HidesOnWrite h path) : path ≠ [] := by
  cases hides <;> exact List.cons_ne_nil _ _

theorem HidesOnWrite.isBasic (hides : dest.HidesOnWrite h path) : dest.isBasic h = false := by
  apply isBasic_of_baseOrNew
  cases hides with
  | here hbase _ _ => rw [hbase]; rfl
  | inside hp _ => exact hp.isStructured
  | made hbase _ _ => rw [hbase]; rfl

/-- A field that is not exported has no place. -/
theorem place?_of_hidden (hf : r.field? (key.toText h) = some f) (hhidden : f.exported = false) :
    (record r fields).place? key h = none := by
  have hindex : r.exportedIndex? (key.toText h) = none := by
    rw [RecordOf.exportedIndex?, hf]
    exact if_neg (Bool.not_eq_true _ ▸ hhidden)
  rw [place?, fieldPlace?, hindex]
  rfl

/-! ### Reads -/

/-- Nothing is read at a path that comes to a hidden field. -/
theorem walk?_of_hidesOnWrite (hides : dest.HidesOnWrite h path) : dest.walk? h path = none := by
  have hnone {v key : Value} {path : List Value} {h : Heap}
      (hplace : v.base h ≠ .invalid → (v.baseOrNew h).place? key h = none) :
      v.walk? h (key :: path) = none := by
    have hplace : (v.base h).place? key h = none := by
      by_cases hv : v.base h = .invalid
      · rw [hv]
        rfl
      · rw [← baseOrNew_eq_base hv]
        exact hplace hv
    rw [walk?, part?_eq_place?, hplace]
    rfl
  induction hides with
  | here hbase hf hhidden => exact hnone fun _ => hbase ▸ place?_of_hidden hf hhidden
  | made hbase hfree _ _ => exact hnone fun _ => hbase ▸ hfree
  | @inside h v key path p hp _ ih =>
    by_cases hv : v.base h = .invalid
    · exact hnone fun hne => absurd hv hne
    · rw [baseOrNew_eq_base hv] at hp
      rw [walk?, part?_eq_place?, place?_eq_some.mpr hp]
      exact ih

/-! ### Writes -/

/-- A write to a hidden field keeps the record. -/
theorem setPart_of_hidden (hf : r.field? (key.toText h) = some f) (hhidden : f.exported = false) :
    setPart v key path h (record r fields) = Edit.keep h (record r fields) (return false) := by
  rw [setPart, place?_of_hidden hf hhidden]
  · rfl
  · intro _ _ _ hmap
    cases hmap

theorem insertMade_not_done {k e : Ty} {entries : List (Key × Value)} {made : Edit Bool}
    (hx : made.result ≠ .ok true) : (insertMade k e entries key made).result ≠ .ok true := by
  unfold insertMade
  split
  · nofun
  · next done hdone =>
    rw [hdone] at hx
    rw [Edit.replace]
    split
    · exact hx
    · nofun

/-- A write along a path that comes to a hidden field is not done, and is the same for all
values. -/
theorem setIn_of_hidesOnWrite (hides : dest.HidesOnWrite h path) (v w : Value) (t : Ty) :
    (setIn v path t dest h).result ≠ .ok true ∧ setIn w path t dest h = setIn v path t dest h := by
  -- What is so for the change of the base is so for the change of the value.
  have hbase {dest key : Value} {path : List Value} {h : Heap} {t : Ty}
      (hpart : (setPart v key path h (dest.baseOrNew h)).result ≠ .ok true ∧
        setPart w key path h (dest.baseOrNew h) = setPart v key path h (dest.baseOrNew h)) :
      (setIn v (key :: path) t dest h).result ≠ .ok true ∧
        setIn w (key :: path) t dest h = setIn v (key :: path) t dest h := by
    by_cases hempty : dest = emptySlot
    · subst hempty
      exact ⟨nofun, rfl⟩
    obtain ⟨wrap, hwrap, heq⟩ := exists_change_eq (α := Bool) dest h
    rw [setIn_cons hempty, setIn_cons hempty, heq, heq, hpart.2]
    refine ⟨fun hdone => ?_, rfl⟩
    rcases hwrap (setPart v key path h (dest.baseOrNew h)) with hresult | ⟨e, hresult⟩
    · exact hpart.1 (hresult.symm.trans hdone)
    · cases hresult.symm.trans hdone
  induction hides generalizing t with
  | here hrecord hf hhidden =>
    refine hbase ?_
    rw [hrecord, setPart_of_hidden hf hhidden, setPart_of_hidden hf hhidden]
    exact ⟨nofun, rfl⟩
  | @inside h dest key path p hp hrest ih =>
    refine hbase ?_
    obtain ⟨hresult, heq⟩ := ih p.ty
    rw [setPart_of_selects hp hrest.ne_nil, setPart_of_selects hp hrest.ne_nil, heq]
    exact ⟨hresult, rfl⟩
  | @made h dest key segment path k e entries hmap hfree hrest ih =>
    refine hbase ?_
    obtain ⟨hresult, heq⟩ := ih e
    have hmade (v : Value) : setPart v key (segment :: path) h (map k e entries) =
        insertMade k e entries key
          (setIn v (segment :: path) e (e.vivify segment h).1 (e.vivify segment h).2) := by
      rw [setPart, hfree]
      · rfl
      · intro _ _ _ _ hnil
        cases hnil
    rw [hmap, hmade, hmade, heq]
    exact ⟨insertMade_not_done hresult, rfl⟩

/-- A write to a hidden field of a record that is there answers false and changes nothing. -/
theorem setIn_of_hides (hides : dest.Hides h path) (v : Value) (t : Ty) :
    (setIn v path t dest h).result = .ok false ∧ (setIn v path t dest h).Unchanged h dest := by
  have hbase {dest key : Value} {path : List Value} {t : Ty} (hne : dest.base h ≠ .invalid)
      (hpart : (setPart v key path h (dest.base h)).result = .ok false ∧
        (setPart v key path h (dest.base h)).Unchanged h (dest.base h)) :
      (setIn v (key :: path) t dest h).result = .ok false ∧
        (setIn v (key :: path) t dest h).Unchanged h dest := by
    have hempty : dest ≠ emptySlot := by
      rintro rfl
      exact hne (Heap.follow_eq_of_step fun _ => rfl)
    obtain ⟨hresult, hsame⟩ := change_unchanged (f := setPart v key path) hne (v := dest) rfl
    rw [setIn_cons hempty]
    exact ⟨hresult.trans hpart.1, hsame hpart.2⟩
  induction hides generalizing t with
  | @here dest key path r fields f hrecord hf hhidden =>
    have hne : dest.base h ≠ .invalid := by
      rw [hrecord]
      nofun
    refine hbase hne ?_
    rw [hrecord, setPart_of_hidden hf hhidden]
    exact ⟨rfl, .keep h _ _⟩
  | @inside dest key path p hp hrest ih =>
    refine hbase hp.base_ne ?_
    obtain ⟨hresult, hsame⟩ := ih p.ty
    rw [setPart_of_selects hp hrest.onWrite.ne_nil]
    exact ⟨hresult, (congrArg p.put hsame.value).trans hp.put_content, hsame.appends⟩

/-- A write to a hidden field is not done, and is the same for all values. -/
theorem set_of_hidesOnWrite (hides : dest.HidesOnWrite h path) (v w : Value) :
    (dest.set v path h).result ≠ .ok true ∧ dest.set w path h = dest.set v path h := by
  rw [set_eq_setIn hides.ne_nil hides.isBasic, set_eq_setIn hides.ne_nil hides.isBasic]
  exact setIn_of_hidesOnWrite hides v w dest.ty

/-- What a write to a hidden field leaves has at most grown. -/
theorem set_grows_of_hidesOnWrite (hides : dest.HidesOnWrite h path) (hh : h.WellFormed)
    (hdest : dest.WellFormed h) (hpath : ∀ s ∈ path, s.Bounded h ∧ h.AcyclicBehind s) (v : Value) :
    (dest.set v path h).Grows h dest := by
  -- The value does not matter, so let it be one that is there.
  obtain ⟨hresult, hsame⟩ := set_of_hidesOnWrite hides (bool true) v
  rw [hsame]
  rw [set_eq_setIn hides.ne_nil hides.isBasic] at hresult ⊢
  exact setIn_grows rfl path hh hdest hpath hresult

/-! ### What paths and identifiers do with hidden fields -/

/-- Nothing of a field is seen at a path to it but its declared type. -/
structure Unseen (h : Heap) (dest : Value) (path : List Value) : Prop where
  /-- Nothing is read at the path. -/
  fieldAt?_eq : dest.fieldAt? path h = none
  /-- Nothing is read at the path, out of its slot either. -/
  propAt?_eq : dest.propAt? path h = none
  /-- The type there is the declared one. -/
  typeAt?_eq : dest.typeAt? path h = dest.ty.at? path h
  /-- A write there is not done. -/
  not_done (v : Value) : (dest.set v path h).result ≠ .ok true
  /-- It is the same for all values. -/
  set_eq (v w : Value) : dest.set w path h = dest.set v path h
  /-- It at most puts zeros behind pointers to nothing and entries with zeros into maps. -/
  grows (hh : h.WellFormed) (hdest : dest.WellFormed h)
    (hpath : ∀ s ∈ path, s.Bounded h ∧ h.AcyclicBehind s) (v : Value) :
    (dest.set v path h).Grows h dest
  /-- If the record is there, a write answers false and changes nothing at all. -/
  unchanged (hides : dest.Hides h path) (v : Value) :
    (dest.set v path h).result = .ok false ∧ (dest.set v path h).Unchanged h dest
  /-- An identifier that spells the path names nothing, but for an entry of a map whose key is the
  whole identifier. -/
  propById? (ident : String) (hident : pathOf ident = path) : dest.propById? ident h = none ∨
    dest.isMap h = true ∧ dest.propById? ident h = dest.propAt? [string ident] h
  /-- A write at such an identifier is not done and the same for all values, but for the write of an
  entry of a map whose key is the whole identifier. -/
  setById (ident : String) (hident : pathOf ident = path) (v : Value) :
    ((dest.setById v ident h).result ≠ .ok true ∧
        ∀ w, dest.setById w ident h = dest.setById v ident h) ∨
      (dest.set v path h).value.isMap (dest.set v path h).heap = true ∧
        ∀ w, dest.setById w ident h =
          (dest.set v path h).value.set w [string ident] (dest.set v path h).heap

/-- **Hidden fields are unseen.** At a path along which a write comes to a record and names a field
there that is not exported, nothing is read and nothing is stored. -/
theorem HidesOnWrite.unseen (hides : dest.HidesOnWrite h path) : dest.Unseen h path := by
  have hread : dest.fieldAt? path h = none := by
    rw [fieldAt?, walk?_of_hidesOnWrite hides, ite_self]
  have hprop : dest.propAt? path h = none := by
    rw [propAt?, hread]
    rfl
  refine {
    fieldAt?_eq := hread
    propAt?_eq := hprop
    typeAt?_eq := by rw [typeAt?, hread, ite_self]
    not_done v := (set_of_hidesOnWrite hides v v).1
    set_eq v w := (set_of_hidesOnWrite hides v w).2
    grows := set_grows_of_hidesOnWrite hides
    unchanged hides' v := ?unchanged
    propById? ident hident := ?propById
    setById ident hident v := ?setById }
  case unchanged =>
    rw [set_eq_setIn hides.ne_nil hides.isBasic]
    exact setIn_of_hides hides' v dest.ty
  case propById =>
    subst hident
    rw [Value.propById?]
    split
    · exact .inl rfl
    · rw [hprop]
      dsimp only
      split
      · next hmap => exact .inr ⟨(Bool.and_eq_true_iff.mp hmap).1, rfl⟩
      · exact .inl rfl
  case setById =>
    subst hident
    obtain ⟨hresult, -⟩ := set_of_hidesOnWrite hides v v
    have hset (w : Value) := (set_of_hidesOnWrite hides v w).2
    simp only [Value.setById, hset]
    split
    · split
      · next hmap => exact .inr ⟨(Bool.and_eq_true_iff.mp hmap).1, fun _ => rfl⟩
      · exact .inl ⟨hresult, fun _ => rfl⟩
    · exact .inl ⟨hresult, fun _ => rfl⟩

/-- A record type with a field that is not exported. -/
def sealedType : RecordType := ⟨"Sealed", [⟨"token", .string, false⟩], []⟩

/-- A map from texts to such records without entries. -/
def noSealed : Value := map .string (.record sealedType) []

/-- A write to the field of a record that it makes for a missing entry leaves the record with the
zero in the field. -/
theorem unseen_noSealed :
    noSealed.HidesOnWrite .empty [string "a", string "token"] ∧
      noSealed.Unseen .empty [string "a", string "token"] ∧
      (noSealed.set (string "x") [string "a", string "token"] .empty).value =
        map .string (.record sealedType) [(.string "a", record sealedType [string ""])] := by
  have hides : noSealed.HidesOnWrite .empty [string "a", string "token"] :=
    .made (k := .string) (e := .record sealedType) rfl rfl
      (.here (r := sealedType) rfl (f := ⟨"token", .string, false⟩) rfl rfl)
  exact ⟨hides, hides.unseen, rfl⟩

/-- The type at a path to a hidden field is told. -/
theorem not_forall_typeAt?_eq_none :
    ¬∀ (h : Heap) (v : Value) (path : List Value), h.WellFormed → v.WellFormed h →
      (∀ s ∈ path, s.WellFormed h) → v.Hides h path → v.typeAt? path h = none := by
  intro hall
  have hv : (record sealedType [string ""]).WellFormed .empty :=
    wellFormed_record.mpr (.cons ⟨.string _, Ty.accepts_self _⟩ .nil)
  have hpath : ∀ s ∈ [string "token"], s.WellFormed .empty :=
    List.forall_mem_singleton.mpr (.string _)
  have hides : (record sealedType [string ""]).Hides .empty [string "token"] :=
    .here (r := sealedType) rfl (f := ⟨"token", .string, false⟩) rfl rfl
  cases hall .empty _ _ Heap.empty_wellFormed hv hpath hides

/-! ### Listed parts -/

theorem mem_exportedFields {x : String × Value} (hx : x ∈ exportedFields r fields) :
    ∃ (i : Nat) (f : Field), r.fields[i]? = some f ∧ f.exported = true ∧
      fields[i]? = some x.2 ∧ x.1 = f.name := by
  obtain ⟨⟨f, w⟩, hmem, hx⟩ := List.mem_filterMap.mp hx
  obtain ⟨i, hi⟩ := List.mem_iff_getElem?.mp hmem
  obtain ⟨hf, hw⟩ := List.getElem?_zip_eq_some.mp hi
  dsimp only at hx
  by_cases hexported : f.exported = true
  · rw [if_pos hexported] at hx
    cases hx
    exact ⟨i, f, hf, hexported, hw, rfl⟩
  · rw [if_neg hexported] at hx
    cases hx

/-- The parts that are listed of a record are its exported fields. -/
theorem mem_pairs_record {x : Value × Value} (hbase : v.base h = record r fields)
    (hx : x ∈ v.pairs h) : ∃ (i : Nat) (f : Field) (w : Value), r.fields[i]? = some f ∧
      f.exported = true ∧ fields[i]? = some w ∧ x = (string f.name, w.peel) := by
  rw [pairs] at hx
  split at hx
  · cases hx
  · rw [hbase] at hx
    obtain ⟨⟨name, w⟩, hmem, rfl⟩ := List.mem_map.mp hx
    obtain ⟨i, f, hf, hexported, hw, rfl⟩ := mem_exportedFields hmem
    exact ⟨i, f, w, hf, hexported, hw, rfl⟩

end Value

end DynamicEval
