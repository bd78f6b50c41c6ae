import DynamicEval.Path.Write

/-!
# Places

A segment of a path selects a place in a map, a record, a list or an array: a declared type, the
content, and a way to put other content there. Reads give the content of the place, and writes put
there what a write along the rest of the path makes of the content. Only a map is written to where
it has no place: its last segment stores an entry, and any other one makes a value to go on from.

## Main definitions

* `Place`, `Value.place?`: a place, and the one that a segment selects.
* `Value.Selects`: the forms that the place of a segment can have.
* `Value.setPart`: a write at one segment and along the rest of a path.

## Main results

* `Value.part?_eq_place?`: reads give the content of places.
* `Value.setIn_cons`: a write along a path changes the base by `Value.setPart`.
-/

namespace DynamicEval

/-- A place in a value. -/
structure Place where
  /-- The declared type of the place. -/
  ty : Ty
  /-- The content of the place. -/
  content : Value
  /-- The value with other content at the place. -/
  put : Value → Value

/-- A field that has a place is declared. -/
theorem RecordOf.exists_field?_of_exportedIndex? (r : RecordType) {name : String} {i : Nat}
    (hi : r.exportedIndex? name = some i) : ∃ f, r.field? name = some f := by
  rw [exportedIndex?] at hi
  split at hi
  · next f hf => exact ⟨f, hf⟩
  · cases hi

theorem RecordOf.fieldIndex?_of_exportedIndex? (r : RecordType) {name : String} {i : Nat}
    (hi : r.exportedIndex? name = some i) : r.fieldIndex? name = some i := by
  rw [exportedIndex?] at hi
  split at hi
  · split at hi
    · exact hi
    · cases hi
  · cases hi

namespace Value

/-- The place that a segment selects among items. -/
def itemPlace? (e : Ty) (whole : List Value → Value) (items : List Value) (key : Value) (h : Heap) :
    Option Place :=
  (key.index? h).bind fun i => items[i]?.map fun w => ⟨e, w, fun w => whole (items.set i w)⟩

/-- The place that a segment selects among entries. -/
def entryPlace? (k e : Ty) (entries : List (Key × Value)) (key : Value) (h : Heap) :
    Option Place :=
  (Key.place? k key h).bind fun place => (Entries.find? place entries).map fun w =>
    ⟨e, w, fun w => map k e (Entries.replace place w entries)⟩

/-- The place that a segment selects among the exported fields of a record. -/
def fieldPlace? (r : RecordType) (fields : List Value) (key : Value) (h : Heap) : Option Place :=
  (r.exportedIndex? (key.toText h)).bind fun i => (r.field? (key.toText h)).bind fun f =>
    fields[i]?.map fun w => ⟨f.ty, w, fun w => record r (fields.set i w)⟩

/-- The place that a segment selects in a value that is a base. -/
def place? (base key : Value) (h : Heap) : Option Place :=
  match base with
  | map k e entries => entryPlace? k e entries key h
  | record r fields => fieldPlace? r fields key h
  | list e items => itemPlace? e (list e) items key h
  | array e items => itemPlace? e (array e) items key h
  | _ => none

/-- A write of `v` at a segment that selects no place, and along the rest of a path: in a map it goes
on in a value that is made for the segment. -/
def setMissing (v key : Value) (path : List Value) (h : Heap) (base : Value) : Edit Bool :=
  match base, path with
  | map k e entries, segment :: _ =>
    let (new, h) := e.vivify segment h
    insertMade k e entries key (setIn v path e new h)
  | base, _ => Edit.keep h base (return false)

/-- A write of `v` at a segment and along the rest of a path. The last segment of a path stores an
entry in a map, whether there is one or not. -/
def setPart (v key : Value) (path : List Value) (h : Heap) (base : Value) : Edit Bool :=
  match base, path with
  | map k e entries, [] =>
    Edit.replace h base (return map k e (← Entries.insert k e entries key v)) true
  | base, path =>
    match base.place? key h with
    | some p => (setIn v path p.ty p.content h).within p.put
    | none => setMissing v key path h base

variable {h : Heap} {base v key : Value}

/-- A segment selects a place in a base. -/
inductive Selects (key : Value) (h : Heap) : Value → Place → Prop where
  | entry {k e : Ty} {entries : List (Key × Value)} {place : BareKey} {w : Value}
      (hplace : Key.place? k key h = some place) (hw : Entries.find? place entries = some w) :
      Selects key h (map k e entries)
        ⟨e, w, fun w => map k e (Entries.replace place w entries)⟩
  | field {r : RecordType} {fields : List Value} {i : Nat} {f : Field} {w : Value}
      (hi : r.exportedIndex? (key.toText h) = some i) (hf : r.field? (key.toText h) = some f)
      (hw : fields[i]? = some w) :
      Selects key h (record r fields) ⟨f.ty, w, fun w => record r (fields.set i w)⟩
  | listItem {e : Ty} {items : List Value} {i : Nat} {w : Value} (hi : key.index? h = some i)
      (hw : items[i]? = some w) :
      Selects key h (list e items) ⟨e, w, fun w => list e (items.set i w)⟩
  | arrayItem {e : Ty} {items : List Value} {i : Nat} {w : Value} (hi : key.index? h = some i)
      (hw : items[i]? = some w) :
      Selects key h (array e items) ⟨e, w, fun w => array e (items.set i w)⟩

theorem place?_eq_some {p : Place} : base.place? key h = some p ↔ key.Selects h base p := by
  constructor
  · intro hp
    cases base with
    | map k e entries =>
      obtain ⟨place, hplace, hp⟩ := Option.bind_eq_some_iff.mp hp
      obtain ⟨w, hw, rfl⟩ := Option.map_eq_some_iff.mp hp
      exact .entry hplace hw
    | record r fields =>
      obtain ⟨i, hi, hp⟩ := Option.bind_eq_some_iff.mp hp
      obtain ⟨f, hf, hp⟩ := Option.bind_eq_some_iff.mp hp
      obtain ⟨w, hw, rfl⟩ := Option.map_eq_some_iff.mp hp
      exact .field hi hf hw
    | list e items =>
      obtain ⟨i, hi, hp⟩ := Option.bind_eq_some_iff.mp hp
      obtain ⟨w, hw, rfl⟩ := Option.map_eq_some_iff.mp hp
      exact .listItem hi hw
    | array e items =>
      obtain ⟨i, hi, hp⟩ := Option.bind_eq_some_iff.mp hp
      obtain ⟨w, hw, rfl⟩ := Option.map_eq_some_iff.mp hp
      exact .arrayItem hi hw
    | _ => cases hp
  · rintro (⟨hplace, hw⟩ | ⟨hi, hf, hw⟩ | ⟨hi, hw⟩ | ⟨hi, hw⟩)
    · simp [place?, entryPlace?, hplace, hw]
    · simp [place?, fieldPlace?, hi, hf, hw]
    · simp [place?, itemPlace?, hi, hw]
    · simp [place?, itemPlace?, hi, hw]

/-- A segment reads the content of the place that it selects in the base. -/
theorem part?_eq_place? : v.part? key h = ((v.base h).place? key h).map (·.content) := by
  rw [part?]
  cases v.base h with
  | map k e entries =>
    simp only [place?, entryPlace?, Entries.lookup?, Option.map_bind, Option.map_map,
      Function.comp_def, Option.map_id']
  | record r fields =>
    simp only [place?, fieldPlace?]
    cases hi : r.exportedIndex? (key.toText h) with
    | none => rfl
    | some i =>
      obtain ⟨f, hf⟩ := r.exists_field?_of_exportedIndex? hi
      simp only [hf, Option.bind_some, Option.map_map, Function.comp_def, Option.map_id']
  | list e items =>
    simp only [place?, itemPlace?, Option.map_bind, Option.map_map, Function.comp_def,
      Option.map_id']
  | array e items =>
    simp only [place?, itemPlace?, Option.map_bind, Option.map_map, Function.comp_def,
      Option.map_id']
  | _ => rfl

/-- A write at a segment that selects a place goes on in its content. -/
theorem setPart_of_selects {path : List Value} {p : Place} (hp : key.Selects h base p)
    (hne : path ≠ []) :
    setPart v key path h base = (setIn v path p.ty p.content h).within p.put := by
  unfold setPart
  split
  · exact absurd rfl hne
  · rw [place?_eq_some.mpr hp]

/-- A write along a path changes the base at the first segment. -/
theorem setIn_cons {t : Ty} {dest : Value} {path : List Value} (hdest : dest ≠ emptySlot) :
    setIn v (key :: path) t dest h = dest.change h (setPart v key path) := by
  unfold setIn
  split
  · next heq => cases heq
  · exact absurd rfl hdest
  · next heq _ =>
    cases heq
    refine congrArg (change _ _) (funext fun h => funext fun base => ?_)
    cases base with
    | map k e entries =>
      cases path with
      | nil => rfl
      | cons segment path =>
        simp only [setPart, place?, entryPlace?]
        cases Key.place? k key h with
        | none => rfl
        | some place =>
          simp only [Option.bind_some]
          cases Entries.find? place entries <;> rfl
    | record r fields =>
      simp only [setPart, place?, fieldPlace?]
      cases hi : r.exportedIndex? (key.toText h) with
      | none => rfl
      | some i =>
        obtain ⟨f, hf⟩ := r.exists_field?_of_exportedIndex? hi
        simp only [hf, Option.bind_some]
        cases fields[i]? <;> rfl
    | list e items =>
      simp only [setPart, place?, itemPlace?]
      cases key.index? h with
      | none => rfl
      | some i =>
        simp only [Option.bind_some]
        cases items[i]? <;> rfl
    | array e items =>
      simp only [setPart, place?, itemPlace?]
      cases key.index? h with
      | none => rfl
      | some i =>
        simp only [Option.bind_some]
        cases items[i]? <;> rfl
    | _ => rfl

end Value

end DynamicEval
