import DynamicEval.Value.Base
import DynamicEval.Proofs.Ty
import Mathlib.Data.List.Forall2

/-!
# Well-formed values

A value is well-formed on a heap when numbers lie within their widths, slots hold neither slots nor
nothing, and every part and every cell is of a type that its place accepts. Cells are well-formed
by themselves and keep their types for good, so a value stays well-formed while the heap changes.

## Main definitions

* `Value.WellFormed`, `Heap.WellFormed`: the invariant of values and of heaps.
* `Value.Fits`: a well-formed value that a destination of a type may hold.
* `Entries.WellFormed`: the invariant of the entries of a map.
* `Heap.Extends`, `Heap.Grows`: a later heap, with the same types in the cells that were there.

## Main results

* `Value.WellFormed.mono`: well-formed values stay so on later heaps.
* `Heap.Grows.alloc`, `Heap.Grows.set`: new cells, and new content of a type that is kept.
* `Ty.zero_fits`: the zero of a type fits it.
-/

namespace DynamicEval

/-! ### The invariant -/

/-- A number that the format of 32 bits has: a widened pattern of that format, or not a number
with a fraction that the format has room for. -/
def Binary64.IsSingle (x : Binary64) : Prop :=
  (x.isNaN = true ∧ x.pattern % singleUnit = 0) ∨
    ∃ negative pattern, pattern ≤ FloatFormat.single.infinity ∧
      x = ofSinglePattern negative pattern

/-- Whether a width has room for a number. -/
def FloatWidth.Holds : FloatWidth → Binary64 → Prop
  | single, x => x.IsSingle
  | double, _ => True

/-- Whether a map with keys of a type may store a key: it is a value for which a destination of the
type has room, taken out of its slot. -/
def Ty.AcceptsKey (t : Ty) (k : Key) : Prop :=
  ∃ v : Value, t.Accepts v.ty ∧ v.peel = k.value

/-- Well-formed values on a heap. -/
inductive Value.WellFormed (h : Heap) : Value → Prop where
  | invalid : WellFormed h .invalid
  | bool (b : Bool) : WellFormed h (.bool b)
  | int {w : IntWidth} {n : Int64} (range : w.wrapSigned n = n) : WellFormed h (.int w n)
  | uint {w : IntWidth} {n : UInt64} (range : w.wrapUnsigned n = n) : WellFormed h (.uint w n)
  | float {w : FloatWidth} {x : Binary64} (range : w.Holds x) : WellFormed h (.float w x)
  | string (s : String) : WellFormed h (.string s)
  | list {e : Ty} {items : List Value} (types : ∀ v ∈ items, e.Accepts v.ty)
      (parts : ∀ v ∈ items, WellFormed h v) : WellFormed h (.list e items)
  | array {e : Ty} {items : List Value} (types : ∀ v ∈ items, e.Accepts v.ty)
      (parts : ∀ v ∈ items, WellFormed h v) : WellFormed h (.array e items)
  | map {k e : Ty} {entries : List (Key × Value)}
      (places : (entries.map fun entry => entry.1.bare).Nodup)
      (keyTypes : ∀ entry ∈ entries, k.AcceptsKey entry.1)
      (keys : ∀ entry ∈ entries, WellFormed h entry.1.value)
      (types : ∀ entry ∈ entries, e.Accepts entry.2.ty)
      (parts : ∀ entry ∈ entries, WellFormed h entry.2) : WellFormed h (.map k e entries)
  | record {r : RecordType} {fields : List Value}
      (types : List.Forall₂ (fun f v => f.ty.Accepts (Value.ty v)) r.fields fields)
      (parts : ∀ v ∈ fields, WellFormed h v) : WellFormed h (.record r fields)
  | func {f : Callable} (held : ∀ v ∈ f.held, WellFormed h v) : WellFormed h (.func f)
  | nil (e : Ty) : WellFormed h (.pointer e none)
  | pointer {e : Ty} {a : Addr} (bound : a < h.size) (type : e.Accepts (h.get a).ty) :
      WellFormed h (.pointer e (some a))
  | emptySlot : WellFormed h .emptySlot
  | slot {v : Value} (filled : v.ty ≠ .invalid) (single : v.ty ≠ .any) (content : WellFormed h v) :
      WellFormed h (.slot v)

/-- A well-formed value that a destination of a type may hold. -/
structure Value.Fits (v : Value) (t : Ty) (h : Heap) : Prop where
  /-- The value is well-formed. -/
  wellFormed : v.WellFormed h
  /-- Its type is accepted. -/
  accepts : t.Accepts v.ty

/-- Entries of a well-formed map with keys and values of given types. -/
structure Entries.WellFormed (k e : Ty) (h : Heap) (entries : List (Key × Value)) : Prop where
  /-- No place is filled twice. -/
  places : (entries.map fun entry => entry.1.bare).Nodup
  /-- Every stored key is accepted. -/
  keyTypes : ∀ entry ∈ entries, k.AcceptsKey entry.1
  /-- Every stored key is well-formed as a value. -/
  keys : ∀ entry ∈ entries, entry.1.value.WellFormed h
  /-- Every value fits. -/
  values : ∀ entry ∈ entries, entry.2.Fits e h

/-- A heap with well-formed cells. -/
def Heap.WellFormed (h : Heap) : Prop :=
  ∀ a < h.size, (h.get a).WellFormed h

/-- A later heap: it has the cells of `h`, with content of the same types. -/
structure Heap.Extends (h h' : Heap) : Prop where
  /-- No cell is lost. -/
  size_le : h.size ≤ h'.size
  /-- Every cell keeps its type. -/
  ty_beq : ∀ a < h.size, ((h'.get a).ty == (h.get a).ty) = true

/-- A later heap that is well-formed. -/
structure Heap.Grows (h h' : Heap) : Prop extends h.Extends h' where
  /-- The later heap is well-formed. -/
  wellFormed : h'.WellFormed

namespace Value

variable {h : Heap}

theorem wellFormed_list {e : Ty} {items : List Value} :
    (list e items).WellFormed h ↔ ∀ v ∈ items, v.Fits e h := by
  constructor
  · rintro (_ | _) v hv
    exact ⟨‹∀ v ∈ items, v.WellFormed h› v hv, ‹∀ v ∈ items, e.Accepts v.ty› v hv⟩
  · exact fun hi => .list (fun v hv => (hi v hv).accepts) fun v hv => (hi v hv).wellFormed

theorem wellFormed_array {e : Ty} {items : List Value} :
    (array e items).WellFormed h ↔ ∀ v ∈ items, v.Fits e h := by
  constructor
  · rintro (_ | _) v hv
    exact ⟨‹∀ v ∈ items, v.WellFormed h› v hv, ‹∀ v ∈ items, e.Accepts v.ty› v hv⟩
  · exact fun hi => .array (fun v hv => (hi v hv).accepts) fun v hv => (hi v hv).wellFormed

theorem wellFormed_map {k e : Ty} {entries : List (Key × Value)} :
    (map k e entries).WellFormed h ↔ Entries.WellFormed k e h entries := by
  constructor
  · intro hv
    cases hv with
    | map places keyTypes keys types parts =>
      exact ⟨places, keyTypes, keys, fun entry he => ⟨parts entry he, types entry he⟩⟩
  · intro he
    exact .map he.places he.keyTypes he.keys (fun entry hentry => (he.values entry hentry).accepts)
      fun entry hentry => (he.values entry hentry).wellFormed

theorem exists_fits_of_mem {fs : List Field} {vs : List Value} {v : Value}
    (hfits : List.Forall₂ (fun f v => Fits v f.ty h) fs vs) (hv : v ∈ vs) :
    ∃ f ∈ fs, v.Fits f.ty h := by
  induction hfits with
  | nil => exact absurd hv List.not_mem_nil
  | @cons f w fs vs hw _ ih =>
    rcases List.mem_cons.mp hv with rfl | hv
    · exact ⟨f, List.mem_cons_self, hw⟩
    · obtain ⟨f, hf, hfits⟩ := ih hv
      exact ⟨f, List.mem_cons_of_mem _ hf, hfits⟩

theorem wellFormed_record {r : RecordType} {fields : List Value} :
    (record r fields).WellFormed h ↔ List.Forall₂ (fun f v => v.Fits f.ty h) r.fields fields := by
  constructor
  · intro hv
    cases hv with
    | record types parts =>
      refine List.forall₂_iff_zip.mpr ⟨types.length_eq, fun {f v} hz => ⟨parts v ?_, ?_⟩⟩
      · exact (List.of_mem_zip hz).2
      · exact List.forall₂_zip types hz
  · intro hf
    refine .record (hf.imp fun _ _ fits => fits.accepts) fun v hv => ?_
    obtain ⟨_, _, fits⟩ := exists_fits_of_mem hf hv
    exact fits.wellFormed

theorem wellFormed_slot {v : Value} :
    (slot v).WellFormed h ↔ v.ty ≠ .invalid ∧ v.ty ≠ .any ∧ v.WellFormed h := by
  constructor
  · rintro (_ | _)
    exact ⟨‹_›, ‹_›, ‹_›⟩
  · exact fun ⟨filled, single, content⟩ => .slot filled single content

theorem wellFormed_pointer {e : Ty} {a : Addr} :
    (pointer e (some a)).WellFormed h ↔ a < h.size ∧ e.Accepts (h.get a).ty := by
  constructor
  · rintro (_ | _)
    exact ⟨‹_›, ‹_›⟩
  · exact fun ⟨bound, type⟩ => .pointer bound type

theorem wellFormed_func {f : Callable} :
    (func f).WellFormed h ↔ ∀ v ∈ f.held, v.WellFormed h := by
  constructor
  · rintro (_ | _)
    assumption
  · exact .func

end Value

/-! ### Later heaps -/

namespace Heap

variable {h h' h'' : Heap}

theorem empty_wellFormed : empty.WellFormed := fun a ha => absurd ha (Nat.not_lt_zero a)

theorem Extends.refl (h : Heap) : h.Extends h := ⟨Nat.le_refl _, fun _ _ => BEq.rfl⟩

theorem Extends.trans (hh : h.Extends h') (hh' : h'.Extends h'') : h.Extends h'' where
  size_le := Nat.le_trans hh.size_le hh'.size_le
  ty_beq a ha := BEq.trans (hh'.ty_beq a (Nat.lt_of_lt_of_le ha hh.size_le)) (hh.ty_beq a ha)

theorem WellFormed.grows (hh : h.WellFormed) : h.Grows h := ⟨.refl h, hh⟩

theorem Grows.trans (hh : h.Grows h') (hh' : h'.Grows h'') : h.Grows h'' :=
  ⟨hh.toExtends.trans hh'.toExtends, hh'.wellFormed⟩

end Heap

/-- What is well-formed stays so on later heaps. -/
theorem Value.WellFormed.mono {h h' : Heap} {v : Value} (hv : v.WellFormed h)
    (hh : h.Extends h') : v.WellFormed h' := by
  induction hv with
  | invalid => exact .invalid
  | bool b => exact .bool b
  | int range => exact .int range
  | uint range => exact .uint range
  | float range => exact .float range
  | string s => exact .string s
  | list types _ ih => exact .list types ih
  | array types _ ih => exact .array types ih
  | map places keyTypes _ types _ ihkeys ih => exact .map places keyTypes ihkeys types ih
  | record types _ ih => exact .record types ih
  | func _ ih => exact .func ih
  | nil e => exact .nil e
  | pointer bound type =>
    exact .pointer (Nat.lt_of_lt_of_le bound hh.size_le) (type.congr_right (hh.ty_beq _ bound))
  | emptySlot => exact .emptySlot
  | slot filled single _ ih => exact .slot filled single ih

theorem Value.Fits.mono {h h' : Heap} {v : Value} {t : Ty} (hv : v.Fits t h)
    (hh : h.Extends h') : v.Fits t h' :=
  ⟨hv.wellFormed.mono hh, hv.accepts⟩

theorem Entries.WellFormed.mono {h h' : Heap} {k e : Ty} {entries : List (Key × Value)}
    (he : Entries.WellFormed k e h entries) (hh : h.Extends h') :
    Entries.WellFormed k e h' entries where
  places := he.places
  keyTypes := he.keyTypes
  keys entry hentry := (he.keys entry hentry).mono hh
  values entry hentry := (he.values entry hentry).mono hh

theorem Entries.WellFormed.nil {h : Heap} {k e : Ty} : Entries.WellFormed k e h [] :=
  ⟨List.nodup_nil, List.forall_mem_nil _, List.forall_mem_nil _, List.forall_mem_nil _⟩

/-- Entries with the same keys and values that fit are well-formed. -/
theorem Entries.WellFormed.of_keys {h h' : Heap} {k e : Ty} {entries entries' : List (Key × Value)}
    (he : Entries.WellFormed k e h entries) (hh : h.Extends h')
    (hkeys : entries'.map Prod.fst = entries.map Prod.fst)
    (hvalues : ∀ entry ∈ entries', entry.2.Fits e h') : Entries.WellFormed k e h' entries' := by
  have hmem : ∀ entry ∈ entries', ∃ old ∈ entries, old.1 = entry.1 := by
    intro entry hentry
    have hkey : entry.1 ∈ entries.map Prod.fst := hkeys ▸ List.mem_map_of_mem hentry
    exact List.mem_map.mp hkey
  have hplaces : (entries'.map fun entry => entry.1.bare) = entries.map fun entry => entry.1.bare := by
    have := congrArg (List.map Key.bare) hkeys
    rwa [List.map_map, List.map_map] at this
  refine ⟨hplaces ▸ he.places, fun entry hentry => ?_, fun entry hentry => ?_, hvalues⟩
  · obtain ⟨old, hold, hkey⟩ := hmem entry hentry
    exact hkey ▸ he.keyTypes old hold
  · obtain ⟨old, hold, hkey⟩ := hmem entry hentry
    exact hkey ▸ (he.keys old hold).mono hh

namespace Heap

variable {h : Heap} {v : Value}

@[simp]
theorem size_alloc : (h.alloc v).1.size = h.size + 1 := by
  simp [alloc, size]

theorem get_alloc_of_lt {a : Addr} (ha : a < h.size) : (h.alloc v).1.get a = h.get a := by
  have hne : a ≠ h.cells.size := Nat.ne_of_lt ha
  simp [get, alloc, Array.getElem?_push, hne]

@[simp]
theorem get_alloc_size : (h.alloc v).1.get h.size = v := by
  simp [get, alloc, size]

@[simp]
theorem size_set {a : Addr} : (h.set a v).size = h.size := by
  simp [set, size]

theorem get_set_self {a : Addr} (ha : a < h.size) : (h.set a v).get a = v := by
  have ha : a < h.cells.size := ha
  simp [get, set, ha]

theorem get_set_of_ne {a b : Addr} (hne : a ≠ b) : (h.set a v).get b = h.get b := by
  simp [get, set, hne]

/-- A new cell with well-formed content. -/
theorem WellFormed.alloc (hh : h.WellFormed) (hv : v.WellFormed h) : h.Grows (h.alloc v).1 := by
  have hext : h.Extends (h.alloc v).1 := by
    refine ⟨by simp, fun a ha => ?_⟩
    rw [get_alloc_of_lt ha]
    exact BEq.rfl
  refine ⟨hext, fun a ha => ?_⟩
  rcases Nat.lt_succ_iff_lt_or_eq.mp (size_alloc ▸ ha) with ha | rfl
  · rw [get_alloc_of_lt ha]
    exact (hh a ha).mono hext
  · rw [get_alloc_size]
    exact hv.mono hext

/-- New content of a cell, of the type that the content had. -/
theorem WellFormed.set (hh : h.WellFormed) {a : Addr} (hv : v.WellFormed h)
    (hty : (v.ty == (h.get a).ty) = true) : h.Grows (h.set a v) := by
  have hget {b : Addr} (hb : b < h.size) :
      (h.set a v).get b = h.get b ∨ a = b ∧ (h.set a v).get b = v := by
    by_cases hab : a = b
    · subst hab
      exact .inr ⟨rfl, get_set_self hb⟩
    · exact .inl (get_set_of_ne hab)
  have hext : h.Extends (h.set a v) := by
    refine ⟨by simp, fun b hb => ?_⟩
    rcases hget hb with heq | ⟨rfl, heq⟩ <;> rw [heq]
    · exact BEq.rfl
    · exact hty
  refine ⟨hext, fun b hb => ?_⟩
  rcases hget (size_set ▸ hb) with heq | ⟨-, heq⟩ <;> rw [heq]
  · exact (hh b (size_set ▸ hb)).mono hext
  · exact hv.mono hext

end Heap

/-- A pointer to a new cell is well-formed. -/
theorem Value.Fits.pointer_alloc {h : Heap} {v : Value} {e : Ty} (hv : v.Fits e h) :
    (Value.pointer e (some h.size)).WellFormed (h.alloc v).1 := by
  refine .pointer ?_ ?_
  · rw [Heap.size_alloc]
    exact Nat.lt_succ_self _
  · rw [Heap.get_alloc_size]
    exact hv.accepts

/-! ### Types and forms -/

namespace Value

variable {h : Heap} {v w : Value} {t : Ty}

@[simp]
theorem isInvalid_iff : v.isInvalid = true ↔ v.ty = .invalid := by
  cases v <;> simp [isInvalid, ty]

@[simp]
theorem isSlot_iff : v.isSlot = true ↔ v.ty = .any := by
  cases v <;> simp [isSlot, ty]

theorem eq_invalid_of_ty (hty : v.ty = .invalid) : v = .invalid := by
  cases v <;> simp_all [ty]

/-- A value that has the type of one that fits does fit. -/
theorem WellFormed.fits (hv : v.WellFormed h) (hty : (v.ty == t) = true) : v.Fits t h :=
  ⟨hv, .of_beq hty⟩

theorem WellFormed.fits_ty (hv : v.WellFormed h) : v.Fits v.ty h := ⟨hv, Ty.accepts_self _⟩

/-! ### Slots and bases -/

theorem WellFormed.peel (hv : v.WellFormed h) : v.peel.WellFormed h := by
  cases v with
  | slot v => exact (wellFormed_slot.mp hv).2.2
  | emptySlot => exact .invalid
  | _ => exact hv

theorem ty_boxed (v : Value) : v.boxed.ty = .any := by
  cases v <;> rfl

theorem boxed_eq_slot (hfilled : v.ty ≠ .invalid) (hsingle : v.ty ≠ .any) : v.boxed = slot v := by
  cases v with
  | invalid => exact absurd rfl hfilled
  | emptySlot | slot _ => exact absurd rfl hsingle
  | _ => rfl

theorem WellFormed.boxed (hv : v.WellFormed h) : v.boxed.WellFormed h := by
  cases v with
  | slot v => exact hv
  | emptySlot => exact .emptySlot
  | invalid => exact .emptySlot
  | _ => exact .slot nofun nofun hv

theorem WellFormed.boxed_fits (hv : v.WellFormed h) : v.boxed.Fits .any h :=
  ⟨hv.boxed, v.ty_boxed⟩

/-- A step to the base is well-formed if it is behind cells. -/
theorem WellFormed.baseStep {deref : Addr → Value}
    (hderef : ∀ a < h.size, (deref a).WellFormed h) {v : Value} (hv : v.WellFormed h) :
    (v.baseStep deref).WellFormed h := by
  match v with
  | .pointer e (some a) => exact hderef a (wellFormed_pointer.mp hv).1
  | .pointer _ none | .emptySlot | .invalid => exact .invalid
  | .slot v =>
    rw [Value.baseStep]
    exact WellFormed.baseStep hderef (wellFormed_slot.mp hv).2.2
  | .bool _ | .int _ _ | .uint _ _ | .float _ _ | .string _ | .list _ _ | .array _ _ | .map _ _ _
  | .record _ _ | .func _ => exact hv

theorem WellFormed.base (hv : v.WellFormed h) (hh : h.WellFormed) : (v.base h).WellFormed h := by
  suffices ∀ n, (h.unroll .invalid Value.baseStep n v).WellFormed h from this h.size
  intro n
  induction n generalizing v with
  | zero => exact hv.baseStep fun _ _ => .invalid
  | succ n ih => exact hv.baseStep fun a ha => ih (hh a ha)

end Value

/-! ### Zeros -/

mutual

theorem Ty.zero_fits (h : Heap) (t : Ty) : t.zero.Fits t h := by
  match t with
  | .invalid => exact ⟨.invalid, trivial⟩
  | .func => exact ⟨.invalid, .inr rfl⟩
  | .bool => exact ⟨.bool _, Ty.accepts_self _⟩
  | .int w => exact ⟨.int (by cases w <;> rfl), Ty.accepts_self _⟩
  | .uint w => exact ⟨.uint (by cases w <;> rfl), Ty.accepts_self _⟩
  | .float w =>
    refine ⟨.float ?_, Ty.accepts_self _⟩
    cases w with
    | single => exact .inr ⟨false, 0, by decide, by decide⟩
    | double => exact trivial
  | .string => exact ⟨.string _, Ty.accepts_self _⟩
  | .list e => exact ⟨Value.wellFormed_list.mpr (List.forall_mem_nil _), Ty.accepts_self _⟩
  | .array e n =>
    refine ⟨Value.wellFormed_array.mpr fun v hv => ?_, ?_⟩
    · rw [List.eq_of_mem_replicate hv]
      exact Ty.zero_fits h e
    · rw [Ty.zero, Value.ty, List.length_replicate]
      exact Ty.accepts_self _
  | .map k e =>
    exact ⟨Value.wellFormed_map.mpr .nil, Ty.accepts_self _⟩
  | .record ⟨name, fields, methods⟩ =>
    exact ⟨Value.wellFormed_record.mpr (Ty.zeroFields_fit h fields), Ty.accepts_self _⟩
  | .pointer e => exact ⟨.nil e, Ty.accepts_self _⟩
  | .any => exact ⟨.emptySlot, rfl⟩

theorem Ty.zeroFields_fit (h : Heap) (fs : List Field) :
    List.Forall₂ (fun f v => Value.Fits v f.ty h) fs (Ty.zeroFields fs) := by
  match fs with
  | [] => exact .nil
  | ⟨_, ty, _⟩ :: fs => exact .cons (Ty.zero_fits h ty) (Ty.zeroFields_fit h fs)

end

end DynamicEval
