import DynamicEval.Proofs.Coercion
import DynamicEval.Proofs.Heap.Leads
import DynamicEval.Proofs.WellFormed.Path

/-!
# Slots at the end of paths

A path selects a slot: the place that its last segment selects, which has a declared type and a
content. What is put at the place of a segment is found there again by the same segment, on any heap
that is the same behind the segment.

## Main definitions

* `Value.slotAt?`: the declared type and the content of the slot that a path selects.

## Main results

* `Value.walk?_eq_slotAt?`: reads along paths give the content of slots.
* `Value.Selects.put`: what is put at a place is found there.
* `Value.isBasic_of_slotAt?`: only a value with parts has slots below it.
* `Value.walk?_of_fieldAt?`, `Value.fieldAt?_of_walk?`: the value at a path is what the path comes to.
-/

namespace DynamicEval

namespace Entries

variable {α : Type} {place place' : BareKey} {k : Key} {a b : α} {es : List (Key × α)}

theorem find?_replace (hb : find? place es = some b) :
    find? place (replace place a es) = some a := by
  induction es with
  | nil => cases hb
  | cons entry es ih =>
    obtain ⟨j, c⟩ := entry
    rw [find?] at hb
    by_cases hj : j.bare = place
    · rw [replace, if_pos hj, find?, if_pos hj]
    · rw [if_neg hj] at hb
      rw [replace, if_neg hj, find?, if_neg hj, ih hb]

theorem find?_replace_of_ne (hne : place' ≠ place) :
    find? place' (replace place a es) = find? place' es := by
  induction es with
  | nil => rfl
  | cons entry es ih =>
    rw [replace]
    split
    · next heq => simp only [find?, heq, if_neg (Ne.symm hne)]
    · simp only [find?, ih]

theorem find?_put (k : Key) (a : α) (es : List (Key × α)) :
    find? k.bare (put k a es) = some a := by
  induction es with
  | nil => rw [put, find?, if_pos rfl]
  | cons entry es ih =>
    obtain ⟨j, c⟩ := entry
    by_cases hj : j.bare = k.bare
    · rw [put, if_pos hj, find?, if_pos rfl]
    · rw [put, if_neg hj, find?, if_neg hj, ih]

theorem find?_put_of_ne (hne : place ≠ k.bare) : find? place (put k a es) = find? place es := by
  induction es with
  | nil => exact if_neg (Ne.symm hne)
  | cons entry es ih =>
    rw [put]
    split
    · next heq => rw [find?, find?, if_neg (Ne.symm hne), if_neg (heq ▸ Ne.symm hne)]
    · rw [find?, find?, ih]

/-- The value at a place put there again changes nothing. -/
theorem replace_find? (ha : find? place es = some a) : replace place a es = es := by
  induction es with
  | nil => rfl
  | cons entry es ih =>
    rw [find?] at ha
    rw [replace]
    split at ha
    · next heq =>
      cases ha
      rw [if_pos heq]
    · next hne => rw [if_neg hne, ih ha]

/-- A key at a free place is stored behind the others. -/
theorem put_of_find?_eq_none (hnone : find? k.bare es = none) : put k a es = es ++ [(k, a)] := by
  induction es with
  | nil => rfl
  | cons entry es ih =>
    rw [find?] at hnone
    split at hnone
    · cases hnone
    · next hne => rw [put, if_neg hne, ih hnone, List.cons_append]

end Entries

namespace Value

/-- The declared type and the content of the slot that a path selects in a value of a declared
type. -/
def slotAt? (t : Ty) (v : Value) (h : Heap) : List Value → Option (Ty × Value)
  | [] => some (t, v)
  | key :: path => ((v.base h).place? key h).bind fun p => p.content.slotAt? p.ty h path

variable {h h' : Heap} {v w key base : Value} {t : Ty} {path : List Value} {p : Place} {a : Addr}

/-- Reads along paths give the content of slots. -/
theorem walk?_eq_slotAt? : v.walk? h path = (v.slotAt? t h path).map Prod.snd := by
  induction path generalizing v t with
  | nil => rfl
  | cons key path ih =>
    rw [walk?, slotAt?, part?_eq_place?, Option.map_bind, Option.bind_map]
    exact congrArg _ (funext fun p => ih)

/-- A path that leads somewhere selects a place first and goes on in its content. -/
theorem exists_selects_of_walk? (hw : v.walk? h (key :: path) = some w) :
    ∃ p, key.Selects h (v.base h) p ∧ p.content.walk? h path = some w := by
  obtain ⟨u, hu, hw⟩ := Option.bind_eq_some_iff.mp hw
  rw [part?_eq_place?] at hu
  obtain ⟨p, hp, rfl⟩ := Option.map_eq_some_iff.mp hu
  exact ⟨p, place?_eq_some.mp hp, hw⟩

namespace Selects

/-- A segment selects something in maps, records, lists and arrays only. -/
theorem isStructured (hp : key.Selects h base p) : base.ty.kind.isStructured = true := by
  cases hp <;> rfl

theorem base_ne (hp : key.Selects h base p) : base ≠ .invalid := by
  rintro rfl
  cases hp

theorem isBase (hp : key.Selects h base p) : base.IsBase := by
  cases hp <;> exact ⟨rfl, rfl⟩

/-- A segment selects one place at most. -/
theorem unique {q : Place} (hp : key.Selects h base p) (hq : key.Selects h base q) : p = q :=
  Option.some.inj ((place?_eq_some.mpr hp).symm.trans (place?_eq_some.mpr hq))

/-- What is behind the content of a place is behind the value. -/
theorem points (hp : key.Selects h base p) (ha : p.content.Points a) : base.Points a := by
  cases hp with
  | entry _ hw =>
    obtain ⟨entry, hentry, rfl⟩ := Entries.mem_of_find?_eq_some hw
    exact .map hentry ha
  | field _ _ hw => exact .record (List.mem_of_getElem? hw) ha
  | listItem _ hw => exact .list (List.mem_of_getElem? hw) ha
  | arrayItem _ hw => exact .array (List.mem_of_getElem? hw) ha

/-- The content of a place put there again changes nothing. -/
theorem put_content (hp : key.Selects h base p) : p.put p.content = base := by
  have hset {vs : List Value} {i : Nat} {w : Value} (hw : vs[i]? = some w) : vs.set i w = vs := by
    obtain ⟨hi, rfl⟩ := List.getElem?_eq_some_iff.mp hw
    exact List.set_getElem_self hi
  cases hp with
  | entry _ hw => exact congrArg (map _ _) (Entries.replace_find? hw)
  | field _ _ hw => exact congrArg (record _) (hset hw)
  | listItem _ hw => exact congrArg (list _) (hset hw)
  | arrayItem _ hw => exact congrArg (array _) (hset hw)

/-- What is put at the place of a segment is found there by the same segment, wherever the cells
behind the segment are the same. -/
theorem put (hp : key.Selects h base p) (hh : h.Bounded) (hacyclic : h.AcyclicBehind key)
    (hkey : key.Bounded h) (ha : h.Agrees h' key) (w : Value) :
    ∃ q, key.Selects h' (p.put w) q ∧ q.ty = p.ty ∧ q.content = w := by
  cases hp with
  | entry hplace hu =>
    have hplace' := (Key.place?_eq_of_agrees hh hacyclic hkey ha).trans hplace
    exact ⟨_, .entry hplace' (Entries.find?_replace hu), rfl, rfl⟩
  | field hi hf hu =>
    rw [← ha.toText_eq hacyclic hh hkey] at hi hf
    have hlt := (List.getElem?_eq_some_iff.mp hu).1
    exact ⟨_, .field hi hf (List.getElem?_set_self hlt), rfl, rfl⟩
  | listItem hi hu =>
    rw [← ha.index?_eq hacyclic hh hkey] at hi
    have hlt := (List.getElem?_eq_some_iff.mp hu).1
    exact ⟨_, .listItem hi (List.getElem?_set_self hlt), rfl, rfl⟩
  | arrayItem hi hu =>
    rw [← ha.index?_eq hacyclic hh hkey] at hi
    have hlt := (List.getElem?_eq_some_iff.mp hu).1
    exact ⟨_, .arrayItem hi (List.getElem?_set_self hlt), rfl, rfl⟩

end Selects

/-! ### Values with slots below them -/

theorem base_of_isNil (hv : v.isNil = true) : v.base h = .invalid := by
  cases v with
  | pointer e cell =>
    cases cell with
    | none => exact Heap.follow_eq_of_step fun _ => rfl
    | some a => cases hv
  | invalid | emptySlot => exact Heap.follow_eq_of_step fun _ => rfl
  | _ => cases hv

theorem baseTyStep_eq {deref : Addr → Value} {derefTy : Addr → Ty}
    (hderef : ∀ a, deref a ≠ .invalid → derefTy a = (deref a).ty) {v : Value}
    (hv : v.baseStep deref ≠ .invalid) : v.baseTyStep derefTy = (v.baseStep deref).ty := by
  match v with
  | .slot v => exact baseTyStep_eq hderef (v := v) hv
  | .pointer e (some a) => exact hderef a hv
  | .pointer _ none | .emptySlot => exact absurd rfl hv
  | .invalid | .bool _ | .int _ _ | .uint _ _ | .float _ _ | .string _ | .list _ _ | .array _ _
  | .map _ _ _ | .record _ _ | .func _ => rfl

/-- The type of the base is the type of what stands there. -/
theorem baseTy_eq (hv : v.base h ≠ .invalid) : v.baseTy h = (v.base h).ty := by
  suffices ∀ n v, h.unroll .invalid baseStep n v ≠ .invalid →
      h.unroll .invalid baseTyStep n v = (h.unroll .invalid baseStep n v).ty from this h.size v hv
  intro n
  induction n with
  | zero => exact fun v => baseTyStep_eq fun _ hne => absurd rfl hne
  | succ n ih => exact fun v => baseTyStep_eq fun a => ih (h.get a)

/-- Only a value with parts has slots below it. -/
theorem isBasic_of_slotAt? {s : Ty × Value} (hne : path ≠ []) (hs : v.slotAt? t h path = some s) :
    v.isBasic h = false ∧ v.isNil = false := by
  obtain ⟨key, path, rfl⟩ := List.exists_cons_of_ne_nil hne
  obtain ⟨p, hp, -⟩ := Option.bind_eq_some_iff.mp hs
  have hstructured := (place?_eq_some.mp hp).isStructured
  have hne : v.base h ≠ .invalid := by
    intro heq
    rw [heq] at hp
    cases hp
  refine ⟨?_, ?_⟩
  · rw [isBasic, baseKind, baseTy_eq hne, hstructured]
    rfl
  · cases hnil : v.isNil with
    | false => rfl
    | true => exact absurd (base_of_isNil hnil) hne

theorem walk?_of_fieldAt? (hw : v.fieldAt? path h = some w) :
    path ≠ [] ∧ v.walk? h path = some w := by
  rw [fieldAt?] at hw
  split at hw
  · cases hw
  · next hplain =>
    refine ⟨?_, hw⟩
    rintro rfl
    exact hplain rfl

theorem isBasic_of_walk? (hne : path ≠ []) (hw : v.walk? h path = some w) :
    v.isBasic h = false ∧ v.isNil = false := by
  rw [walk?_eq_slotAt? (t := .any)] at hw
  obtain ⟨s, hs, -⟩ := Option.map_eq_some_iff.mp hw
  exact isBasic_of_slotAt? hne hs

/-- The value that a path comes to is the one at the path. -/
theorem fieldAt?_of_walk? (hne : path ≠ []) (hw : v.walk? h path = some w) :
    v.fieldAt? path h = some w := by
  obtain ⟨hbasic, hnil⟩ := isBasic_of_walk? hne hw
  rw [fieldAt?, hbasic, hnil, List.isEmpty_eq_false_iff.mpr hne]
  exact hw

end Value

end DynamicEval
