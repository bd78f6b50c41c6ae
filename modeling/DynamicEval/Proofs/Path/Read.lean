import DynamicEval.Proofs.Path.Slot

/-!
# Reads along paths see the cells behind a value only

What a path selects in a value depends on the cells behind the value and behind the segments of the
path. On a later heap that has the same content in these, the same is selected.

## Main definitions

* `Heap.Steady`: a value that reads alike on a later heap.

## Main results

* `Heap.Steady.part?_eq`, `Heap.Steady.walk?_eq`: the parts that segments and paths select.
* `Heap.Steady.fieldAt?_eq`, `Heap.Steady.propById?_eq`: the value at a path and at a dotted
  identifier.
-/

namespace DynamicEval

namespace Value

theorem baseTyStep_isLocal : IsLocal baseTyStep := by
  intro deref deref' v hd
  match v with
  | .pointer e (some a) => exact hd a (.pointer e a)
  | .slot v => exact baseTyStep_isLocal v fun a ha => hd a (.slot ha)
  | .pointer _ none | .emptySlot | .invalid | .bool _ | .int _ _ | .uint _ _ | .float _ _
  | .string _ | .list _ _ | .array _ _ | .map _ _ _ | .record _ _ | .func _ => rfl

end Value

/-- The cells behind a value are the same on a later heap, and following them comes to an end. -/
structure Heap.Steady (h h' : Heap) (v : Value) : Prop where
  /-- The cells behind the value are the same. -/
  agrees : h.Agrees h' v
  /-- No cell behind the value is behind itself. -/
  acyclic : h.AcyclicBehind v
  /-- The pointers in the value are to cells of the heap. -/
  bounded : v.Bounded h

namespace Heap.Steady

variable {h h' : Heap} {v w key : Value} {path : List Value}

/-- A value without pointers reads alike wherever no cell is lost. -/
theorem of_not_points (hv : ∀ a, ¬v.Points a) (hle : h.size ≤ h'.size) : h.Steady h' v := by
  have hreaches : ∀ a, ¬h.Reaches v a := by rintro a (hp | ⟨hp, -⟩) <;> exact hv _ hp
  exact ⟨⟨hle, fun a ha => absurd ha (hreaches a)⟩, fun a ha => absurd ha (hreaches a),
    fun a ha => absurd ha (hv a)⟩

theorem follow_eq (hs : h.Steady h' v) (hh : h.Bounded) {α : Type} (stop : α)
    {step : (Addr → α) → Value → α} (hstep : IsLocal step) :
    h'.follow stop step v = h.follow stop step v :=
  hs.agrees.follow_eq hs.acyclic hh hs.bounded hstep

/-- The place that a segment selects in a base. -/
theorem place?_eq (hkey : h.Steady h' key) (hh : h.Bounded) (base : Value) :
    base.place? key h' = base.place? key h := by
  obtain ⟨ha, hacyclic, hbounded⟩ := hkey
  cases base with
  | map k e entries =>
    exact congrArg (Option.bind · _) (Key.place?_eq_of_agrees hh hacyclic hbounded ha)
  | record r fields =>
    rw [Value.place?, Value.place?, Value.fieldPlace?, Value.fieldPlace?,
      ha.toText_eq hacyclic hh hbounded]
  | list e items | array e items =>
    exact congrArg (Option.bind · _) (ha.index?_eq hacyclic hh hbounded)
  | _ => rfl

/-- The part that a segment selects. -/
theorem part?_eq (hv : h.Steady h' v) (hkey : h.Steady h' key) (hh : h.Bounded) :
    v.part? key h' = v.part? key h := by
  rw [Value.part?_eq_place?, Value.part?_eq_place?, Value.base,
    hv.follow_eq hh .invalid Value.baseStep_isLocal, hkey.place?_eq hh]
  rfl

/-- A part reads alike if the whole does. -/
theorem part (hv : h.Steady h' v) (hh : h.Bounded) (hw : v.part? key h = some w) :
    h.Steady h' w := by
  rw [Value.part?_eq_place?] at hw
  obtain ⟨p, hp, rfl⟩ := Option.map_eq_some_iff.mp hw
  have hpoints (a : Addr) (ha : p.content.Points a) : (v.base h).Points a :=
    (Value.place?_eq_some.mp hp).points ha
  have hreaches (a : Addr) (ha : h.Reaches p.content a) : h.Reaches v a :=
    (ha.of_points hpoints).of_base
  exact ⟨hv.agrees.of_reaches hreaches, hv.acyclic.of_reaches hreaches,
    fun a ha => hv.bounded.base hh a (hpoints a ha)⟩

/-- What the segments of a path select one after the other. -/
theorem walk?_eq (hv : h.Steady h' v) (hpath : ∀ key ∈ path, h.Steady h' key) (hh : h.Bounded) :
    v.walk? h' path = v.walk? h path := by
  induction path generalizing v with
  | nil => rfl
  | cons key path ih =>
    obtain ⟨hkey, hpath⟩ := List.forall_mem_cons.mp hpath
    rw [Value.walk?, Value.walk?, hv.part?_eq hkey hh]
    cases hw : v.part? key h with
    | none => rfl
    | some w => exact ih (hv.part hh hw) hpath

theorem baseTy_eq (hv : h.Steady h' v) (hh : h.Bounded) : v.baseTy h' = v.baseTy h :=
  hv.follow_eq hh Ty.invalid Value.baseTyStep_isLocal

theorem baseKind_eq (hv : h.Steady h' v) (hh : h.Bounded) : v.baseKind h' = v.baseKind h := by
  rw [Value.baseKind, Value.baseKind, hv.baseTy_eq hh]

/-- The value at a path. -/
theorem fieldAt?_eq (hv : h.Steady h' v) (hpath : ∀ key ∈ path, h.Steady h' key)
    (hh : h.Bounded) : v.fieldAt? path h' = v.fieldAt? path h := by
  rw [Value.fieldAt?, Value.fieldAt?, Value.isBasic, Value.isBasic, hv.baseKind_eq hh,
    hv.walk?_eq hpath hh]

/-- The value at a dotted identifier. -/
theorem propById?_eq (hv : h.Steady h' v) (hh : h.Bounded) (ident : String) :
    v.propById? ident h' = v.propById? ident h := by
  have hkey (s : String) : h.Steady h' (.string s) := .of_not_points nofun hv.agrees.size_le
  have hident : ∀ key ∈ pathOf ident, h.Steady h' key :=
    List.forall_mem_map.mpr fun s _ => hkey s
  have hwhole := List.forall_mem_singleton.mpr (hkey ident)
  rw [Value.propById?, Value.propById?, Value.isBasic, Value.isBasic, Value.isMap, Value.isMap,
    hv.baseKind_eq hh, Value.propAt?, Value.propAt?, Value.propAt?, Value.propAt?,
    hv.fieldAt?_eq hident hh, hv.fieldAt?_eq hwhole hh]

end Heap.Steady

end DynamicEval
