import DynamicEval.Proofs.WellFormed
import DynamicEval.Value.Text
import Mathlib.Data.List.Perm.Subperm

/-!
# Cells behind values

What a value looks like depends on the cells behind it and on no others. If no cell is behind
itself, unrolling a step once for each cell follows every chain of pointers to its end, so that more
room on a later heap changes nothing.

## Main definitions

* `Value.Points`, `Heap.Reaches`: the cells that the pointers in a value name, and all behind them.
* `Value.Bounded`, `Heap.Bounded`: there are no pointers to cells that the heap does not have.
* `Heap.Acyclic`, `Heap.AcyclicBehind`: no cell is behind itself, on the heap or behind a value.
* `IsLocal`: a step that reads no cells but those that the pointers in its value name.
* `Heap.Agrees`: a later heap with the same cells behind a value.
* `Heap.Appends`: a later heap in which no cell is changed.

## Main results

* `Heap.AcyclicBehind.length_le`: a chain of pointers is no longer than the heap.
* `Heap.Agrees.follow_eq`: a value is read alike on heaps that agree.
* `Value.baseStep_isLocal`, `Value.textStep_isLocal`: bases and texts are read by local steps.
* `Heap.Acyclic.alloc`: a heap without cycles has none after a new cell is added.
-/

namespace DynamicEval

/-! ### Reachability -/

/-- The pointers in a value name a cell. What a callable holds is not looked at. -/
inductive Value.Points : Value → Addr → Prop where
  | pointer (e : Ty) (a : Addr) : Points (.pointer e (some a)) a
  | slot {v : Value} {a : Addr} (hv : Points v a) : Points (.slot v) a
  | list {e : Ty} {items : List Value} {v : Value} {a : Addr} (hmem : v ∈ items)
      (hv : Points v a) : Points (.list e items) a
  | array {e : Ty} {items : List Value} {v : Value} {a : Addr} (hmem : v ∈ items)
      (hv : Points v a) : Points (.array e items) a
  | map {k e : Ty} {entries : List (Key × Value)} {entry : Key × Value} {a : Addr}
      (hmem : entry ∈ entries) (hv : Points entry.2 a) : Points (.map k e entries) a
  | record {r : RecordType} {fields : List Value} {v : Value} {a : Addr} (hmem : v ∈ fields)
      (hv : Points v a) : Points (.record r fields) a

/-- A chain of pointers from a value. -/
inductive Heap.Chain (h : Heap) : Value → List Addr → Prop where
  | nil (v : Value) : Chain h v []
  | cons {v : Value} {a : Addr} {as : List Addr} (hv : v.Points a) (has : Chain h (h.get a) as) :
      Chain h v (a :: as)

/-- A cell is behind a value. -/
inductive Heap.Reaches (h : Heap) : Value → Addr → Prop where
  | direct {v : Value} {a : Addr} (hv : v.Points a) : Reaches h v a
  | behind {v : Value} {a b : Addr} (hv : v.Points b) (hb : Reaches h (h.get b) a) : Reaches h v a

/-- No cell is behind itself. -/
def Heap.Acyclic (h : Heap) : Prop := ∀ a, ¬h.Reaches (h.get a) a

/-- No cell behind a value is behind itself. -/
def Heap.AcyclicBehind (h : Heap) (v : Value) : Prop := ∀ a, h.Reaches v a → ¬h.Reaches (h.get a) a

/-- Every pointer in a value is to a cell of the heap. -/
def Value.Bounded (v : Value) (h : Heap) : Prop := ∀ a, v.Points a → a < h.size

/-- Every pointer in a cell is to a cell of the heap. -/
def Heap.Bounded (h : Heap) : Prop := ∀ a < h.size, (h.get a).Bounded h

theorem Value.Points.of_peel {v : Value} {a : Addr} (hp : v.peel.Points a) : v.Points a := by
  cases v with
  | slot v => exact .slot hp
  | emptySlot => cases hp
  | _ => exact hp

theorem Value.WellFormed.bounded {h : Heap} {v : Value} (hv : v.WellFormed h) : v.Bounded h := by
  intro a hp
  induction hp with
  | pointer e a => exact (wellFormed_pointer.mp hv).1
  | slot _ ih => exact ih (wellFormed_slot.mp hv).2.2
  | list hmem _ ih => exact ih (wellFormed_list.mp hv _ hmem).wellFormed
  | array hmem _ ih => exact ih (wellFormed_array.mp hv _ hmem).wellFormed
  | map hmem _ ih => exact ih ((wellFormed_map.mp hv).values _ hmem).wellFormed
  | record hmem _ ih =>
    obtain ⟨_, _, hfits⟩ := exists_fits_of_mem (wellFormed_record.mp hv) hmem
    exact ih hfits.wellFormed

theorem Heap.WellFormed.bounded {h : Heap} (hh : h.WellFormed) : h.Bounded :=
  fun a ha => (hh a ha).bounded

theorem Value.Bounded.mono {h h' : Heap} {v : Value} (hv : v.Bounded h) (hle : h.size ≤ h'.size) :
    v.Bounded h' :=
  fun a ha => Nat.lt_of_lt_of_le (hv a ha) hle

namespace Heap

variable {h h' : Heap} {v w : Value} {a b : Addr} {as : List Addr}

theorem Reaches.lt (hr : h.Reaches v a) (hh : h.Bounded) (hv : v.Bounded h) : a < h.size := by
  induction hr with
  | direct hp => exact hv _ hp
  | behind hp _ ih => exact ih (hh _ (hv _ hp))

/-- What is behind a part is behind the whole. -/
theorem Reaches.of_points (hr : h.Reaches v a) (hpoints : ∀ b, v.Points b → w.Points b) :
    h.Reaches w a := by
  cases hr with
  | direct hp => exact .direct (hpoints a hp)
  | behind hp hb => exact .behind (hpoints _ hp) hb

theorem Reaches.of_peel (hr : h.Reaches v.peel a) : h.Reaches v a :=
  hr.of_points fun _ => Value.Points.of_peel

theorem Reaches.trans (hr : h.Reaches v b) (hb : h.Reaches (h.get b) a) : h.Reaches v a := by
  induction hr with
  | direct hp => exact .behind hp hb
  | behind hp _ ih => exact .behind hp (ih hb)

theorem not_reaches_invalid : ¬h.Reaches .invalid a := by
  rintro (hp | ⟨hp, -⟩) <;> cases hp

/-- What is behind a step to the base is behind the value. -/
theorem Reaches.of_baseStep {deref : Addr → Value}
    (hderef : ∀ b, h.Reaches (deref b) a → h.Reaches (h.get b) a) {v : Value}
    (hr : h.Reaches (v.baseStep deref) a) : h.Reaches v a := by
  match v with
  | .pointer e (some b) => exact .behind (.pointer e b) (hderef b hr)
  | .pointer _ none | .emptySlot => exact absurd hr not_reaches_invalid
  | .slot v =>
    rw [Value.baseStep] at hr
    exact (Reaches.of_baseStep hderef hr).of_points fun b hb => .slot hb
  | .invalid | .bool _ | .int _ _ | .uint _ _ | .float _ _ | .string _ | .list _ _ | .array _ _
  | .map _ _ _ | .record _ _ | .func _ => exact hr

/-- What is behind the base of a value is behind the value. -/
theorem Reaches.of_base (hr : h.Reaches (v.base h) a) : h.Reaches v a := by
  suffices ∀ n v, h.Reaches (h.unroll .invalid Value.baseStep n v) a → h.Reaches v a from
    this h.size v hr
  intro n
  induction n with
  | zero => exact fun v => Reaches.of_baseStep fun _ hr => absurd hr not_reaches_invalid
  | succ n ih => exact fun v => Reaches.of_baseStep fun b => ih (h.get b)

theorem Chain.reaches (hc : h.Chain v as) (ha : a ∈ as) : h.Reaches v a := by
  induction hc with
  | nil v => cases ha
  | cons hp _ ih =>
    rcases List.mem_cons.mp ha with rfl | ha
    · exact .direct hp
    · exact .behind hp (ih ha)

/-- No more cells than the heap has can be told apart. -/
theorem length_le_size (hnodup : as.Nodup) (hlt : ∀ a ∈ as, a < h.size) :
    as.length ≤ h.size := by
  have hsubset : as ⊆ List.range h.size := fun a ha => List.mem_range.mpr (hlt a ha)
  have hle := (List.subperm_of_subset hnodup hsubset).length_le
  rwa [List.length_range] at hle

theorem empty_acyclic : empty.Acyclic := fun _ => not_reaches_invalid

theorem Acyclic.behind (hacyclic : h.Acyclic) (v : Value) : h.AcyclicBehind v :=
  fun a _ => hacyclic a

theorem AcyclicBehind.of_reaches (hacyclic : h.AcyclicBehind v)
    (hreaches : ∀ a, h.Reaches w a → h.Reaches v a) : h.AcyclicBehind w :=
  fun a ha => hacyclic a (hreaches a ha)

/-- If no cell behind a value is behind itself, no chain of pointers from it is longer than the
heap. -/
theorem AcyclicBehind.length_le (hacyclic : h.AcyclicBehind v) (hh : h.Bounded) (hv : v.Bounded h)
    (hc : h.Chain v as) : as.length ≤ h.size := by
  -- A cell that a chain comes to twice would be behind itself.
  have hnodup : as.Nodup := by
    clear hv
    induction hc with
    | nil v => exact List.nodup_nil
    | cons hp hc ih =>
      refine List.nodup_cons.mpr ⟨fun ha => hacyclic _ (.direct hp) (hc.reaches ha), ih ?_⟩
      exact hacyclic.of_reaches fun a ha => .behind hp ha
  exact length_le_size hnodup fun a ha => (hc.reaches ha).lt hh hv

end Heap

theorem Value.Bounded.peel {h : Heap} {v : Value} (hv : v.Bounded h) : v.peel.Bounded h :=
  fun a ha => hv a ha.of_peel

theorem Value.Bounded.base {h : Heap} {v : Value} (hv : v.Bounded h) (hh : h.Bounded) :
    (v.base h).Bounded h :=
  fun _ ha => (Heap.Reaches.direct ha).of_base.lt hh hv

/-! ### Local steps -/

/-- A step that reads no cells but those that the pointers in its value name. -/
def IsLocal {α : Type} (step : (Addr → α) → Value → α) : Prop :=
  ∀ {deref deref' : Addr → α} (v : Value), (∀ a, v.Points a → deref a = deref' a) →
    step deref v = step deref' v

namespace Heap

variable {h h' : Heap} {v : Value} {α : Type} {stop : α} {step : (Addr → α) → Value → α} {n m : Nat}

/-- A value that a step reads without looking at cells is read so on every heap. -/
theorem follow_eq_of_step {a : α} (hv : ∀ deref, step deref v = a) : h.follow stop step v = a := by
  rw [follow]
  cases h.size <;> exact hv _

/-- A value reads alike on two heaps with the same cells behind it. -/
theorem unroll_congr (hstep : IsLocal step) (hagree : ∀ a, h.Reaches v a → h'.get a = h.get a) :
    h'.unroll stop step n v = h.unroll stop step n v := by
  induction n generalizing v with
  | zero => rfl
  | succ n ih =>
    refine hstep v fun a ha => ?_
    rw [hagree a (.direct ha)]
    exact ih fun b hb => hagree b (.behind ha hb)

/-- Room for one more pointer changes nothing if no chain is so long. -/
theorem unroll_succ (hstep : IsLocal step) (hshort : ∀ as, h.Chain v as → as.length ≤ n) :
    h.unroll stop step (n + 1) v = h.unroll stop step n v := by
  induction n generalizing v with
  | zero =>
    refine hstep v fun a ha => ?_
    nomatch hshort [a] (.cons ha (.nil _))
  | succ n ih =>
    refine hstep v fun a ha => ih fun as has => ?_
    exact Nat.le_of_succ_le_succ (hshort (a :: as) (.cons ha has))

theorem AcyclicBehind.unroll_eq (hacyclic : h.AcyclicBehind v) (hh : h.Bounded) (hv : v.Bounded h)
    (hstep : IsLocal step) (hn : h.size ≤ n) : h.unroll stop step n v = h.follow stop step v := by
  induction hn with
  | refl => rfl
  | step hn ih =>
    rw [unroll_succ hstep fun as has => Nat.le_trans (hacyclic.length_le hh hv has) hn, ih]

/-- What is behind a value on a heap that has the same cells behind it is behind it. -/
theorem Reaches.of_get_eq {a : Addr} (hget : ∀ b, h.Reaches v b → h'.get b = h.get b)
    (hr : h'.Reaches v a) : h.Reaches v a := by
  induction hr with
  | direct hp => exact .direct hp
  | behind hp _ ih =>
    rw [hget _ (.direct hp)] at ih
    exact .behind hp (ih fun b hb => hget b (.behind hp hb))

/-- A later heap that has the same cells behind a value. -/
structure Agrees (h h' : Heap) (v : Value) : Prop where
  /-- No cell is lost. -/
  size_le : h.size ≤ h'.size
  /-- The cells behind the value are the same. -/
  get_eq : ∀ a, h.Reaches v a → h'.get a = h.get a

theorem Agrees.refl (h : Heap) (v : Value) : h.Agrees h v := ⟨Nat.le_refl _, fun _ _ => rfl⟩

theorem Agrees.of_reaches {w : Value} (ha : h.Agrees h' v)
    (hreaches : ∀ a, h.Reaches w a → h.Reaches v a) : h.Agrees h' w :=
  ⟨ha.size_le, fun a hr => ha.get_eq a (hreaches a hr)⟩

/-- The same cells are behind the value. -/
theorem Agrees.reaches_iff {a : Addr} (ha : h.Agrees h' v) : h'.Reaches v a ↔ h.Reaches v a := by
  constructor
  · exact fun hr => hr.of_get_eq ha.get_eq
  · intro hr
    induction hr with
    | direct hp => exact .direct hp
    | behind hp _ ih =>
      refine .behind hp ?_
      rw [ha.get_eq _ (.direct hp)]
      exact ih (ha.of_reaches fun b hb => .behind hp hb)

theorem Agrees.trans {h'' : Heap} (ha : h.Agrees h' v) (ha' : h'.Agrees h'' v) : h.Agrees h'' v where
  size_le := Nat.le_trans ha.size_le ha'.size_le
  get_eq a hr := by rw [ha'.get_eq a (ha.reaches_iff.mpr hr), ha.get_eq a hr]

theorem Agrees.peel (ha : h.Agrees h' v) : h.Agrees h' v.peel :=
  ha.of_reaches fun _ => Reaches.of_peel

theorem Agrees.base (ha : h.Agrees h' v) : h.Agrees h' (v.base h) :=
  ha.of_reaches fun _ => Reaches.of_base

/-- A value that is behind no cell that differs is read alike. -/
theorem Agrees.follow_eq (ha : h.Agrees h' v) (hacyclic : h.AcyclicBehind v) (hh : h.Bounded)
    (hv : v.Bounded h) (hstep : IsLocal step) : h'.follow stop step v = h.follow stop step v := by
  rw [follow, unroll_congr hstep ha.get_eq, hacyclic.unroll_eq hh hv hstep ha.size_le]

end Heap

theorem Value.baseStep_isLocal : IsLocal Value.baseStep := by
  intro deref deref' v hd
  match v with
  | .pointer e (some a) => exact hd a (.pointer e a)
  | .slot v => exact Value.baseStep_isLocal v fun a ha => hd a (.slot ha)
  | .pointer _ none | .emptySlot | .invalid | .bool _ | .int _ _ | .uint _ _ | .float _ _
  | .string _ | .list _ _ | .array _ _ | .map _ _ _ | .record _ _ | .func _ => rfl

section

variable {deref deref' : Addr → String}

mutual

theorem Value.textStep_congr (v : Value) (hd : ∀ a, v.Points a → deref a = deref' a) :
    v.textStep deref = v.textStep deref' := by
  match v with
  | .pointer e (some a) => rw [Value.textStep, Value.textStep, hd a (.pointer e a)]
  | .slot v => exact Value.textStep_congr v fun a ha => hd a (.slot ha)
  | .list e items =>
    rw [Value.textStep, Value.textStep,
      Value.textsStep_congr items fun v hv a ha => hd a (.list hv ha)]
  | .array e items =>
    rw [Value.textStep, Value.textStep,
      Value.textsStep_congr items fun v hv a ha => hd a (.array hv ha)]
  | .record r fields =>
    rw [Value.textStep, Value.textStep,
      Value.textsStep_congr fields fun v hv a ha => hd a (.record hv ha)]
  | .map k e entries =>
    rw [Value.textStep, Value.textStep,
      Value.entryTextsStep_congr entries fun entry hentry a ha => hd a (.map hentry ha)]
  | .pointer _ none | .emptySlot | .invalid | .bool _ | .int _ _ | .uint _ _ | .float _ _
  | .string _ | .func _ => rfl

theorem Value.textsStep_congr (vs : List Value)
    (hd : ∀ v ∈ vs, ∀ a, v.Points a → deref a = deref' a) :
    Value.textsStep deref vs = Value.textsStep deref' vs := by
  match vs with
  | [] => rfl
  | v :: vs =>
    rw [Value.textsStep, Value.textsStep, Value.textStep_congr v (hd v List.mem_cons_self),
      Value.textsStep_congr vs fun w hw => hd w (List.mem_cons_of_mem _ hw)]

theorem Value.entryTextsStep_congr (es : List (Key × Value))
    (hd : ∀ entry ∈ es, ∀ a, entry.2.Points a → deref a = deref' a) :
    Value.entryTextsStep deref es = Value.entryTextsStep deref' es := by
  match es with
  | [] => rfl
  | (k, v) :: es =>
    rw [Value.entryTextsStep, Value.entryTextsStep,
      Value.textStep_congr v (hd (k, v) List.mem_cons_self),
      Value.entryTextsStep_congr es fun w hw => hd w (List.mem_cons_of_mem _ hw)]

end

end

theorem Value.textStep_isLocal : IsLocal Value.textStep := fun v hd => Value.textStep_congr v hd

/-! ### More cells -/

/-- A heap with the cells of `h` as they are, and maybe more. -/
structure Heap.Appends (h h' : Heap) : Prop where
  /-- No cell is lost. -/
  size_le : h.size ≤ h'.size
  /-- No cell is changed. -/
  get_eq : ∀ a < h.size, h'.get a = h.get a

namespace Heap

variable {h h' h'' : Heap} {v : Value} {a : Addr}

theorem Appends.refl (h : Heap) : h.Appends h := ⟨Nat.le_refl _, fun _ _ => rfl⟩

theorem Appends.trans (hh : h.Appends h') (hh' : h'.Appends h'') : h.Appends h'' where
  size_le := Nat.le_trans hh.size_le hh'.size_le
  get_eq a ha := by
    rw [hh'.get_eq a (Nat.lt_of_lt_of_le ha hh.size_le), hh.get_eq a ha]

theorem Appends.alloc (h : Heap) (v : Value) : h.Appends (h.alloc v).1 where
  size_le := by simp
  get_eq a ha := get_alloc_of_lt ha

/-- What is behind a value that was there before cells were added was behind it then. -/
theorem Appends.reaches (hh' : h.Appends h') (hh : h.Bounded) (hv : v.Bounded h)
    (hr : h'.Reaches v a) : h.Reaches v a := by
  induction hr with
  | direct hp => exact .direct hp
  | behind hp _ ih =>
    have hlt := hv _ hp
    rw [hh'.get_eq _ hlt] at ih
    exact .behind hp (ih (hh _ hlt))

theorem Appends.agrees (hh' : h.Appends h') (hh : h.Bounded) (hv : v.Bounded h) :
    h.Agrees h' v :=
  ⟨hh'.size_le, fun a hr => hh'.get_eq a (hr.lt hh hv)⟩

/-- Cells that were added before do not matter to a value that was there without them. -/
theorem Agrees.of_appends {h'' : Heap} (ha : h.Agrees h'' v) (hh' : h.Appends h')
    (hh : h.Bounded) (hv : v.Bounded h) (hsize : h'.size ≤ h''.size) : h'.Agrees h'' v where
  size_le := hsize
  get_eq a hr := by
    have hr := hh'.reaches hh hv hr
    rw [ha.get_eq a hr, hh'.get_eq a (hr.lt hh hv)]

theorem AcyclicBehind.appends (hacyclic : h.AcyclicBehind v) (hh' : h.Appends h')
    (hh : h.Bounded) (hv : v.Bounded h) : h'.AcyclicBehind v := by
  intro a ha hr
  have ha := hh'.reaches hh hv ha
  have hlt := ha.lt hh hv
  rw [hh'.get_eq a hlt] at hr
  exact hacyclic a ha (hh'.reaches hh (hh a hlt) hr)

theorem get_of_size_le (ha : h.size ≤ a) : h.get a = .invalid := by
  have hle : h.cells.size ≤ a := ha
  simp [get, hle]

/-- A new cell is behind no old one. -/
theorem Acyclic.alloc (hacyclic : h.Acyclic) (hh : h.Bounded) (hv : v.Bounded h) :
    (h.alloc v).1.Acyclic := by
  have happends := Appends.alloc h v
  intro a hr
  rcases Nat.lt_trichotomy a h.size with hlt | rfl | hgt
  · rw [get_alloc_of_lt hlt] at hr
    exact hacyclic a (happends.reaches hh (hh a hlt) hr)
  · rw [get_alloc_size] at hr
    exact Nat.lt_irrefl _ ((happends.reaches hh hv hr).lt hh hv)
  · rw [get_of_size_le (by rwa [size_alloc])] at hr
    exact not_reaches_invalid hr

end Heap

end DynamicEval
