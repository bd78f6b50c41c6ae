import DynamicEval.Proofs.Heap.Unshared
import DynamicEval.Proofs.Key
import DynamicEval.Value.Equality

/-!
# Laws of equality

Equality of values is symmetric and transitive, and a value is equal to itself unless it holds what
is not a number. A slot around a value makes no difference. One step of the comparison relates two
values of one form with related parts; the laws hold of a step if they hold of the parts and of the
cells, and then of every comparison, by induction on the pointers that are still followed and on the
size of the value.

## Main definitions

* `Value.Matches`: one step of the comparison of two values.
* `Value.eqWithin`: equality that follows so many pointers in a row.
* `Value.HoldsNaN`: what is not a number is in a value.

## Main results

* `Value.eqWithin_iff`: equality is the comparison step, with itself for the parts.
* `Value.eqWithin_symm`, `Value.eqWithin_trans`, `Value.eqWithin_self`: its laws, where it follows
  so many pointers.
* `Value.eq_partialEquivalence`: equality is symmetric and transitive, reflexive up to what is not a
  number, and ignores slots.
-/

namespace DynamicEval

/-- If every place of one map is one of another that is no larger, they have the same places. -/
theorem Entries.places_subset_of_length_eq {α β : Type} {es : List (Key × α)}
    {fs : List (Key × β)} (hnodup : (es.map fun entry => entry.1.bare).Nodup)
    (hlength : es.length = fs.length)
    (hsubset : (es.map fun entry => entry.1.bare) ⊆ fs.map fun entry => entry.1.bare) :
    (fs.map fun entry => entry.1.bare) ⊆ es.map fun entry => entry.1.bare := by
  refine ((List.subperm_of_subset hnodup hsubset).perm_of_length_le ?_).symm.subset
  rw [List.length_map, List.length_map]
  exact Nat.le_of_eq hlength.symm

/-! ### Numbers -/

namespace Binary64

variable {x y z : Binary64}

theorem numEq_iff : x.numEq y = true ↔ x.isNaN = false ∧ y.isNaN = false ∧ x.rank = y.rank := by
  simp [numEq, and_assoc]

theorem numEq_symm (hxy : x.numEq y = true) : y.numEq x = true := by
  obtain ⟨hx, hy, hrank⟩ := numEq_iff.mp hxy
  exact numEq_iff.mpr ⟨hy, hx, hrank.symm⟩

theorem numEq_trans (hxy : x.numEq y = true) (hyz : y.numEq z = true) : x.numEq z = true := by
  obtain ⟨hx, -, hrank⟩ := numEq_iff.mp hxy
  obtain ⟨-, hz, hrank'⟩ := numEq_iff.mp hyz
  exact numEq_iff.mpr ⟨hx, hz, hrank.trans hrank'⟩

theorem numEq_self_iff : x.numEq x = true ↔ x.isNaN = false := by
  simp [numEq_iff]

end Binary64

namespace Value

/-! ### A step of the comparison -/

/-- One step of the comparison of two values out of their slots, where `parts` compares parts and
`cells` the content of cells. -/
inductive Matches (parts : Value → Value → Prop) (cells : Addr → Addr → Prop) :
    Value → Value → Prop where
  | nothing {v w : Value} (hv : v = invalid ∨ v = emptySlot) (hw : w = invalid ∨ w = emptySlot) :
      Matches parts cells v w
  | bool (b : Bool) : Matches parts cells (bool b) (bool b)
  | int (w : IntWidth) (n : Int64) : Matches parts cells (int w n) (int w n)
  | uint (w : IntWidth) (n : UInt64) : Matches parts cells (uint w n) (uint w n)
  | float (w : FloatWidth) {x y : Binary64} (hxy : x.numEq y = true) :
      Matches parts cells (float w x) (float w y)
  | string (s : String) : Matches parts cells (string s) (string s)
  | list {e e' : Ty} {vs ws : List Value} (he : (e == e') = true)
      (hitems : List.Forall₂ parts vs ws) : Matches parts cells (list e vs) (list e' ws)
  | array {e e' : Ty} {vs ws : List Value} (he : (e == e') = true)
      (hitems : List.Forall₂ parts vs ws) : Matches parts cells (array e vs) (array e' ws)
  /-- Each entry of the one map has its counterpart in the other, which has no more of them. -/
  | map {k k' e e' : Ty} {es fs : List (Key × Value)} (hk : (k == k') = true)
      (he : (e == e') = true) (hlength : es.length = fs.length)
      (hentries : ∀ x ∈ es, ∃ w, Entries.find? x.1.bare fs = some w ∧ parts x.2 w) :
      Matches parts cells (map k e es) (map k' e' fs)
  | record {r r' : RecordType} {vs ws : List Value} (hr : (Ty.record r == Ty.record r') = true)
      (hfields : List.Forall₂ parts vs ws) : Matches parts cells (record r vs) (record r' ws)
  | func {f g : Callable} (hfg : f.identity = g.identity) : Matches parts cells (func f) (func g)
  | nil {e e' : Ty} (he : (e == e') = true) :
      Matches parts cells (pointer e none) (pointer e' none)
  /-- Pointers may share a cell; what they are declared to point to is not compared. -/
  | pointer {e e' : Ty} {a b : Addr} (hab : a = b ∨ cells a b) :
      Matches parts cells (pointer e (some a)) (pointer e' (some b))

section

variable {h : Heap} {deref : Addr → Value → Bool} {v w : Value}

theorem eqItemsStep_iff {vs ws : List Value} :
    eqItemsStep h deref vs ws = true ↔
      List.Forall₂ (fun v w => v.eqStep h deref w = true) vs ws := by
  induction vs generalizing ws with
  | nil => cases ws <;> simp [eqItemsStep]
  | cons v vs ih => cases ws <;> simp [eqItemsStep, ih]

theorem eqEntriesStep_iff {es fs : List (Key × Value)} :
    eqEntriesStep h deref es fs = true ↔ ∀ x ∈ es, ∃ w, Entries.find? x.1.bare fs = some w ∧
      x.2.eqStep h deref w = true := by
  induction es with
  | nil => simp [eqEntriesStep]
  | cons x es ih =>
    rw [eqEntriesStep, Bool.and_eq_true, ih, List.forall_mem_cons]
    refine and_congr_left fun _ => ?_
    cases Entries.find? x.1.bare fs <;> simp

/-- Induction over the slots around a value. -/
@[elab_as_elim]
theorem slot_induction {motive : Value → Prop} (bare : ∀ v, (∀ u, v ≠ slot u) → motive v)
    (boxed : ∀ v, motive v → motive (slot v)) (v : Value) : motive v := by
  match v with
  | slot v => exact boxed v (slot_induction bare boxed v)
  | invalid | bool _ | int _ _ | uint _ _ | float _ _ | string _ | list _ _ | array _ _ | map _ _ _
  | record _ _ | func _ | pointer _ _ | emptySlot => exact bare _ nofun

theorem unslot_of_ne_slot (hv : ∀ u, v ≠ slot u) : v.unslot = v := by
  cases v <;> first | rfl | exact absurd rfl (hv _)

theorem unslot_ne_slot (v : Value) : ∀ u, v.unslot ≠ slot u := by
  induction v using slot_induction with
  | bare v hv => rwa [unslot_of_ne_slot hv]
  | boxed v ih => exact ih

@[simp]
theorem unslot_unslot (v : Value) : v.unslot.unslot = v.unslot :=
  unslot_of_ne_slot v.unslot_ne_slot

theorem eqStep_unslot_left (h : Heap) (deref : Addr → Value → Bool) (v w : Value) :
    v.unslot.eqStep h deref w = v.eqStep h deref w := by
  induction v using slot_induction with
  | bare v hv => rw [unslot_of_ne_slot hv]
  | boxed v ih => exact ih

theorem eqStep_unslot_right (h : Heap) (deref : Addr → Value → Bool) (v w : Value) :
    v.eqStep h deref w.unslot = v.eqStep h deref w := by
  induction v using slot_induction with
  | bare v hv => cases v <;> first | exact absurd rfl (hv _) | simp only [eqStep, unslot_unslot]
  | boxed v ih => exact ih

theorem matches_of_eqStep (hv : ∀ u, v ≠ slot u) (hw : ∀ u, w ≠ slot u)
    (heq : v.eqStep h deref w = true) :
    Matches (fun v w => v.eqStep h deref w = true) (fun a b => deref a (h.get b) = true) v w := by
  cases v <;> cases w <;>
    try first | cases heq; done | exact absurd rfl (hv _) | exact absurd rfl (hw _)
  case bool.bool => exact eq_of_beq heq ▸ .bool _
  case int.int =>
    obtain ⟨hwidth, hn⟩ := Bool.and_eq_true_iff.mp heq
    exact eq_of_beq hwidth ▸ eq_of_beq hn ▸ .int _ _
  case uint.uint =>
    obtain ⟨hwidth, hn⟩ := Bool.and_eq_true_iff.mp heq
    exact eq_of_beq hwidth ▸ eq_of_beq hn ▸ .uint _ _
  case float.float =>
    obtain ⟨hwidth, hx⟩ := Bool.and_eq_true_iff.mp heq
    exact eq_of_beq hwidth ▸ .float _ hx
  case string.string => exact eq_of_beq heq ▸ .string _
  case list.list =>
    obtain ⟨he, hitems⟩ := Bool.and_eq_true_iff.mp heq
    exact .list he (eqItemsStep_iff.mp hitems)
  case array.array =>
    obtain ⟨he, hitems⟩ := Bool.and_eq_true_iff.mp heq
    exact .array he (eqItemsStep_iff.mp hitems)
  case map.map =>
    obtain ⟨heq, hentries⟩ := Bool.and_eq_true_iff.mp heq
    obtain ⟨heq, hlength⟩ := Bool.and_eq_true_iff.mp heq
    obtain ⟨hk, he⟩ := Bool.and_eq_true_iff.mp heq
    exact .map hk he (eq_of_beq hlength) (eqEntriesStep_iff.mp hentries)
  case record.record =>
    obtain ⟨hr, hfields⟩ := Bool.and_eq_true_iff.mp heq
    exact .record hr (eqItemsStep_iff.mp hfields)
  case func.func => exact .func (eq_of_beq heq)
  case pointer.pointer e cell e' cell' =>
    cases cell <;> cases cell' <;> try cases heq
    case none.none => exact .nil heq
    case some.some a b => exact .pointer ((Bool.or_eq_true_iff.mp heq).imp_left eq_of_beq)
  all_goals exact .nothing (by simp) (by simp)

theorem eqStep_of_matches
    (hm : Matches (fun v w => v.eqStep h deref w = true) (fun a b => deref a (h.get b) = true)
      v w) : v.eqStep h deref w = true := by
  cases hm with
  | nothing hv hw => rcases hv with rfl | rfl <;> rcases hw with rfl | rfl <;> rfl
  | bool | string => exact beq_self_eq_true _
  | int | uint => simp [eqStep, unslot]
  | float w hxy => simp [eqStep, unslot, hxy]
  | list he hitems | array he hitems =>
    exact Bool.and_eq_true_iff.mpr ⟨he, eqItemsStep_iff.mpr hitems⟩
  | map hk he hlength hentries =>
    simp [eqStep, unslot, hk, he, hlength, eqEntriesStep_iff.mpr hentries]
  | record hr hfields => exact Bool.and_eq_true_iff.mpr ⟨hr, eqItemsStep_iff.mpr hfields⟩
  | func hfg => exact beq_iff_eq.mpr hfg
  | nil he => exact he
  | pointer hab => exact Bool.or_eq_true_iff.mpr (hab.imp_left beq_iff_eq.mpr)

/-- Equality compares the contents of slots by one step. -/
theorem eqStep_iff : v.eqStep h deref w = true ↔
    Matches (fun v w => v.eqStep h deref w = true) (fun a b => deref a (h.get b) = true)
      v.unslot w.unslot := by
  rw [← eqStep_unslot_left, ← eqStep_unslot_right]
  exact ⟨matches_of_eqStep v.unslot_ne_slot w.unslot_ne_slot, eqStep_of_matches⟩

end

/-! ### Laws of a step -/

section

variable {h : Heap} {P Q : Value → Value → Prop} {C D : Addr → Addr → Prop} {u v w x : Value}

/-- Only the comparison of the parts at hand matters to a step, and that of the cells at hand. -/
theorem Matches.mono (hm : Matches P C v w)
    (hparts : ∀ x y, (∃ i, v.partAt? i = some x) → (∃ i, w.partAt? i = some y) → P x y → Q x y)
    (hcells : ∀ a b, v.Points a → w.Points b → C a b → D a b) : Matches Q D v w := by
  have hitems {vs ws : List Value} (hpq : ∀ x ∈ vs, ∀ y ∈ ws, P x y → Q x y)
      (hvs : List.Forall₂ P vs ws) : List.Forall₂ Q vs ws := by
    refine List.forall₂_iff_zip.mpr ⟨hvs.length_eq, fun {x y} hz => ?_⟩
    obtain ⟨hx, hy⟩ := List.of_mem_zip hz
    exact hpq x hx y hy (List.forall₂_zip hvs hz)
  cases hm with
  | nothing hv hw => exact .nothing hv hw
  | bool b => exact .bool b
  | int w n => exact .int w n
  | uint w n => exact .uint w n
  | float w hxy => exact .float w hxy
  | string s => exact .string s
  | list he hvs =>
    exact .list he (hitems (fun x hx y hy =>
      hparts x y (List.mem_iff_getElem?.mp hx) (List.mem_iff_getElem?.mp hy)) hvs)
  | array he hvs =>
    exact .array he (hitems (fun x hx y hy =>
      hparts x y (List.mem_iff_getElem?.mp hx) (List.mem_iff_getElem?.mp hy)) hvs)
  | map hk he hlength hentries =>
    refine .map hk he hlength fun x hx => ?_
    obtain ⟨w, hfind, hxw⟩ := hentries x hx
    obtain ⟨i, hi⟩ := List.mem_iff_getElem?.mp hx
    obtain ⟨j, k, hj, -⟩ := Entries.exists_getElem?_of_find? hfind
    exact ⟨w, hfind, hparts x.2 w ⟨i, congrArg (Option.map Prod.snd) hi⟩
      ⟨j, congrArg (Option.map Prod.snd) hj⟩ hxw⟩
  | record hr hvs =>
    exact .record hr (hitems (fun x hx y hy =>
      hparts x y (List.mem_iff_getElem?.mp hx) (List.mem_iff_getElem?.mp hy)) hvs)
  | func hfg => exact .func hfg
  | nil he => exact .nil he
  | pointer hab => exact .pointer (hab.imp_right (hcells _ _ (.pointer _ _) (.pointer _ _)))

/-- A step the other way round. In a map without duplicate places, entries for each of another map
that is no smaller are entries for all. -/
theorem Matches.flip (hm : Matches P C v w) (hv : v.WellFormed h) (hw : w.WellFormed h) :
    Matches (fun x y => P y x) (fun a b => C b a) w v := by
  cases hm with
  | nothing hv hw => exact .nothing hw hv
  | bool b => exact .bool b
  | int w n => exact .int w n
  | uint w n => exact .uint w n
  | float w hxy => exact .float w (Binary64.numEq_symm hxy)
  | string s => exact .string s
  | list he hvs => exact .list (BEq.symm he) hvs.flip
  | array he hvs => exact .array (BEq.symm he) hvs.flip
  | @map k k' e e' es fs hk he hlength hentries =>
    have hes := (wellFormed_map.mp hv).places
    have hfs := (wellFormed_map.mp hw).places
    have hsubset : (es.map fun entry => entry.1.bare) ⊆ fs.map fun entry => entry.1.bare := by
      intro place hplace
      obtain ⟨x, hx, rfl⟩ := List.mem_map.mp hplace
      obtain ⟨w, hfind, -⟩ := hentries x hx
      obtain ⟨j, k, hj, hk⟩ := Entries.exists_getElem?_of_find? hfind
      exact List.mem_map.mpr ⟨(k, w), List.mem_of_getElem? hj, hk⟩
    refine .map (BEq.symm hk) (BEq.symm he) hlength.symm fun y hy => ?_
    obtain ⟨x, hx, hplace⟩ := List.mem_map.mp
      (Entries.places_subset_of_length_eq hes hlength hsubset (List.mem_map_of_mem hy))
    obtain ⟨w, hfind, hxw⟩ := hentries x hx
    rw [← hplace, Entries.find?_of_mem hes hx]
    rw [hplace, Entries.find?_of_mem hfs hy] at hfind
    exact ⟨x.2, rfl, Option.some.inj hfind ▸ hxw⟩
  | record hr hvs => exact .record (BEq.symm hr) hvs.flip
  | func hfg => exact .func hfg.symm
  | nil he => exact .nil (BEq.symm he)
  | pointer hab => exact .pointer (hab.imp_left Eq.symm)

/-- A step after a step. -/
theorem Matches.comp (hm : Matches P C u v) (hm' : Matches Q D v w) :
    Matches (fun x z => ∃ y, P x y ∧ Q y z)
      (fun a c => C a c ∨ D a c ∨ ∃ b, C a b ∧ D b c) u w := by
  have hitems {us vs ws : List Value} (huv : List.Forall₂ P us vs) (hvw : List.Forall₂ Q vs ws) :
      List.Forall₂ (fun x z => ∃ y, P x y ∧ Q y z) us ws := by
    induction huv generalizing ws with
    | nil =>
      cases hvw
      exact .nil
    | cons hxy _ ih =>
      cases hvw with
      | cons hyz hvw => exact .cons ⟨_, hxy, hyz⟩ (ih hvw)
  cases hm with
  | nothing hu hv =>
    cases hm' with
    | nothing _ hw => exact .nothing hu hw
    | _ => rcases hv with hv | hv <;> cases hv
  | bool b =>
    cases hm' with
    | nothing hv => nomatch hv
    | bool => exact .bool b
  | int w n =>
    cases hm' with
    | nothing hv => nomatch hv
    | int => exact .int w n
  | uint w n =>
    cases hm' with
    | nothing hv => nomatch hv
    | uint => exact .uint w n
  | float w hxy =>
    cases hm' with
    | nothing hv => nomatch hv
    | float _ hyz => exact .float w (Binary64.numEq_trans hxy hyz)
  | string s =>
    cases hm' with
    | nothing hv => nomatch hv
    | string => exact .string s
  | list he huv =>
    cases hm' with
    | nothing hv => nomatch hv
    | list he' hvw => exact .list (BEq.trans he he') (hitems huv hvw)
  | array he huv =>
    cases hm' with
    | nothing hv => nomatch hv
    | array he' hvw => exact .array (BEq.trans he he') (hitems huv hvw)
  | map hk he hlength hentries =>
    cases hm' with
    | nothing hv => nomatch hv
    | map hk' he' hlength' hentries' =>
      refine .map (BEq.trans hk hk') (BEq.trans he he') (hlength.trans hlength') fun x hx => ?_
      obtain ⟨y, hy, hxy⟩ := hentries x hx
      -- What stands at the place of a key in the second map is looked for with a key of its own.
      obtain ⟨i, k, hi, hplace⟩ := Entries.exists_getElem?_of_find? hy
      obtain ⟨z, hz, hyz⟩ := hentries' (k, y) (List.mem_of_getElem? hi)
      exact ⟨z, hplace ▸ hz, y, hxy, hyz⟩
  | record hr huv =>
    cases hm' with
    | nothing hv => nomatch hv
    | record hr' hvw => exact .record (BEq.trans hr hr') (hitems huv hvw)
  | func hfg =>
    cases hm' with
    | nothing hv => nomatch hv
    | func hgf => exact .func (hfg.trans hgf)
  | nil he =>
    cases hm' with
    | nothing hv => nomatch hv
    | nil he' => exact .nil (BEq.trans he he')
  | pointer hab =>
    cases hm' with
    | nothing hv => nomatch hv
    | pointer hbc =>
      refine .pointer ?_
      rcases hab with rfl | hab <;> rcases hbc with rfl | hbc
      · exact .inl rfl
      · exact .inr (.inr (.inl hbc))
      · exact .inr (.inl hab)
      · exact .inr (.inr (.inr ⟨_, hab, hbc⟩))

/-- A value matches itself if its parts do and it is a number if it is a floating-point one. -/
theorem matches_self (hv : v.WellFormed h) (hslot : ∀ u, v ≠ slot u)
    (hfloat : ∀ w x, v = float w x → x.isNaN = false)
    (hparts : ∀ i x, v.partAt? i = some x → P x x) : Matches P C v v := by
  have hitems {vs : List Value} (hself : ∀ x ∈ vs, P x x) : List.Forall₂ P vs vs :=
    List.forall₂_same.mpr hself
  cases v with
  | invalid => exact .nothing (.inl rfl) (.inl rfl)
  | emptySlot => exact .nothing (.inr rfl) (.inr rfl)
  | bool b => exact .bool b
  | int w n => exact .int w n
  | uint w n => exact .uint w n
  | float w x => exact .float w (Binary64.numEq_self_iff.mpr (hfloat w x rfl))
  | string s => exact .string s
  | list e items =>
    refine .list BEq.rfl (hitems fun x hx => ?_)
    obtain ⟨i, hi⟩ := List.mem_iff_getElem?.mp hx
    exact hparts i x hi
  | array e items =>
    refine .array BEq.rfl (hitems fun x hx => ?_)
    obtain ⟨i, hi⟩ := List.mem_iff_getElem?.mp hx
    exact hparts i x hi
  | map k e entries =>
    refine .map BEq.rfl BEq.rfl rfl fun x hx => ?_
    obtain ⟨i, hi⟩ := List.mem_iff_getElem?.mp hx
    exact ⟨x.2, Entries.find?_of_mem (wellFormed_map.mp hv).places hx,
      hparts i x.2 (congrArg (Option.map Prod.snd) hi)⟩
  | record r fields =>
    refine .record BEq.rfl (hitems fun x hx => ?_)
    obtain ⟨i, hi⟩ := List.mem_iff_getElem?.mp hx
    exact hparts i x hi
  | func f => exact .func rfl
  | pointer e cell =>
    cases cell with
    | none => exact .nil BEq.rfl
    | some a => exact .pointer (.inl rfl)
  | slot u => exact absurd rfl (hslot u)

/-- The parts of a value that matches itself do so as well. -/
theorem Matches.part_self (hm : Matches P C v v) (hv : v.WellFormed h) {i : Nat}
    (hx : v.partAt? i = some x) : P x x := by
  cases hm with
  | list _ hvs | array _ hvs | record _ hvs =>
    exact List.forall₂_same.mp hvs x (List.mem_of_getElem? hx)
  | map _ _ _ hentries =>
    obtain ⟨entry, hi, rfl⟩ := Option.map_eq_some_iff.mp hx
    obtain ⟨w, hfind, hxw⟩ := hentries entry (List.mem_of_getElem? hi)
    rw [Entries.find?_of_mem (wellFormed_map.mp hv).places (List.mem_of_getElem? hi)] at hfind
    exact Option.some.inj hfind ▸ hxw
  | nothing hv => rcases hv with rfl | rfl <;> cases hx
  | _ => cases hx

end

/-! ### Comparisons that follow pointers -/

/-- Equality of two values on a heap that follows `n` pointers in a row at most. -/
def eqWithin (h : Heap) (n : Nat) (v w : Value) : Bool :=
  h.unroll (fun _ => false) (eqStep h) n v w

/-- What is not a number stands in a value, in what slots in it hold, but not in a cell. -/
inductive HoldsNaN : Value → Prop where
  | float (w : FloatWidth) {x : Binary64} (hx : x.isNaN = true) : HoldsNaN (float w x)
  | slot {v : Value} (hv : HoldsNaN v) : HoldsNaN (slot v)
  | part {v w : Value} {i : Nat} (hw : v.partAt? i = some w) (hn : HoldsNaN w) : HoldsNaN v

section

variable {h : Heap} {n : Nat} {u v w : Value}

/-- Equality relates equal values by one step with itself for the parts. -/
theorem eqWithin_iff : eqWithin h n v w = true ↔
    Matches (fun v w => eqWithin h n v w = true)
      (fun a b => ∃ m, n = m + 1 ∧ eqWithin h m (h.get a) (h.get b) = true) v.unslot w.unslot := by
  cases n with
  | zero =>
    refine eqStep_iff.trans (iff_of_eq (congrArg (Matches _ · v.unslot w.unslot) ?_))
    funext a b
    simp
  | succ n =>
    refine eqStep_iff.trans (iff_of_eq (congrArg (Matches _ · v.unslot w.unslot) ?_))
    funext a b
    simp [eqWithin]

theorem sizeOf_unslot_le (v : Value) : sizeOf v.unslot ≤ sizeOf v := by
  induction v using slot_induction with
  | bare v hv => exact Nat.le_of_eq (congrArg sizeOf (unslot_of_ne_slot hv))
  | boxed v ih => exact Nat.le_trans ih (by rw [slot.sizeOf_spec]; omega)

theorem WellFormed.unslot (hv : v.WellFormed h) : v.unslot.WellFormed h := by
  induction v using slot_induction with
  | bare v hslot => rwa [unslot_of_ne_slot hslot]
  | boxed v ih => exact ih (wellFormed_slot.mp hv).2.2

theorem eqWithin_symm {n : Nat} {v w : Value} (hh : h.WellFormed) (hv : v.WellFormed h)
    (hw : w.WellFormed h) (heq : eqWithin h n v w = true) : eqWithin h n w v = true := by
  have hstep := (eqWithin_iff.mp heq).flip hv.unslot hw.unslot
  refine eqWithin_iff.mpr (hstep.mono ?_ ?_)
  · rintro y x ⟨j, hy⟩ ⟨i, hx⟩ hxy
    have hlt := Nat.lt_of_lt_of_le (sizeOf_of_partAt? hx) v.sizeOf_unslot_le
    exact eqWithin_symm hh (wellFormed_of_partAt? hv.unslot hx) (wellFormed_of_partAt? hw.unslot hy)
      hxy
  · rintro b a hb ha ⟨m, rfl, hab⟩
    exact ⟨m, rfl, eqWithin_symm hh (hh a (hv.unslot.bounded a ha)) (hh b (hw.unslot.bounded b hb))
      hab⟩
termination_by (n, sizeOf v)

theorem eqWithin_trans {n : Nat} {u v w : Value} (huv : eqWithin h n u v = true)
    (hvw : eqWithin h n v w = true) :
    eqWithin h n u w = true := by
  have hstep := (eqWithin_iff.mp huv).comp (eqWithin_iff.mp hvw)
  refine eqWithin_iff.mpr (hstep.mono ?_ ?_)
  · rintro x z ⟨i, hx⟩ - ⟨y, hxy, hyz⟩
    have hlt := Nat.lt_of_lt_of_le (sizeOf_of_partAt? hx) u.sizeOf_unslot_le
    exact eqWithin_trans hxy hyz
  · rintro a c - - (hac | hac | ⟨b, ⟨m, rfl, hab⟩, m', hm, hbc⟩)
    · exact hac
    · exact hac
    · obtain rfl := Nat.succ.inj hm
      exact ⟨m, rfl, eqWithin_trans hab hbc⟩
termination_by (n, sizeOf u)

theorem HoldsNaN.of_unslot (hn : v.unslot.HoldsNaN) : v.HoldsNaN := by
  induction v using slot_induction with
  | bare v hv => rwa [unslot_of_ne_slot hv] at hn
  | boxed v ih => exact .slot (ih hn)

theorem eqWithin_self {v : Value} (hv : v.WellFormed h) (hn : ¬v.HoldsNaN) :
    eqWithin h n v v = true := by
  have hn' : ¬v.unslot.HoldsNaN := fun hun => hn hun.of_unslot
  refine eqWithin_iff.mpr (matches_self hv.unslot v.unslot_ne_slot (fun w x hx => ?_) ?_)
  · exact Bool.eq_false_iff.mpr fun hnan => hn' (hx ▸ .float w hnan)
  · intro i x hx
    have hlt := Nat.lt_of_lt_of_le (sizeOf_of_partAt? hx) v.sizeOf_unslot_le
    exact eqWithin_self (wellFormed_of_partAt? hv.unslot hx) fun hnx => hn' (.part hx hnx)
termination_by sizeOf v

theorem HoldsNaN.not_eqWithin (hn : v.HoldsNaN) (hv : v.WellFormed h) :
    ¬eqWithin h n v v = true := by
  induction hn with
  | float w hx =>
    intro heq
    cases eqWithin_iff.mp heq with
    | float _ hxx =>
      rw [Binary64.numEq_self_iff.mp hxx] at hx
      cases hx
    | nothing hv => nomatch hv
  | @slot v _ ih =>
    intro heq
    have hstep := eqWithin_iff.mp heq
    exact ih (wellFormed_slot.mp hv).2.2 (eqWithin_iff.mpr hstep)
  | @part v w i hw _ ih =>
    intro heq
    have hslot : v.unslot = v := by cases v <;> first | rfl | cases hw
    have hstep := eqWithin_iff.mp heq
    rw [hslot] at hstep
    exact ih (wellFormed_of_partAt? hv hw) (hstep.part_self hv hw)

theorem eqWithin_boxed_left (h : Heap) (n : Nat) (v w : Value) :
    eqWithin h n v.boxed w = eqWithin h n v w := by
  cases n <;> cases v <;> rfl

theorem eqWithin_boxed_right (h : Heap) (n : Nat) (v w : Value) :
    eqWithin h n v w.boxed = eqWithin h n v w := by
  have hstep (deref : Addr → Value → Bool) : v.eqStep h deref w.boxed = v.eqStep h deref w := by
    rw [← eqStep_unslot_left, ← eqStep_unslot_left h deref v w]
    rw [← eqStep_unslot_right, ← eqStep_unslot_right h deref v.unslot w]
    have hslot := v.unslot_ne_slot
    cases w with
    | invalid => cases hv : v.unslot <;> first | rfl | exact absurd hv (hslot _)
    | _ => rfl
  cases n <;> exact hstep _

theorem eq_comm (hh : h.WellFormed) (hv : v.WellFormed h) (hw : w.WellFormed h) :
    v.eq w h = w.eq v h :=
  Bool.eq_iff_iff.mpr ⟨eqWithin_symm hh hv hw, eqWithin_symm hh hw hv⟩

/-- Equality of well-formed values is symmetric and transitive. A value is equal to itself just if
it holds nothing that is not a number; pointers are always equal to themselves. A slot around a
value makes no difference, and an empty one is equal to nothing. -/
theorem eq_partialEquivalence (hh : h.WellFormed) :
    (∀ v w : Value, v.WellFormed h → w.WellFormed h → v.eq w h = w.eq v h) ∧
    (∀ u v w : Value, u.WellFormed h → v.WellFormed h → w.WellFormed h → u.eq v h = true →
      v.eq w h = true → u.eq w h = true) ∧
    (∀ v : Value, v.WellFormed h → (v.eq v h = true ↔ ¬v.HoldsNaN)) ∧
    (∀ v w : Value, v.boxed.eq w h = v.eq w h ∧ v.eq w.boxed h = v.eq w h) ∧
    emptySlot.eq invalid h = true := by
  refine ⟨fun v w hv hw => eq_comm hh hv hw, fun u v w _ _ _ => eqWithin_trans,
    fun v hv => ⟨fun heq hn => hn.not_eqWithin hv heq, eqWithin_self hv⟩, fun v w => ?_, ?_⟩
  · exact ⟨eqWithin_boxed_left h h.size v w, eqWithin_boxed_right h h.size v w⟩
  · exact eqWithin_iff.mpr (.nothing (.inr rfl) (.inl rfl))

end

/-- Two cells with maps of the same entries, which were filled in different orders. -/
def twoOrders : Heap :=
  ⟨#[map .string .any [(.string "a", slot (int .word 1)), (.string "b", emptySlot)],
    map .string .any [(.string "b", emptySlot), (.string "a", slot (int .word 1))]]⟩

theorem twoOrders_wellFormed : twoOrders.WellFormed := by
  have hkey (s : String) : (Ty.string).AcceptsKey (.string s) := ⟨string s, Ty.accepts_self _, rfl⟩
  have hone : (slot (int .word 1)).Fits .any twoOrders := ⟨.slot nofun nofun (.int rfl), rfl⟩
  have hempty : emptySlot.Fits .any twoOrders := ⟨.emptySlot, rfl⟩
  intro a ha
  match a, ha with
  | 0, _ =>
    exact wellFormed_map.mpr ((Entries.WellFormed.nil.put (hkey "a") (.string _) hone).put
      (hkey "b") (.string _) hempty)
  | 1, _ =>
    exact wellFormed_map.mpr ((Entries.WellFormed.nil.put (hkey "b") (.string _) hempty).put
      (hkey "a") (.string _) hone)

/-- Pointers to the two cells are equal both ways, in a slot and out of it, and each to itself; what
is not a number is not equal to itself. -/
theorem eq_partialEquivalence_twoOrders :
    let v := pointer (.map .string .any) (some 0)
    let w := pointer (.map .string .any) (some 1)
    let nan := list (.float .double) [float .double .undefined]
    v.eq w twoOrders = true ∧ w.eq v twoOrders = true ∧ v.boxed.eq w twoOrders = true ∧
      v.eq v twoOrders = true ∧ ¬nan.eq nan twoOrders = true := by
  intro v w nan
  have htype (a : Addr) (ha : a < 2) :
      (pointer (.map .string .any) (some a)).WellFormed twoOrders := by
    refine .pointer ha ?_
    match a, ha with
    | 0, _ | 1, _ => exact BEq.rfl
  have hnan : nan.WellFormed twoOrders :=
    wellFormed_list.mpr (List.forall_mem_singleton.mpr ⟨.float trivial, Ty.accepts_self _⟩)
  have hholds : nan.HoldsNaN := .part (i := 0) rfl (.float _ (by decide))
  have hvw : v.eq w twoOrders = true := by decide +kernel
  obtain ⟨hsymm, htrans, hself, hslot, -⟩ := eq_partialEquivalence twoOrders_wellFormed
  have hwv : w.eq v twoOrders = true :=
    (hsymm w v (htype 1 (by decide)) (htype 0 (by decide))).trans hvw
  exact ⟨hvw, hwv, (hslot v w).1.trans hvw,
    htrans v w v (htype 0 (by decide)) (htype 1 (by decide)) (htype 0 (by decide)) hvw hwv,
    fun heq => (hself nan hnan).mp heq hholds⟩

end Value

end DynamicEval
