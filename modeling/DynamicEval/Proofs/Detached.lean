import DynamicEval.Proofs.Copy
import DynamicEval.Proofs.Path.Read
import DynamicEval.Proofs.Region.Edit
import DynamicEval.Proofs.WellFormed.Copy
import Mathlib.Logic.Relation

/-!
# Deep copies are detached

A client that has a deep copy at hand can take its parts, read through its pointers and change what
it finds there. As long as nothing that it puts in shares a cell with what was copied, none of its
changes can be seen there. The same holds with the roles of the two exchanged.

A value that shares a cell would make a difference: merging the original into its own copy puts
pointers to the old cells into the copy, and from then on a write through the copy can be seen.

## Main definitions

* `Mutation`: writes, merges and stores into cells.
* `Hand`: what a client has at hand; `Hand.Step`: what it does next.
* `Heap.LooksSame`: a later heap on which a value looks the same.

## Main results

* `Hand.Detached.step`, `Hand.Detached.run`: a client that stays apart from a value leaves the
  cells behind it as they are.
* `Value.deepCopy_detached`: a deep copy is faithful and detached.
* `Value.deepCopy_not_detached`: a client that puts in what was copied is not kept apart.
-/

namespace DynamicEval

/-! ### Clients -/

/-- A change of a value in place, with the value that it brings along. -/
inductive Mutation where
  /-- A write at a path. -/
  | set (v : Value) (path : List Value)
  /-- A write at a dotted identifier. -/
  | setById (v : Value) (ident : String)
  | merge (source : Value)
  /-- A store into the cell of a pointer. -/
  | store (content : Value)

/-- The heap and the content of the destination that a change leaves. -/
def Edit.outcome {α : Type} (r : Edit α) : Heap × Value := (r.heap, r.value)

namespace Mutation

/-- The value that a change brings along. -/
def operand : Mutation → Value
  | set v _ | setById v _ | merge v | store v => v

/-- What a change of a destination leaves, whether it succeeds or not. -/
def apply (dest : Value) (h : Heap) : Mutation → Heap × Value
  | set v path => (dest.set v path h).outcome
  | setById v ident => (dest.setById v ident h).outcome
  | merge source => (dest.merge source h).outcome
  | store content => (dest.store content h).outcome

end Mutation

/-- The values that a client has at hand, and the heap. -/
structure Hand where
  /-- The heap. -/
  heap : Heap
  /-- The values at hand. -/
  values : List Value

/-- What a client does next, if it changes values only by operands that are admitted. -/
inductive Hand.Step (admits : Heap → Value → Prop) : Hand → Hand → Prop where
  /-- The client takes a value that has no pointers but to cells behind those at hand. -/
  | take {s : Hand} {w : Value} (hw : ∀ a, w.Points a → ∃ x ∈ s.values, s.heap.Reaches x a) :
      Step admits s ⟨s.heap, w :: s.values⟩
  /-- The client changes a value at hand, and has the new content at hand next. -/
  | change {s : Hand} {x : Value} (m : Mutation) (hx : x ∈ s.values)
      (hm : admits s.heap m.operand) :
      Step admits s ⟨(m.apply x s.heap).1, (m.apply x s.heap).2 :: s.values⟩

/-- What a client may come to. -/
def Hand.Run (admits : Heap → Value → Prop) : Hand → Hand → Prop :=
  Relation.ReflTransGen (Hand.Step admits)

/-- A later heap on which a value looks the same: the cells behind it are the same, and so is
whatever is read from it by following its pointers, along a path or at a dotted identifier. -/
structure Heap.LooksSame (h h' : Heap) (v : Value) : Prop where
  /-- The cells behind the value are the same. -/
  agrees : h.Agrees h' v
  /-- What following the pointers gives is the same. -/
  follow_eq {α : Type} (stop : α) {step : (Addr → α) → Value → α} (hstep : IsLocal step) :
    h'.follow stop step v = h.follow stop step v
  /-- What a path selects is the same. -/
  fieldAt?_eq {path : List Value} (hpath : ∀ key ∈ path, h.Steady h' key) :
    v.fieldAt? path h' = v.fieldAt? path h
  /-- What a dotted identifier selects is the same. -/
  propById?_eq (ident : String) : v.propById? ident h' = v.propById? ident h

/-! ### Staying apart -/

theorem Edit.StaysIn.outcome {α : Type} {r : Edit α} {h : Heap} {P : Addr → Prop}
    (hr : r.StaysIn h P) : h.StaysIn P r.outcome.1 ∧ r.outcome.2.Within P :=
  ⟨hr.toStaysIn, hr.within⟩

/-- The changes that a client makes stay inside a region that it is inside of, with its operands. -/
theorem Mutation.apply_staysIn {h : Heap} {P : Addr → Prop} {dest : Value} (hP : h.Region P)
    (hdest : dest.Within P) (m : Mutation) (hm : m.operand.Within P) :
    h.StaysIn P (m.apply dest h).1 ∧ (m.apply dest h).2.Within P := by
  cases m with
  | set v path => exact (Value.set_staysIn hP hdest hm path).outcome
  | setById v ident => exact (Value.setById_staysIn hP hdest hm ident).outcome
  | merge source => exact (Value.merge_staysIn hP hdest hm).outcome
  | store content => exact (Value.store_staysIn hP hdest hm).outcome

/-- The cells behind `v` are those of the heap `h` still, and the values at hand are apart from
it. -/
structure Hand.Detached (h : Heap) (v : Value) (s : Hand) : Prop where
  /-- The cells behind the value are the same. -/
  agrees : h.Agrees s.heap v
  /-- No cell is behind the value and a value at hand. -/
  apart : ∀ x ∈ s.values, s.heap.Apart v x

namespace Hand.Detached

variable {h : Heap} {v : Value} {s s' : Hand}

/-- A client whose operands are apart from a value stays apart from it, and leaves the cells behind it
as they are. -/
theorem step (hh : h.Bounded) (hv : v.Bounded h) (hs : Detached h v s)
    (hstep : Hand.Step (fun k w => k.Apart v w) s s') : Detached h v s' := by
  cases hstep with
  | @take w hw =>
    refine ⟨hs.agrees, List.forall_mem_cons.mpr ⟨fun a hr hrw => ?_, hs.apart⟩⟩
    rcases hrw with hp | ⟨hp, hb⟩
    · obtain ⟨x, hx, hreach⟩ := hw a hp
      exact hs.apart x hx a hr hreach
    · obtain ⟨x, hx, hreach⟩ := hw _ hp
      exact hs.apart x hx a hr (hreach.trans hb)
  | @change x m hx hm =>
    have hlt (a : Addr) (hr : s.heap.Reaches v a) : a < s.heap.size :=
      Nat.lt_of_lt_of_le ((hs.agrees.reaches_iff.mp hr).lt hh hv) hs.agrees.size_le
    obtain ⟨hstays, hnew⟩ :=
      m.apply_staysIn (.clear hlt) (hs.apart x hx).within hm.within
    refine ⟨hs.agrees.trans (hstays.agrees hlt), List.forall_mem_cons.mpr ⟨?_, fun y hy => ?_⟩⟩
    · exact hstays.apart hlt hnew
    · exact hstays.apart hlt (hs.apart y hy).within

/-- So it does in a run. -/
theorem run (hh : h.Bounded) (hv : v.Bounded h) (hs : Detached h v s)
    (hrun : Hand.Run (fun k w => k.Apart v w) s s') : Detached h v s' := by
  induction hrun with
  | refl => exact hs
  | tail _ hstep ih => exact ih.step hh hv hstep

end Hand.Detached

/-! ### Deep copies -/

/-- A value looks the same after the run of a client that starts with a value apart from it and stays
apart. -/
theorem Hand.looksSame_of_run {h : Heap} {v x : Value} {s : Hand} (hh : h.Bounded)
    (hv : v.Bounded h) (hacyclic : h.AcyclicBehind v) (hx : h.Apart v x)
    (hrun : Hand.Run (fun k w => k.Apart v w) ⟨h, [x]⟩ s) : h.LooksSame s.heap v := by
  have hstart : Hand.Detached h v ⟨h, [x]⟩ := ⟨.refl h v, List.forall_mem_singleton.mpr hx⟩
  have hsteady : h.Steady s.heap v := ⟨(hstart.run hh hv hrun).agrees, hacyclic, hv⟩
  exact ⟨hsteady.agrees, fun stop _ hstep => hsteady.follow_eq hh stop hstep,
    fun hpath => hsteady.fieldAt?_eq hpath hh, hsteady.propById?_eq hh⟩

namespace Value

/-- A deep copy is a copy with new cells, of the same type. No cell is changed for it, and no cell is
behind both. A client that starts with one of the two and brings along nothing that shares a cell with
the other one leaves the other one looking the same, whatever it does. -/
theorem deepCopy_detached {h : Heap} {v : Value} (hh : h.WellFormed) (hacyclic : h.Acyclic)
    (hv : v.WellFormed h) :
    Copies h (v.deepCopy h).1 v (v.deepCopy h).2 h.size (v.deepCopy h).1.size ∧
      (v.deepCopy h).2.ty = v.ty ∧ h.Appends (v.deepCopy h).1 ∧
      (v.deepCopy h).1.Apart v (v.deepCopy h).2 ∧
      (∀ s, Hand.Run (fun k w => k.Apart v w) ⟨(v.deepCopy h).1, [(v.deepCopy h).2]⟩ s →
        (v.deepCopy h).1.LooksSame s.heap v) ∧
      ∀ s, Hand.Run (fun k w => k.Apart (v.deepCopy h).2 w) ⟨(v.deepCopy h).1, [v]⟩ s →
        (v.deepCopy h).1.LooksSame s.heap (v.deepCopy h).2 := by
  obtain ⟨happends, hcopies⟩ := deepCopy_copying hh (hacyclic.behind v) hv
  have hcopied := deepCopy_copied hh hv
  have hapart := deepCopy_apart hh (hacyclic.behind v) hv
  have hbounded := hcopied.grows.wellFormed.bounded
  refine ⟨hcopies, hcopies.ty_eq, happends, hapart, fun s hrun => ?_, fun s hrun => ?_⟩
  · have hv' := hv.bounded.mono happends.size_le
    have hacyclic' := (hacyclic.behind v).appends happends hh.bounded hv.bounded
    exact Hand.looksSame_of_run hbounded hv' hacyclic' hapart hrun
  · have hc := hcopied.wellFormed.bounded
    exact Hand.looksSame_of_run hbounded hc hcopies.acyclicBehind hapart.symm hrun

end Value

/-- A heap with one cell, which holds a map without entries. -/
def Heap.ofCounts : Heap := ⟨#[.map .string (.int .word) []]⟩

theorem Heap.ofCounts_wellFormed : ofCounts.WellFormed
  | 0, _ => Value.wellFormed_map.mpr .nil

theorem Heap.ofCounts_acyclic : ofCounts.Acyclic
  | 0 => by rintro (hp | ⟨hp, -⟩) <;> cases hp <;> contradiction
  | _ + 1 => not_reaches_invalid

namespace Value

/-- A list of one pointer, to the cell of `Heap.ofCounts`. -/
def counts : Value :=
  list (.pointer (.map .string (.int .word))) [pointer (.map .string (.int .word)) (some 0)]

theorem counts_wellFormed : counts.WellFormed .ofCounts := by
  have htype : (Ty.map .string (.int .word)).Accepts (Heap.ofCounts.get 0).ty := BEq.rfl
  have hcell : (pointer (.map .string (.int .word)) (some 0)).WellFormed .ofCounts :=
    .pointer (by decide) htype
  exact wellFormed_list.mpr (List.forall_mem_singleton.mpr hcell.fits_ty)

/-- What a client has at hand that has put a number into the map behind a copy of `Value.counts`. -/
def counted : Hand :=
  let (h, copy) := counts.deepCopy .ofCounts
  let r := (Mutation.set (int .word 5) [int .word 0, string "k"]).apply copy h
  ⟨r.1, [r.2, copy]⟩

/-- A number that is put into the map behind a copy is in the map there and not behind the original,
which looks the same. -/
theorem deepCopy_detached_counts :
    Hand.Run (fun k w => k.Apart counts w)
        ⟨(counts.deepCopy .ofCounts).1, [(counts.deepCopy .ofCounts).2]⟩ counted ∧
      (counted.heap.get 0).size = 0 ∧ (counted.heap.get 1).size = 1 ∧
      (counts.deepCopy .ofCounts).1.LooksSame counted.heap counts := by
  have hrun : Hand.Run (fun k w => k.Apart counts w)
      ⟨(counts.deepCopy .ofCounts).1, [(counts.deepCopy .ofCounts).2]⟩ counted := by
    refine .single (.change (.set (int .word 5) _) List.mem_cons_self ?_)
    rintro a - (hp | ⟨hp, -⟩) <;> cases hp
  obtain ⟨-, -, -, -, hlooks, -⟩ :=
    deepCopy_detached Heap.ofCounts_wellFormed Heap.ofCounts_acyclic counts_wellFormed
  exact ⟨hrun, by decide +kernel, by decide +kernel, hlooks counted hrun⟩

/-- A client that may bring along any value can change what was copied: it merges the original into
the copy and goes on from there. -/
theorem deepCopy_not_detached :
    ¬∀ (h : Heap) (v : Value), h.WellFormed → h.Acyclic → v.WellFormed h →
      ∀ s, Hand.Run (fun k w => w.WellFormed k) ⟨(v.deepCopy h).1, [(v.deepCopy h).2]⟩ s →
        (v.deepCopy h).1.LooksSame s.heap v := by
  intro hall
  have hgrows := (deepCopy_copied Heap.ofCounts_wellFormed counts_wellFormed).grows
  have hmerge : Hand.Step (fun k w => w.WellFormed k)
      ⟨(counts.deepCopy .ofCounts).1, [(counts.deepCopy .ofCounts).2]⟩ _ :=
    .change (.merge counts) List.mem_cons_self (counts_wellFormed.mono hgrows.toExtends)
  have hrun := (Relation.ReflTransGen.single hmerge).tail
    (.change (.set (int .word 5) [int .word 1, string "k"]) List.mem_cons_self (.int rfl))
  have hlooks := hall .ofCounts counts Heap.ofCounts_wellFormed Heap.ofCounts_acyclic
    counts_wellFormed _ hrun
  have hcell := hlooks.agrees.get_eq 0 (.direct (.list List.mem_cons_self (.pointer _ 0)))
  have hsize := congrArg size hcell
  revert hsize
  decide +kernel

end Value

end DynamicEval
