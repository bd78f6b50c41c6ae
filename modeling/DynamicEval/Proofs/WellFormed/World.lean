import DynamicEval.Proofs.WellFormed.Scope
import DynamicEval.World

/-!
# Actions keep what is well-formed

A world is well-formed when its heap and the top scopes of its roots are. Actions leave later worlds,
which are well-formed again, whether they succeed or fail. What host code does to the world is up to
the host; we ask of it what holds of everything else.

## Main definitions

* `World.WellFormed`, `World.Grows`: the invariant of worlds, and later worlds.
* `Action.Keeps`: what holds after an action.
* `Host.Sound`: host code that keeps the invariant and gives well-formed values.

## Main results

* `Action.Keeps.bind`: sequences of actions.
* `CallableOf.call_keeps`: calls on a sound host.
-/

namespace DynamicEval

/-! ### Worlds -/

/-- A world with a well-formed heap and well-formed top scopes. -/
structure World.WellFormed (w : World) : Prop where
  /-- The heap is well-formed. -/
  heap : w.heap.WellFormed
  /-- The top scopes are well-formed. -/
  tops : ∀ r top, w.top? r = some top → top.WellFormed w.heap

/-- A later world that is well-formed. -/
structure World.Grows (w w' : World) : Prop where
  /-- The heap is a later one. -/
  heap : w.heap.Extends w'.heap
  /-- The later world is well-formed. -/
  wellFormed : w'.WellFormed

namespace World

variable {w w' w'' : World} {v : Value}

theorem WellFormed.grows (hw : w.WellFormed) : w.Grows w := ⟨.refl _, hw⟩

theorem Grows.trans (hw : w.Grows w') (hw' : w'.Grows w'') : w.Grows w'' :=
  ⟨hw.heap.trans hw'.heap, hw'.wellFormed⟩

/-- A world with another heap and the same roots. -/
theorem WellFormed.withHeap (hw : w.WellFormed) {h : Heap} (hh : w.heap.Grows h) :
    w.Grows { w with heap := h } :=
  ⟨hh.toExtends, hh.wellFormed, fun r top htop => (hw.tops r top htop).mono hh.toExtends⟩

/-- A world with the same heap and the same top scopes. -/
theorem WellFormed.of_eq (hw : w.WellFormed) (hheap : w'.heap = w.heap)
    (htops : ∀ r, w'.top? r = w.top? r) : w.Grows w' := by
  refine ⟨hheap ▸ .refl _, hheap ▸ hw.heap, fun r top htop => ?_⟩
  rw [htops] at htop
  exact hheap ▸ hw.tops r top htop

theorem WellFormed.newCallable (hw : w.WellFormed) (name : String) (params : Option (List Ty))
    (routine : Routine) {held : List Value} (hheld : ∀ v ∈ held, v.WellFormed w.heap) :
    w.Grows (w.newCallable name params routine held).2 ∧
      (w.newCallable name params routine held).1.WellFormed
        (w.newCallable name params routine held).2.heap :=
  ⟨hw.of_eq rfl fun _ => rfl, .func hheld⟩

theorem WellFormed.methodValue (hw : w.WellFormed) {m : FoundMethod}
    (hm : m.WellFormed w.heap) :
    w.Grows (w.methodValue m).2 ∧ (w.methodValue m).1.WellFormed (w.methodValue m).2.heap := by
  cases m with
  | ofRecord name body receiver =>
    exact hw.newCallable _ _ _ fun v hv => List.mem_singleton.mp hv ▸ hm
  | held f => exact ⟨hw.grows, hm⟩

theorem WellFormed.methodValue? (hw : w.WellFormed) {m : Option FoundMethod}
    (hm : ∀ found, m = some found → found.WellFormed w.heap) :
    w.Grows (w.methodValue? m).2 ∧
      ∀ v, (w.methodValue? m).1 = some v → v.WellFormed (w.methodValue? m).2.heap := by
  cases m with
  | none => exact ⟨hw.grows, nofun⟩
  | some found =>
    obtain ⟨hgrows, hv⟩ := hw.methodValue (hm found rfl)
    exact ⟨hgrows, fun v heq => Option.some.inj heq ▸ hv⟩

theorem WellFormed.newRoot (hw : w.WellFormed) (config : RootConfig) :
    w.Grows (w.newRoot config).2 := by
  refine ⟨.refl _, hw.heap, fun r top htop => ?_⟩
  rw [World.newRoot, top?, Array.getElem?_push] at htop
  split at htop
  · cases htop
    exact .empty none
  · exact hw.tops r top htop

/-- A change of a top scope that keeps it well-formed. -/
theorem WellFormed.modifyTop (hw : w.WellFormed) (r : RootId) {f : Scope → Scope}
    (hf : ∀ top, top.WellFormed w.heap → (f top).WellFormed w.heap) :
    w.Grows (w.modifyTop r f) := by
  refine ⟨.refl _, hw.heap, fun r' top htop => ?_⟩
  rw [World.modifyTop, top?, Array.getElem?_modify] at htop
  split at htop
  · next heq =>
    rw [Option.map_map] at htop
    obtain ⟨root, hroot, rfl⟩ := Option.map_eq_some_iff.mp htop
    exact hf _ (hw.tops r' root.top (Option.map_eq_some_iff.mpr ⟨root, hroot, rfl⟩))
  · exact hw.tops r' top htop

theorem WellFormed.modifyCache (hw : w.WellFormed) (r : RootId) (f : ExprCache → ExprCache) :
    w.Grows (w.modifyCache r f) := by
  rw [World.modifyCache]
  split
  · exact hw.of_eq rfl fun _ => rfl
  · exact hw.grows

theorem WellFormed.remembered (hw : w.WellFormed) (r : RootId) (text : String) :
    w.Grows (w.remembered r text).2 := by
  rw [World.remembered]
  split
  · exact hw.modifyCache r _
  · exact hw.grows

theorem WellFormed.remember (hw : w.WellFormed) (r : RootId) (text : String) (e : Expr) :
    w.Grows (w.remember r text e) :=
  hw.modifyCache r _

theorem value?_wellFormed {s : Scope} {name : String} (hw : w.WellFormed)
    (hs : s.WellFormed w.heap) (hv : w.value? s name = some v) : v.WellFormed w.heap := by
  rw [value?] at hv
  split at hv
  · next hown =>
    cases hv
    exact Scope.ownValue?_wellFormed hw.heap hs hown
  · obtain ⟨top, htop, hv⟩ := Option.bind_eq_some_iff.mp hv
    obtain ⟨r, -, htop⟩ := Option.bind_eq_some_iff.mp htop
    exact Scope.ownValue?_wellFormed hw.heap (hw.tops r top htop) hv

theorem method?_wellFormed {s : Scope} {name : String} {m : FoundMethod} (hw : w.WellFormed)
    (hs : s.WellFormed w.heap) (hm : w.method? s name = some m) : m.WellFormed w.heap := by
  rw [method?] at hm
  split at hm
  · next hown =>
    cases hm
    exact Scope.ownMethod?_wellFormed hw.heap hs hown
  · obtain ⟨top, htop, hm⟩ := Option.bind_eq_some_iff.mp hm
    obtain ⟨r, -, htop⟩ := Option.bind_eq_some_iff.mp htop
    exact Scope.ownMethod?_wellFormed hw.heap (hw.tops r top htop) hm

end World

/-! ### Actions -/

/-- An action leaves a later world, and `Q` holds of that world and the result if there is one. -/
structure Action.Keeps {α : Type} (a : Action α) (w : World) (Q : World → α → Prop) : Prop where
  /-- The world after the action is a later one. -/
  grows : w.Grows (a.run.run w).2
  /-- The result of the action. -/
  result : ∀ v, (a.run.run w).1 = .ok v → Q (a.run.run w).2 v

namespace Action.Keeps

variable {α β : Type} {w : World} {P Q : World → α → Prop}

theorem pure {v : α} (hw : w.WellFormed) (hv : Q w v) : (Pure.pure v : Action α).Keeps w Q :=
  ⟨hw.grows, fun _ heq => Except.ok.inj heq ▸ hv⟩

theorem throw (hw : w.WellFormed) (e : Error) : (MonadExcept.throw e : Action α).Keeps w Q :=
  ⟨hw.grows, nofun⟩

theorem ofExcept {r : Except Error α} (hw : w.WellFormed) (hr : ∀ v, r = .ok v → Q w v) :
    (MonadExcept.ofExcept r : Action α).Keeps w Q := by
  cases r with
  | ok v => exact pure hw (hr v rfl)
  | error e => exact throw hw e

theorem bind {a : Action α} {f : α → Action β} {Q : World → β → Prop} (ha : a.Keeps w P)
    (hf : ∀ v w', w.Grows w' → P w' v → (f v).Keeps w' Q) : (a >>= f).Keeps w Q := by
  obtain ⟨hgrows, hresult⟩ := ha
  have hrun := run_bind_run a f w
  rcases hr : a.run.run w with ⟨e | v, w'⟩ <;> rw [hr] at hgrows hresult hrun
  · refine ⟨?_, fun v heq => ?_⟩
    · rw [hrun]
      exact hgrows
    · rw [hrun] at heq
      cases heq
  · obtain ⟨hgrows', hresult'⟩ := hf v w' hgrows (hresult v rfl)
    refine ⟨?_, fun u heq => ?_⟩
    · rw [hrun]
      exact hgrows.trans hgrows'
    · rw [hrun] at heq ⊢
      exact hresult' u heq

/-- An action that runs as another one does keeps what that keeps. -/
theorem congr {a b : Action α} (hb : b.Keeps w Q) (hrun : a.run.run w = b.run.run w) :
    a.Keeps w Q :=
  ⟨hrun ▸ hb.grows, hrun ▸ hb.result⟩

theorem get_bind {f : World → Action α} (hf : (f w).Keeps w Q) :
    (get >>= f : Action α).Keeps w Q := ⟨hf.grows, hf.result⟩

theorem modifyGet {f : World → α × World} (hgrows : w.Grows (f w).2) (hv : Q (f w).2 (f w).1) :
    (MonadStateOf.modifyGet f : Action α).Keeps w Q :=
  ⟨hgrows, fun _ heq => Except.ok.inj heq ▸ hv⟩

/-- A computation on the heap as an action. -/
theorem act {m : HeapM α} {Q : Heap → α → Prop} (hw : w.WellFormed) (hm : m.Keeps w.heap Q) :
    m.act.Keeps w fun w' v => Q w'.heap v := by
  refine get_bind ?_
  split
  · next v h hrun =>
    obtain ⟨hgrows, hv⟩ := hm v h hrun
    exact ⟨hw.withHeap hgrows, fun _ heq => Except.ok.inj heq ▸ hv⟩
  · exact throw hw _

end Action.Keeps

/-! ### Calls -/

/-- Host code that keeps worlds well-formed and makes well-formed values of well-formed values. -/
def Host.Sound (host : Host) : Prop :=
  ∀ routine held args w, w.WellFormed → (∀ v ∈ held, v.WellFormed w.heap) →
    (∀ v ∈ args, v.WellFormed w.heap) →
    (host routine held args).Keeps w fun w' v => v.WellFormed w'.heap

theorem coerceArgs_keeps {h : Heap} (hh : h.WellFormed) {ts : List Ty} {vs : List Value}
    (hvs : ∀ v ∈ vs, v.WellFormed h) :
    (coerceArgs ts vs).Keeps h fun h' ws => ∀ w ∈ ws, w.WellFormed h' := by
  induction ts generalizing vs h with
  | nil => exact .pure hh (List.forall_mem_nil _)
  | cons t ts ih =>
    cases vs with
    | nil => exact .pure hh (List.forall_mem_nil _)
    | cons v vs =>
      refine (t.coerce_keeps hh (hvs v List.mem_cons_self)).bind fun w h' hgrows hw => ?_
      refine (ih hgrows.wellFormed fun u hu =>
        (hvs u (List.mem_cons_of_mem _ hu)).mono hgrows.toExtends).bind fun ws h'' hgrows' hws => ?_
      refine .pure hgrows'.wellFormed fun u hu => ?_
      rcases List.mem_cons.mp hu with rfl | hu
      · exact hw.wellFormed.mono hgrows'.toExtends
      · exact hws u hu

/-- A call on a sound host gives a well-formed value. -/
theorem CallableOf.call_keeps {host : Host} (hhost : host.Sound) {w : World} (hw : w.WellFormed)
    {f : Callable} (hf : (Value.func f).WellFormed w.heap) {args : List Value}
    (hargs : ∀ v ∈ args, v.WellFormed w.heap) :
    (f.call host args).Keeps w fun w' v => v.WellFormed w'.heap := by
  have hheld := Value.wellFormed_func.mp hf
  rw [CallableOf.call]
  split
  · exact hhost _ _ _ w hw hheld hargs
  · split
    · exact ⟨hw.grows, nofun⟩
    · refine (Action.Keeps.act hw (coerceArgs_keeps hw.heap hargs)).bind fun ws w' hgrows hws => ?_
      exact hhost _ _ _ w' hgrows.wellFormed (fun v hv => (hheld v hv).mono hgrows.heap) hws

end DynamicEval
