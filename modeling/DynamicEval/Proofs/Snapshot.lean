import DynamicEval.Proofs.Eval.Services

/-!
# Evaluation against a snapshot

A root evaluates against a snapshot of its top scope. Whatever callables bind there in the meantime,
every name means what it meant at the start, so that the evaluation runs as if nothing were bound.
Afterwards the binds stand in the top scope, in the order in which they were made.

We describe what a callable does by code that may bind names in the top scope of a root at any time,
and that may do everything else that ignores this scope: read and change the rest of the world, or
evaluate in other roots. The two runs that are compared, one with the binds and one in which they
are skipped, go through worlds that differ in nothing but this top scope.

## Main definitions

* `World.withTop`: a world with another top scope.
* `Action.IgnoresTop`: an action that does the same whatever the top scope of a root is.
* `TopBind`, `BindingCode`, `Binders`: binds in a top scope, and callables that make them.
* `Binders.live`, `Binders.quiet`: callables with their binds, and without.

## Main results

* `Action.IgnoresTop.bind`: sequences ignore a top scope when their parts do.
* `BindingCode.run_live`: the code of a callable with its binds and without.
* `Binders.noting_agree`: what evaluation asks for does not tell the two runs apart.
* `evalTop_live`: the evaluation of a text with the binds of callables and without.
-/

namespace DynamicEval

/-! ### Worlds with another top scope -/

namespace World

/-- A world with another top scope of a root. -/
def withTop (w : World) (r : RootId) (top : Scope) : World := w.modifyTop r fun _ => top

variable {w : World} {r : RootId} {top : Scope}

@[simp] theorem withTop_heap (w : World) (r : RootId) (top : Scope) :
    (w.withTop r top).heap = w.heap := rfl

theorem modifyTop_withTop (w : World) (r : RootId) (top : Scope) (f : Scope → Scope) :
    (w.withTop r top).modifyTop r f = w.withTop r (f top) := by
  have hroots : ((w.withTop r top).modifyTop r f).roots = (w.withTop r (f top)).roots := by
    refine Array.ext_getElem? fun i => ?_
    simp only [withTop, modifyTop, Array.getElem?_modify]
    split
    · simp only [Option.map_map]
      rfl
    · rfl
  simp only [withTop, modifyTop] at hroots ⊢
  rw [hroots]

theorem withTop_top? (htop : w.top? r = some top) : w.withTop r top = w := by
  have hroots : (w.withTop r top).roots = w.roots := by
    refine Array.ext_getElem? fun i => ?_
    simp only [withTop, modifyTop, Array.getElem?_modify]
    split
    · next heq =>
      subst heq
      rw [top?, Option.map_eq_some_iff] at htop
      obtain ⟨root, hroot, rfl⟩ := htop
      rw [hroot]
      rfl
    · rfl
  simp only [withTop, modifyTop] at hroots ⊢
  rw [hroots]

theorem top?_withTop (htop : w.top? r = some top) (top' : Scope) :
    (w.withTop r top').top? r = some top' := by
  rw [top?, Option.map_eq_some_iff] at htop
  obtain ⟨root, hroot, -⟩ := htop
  simp [top?, withTop, modifyTop, Array.getElem?_modify, hroot]

theorem modifyCache_withTop (w : World) (r : RootId) (top : Scope) (q : RootId)
    (f : ExprCache → ExprCache) :
    (w.withTop r top).modifyCache q f = (w.modifyCache q f).withTop r top := by
  rw [modifyCache, modifyCache]
  rcases hroot : w.roots[q]? with _ | root
  · simp [withTop, modifyTop, Array.getElem?_modify, hroot]
  · by_cases hr : r = q <;> simp [withTop, modifyTop, Array.getElem?_modify, hroot, hr]

theorem top?_modifyCache (w : World) (r q : RootId) (f : ExprCache → ExprCache) :
    (w.modifyCache q f).top? r = w.top? r := by
  rw [modifyCache]
  cases w.roots[q]? <;> rfl

@[simp] theorem cache?_withTop (w : World) (r : RootId) (top : Scope) (q : RootId) :
    (w.withTop r top).cache? q = w.cache? q := by
  simp only [withTop, modifyTop, cache?, Array.getElem?_modify]
  split
  · cases w.roots[q]? <;> rfl
  · rfl

end World

/-! ### Actions that ignore a top scope -/

/-- An action that does the same whatever the top scope of a root is, and leaves it as it is. -/
def Action.IgnoresTop {α : Type} (a : Action α) (r : RootId) : Prop :=
  ∀ w top, w.top? r = some top → (a.run.run w).2.top? r = some top ∧
    ∀ top', a.run.run (w.withTop r top') = ((a.run.run w).1, (a.run.run w).2.withTop r top')

namespace Action.IgnoresTop

variable {α β : Type} {r : RootId}

theorem pure (v : α) : IgnoresTop (pure v) r := fun _ _ htop => ⟨htop, fun _ => rfl⟩

theorem throw (e : Error) : IgnoresTop (α := α) (throw e) r := fun _ _ htop => ⟨htop, fun _ => rfl⟩

theorem bind {a : Action α} {f : α → Action β} (ha : a.IgnoresTop r)
    (hf : ∀ v, (f v).IgnoresTop r) : (a >>= f).IgnoresTop r := by
  intro w top htop
  obtain ⟨htop, hrun⟩ := ha w top htop
  simp only [run_bind_run, hrun]
  generalize a.run.run w = s at htop ⊢
  rcases s with ⟨e | v, w'⟩
  · exact ⟨htop, fun _ => rfl⟩
  · exact hf v w' top htop

/-- A change of the world that does not fail. -/
theorem modifyGet {f : World → α × World} (htop : ∀ w, (f w).2.top? r = w.top? r)
    (hf : ∀ w top, f (w.withTop r top) = ((f w).1, (f w).2.withTop r top)) :
    IgnoresTop (MonadStateOf.modifyGet f) r := fun w _ hw =>
  ⟨(htop w).trans hw, fun top' => congrArg (fun s : α × World => (Except.ok s.1, s.2)) (hf w top')⟩

/-- A part of the world is read that is not the top scope. -/
theorem get_bind {γ : Type} {k : World → γ} {f : γ → Action β}
    (hk : ∀ w top, k (w.withTop r top) = k w) (hf : ∀ c, (f c).IgnoresTop r) :
    IgnoresTop (get >>= fun w => f (k w)) r := by
  intro w top htop
  obtain ⟨htop, hrun⟩ := hf (k w) w top htop
  refine ⟨htop, fun top' => Eq.trans ?_ (hrun top')⟩
  exact congrArg (fun c => (f c).run.run (w.withTop r top')) (hk w top')

theorem heap : Action.heap.IgnoresTop r := get_bind (k := World.heap) (fun _ _ => rfl) pure

/-- A computation on the heap. -/
theorem act (m : HeapM α) : m.act.IgnoresTop r := by
  intro w _ htop
  have hget (w : World) : (get : Action World).run.run w = (.ok w, w) := rfl
  simp only [HeapM.act, run_bind_run, hget, World.withTop_heap]
  rcases m.run w.heap with e | ⟨a, h⟩ <;> exact ⟨htop, fun _ => rfl⟩

theorem methodValue? (o : World → Option FoundMethod) (ho : ∀ w top, o (w.withTop r top) = o w) :
    IgnoresTop (MonadStateOf.modifyGet fun w : World => w.methodValue? (o w)) r := by
  refine .modifyGet (fun w => ?_) fun w top => ?_
  · rcases o w with _ | _ | _ <;> rfl
  · rw [ho]
    rcases o w with _ | _ | _ <;> rfl

end Action.IgnoresTop

section Nodes

variable (r q : RootId) (snapshot : Scope)

/-- Names mean what they meant when the snapshot was taken. -/
theorem nameFor_ignoresTop (target : Target) (name : String) (selected : Bool) :
    (nameFor (topContext q snapshot) target name selected).IgnoresTop r := by
  let plain (w : World) : Value :=
    ((snapshot.ownValue? name w.heap).bind fun v => target.filter v w.heap).getD .invalid
  have hplain : Action.IgnoresTop (do return plain (← get)) r :=
    .get_bind (k := plain) (fun _ _ => rfl) .pure
  have hmethod : Action.IgnoresTop (MonadStateOf.modifyGet ((topContext q snapshot).method name)) r :=
    .methodValue? (fun w => snapshot.ownMethod? name w.heap) fun _ _ => rfl
  rw [nameFor]
  split
  · exact .pure _
  · dsimp only
    split
    · refine hmethod.bind fun o => ?_
      cases o with
      | some m => exact .pure m
      | none => exact hplain
    · exact hplain

theorem memberFor_ignoresTop (target : Target) (parent key : Value) :
    (memberFor target parent key).IgnoresTop r := by
  rw [memberFor]
  split
  · exact .pure _
  refine Action.IgnoresTop.heap.bind fun h => ?_
  split
  · exact .modifyGet (fun _ => rfl) fun _ _ => rfl
  · exact .pure _

theorem CallableOf.prepare_ignoresTop (f : Callable) (args : List Value) :
    (f.prepare args).IgnoresTop r := by
  rw [prepare]
  split
  · exact .pure _
  · split
    · exact .throw _
    · exact .act _

theorem expr_ignoresTop (text : String) : ((topContext q snapshot).expr text).IgnoresTop r := by
  have hremembered :
      Action.IgnoresTop (MonadStateOf.modifyGet ((topContext q snapshot).remembered text)) r := by
    refine .modifyGet (fun w => ?_) fun w top => ?_
    · simp only [topContext, World.remembered]
      split
      · exact w.top?_modifyCache r q _
      · rfl
    · simp only [topContext, World.remembered, World.cache?_withTop]
      split
      · rw [World.modifyCache_withTop]
      · rfl
  refine hremembered.bind fun found => ?_
  cases found with
  | some e => exact .pure e
  | none =>
    dsimp only
    split
    · refine Action.IgnoresTop.bind (.modifyGet (fun w => ?_) fun w top => ?_) fun _ => .pure _
      · exact w.top?_modifyCache r q _
      · exact congrArg _ (w.modifyCache_withTop r top q _)
    · exact .throw _

end Nodes

/-! ### Callables that bind -/

/-- A bind in a top scope, and the heap at that time, which says whether the value is a callable. -/
structure TopBind where
  /-- The name. -/
  name : String
  /-- What is bound to the name. -/
  value : Value
  /-- The heap. -/
  heap : Heap

/-- A top scope after a bind. -/
def TopBind.apply (top : Scope) (b : TopBind) : Scope := top.bind b.name b.value b.heap

/-- What a callable does: it ends with a value or a failure, goes on after an action that ignores
the top scope of a root, or binds a name there. -/
inductive BindingCode (r : RootId) : Type 1 where
  | done (result : Except Error Value)
  | act {α : Type} (a : Action α) (ignores : a.IgnoresTop r) (next : Except Error α → BindingCode r)
  | bind (name : String) (v : Value) (next : BindingCode r)

namespace BindingCode

variable {r : RootId} (put : TopBind → World → World)

/-- The result of some code and the world that it leaves, if a bind does `put` to the world. -/
def run : BindingCode r → World → Except Error Value × World
  | done result, w => (result, w)
  | act a _ next, w => (next (a.run.run w).1).run (a.run.run w).2
  | bind name v next, w => next.run (put ⟨name, v, w.heap⟩ w)

/-- The binds of some code, in their order. -/
def binds : BindingCode r → World → List TopBind
  | done _, _ => []
  | act a _ next, w => (next (a.run.run w).1).binds (a.run.run w).2
  | bind name v next, w => ⟨name, v, w.heap⟩ :: next.binds (put ⟨name, v, w.heap⟩ w)

end BindingCode

/-- Makes a bind in the top scope of a root. -/
def TopBind.make (r : RootId) (b : TopBind) (w : World) : World := w.modifyTop r b.apply

/-- Skips a bind. -/
def TopBind.skip (_ : TopBind) (w : World) : World := w

/-- In worlds that differ in the top scope the same is done and bound, whether binds are made or
skipped. -/
theorem BindingCode.run_live {r : RootId} (code : BindingCode r) {w : World} {top : Scope}
    (htop : w.top? r = some top) (top' : Scope) :
    (code.run TopBind.skip w).2.top? r = some top ∧
      code.binds (TopBind.make r) (w.withTop r top') = code.binds TopBind.skip w ∧
      code.run (TopBind.make r) (w.withTop r top') =
        ((code.run TopBind.skip w).1, (code.run TopBind.skip w).2.withTop r
          ((code.binds TopBind.skip w).foldl TopBind.apply top')) := by
  induction code generalizing w top' with
  | done result => exact ⟨htop, rfl, rfl⟩
  | act a ignores next ih =>
    obtain ⟨htop, hrun⟩ := ignores w top htop
    simp only [run, binds, hrun]
    exact ih _ htop top'
  | bind name v next ih =>
    have hmake : TopBind.make r ⟨name, v, w.heap⟩ (w.withTop r top') =
        w.withTop r (TopBind.apply top' ⟨name, v, w.heap⟩) := w.modifyTop_withTop r top' _
    obtain ⟨hkept, hbinds, hrun⟩ := ih htop (TopBind.apply top' ⟨name, v, w.heap⟩)
    simp only [run, binds, World.withTop_heap, hmake, hbinds]
    exact ⟨hkept, rfl, hrun⟩

/-- What the routines behind callables do, which may bind names in the top scope of a root. -/
abbrev Binders (r : RootId) := Routine → List Value → List Value → BindingCode r

namespace Binders

variable {r : RootId} (code : Binders r)

/-- Callables that make their binds. -/
def live : Host := fun routine held args => (code routine held args).run (TopBind.make r)

/-- Callables that skip their binds. -/
def quiet : Host := fun routine held args => (code routine held args).run TopBind.skip

/-- The code that a call runs. -/
def codeOf (c : Call) : BindingCode r := code c.callable.routine c.callable.held c.args

/-- The binds that a call makes. -/
def made (c : Call) : List TopBind := (code.codeOf c).binds (TopBind.make r) c.world

/-- The binds that a call skips. -/
def skipped (c : Call) : List TopBind := (code.codeOf c).binds TopBind.skip c.world

/-- A top scope after calls with their binds, one after the other. -/
def bound (calls : List Call) (top : Scope) : Scope :=
  (calls.flatMap code.made).foldl TopBind.apply top

/-- Two runs against a snapshot, with binds and without: they have made the same calls with the same
binds, and their worlds differ in nothing but the top scope, in which the binds stand in the one and
nothing has changed in the other. -/
structure Abreast (top : Scope) (s t : World × List Call) : Prop where
  /-- Without binds the top scope is the snapshot. -/
  top? : t.1.top? r = some top
  /-- The calls are the same, and so are their binds. -/
  calls : s.2.map (fun c => (c.callable, c.args, code.made c)) =
    t.2.map fun c => (c.callable, c.args, code.skipped c)
  /-- The worlds differ in the top scope. -/
  world : s.1 = t.1.withTop r (code.bound s.2 top)

variable {code} {top : Scope}

theorem bound_append (calls : List Call) (c : Call) (top : Scope) :
    code.bound (calls ++ [c]) top = (code.made c).foldl TopBind.apply (code.bound calls top) := by
  simp [bound]

/-- Nothing that ignores the top scope tells the runs apart. -/
theorem agree_unnoted {α : Type} {a : Action α} (ha : a.IgnoresTop r) :
    Agree (code.Abreast top) (unnoted a) (unnoted a) := by
  rintro ⟨v, calls⟩ ⟨w, calls'⟩ ⟨htop, hcalls, hworld⟩
  dsimp only at htop hworld
  obtain ⟨hkept, hrun⟩ := ha w top htop
  rw [run_unnoted, run_unnoted, hworld, hrun]
  exact ⟨rfl, hkept, hcalls, rfl⟩

/-- A call is noted in both runs, and its binds are made in the one and skipped in the other. -/
theorem agree_invoke (f : Callable) (args : List Value) :
    Agree (code.Abreast top) ((Services.noting code.live (topContext r top)).invoke f args)
      ((Services.noting code.quiet (topContext r top)).invoke f args) := by
  rintro ⟨v, calls⟩ ⟨w, calls'⟩ ⟨htop, hcalls, hworld⟩
  dsimp only at htop hcalls hworld
  obtain ⟨hkept, hbinds, hrun⟩ := (code f.routine f.held args).run_live htop (code.bound calls top)
  rw [← hworld] at hbinds hrun
  have hmade : code.made ⟨f, args, v⟩ = code.skipped ⟨f, args, w⟩ := hbinds
  have hlive : (code.live f.routine f.held args).run.run v = _ := hrun
  rw [run_noting_invoke, run_noting_invoke, hlive]
  refine ⟨rfl, hkept, ?_, ?_⟩
  · simp only [List.map_append, hcalls, List.map_cons, List.map_nil, hmade]
  · rw [bound_append, hmade]
    rfl

/-- The services of an evaluation against a snapshot do not tell the runs apart. -/
theorem noting_agree : (Services.noting code.live (topContext r top)).Agree (code.Abreast top)
    (Services.noting code.quiet (topContext r top)) where
  heap := agree_unnoted .heap
  tree text := agree_unnoted (expr_ignoresTop r r top text)
  name target name selected := agree_unnoted (nameFor_ignoresTop r r top target name selected)
  member target parent key := agree_unnoted (memberFor_ignoresTop r target parent key)
  prepare f args := agree_unnoted (f.prepare_ignoresTop r args)
  invoke f args := agree_invoke f args

end Binders

/-- The evaluation of a text in a root gives what it gives when the callables skip their binds, and
makes the same calls, on the same arguments and with the same binds. Whether it succeeds or fails,
the binds of these calls then stand in the top scope as it was before, each made after those that
came before it, and nothing else in the world tells that anything was bound. -/
theorem evalTop_live {r : RootId} (code : Binders r) (text : String) {w : World} {top : Scope}
    (htop : w.top? r = some top) :
    let live := (evalTop code.live r text).run.run w
    let quiet := (evalTop code.quiet r text).run.run w
    let calls := callsOf code.live (topContext r top) text w
    live.1 = quiet.1 ∧
      calls.map (fun c => (c.callable, c.args, code.made c)) =
        (callsOf code.quiet (topContext r top) text w).map
          (fun c => (c.callable, c.args, code.skipped c)) ∧
      live.2.top? r = some (code.bound calls top) ∧
      quiet.2.top? r = some top ∧
      live.2 = quiet.2.withTop r (code.bound calls top) := by
  intro live quiet calls
  have hget : (get : Action World).run.run w = (.ok w, w) := rfl
  have hevalTop (host : Host) : (evalTop host r text).run.run w =
      (evalText host (topContext r top) text).run.run w := by
    simp only [evalTop, run_bind_run, hget, htop, Option.getD_some]
  have hstart : code.Abreast top (w, []) (w, []) :=
    ⟨htop, rfl, (World.withTop_top? htop).symm⟩
  have h := Binders.noting_agree.textValue text (w, []) (w, []) hstart
  rw [run_evalText_noting, run_evalText_noting, ← hevalTop, ← hevalTop] at h
  obtain ⟨hresult, hquiet, hcalls, hworld⟩ := h
  have hlive : live.2.top? r = some (code.bound calls top) :=
    (congrArg (fun v : World => v.top? r) hworld).trans (World.top?_withTop hquiet _)
  exact ⟨hresult, hcalls, hlive, hquiet, hworld⟩

/-- A top scope in which `count` is 1 and `bump` a callable. -/
def countingTop : Scope :=
  ((Scope.empty none).bind "count" (.int .bits64 1) .empty).bind "bump"
    (.func ⟨0, "bump", none, .plain "bump", []⟩) .empty

/-- A world with this top scope. -/
def countingWorld : World := (World.empty.newRoot {}).2.withTop 0 countingTop

/-- Callables that bind `count` to 2. -/
def countBinders : Binders 0 := fun _ _ _ =>
  .bind "count" (.int .bits64 2) (.done (.ok (.bool true)))

/-- A text that calls `bump` still sees the old `count`, which is 2 afterwards. -/
theorem evalTop_live_bump :
    let text := "bump() && count == 1"
    let live := (evalTop countBinders.live 0 text).run.run countingWorld
    let calls := callsOf countBinders.live (topContext 0 countingTop) text countingWorld
    countingWorld.top? 0 = some countingTop ∧
      calls.map (fun c => (c.callable.name, c.args.length)) = [("bump", 0)] ∧
      (live.1.map fun v => v.toText live.2.heap).toOption = some "true" ∧
      live.2.top? 0 = some (countBinders.bound calls countingTop) ∧
      ((countBinders.bound calls countingTop).ownValue? "count" live.2.heap).map
        (fun v => v.toText live.2.heap) = some "2" := by
  have htop : countingWorld.top? 0 = some countingTop := rfl
  refine ⟨htop, ?calls, ?result, (evalTop_live countBinders _ htop).2.2.1, ?count⟩
  case calls => decide +kernel
  case result => decide +kernel
  case count => decide +kernel

end DynamicEval
