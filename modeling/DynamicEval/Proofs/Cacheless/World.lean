import DynamicEval.Proofs.Cache
import DynamicEval.Proofs.Eval.Targets

/-!
# Worlds without caches

A cache is faithful when every expression in it is what its text is read as. Whatever is done to a
world with faithful caches should leave such a world, and should do to the rest of the world what is
done to it when there are no caches at all: the computations with and without caches mirror each
other.

## Main definitions

* `World.Faithful`: every expression in a cache is what its text is read as.
* `World.bare`: a world without its caches.
* `Action.Mirrors`, `Host.Mirrors`: computations with caches and without.

## Main results

* `World.Faithful.remembered`, `World.Faithful.remember`: use of a cache keeps it faithful.
* `Action.Mirrors.bind`: sequences mirror each other when their parts do.
-/

namespace DynamicEval

/-! ### Worlds without caches -/

/-- A root without its cache, and without a policy for it. -/
def Root.bare (r : Root) : Root := { r with cache := 0, policy := .lru }

namespace World

/-- Every expression in a cache is what its text is read as. -/
def Faithful (w : World) : Prop := ∀ c ∈ w.caches, c.Stores fun text e => Expr.read text = .ok e

/-- A world without its caches. -/
def bare (w : World) : World := { w with roots := w.roots.map Root.bare, caches := #[] }

/-- A new root without a cache. -/
def addRoot (w : World) : RootId × World :=
  (w.roots.size, { w with roots := w.roots.push (Root.bare ⟨.empty none, 0, .lru⟩) })

variable {w : World}

@[simp] theorem bare_heap (w : World) : w.bare.heap = w.heap := rfl

@[simp] theorem bare_bare (w : World) : w.bare.bare = w.bare := by
  have hroot : Root.bare ∘ Root.bare = Root.bare := rfl
  simp only [bare, Array.map_map, hroot]

@[simp] theorem bare_top? (w : World) : w.bare.top? = w.top? := by
  have hroot : (fun root : Root => root.top) ∘ Root.bare = fun root => root.top := rfl
  funext r
  simp only [bare, top?, Array.getElem?_map, Option.map_map, hroot]

@[simp] theorem bare_value? (w : World) (s : Scope) (name : String) :
    w.bare.value? s name = w.value? s name := by
  simp only [value?, bare_heap, bare_top?]

@[simp] theorem bare_method? (w : World) (s : Scope) (name : String) :
    w.bare.method? s name = w.method? s name := by
  simp only [method?, bare_heap, bare_top?]

theorem bare_modifyTop (w : World) (r : RootId) (f : Scope → Scope) :
    (w.modifyTop r f).bare = w.bare.modifyTop r f := by
  have hroots : (w.modifyTop r f).bare.roots = (w.bare.modifyTop r f).roots := by
    refine Array.ext_getElem? fun i => ?_
    simp only [bare, modifyTop, Array.getElem?_map, Array.getElem?_modify]
    split
    · simp only [Option.map_map]
      rfl
    · rfl
  simp only [bare, modifyTop] at hroots ⊢
  rw [hroots]

theorem bare_newRoot (w : World) (config : RootConfig) :
    w.bare.addRoot = ((w.newRoot config).1, (w.newRoot config).2.bare) := by
  simp only [addRoot, newRoot, bare, Array.size_map, Array.map_push]
  rfl

theorem bare_modifyCache (w : World) (r : RootId) (f : ExprCache → ExprCache) :
    (w.modifyCache r f).bare = w.bare := by
  rw [modifyCache]
  split <;> rfl

theorem bare_setCacheSize (w : World) (r : RootId) (capacity : Nat) :
    (w.setCacheSize r capacity).bare = w.bare := by
  rw [setCacheSize]
  split
  · next root hroot =>
    -- The new cache of the root is all that the two arrays of roots differ in.
    have hroots : (w.roots.setIfInBounds r { root with cache := w.caches.size }).map Root.bare =
        w.roots.map Root.bare := by
      refine Array.ext_getElem? fun i => ?_
      simp only [Array.getElem?_map, Array.getElem?_setIfInBounds]
      split
      · next heq =>
        subst heq
        rw [hroot]
        split
        · rfl
        · next hlt => exact absurd (Array.getElem?_eq_some_iff.mp hroot).1 hlt
      · rfl
    simp only [bare, hroots]
  · rfl

theorem bare_methodValue? (w : World) (m : Option FoundMethod) :
    w.bare.methodValue? m = ((w.methodValue? m).1, (w.methodValue? m).2.bare) := by
  rcases m with _ | (_ | _) <;> rfl

theorem methodValue?_caches (w : World) (m : Option FoundMethod) :
    (w.methodValue? m).2.caches = w.caches := by
  rcases m with _ | (_ | _) <;> rfl

theorem faithful_of_caches (hcaches : w.caches = #[]) : w.Faithful := by
  rw [Faithful, hcaches]
  exact fun _ hc => absurd hc (Array.not_mem_empty _)

theorem Faithful.cache? (hw : w.Faithful) {r : RootId} {c : ExprCache} (hc : w.cache? r = some c) :
    c.Stores fun text e => Expr.read text = .ok e := by
  obtain ⟨root, -, hc⟩ := Option.bind_eq_some_iff.mp hc
  exact hw c (Array.mem_of_getElem? hc)

/-- The expression that is found in the cache of a root is what the text is read as. -/
theorem Faithful.remembered_eq (hw : w.Faithful) {r : RootId} {text : String} {e : Expr}
    (he : (w.remembered r text).1 = some e) : Expr.read text = .ok e := by
  rw [remembered] at he
  split at he
  · next c hc => exact (hw.cache? hc).get_eq he
  · cases he

theorem Faithful.push (hw : w.Faithful) (policy : CachePolicy) (capacity : Nat) :
    ∀ c ∈ w.caches.push (.empty policy capacity),
      c.Stores fun text e => Expr.read text = .ok e := by
  intro c hc
  rcases Array.mem_push.mp hc with hc | rfl
  · exact hw c hc
  · exact .empty policy capacity

theorem Faithful.newRoot (hw : w.Faithful) (config : RootConfig) : (w.newRoot config).2.Faithful :=
  hw.push _ _

theorem Faithful.setCacheSize (hw : w.Faithful) (r : RootId) (capacity : Nat) :
    (w.setCacheSize r capacity).Faithful := by
  rw [World.setCacheSize]
  split
  · exact hw.push _ _
  · exact hw

theorem Faithful.modifyCache (hw : w.Faithful) (r : RootId) {f : ExprCache → ExprCache}
    (hf : ∀ c, w.cache? r = some c → (f c).Stores fun text e => Expr.read text = .ok e) :
    (w.modifyCache r f).Faithful := by
  rw [World.modifyCache]
  split
  · next root hroot =>
    intro c hc
    obtain ⟨i, hi⟩ := Array.getElem?_of_mem hc
    rw [Array.getElem?_modify] at hi
    split at hi
    · next heq =>
      obtain ⟨old, hold, rfl⟩ := Option.map_eq_some_iff.mp hi
      refine hf old ?_
      rw [World.cache?, hroot, Option.bind_some, heq]
      exact hold
    · exact hw c (Array.mem_of_getElem? hi)
  · exact hw

/-- Looking an expression up keeps caches faithful. -/
theorem Faithful.remembered (hw : w.Faithful) (r : RootId) (text : String) :
    (w.remembered r text).2.Faithful := by
  rw [World.remembered]
  split
  · next c hc => exact hw.modifyCache r fun _ _ => (hw.cache? hc).get text
  · exact hw

theorem bare_remembered (w : World) (r : RootId) (text : String) :
    (w.remembered r text).2.bare = w.bare := by
  rw [remembered]
  split
  · exact bare_modifyCache w r _
  · rfl

/-- Remembering what a text is read as keeps caches faithful. -/
theorem Faithful.remember (hw : w.Faithful) (r : RootId) {text : String} {e : Expr}
    (he : Expr.read text = .ok e) : (w.remember r text e).Faithful :=
  hw.modifyCache r fun _ hc => (hw.cache? hc).put he

end World

/-! ### Computations with and without caches -/

/-- From a world with faithful caches, `a` leaves such a world, and `b` does to the world without
its caches what `a` does to that world, with the same result. -/
def Action.Mirrors {α : Type} (a b : Action α) : Prop :=
  ∀ w : World, w.Faithful → (a.run.run w).2.Faithful ∧
    b.run.run w.bare = ((a.run.run w).1, (a.run.run w).2.bare)

namespace Action.Mirrors

variable {α β γ : Type}

theorem pure (v : α) : Mirrors (Pure.pure v) (Pure.pure v) := fun _ hw => ⟨hw, rfl⟩

theorem throw (e : Error) : Mirrors (α := α) (MonadExcept.throw e) (MonadExcept.throw e) :=
  fun _ hw => ⟨hw, rfl⟩

theorem ofExcept (r : Except Error α) :
    Mirrors (MonadExcept.ofExcept r) (MonadExcept.ofExcept r) := by
  cases r with
  | ok v => exact pure v
  | error e => exact throw e

theorem bind {a b : Action α} {f g : α → Action β} (hab : a.Mirrors b)
    (hfg : ∀ v, (f v).Mirrors (g v)) : (a >>= f).Mirrors (b >>= g) := by
  intro w hw
  obtain ⟨hfaithful, hrun⟩ := hab w hw
  simp only [run_bind_run, hrun]
  generalize a.run.run w = r at hfaithful ⊢
  rcases r with ⟨e | v, w'⟩
  · exact ⟨hfaithful, rfl⟩
  · exact hfg v w' hfaithful

/-- A part of the world that has nothing to do with caches is read. -/
theorem get_bind {k : World → γ} {f g : γ → Action β} (hk : ∀ w : World, k w.bare = k w)
    (hfg : ∀ c, (f c).Mirrors (g c)) :
    Mirrors (get >>= fun w => f (k w)) (get >>= fun w => g (k w)) := by
  intro w hw
  obtain ⟨hfaithful, hrun⟩ := hfg (k w) w hw
  exact ⟨hfaithful, (congrArg (fun c => (g c).run.run w.bare) (hk w)).trans hrun⟩

theorem heap : Action.heap.Mirrors Action.heap :=
  get_bind (k := World.heap) World.bare_heap pure

/-- A change of the world that does not fail. -/
theorem modifyGet {f g : World → α × World} (hf : ∀ w, w.Faithful → (f w).2.Faithful)
    (hg : ∀ w, w.Faithful → g w.bare = ((f w).1, (f w).2.bare)) :
    Mirrors (MonadStateOf.modifyGet f) (MonadStateOf.modifyGet g) :=
  fun w hw => ⟨hf w hw, congrArg (fun r : α × World => (Except.ok r.1, r.2)) (hg w hw)⟩

/-- A computation on the heap. -/
theorem act (m : HeapM α) : m.act.Mirrors m.act := by
  intro w hw
  have hget (w : World) : (get : Action World).run.run w = (.ok w, w) := rfl
  simp only [HeapM.act, run_bind_run, hget, World.bare_heap]
  rcases m.run w.heap with e | ⟨a, h⟩ <;> exact ⟨hw, rfl⟩

end Action.Mirrors

/-- Routines that mirror each other. -/
def Host.Mirrors (host host' : Host) : Prop :=
  ∀ routine held args, (host routine held args).Mirrors (host' routine held args)

end DynamicEval
