import DynamicEval.Config
import DynamicEval.Expr
import DynamicEval.Scope

/-!
# The world

Everything that evaluation can read and change: the heap, the roots with their top scopes, and the
caches of expressions. Host code also has a log and a tally. Callables run as a host says, which may
change the world in any way.

Evaluation takes one step after another, so there are no locks around what is shared. Diagnostic
output and the forms in which trees and tokens are stored are left out, as nothing here reads them.

## Main definitions

* `World`: the state.
* `Root`: a top scope with a cache of expressions.
* `Action`: a computation that changes the world and may fail.
* `Host`: the meaning of the routines behind callables.
* `Callable.call`: a call.
-/

namespace DynamicEval

/-- A cache of expressions by their texts. -/
abbrev ExprCache := Cache String Expr

/-- The place of a cache in the world. -/
abbrev CacheId := Nat

/-- A top scope with a cache of expressions. -/
structure Root where
  /-- The last scope in which names are looked up. -/
  top : Scope
  /-- The cache in use. -/
  cache : CacheId
  /-- The policy of the cache and of those that replace it. -/
  policy : CachePolicy

/-- The state of evaluation. -/
structure World where
  /-- The content of cells. -/
  heap : Heap
  /-- The identity of the next callable. -/
  nextIdentity : Nat
  /-- The roots, by their places. -/
  roots : Array Root
  /-- The caches, by their places; a replaced one stays. -/
  caches : Array ExprCache
  /-- The lines that host code has logged. -/
  log : List String
  /-- The tally that host code keeps. -/
  tally : Nat

/-- A computation that changes the world and may fail; what it changed before a failure stays. -/
abbrev Action := ExceptT Error (StateM World)

/-- The meaning of the routines behind callables, on the values held ready for them and on
arguments. -/
abbrev Host := Routine → List Value → List Value → Action Value

/-- A computation on the heap as an action. -/
def HeapM.act {α : Type} (m : HeapM α) : Action α := do
  match m.run (← get).heap with
  | .ok (a, h) =>
    modify fun w => { w with heap := h }
    return a
  | .error e => throw e

namespace World

/-- A world without roots. -/
def empty : World := ⟨.empty, 0, #[], #[], [], 0⟩

/-- A new callable. -/
def newCallable (w : World) (name : String) (params : Option (List Ty)) (routine : Routine)
    (held : List Value) : Value × World :=
  (.func ⟨w.nextIdentity, name, params, routine, held⟩,
    { w with nextIdentity := w.nextIdentity + 1 })

/-- The callable for a method that was found. A method of a record becomes a new callable that holds
its receiver. -/
def methodValue (w : World) : FoundMethod → Value × World
  | .held f => (f, w)
  | .ofRecord name body receiver => w.newCallable name none (.method body) [receiver]

/-- Likewise for a method that may not have been found. -/
def methodValue? (w : World) : Option FoundMethod → Option Value × World
  | none => (none, w)
  | some m => ((w.methodValue m).1, (w.methodValue m).2)

/-- A new root. -/
def newRoot (w : World) (config : RootConfig) : RootId × World :=
  let root : Root := ⟨.empty none, w.caches.size, config.cachePolicy⟩
  (w.roots.size,
    { w with
      roots := w.roots.push root
      caches := w.caches.push (.empty config.cachePolicy config.cacheSize) })

/-- The top scope of a root. -/
def top? (w : World) (r : RootId) : Option Scope :=
  w.roots[r]?.map (·.top)

/-- The cache of a root that is in use. -/
def cache? (w : World) (r : RootId) : Option ExprCache :=
  w.roots[r]?.bind fun root => w.caches[root.cache]?

/-- Changes the top scope of a root. -/
def modifyTop (w : World) (r : RootId) (f : Scope → Scope) : World :=
  { w with roots := w.roots.modify r fun root => { root with top := f root.top } }

/-- Changes the cache of a root that is in use. -/
def modifyCache (w : World) (r : RootId) (f : ExprCache → ExprCache) : World :=
  match w.roots[r]? with
  | some root => { w with caches := w.caches.modify root.cache f }
  | none => w

/-- The configuration of a root. -/
def config (w : World) (r : RootId) : RootConfig :=
  match w.roots[r]?, w.cache? r with
  | some root, some cache => ⟨cache.capacity, root.policy⟩
  | _, _ => {}

/-- Replaces the cache of a root by an empty one of the given capacity. -/
def setCacheSize (w : World) (r : RootId) (capacity : Nat) : World :=
  match w.roots[r]? with
  | some root =>
    { w with
      roots := w.roots.setIfInBounds r { root with cache := w.caches.size }
      caches := w.caches.push (.empty root.policy capacity) }
  | none => w

/-- Looks an expression up in the cache of a root, which may count as a touch. -/
def remembered (w : World) (r : RootId) (text : String) : Option Expr × World :=
  match w.cache? r with
  | some cache => ((cache.get text).1, w.modifyCache r fun _ => (cache.get text).2)
  | none => (none, w)

/-- Stores an expression in the cache of a root. -/
def remember (w : World) (r : RootId) (text : String) (e : Expr) : World :=
  w.modifyCache r fun cache => cache.put text e

/-- The value of a possibly dotted name in a scope or else in the top scope of its root. -/
def value? (w : World) (s : Scope) (name : String) : Option Value :=
  match s.ownValue? name w.heap with
  | some v => some v
  | none => (s.root.bind w.top?).bind fun top => top.ownValue? name w.heap

/-- The method of a possibly dotted name in a scope or else in the top scope of its root. -/
def method? (w : World) (s : Scope) (name : String) : Option FoundMethod :=
  match s.ownMethod? name w.heap with
  | some m => some m
  | none => (s.root.bind w.top?).bind fun top => top.ownMethod? name w.heap

end World

/-- Arguments coerced into the declared types of parameters. -/
def coerceArgs : List Ty → List Value → HeapM (List Value)
  | t :: ts, v :: vs => do
    let w ← t.coerce v
    let ws ← coerceArgs ts vs
    return w :: ws
  | _, _ => return []

/-- Calls a callable. Declared parameters fix the number of arguments and their types. -/
def CallableOf.call (host : Host) (f : Callable) (args : List Value) : Action Value := do
  match f.params with
  | none => host f.routine f.held args
  | some params =>
    if params.length ≠ args.length then
      throw (.arityMismatch f.name params.length args.length)
    let args ← (coerceArgs params args).act
    host f.routine f.held args

end DynamicEval
