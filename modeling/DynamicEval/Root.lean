import DynamicEval.Eval

/-!
# Evaluation in scopes and roots

A scope evaluates in the world as it is, and remembers expressions in the cache of its root. A root
evaluates against a snapshot of its top scope, so that what callables bind there meanwhile is seen
by later evaluations only.

## Main definitions

* `Scope.context`, `World.topContext`, `Context.ofAttributes`: contexts of evaluation.
* `Scope.eval`, `evalTop`: evaluation of texts.
-/

namespace DynamicEval

/-- Names as a scope gives meaning to them, and the cache of its root. -/
def Scope.context (s : Scope) : Context where
  value name w := w.value? s name
  method name w := w.methodValue? (w.method? s name)
  remembered text w :=
    match s.root with
    | some r => w.remembered r text
    | none => (none, w)
  remember text e w :=
    match s.root with
    | some r => w.remember r text e
    | none => w

/-- Names as the top scope `top` of a root gives meaning to them, and the cache of the root. -/
def topContext (r : RootId) (top : Scope) : Context where
  value name w := top.ownValue? name w.heap
  method name w := w.methodValue? (top.ownMethod? name w.heap)
  remembered text w := w.remembered r text
  remember text e w := w.remember r text e

/-- Names as the parts of a value, without callables and without a memory. -/
def Context.ofAttributes (v : Value) : Context where
  value name w := v.propById? name w.heap
  method _ w := (none, w)
  remembered _ w := (none, w)
  remember _ _ w := w

/-- The value of a text in a scope. -/
def Scope.eval (host : Host) (s : Scope) (text : String) : Action Value :=
  evalText host s.context text

/-- The value of a text in the top scope of a root, as it is before the evaluation. -/
def evalTop (host : Host) (r : RootId) (text : String) : Action Value := do
  let top := ((← get).top? r).getD (.empty none)
  evalText host (topContext r top) text

end DynamicEval
