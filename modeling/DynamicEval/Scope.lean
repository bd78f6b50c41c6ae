import DynamicEval.Merge
import DynamicEval.Path.Read

/-!
# Scopes

A scope gives meaning to names. A name is looked up among the bindings of the scope, then in the
objects that are linked to it, in their order, and then in the top scope of its root. Callables are
bound apart from plain values, and are looked for in the linked objects first.

## Main definitions

* `Scope`: bindings, saved bindings, callables and linked objects.
* `Scope.bind`, `Scope.unbind`, `Scope.backup`, `Scope.restore`: bindings of names.
* `Scope.link`, `Scope.unlink`, `Scope.absorb`, `Scope.absorbScope`: linked objects.
* `Scope.ownValue?`, `Scope.ownMethod?`: lookup without the root.
-/

namespace DynamicEval

/-- The place of a root in the world. -/
abbrev RootId := Nat

/-- A naming environment. -/
structure Scope where
  /-- The plain bindings, entries of a map from texts to slots. -/
  binds : List (Key × Value)
  /-- The bindings that were saved, by name. -/
  saved : List (String × Value)
  /-- The bound callables, by name. -/
  callers : List (String × Value)
  /-- The linked objects in the order of lookup. -/
  vars : List Value
  /-- The root behind the scope; the top scope of a root has none. -/
  root : Option RootId

/-- A method as it was found: bound to its receiver anew, or a callable that is held somewhere. -/
inductive FoundMethod where
  /-- A method of a record: its name, the routine behind it and its receiver. -/
  | ofRecord (name : String) (body : String) (receiver : Value)
  /-- A callable that is held somewhere. -/
  | held (f : Value)

namespace Scope

/-- A scope without anything in it. -/
def empty (root : Option RootId) : Scope := ⟨[], [], [], [], root⟩

/-- Whether there is no root behind the scope. -/
def isTop (s : Scope) : Bool := s.root.isNone

/-- The type of the bindings as a map. -/
def bindsTy : Ty := .map .string .any

/-- The bindings as a map. -/
def bindsMap (s : Scope) : Value := .map .string .any s.binds

/-- Gives a name a plain value. -/
def putPlain (s : Scope) (name : String) (v : Value) : Scope :=
  { s with binds := Entries.put (.string name) v.boxed s.binds }

/-- Binds a name. Callables are bound apart from plain values. -/
def bind (s : Scope) (name : String) (v : Value) (h : Heap) : Scope :=
  if v.isFunc h then { s with callers := Assoc.put name v.peel s.callers } else s.putPlain name v

/-- Removes every binding of a name. -/
def unbind (s : Scope) (name : String) : Scope :=
  { s with
    binds := Entries.erase (.string name) s.binds
    callers := Assoc.erase name s.callers }

/-- Saves the plain binding of a name, if it has one. -/
def backup (s : Scope) (name : String) : Scope :=
  match Entries.find? (.string name) s.binds with
  | some v => { s with saved := Assoc.put name v.peel s.saved }
  | none => s

/-- Puts back the binding of a name that was saved. -/
def restore (s : Scope) (name : String) : Scope :=
  match Assoc.find? name s.saved with
  | some v => { s with saved := Assoc.erase name s.saved }.putPlain name v
  | none => s

/-- Links objects before those that are linked already. -/
def link (s : Scope) (objects : List Value) : Scope :=
  { s with vars := objects ++ s.vars }

/-- Whether two values are one object: pointers by their cell, all other values by equality. -/
def sameObject (h : Heap) (v w : Value) : Bool :=
  if v.isPointer || w.isPointer then v.same? w == some true else v.eq w h

/-- Removes the first linked object that is the given one. -/
def unlink (s : Scope) (object : Value) (h : Heap) : Scope :=
  { s with vars := s.vars.eraseP (sameObject h · object) }

/-- Merges entries into the bindings. A failure leaves the bindings as they are, though not the
cells behind them. -/
def mergeBinds (s : Scope) (source : Value) (h : Heap) : Heap × Scope × Except Error Unit :=
  let r := s.bindsMap.merge source h
  match r.result, r.value with
  | .ok (), .map _ _ binds => (r.heap, { s with binds := binds }, .ok ())
  | result, _ => (r.heap, s, result)

/-- Takes a value in: the entries of a map from texts to slots are merged into the bindings, nothing
is ignored, and any other value is linked. -/
def absorb (s : Scope) (v : Value) (h : Heap) : Heap × Scope × Except Error Unit :=
  if v.isNil then (h, s, .ok ())
  else if v.baseTy h == bindsTy then s.mergeBinds v h
  else (h, s.link [v], .ok ())

/-- Takes the bindings, callables and linked objects of another scope in. Each object is linked
before those that are linked already, one after the other. -/
def absorbScope (s other : Scope) (h : Heap) : Heap × Scope × Except Error Unit :=
  match s.mergeBinds other.bindsMap h with
  | (h, s, .error e) => (h, s, .error e)
  | (h, s, .ok ()) =>
    let s := { s with callers := other.callers.foldl (fun cs c => Assoc.put c.1 c.2 cs) s.callers }
    (h, other.vars.foldl (fun s v => s.link [v]) s, .ok ())

/-- The value of a possibly dotted name among the bindings, or else in the linked objects. -/
def ownValue? (s : Scope) (name : String) (h : Heap) : Option Value :=
  match s.bindsMap.propById? name h with
  | some v => some v
  | none => s.vars.findSome? fun v => v.propById? name h

/-- The method of a possibly dotted name in the linked objects, or else the callable bound to the
name. -/
def ownMethod? (s : Scope) (name : String) (h : Heap) : Option FoundMethod :=
  match s.vars.findSome? fun v => v.methodById? name h with
  | some (name, body, receiver) => some (.ofRecord name body receiver)
  | none => (Assoc.find? name s.callers).map .held

end Scope

end DynamicEval
