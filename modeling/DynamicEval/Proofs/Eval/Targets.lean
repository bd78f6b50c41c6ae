import DynamicEval.Proofs.Run
import DynamicEval.Root

/-!
# Targets as arguments

The walk over a tree announces what it wants of a subtree on a stack, from which every node takes
one target. We give the readings of a tree a second time without a stack: what is wanted is an
argument, and a node says of each of its children what it wants of it. Both agree, as every node
takes exactly the target that was announced for it and leaves none behind, whether it succeeds or
fails.

## Main definitions

* `Meaning`, `Expr.meaning`: the readings of a tree, the target of its value an argument.
* `Expr.valueFor`: the value of a tree, as it is wanted.
* `Simulates`: what a computation on a stack has to do with one without.
* `Reading.Refines`: the same for the two readings of a tree.

## Main results

* `Simulates.bind`, `Simulates.wantingMethod`: sequences and calls agree when their parts do.
* `Expr.reading_refines`: the readings of every tree agree.
* `Expr.walk_eq_valueFor`: a walk gives what `Expr.valueFor` gives, and empties the stack.
-/

namespace DynamicEval

/-! ### Evaluation with a target -/

/-- The heap of the world. -/
def Action.heap : Action Heap := return (← get).heap

/-- The readings of a tree, the one for its value for everything that can be wanted. -/
structure Meaning where
  /-- The reading for a value, as it is wanted. -/
  value : Target → Action Value
  /-- The reading as a text. -/
  text : Action String

/-- The readings of a tree whose text is that of its value, which is wanted as a plain one. -/
def Meaning.ofValue (value : Target → Action Value) : Meaning where
  value := value
  text := do
    let v ← value .property
    return v.toText (← Action.heap)

section Nodes

variable (host : Host) (ctx : Context)

/-- The value of a name, as it is wanted. -/
def nameFor (target : Target) (name : String) (selected : Bool) : Action Value := do
  match if selected then none else constant? name with
  | some v => return v
  | none =>
    match ← if target = .method then modifyGet (ctx.method name) else pure none with
    | some m => return m
    | none =>
      let w ← get
      return ((ctx.value name w).bind fun v => target.filter v w.heap).getD .invalid

/-- The member or element of a value that a segment selects, as it is wanted. -/
def memberFor (target : Target) (parent key : Value) : Action Value := do
  if parent.isInvalid then
    return .invalid
  let h ← Action.heap
  match if target = .method then parent.methodAt? [key] h else none with
  | some (name, body, receiver) =>
    modifyGet fun w => w.methodValue (.ofRecord name body receiver)
  | none => return ((parent.propAt? [key] h).bind fun v => target.filter v h).getD .invalid

/-- A call of a value with arguments that are evaluated once it is known to be callable. -/
def callFor (name : String) (callee : Action Value) (args : Action (List Value)) :
    Action Value := do
  let f ← callee
  match f.base (← Action.heap) with
  | .func f =>
    let args ← args
    f.call host args
  | .invalid => throw (.undefinedMethod name)
  | v => throw (.notCallable v.typeName)

/-- A binary operator on values that are known. -/
def binaryOn (op : BinaryOp) (x y : Value) : Action Value := do
  MonadExcept.ofExcept (op.apply x y (← Action.heap))

/-- A binary operator other than a sum. -/
def binaryFor (op : BinaryOp) (left right : Action Value) : Action Value := do
  let x ← left
  if op == .or && x.toBool (← Action.heap) then
    return .bool true
  let y ← right
  binaryOn op x y

/-- A sum, its operands wanted as plain values or read as texts. -/
def sumFor (left right : Meaning) : Action Value := do
  let x ← left.value .property
  if x.isString (← Action.heap) then
    let y ← right.text
    binaryOn .add x (.string y)
  else
    let y ← right.value .property
    if y.isString (← Action.heap) then
      let x ← left.text
      binaryOn .add (.string x) y
    else
      binaryOn .add x y

end Nodes

mutual

/-- The readings of a tree. What is wanted of a tree is handed down to what stands in parentheses; a
callable is wanted of what is called, and plain values of all other subtrees. -/
def Expr.meaning (host : Host) (ctx : Context) : Expr → Meaning
  | .int n => .ofValue fun _ => return .int .bits64 n
  | .float x => .ofValue fun _ => return .float .double x
  | .string s => .ofValue fun _ => return .string s
  | .name s => .ofValue fun target => nameFor ctx target s false
  | .select object field => .ofValue fun target => do
    let parent ← match object with
      | .name s => nameFor ctx .property s true
      | object => (object.meaning host ctx).value .property
    memberFor target parent (.string field)
  | .index object key => .ofValue fun target => do
    let parent ← (object.meaning host ctx).value .property
    let key ← (key.meaning host ctx).value .property
    memberFor target parent key
  | .call callee args => .ofValue fun _ =>
    callFor host callee.text ((callee.meaning host ctx).value .method)
      (Expr.valuesOf host ctx args)
  | .unary op operand => .ofValue fun _ => do
    let v ← (operand.meaning host ctx).value .property
    MonadExcept.ofExcept (op.apply v (← Action.heap))
  | .binary .add left right => {
    value := fun _ => sumFor (left.meaning host ctx) (right.meaning host ctx)
    text := do
      let s ← (left.meaning host ctx).text
      let t ← (right.meaning host ctx).text
      return s ++ t }
  | .binary op left right => .ofValue fun _ =>
    binaryFor op ((left.meaning host ctx).value .property)
      ((right.meaning host ctx).value .property)
  | .paren inner => .ofValue (inner.meaning host ctx).value
termination_by structural e => e

/-- The plain values of trees from left to right. -/
def Expr.valuesOf (host : Host) (ctx : Context) : List Expr → Action (List Value)
  | [] => return []
  | e :: es => do
    let v ← (e.meaning host ctx).value .property
    let vs ← Expr.valuesOf host ctx es
    return v :: vs
termination_by structural es => es

end

/-- The value of a tree, as it is wanted. -/
def Expr.valueFor (host : Host) (ctx : Context) (target : Target) (e : Expr) : Action Value :=
  (e.meaning host ctx).value target

/-! ### Computations on a stack -/

/-- From a stack with the pending targets, `a` has the result of `b` and leaves the world that `b`
leaves, and no target. -/
def Simulates {α : Type} (pending : List Target) (a : Walk α) (b : Action α) : Prop :=
  ∀ (x y : Value) (w : World), let r := a.run.run ⟨⟨pending, x, y⟩, w⟩
    (r.1, r.2.world) = b.run.run w ∧ r.2.stack.targets = []

namespace Simulates

variable {α β : Type} {pending : List Target}

theorem pure (v : α) : Simulates [] (pure v) (pure v) := fun _ _ _ => ⟨rfl, rfl⟩

theorem throw (e : Error) : Simulates (α := α) [] (throw e) (throw e) := fun _ _ _ => ⟨rfl, rfl⟩

/-- What comes second starts with no target, and is not run after a failure. -/
theorem bind {a : Walk α} {b : Action α} {f : α → Walk β} {g : α → Action β}
    (h : Simulates pending a b) (hf : ∀ v, Simulates [] (f v) (g v)) :
    Simulates pending (a >>= f) (b >>= g) := by
  intro x y w
  obtain ⟨hr, htargets⟩ := h x y w
  simp only [run_bind_run]
  rw [← hr]
  generalize a.run.run ⟨⟨pending, x, y⟩, w⟩ = r at htargets ⊢
  rcases r with ⟨e | v, ⟨⟨targets, x', y'⟩, w'⟩⟩ <;> cases htargets
  · exact ⟨rfl, rfl⟩
  · exact hf v x' y' w'

/-- A step that has no effect of its own but on the operands of the last binary operator. -/
theorem skip_bind {a : Walk Unit} {f : Walk β} {g : Action β}
    (h : Simulates [] a (Pure.pure ())) (hf : Simulates [] f g) :
    Simulates [] (a >>= fun _ => f) g := by
  simpa using h.bind fun _ => hf

theorem heap : Simulates [] Walk.heap Action.heap := fun _ _ _ => ⟨rfl, rfl⟩

theorem change (f : World → α × World) : Simulates [] (Walk.change f) (modifyGet f) :=
  fun _ _ _ => ⟨rfl, rfl⟩

theorem setOperands (x y : Value) : Simulates [] (Walk.setOperands x y) (Pure.pure ()) :=
  fun _ _ _ => ⟨rfl, rfl⟩

theorem lift (a : Action α) : Simulates [] (Walk.lift a) a := by
  intro x y w
  have hget (m : Machine) : (get : Walk Machine).run.run m = (.ok m, m) := rfl
  simp only [Walk.lift, run_bind_run, hget]
  rcases a.run.run w with ⟨e | v, w'⟩ <;> exact ⟨rfl, rfl⟩

theorem ofExcept (r : Except Error α) :
    Simulates [] (MonadExcept.ofExcept r) (MonadExcept.ofExcept r) := by
  cases r with
  | ok v => exact pure v
  | error e => exact throw e

/-- A node takes the one target that is pending for it, and a plain value when there is none. -/
theorem popTarget (pending : Option Target) :
    Simulates pending.toList Walk.popTarget (Pure.pure (pending.getD .property)) := by
  cases pending <;> exact fun _ _ _ => ⟨rfl, rfl⟩

theorem popTarget_bind {pending : Option Target} {f : Target → Walk β} {g : Target → Action β}
    (h : ∀ target, Simulates [] (f target) (g target)) :
    Simulates pending.toList (Walk.popTarget >>= f) (g (pending.getD .property)) := by
  simpa using (popTarget pending).bind h

/-- What wants a callable leaves no target behind, whether it succeeds or fails. -/
theorem wantingMethod {a : Walk α} {b : Action α} (h : Simulates [.method] a b) :
    Simulates [] a.wantingMethod b := by
  intro x y w
  obtain ⟨hr, htargets⟩ := h x y w
  have hget (m : Machine) : (get : Walk Machine).run.run m = (.ok m, m) := rfl
  have hmodify (f : Machine → Machine) (m : Machine) :
      (modify f : Walk Unit).run.run m = (.ok (), f m) := rfl
  have hlift (m : Machine) :
      (ExceptT.lift a.run : Walk (Except Error α)).run.run m =
        (.ok (a.run.run m).1, (a.run.run m).2) := rfl
  simp only [Walk.wantingMethod, run_bind_run, hget, hmodify, hlift, Stack.push]
  rw [← hr]
  generalize a.run.run ⟨⟨[.method], x, y⟩, w⟩ = r at htargets ⊢
  rcases r with ⟨e | v, ⟨⟨targets, x', y'⟩, w'⟩⟩ <;> cases htargets <;> exact ⟨rfl, rfl⟩

end Simulates

/-! ### Nodes -/

section Nodes

variable {host : Host} {ctx : Context}

theorem evalName_simulates (ctx : Context) (pending : Option Target) (name : String)
    (selected : Bool) :
    Simulates pending.toList (evalName ctx name selected)
      (nameFor ctx (pending.getD .property) name selected) := by
  refine .popTarget_bind (g := fun target => nameFor ctx target name selected) fun target => ?_
  rw [nameFor]
  rcases if selected then none else constant? name with _ | v
  · have hplain : Simulates []
        (do
          let w := (← get).world
          return ((ctx.value name w).bind fun v => target.filter v w.heap).getD .invalid)
        (do
          let w ← get
          return ((ctx.value name w).bind fun v => target.filter v w.heap).getD .invalid) :=
      fun _ _ _ => ⟨rfl, rfl⟩
    by_cases ht : target = .method
    · simp only [if_pos ht]
      refine (Simulates.change _).bind fun m => ?_
      cases m with
      | some m => exact .pure m
      | none => exact hplain
    · simp only [if_neg ht, pure_bind]
      exact hplain
  · exact .pure v

theorem resolve_simulates (target : Target) (parent key : Value) :
    Simulates [] (resolve target parent key) (memberFor target parent key) := by
  rw [resolve, memberFor]
  split
  · exact .pure _
  · refine Simulates.heap.bind fun h => ?_
    rcases if target = .method then parent.methodAt? [key] h else none with
      _ | ⟨name, body, receiver⟩
    · exact .pure _
    · exact .change _

theorem evalCall_simulates {name : String} {callee : Walk Value} {callee' : Action Value}
    {args : Walk (List Value)} {args' : Action (List Value)}
    (hcallee : Simulates [.method] callee callee') (hargs : Simulates [] args args') :
    Simulates [] (evalCall host name callee args) (callFor host name callee' args') := by
  refine hcallee.wantingMethod.bind fun f => Simulates.heap.bind fun h => ?_
  generalize f.base h = v
  cases v with
  | func f => exact hargs.bind fun vs => .lift _
  | _ => exact .throw _

theorem applyBinary_simulates (op : BinaryOp) (x y : Value) :
    Simulates [] (applyBinary op x y) (binaryOn op x y) :=
  .skip_bind (.setOperands x y) (Simulates.heap.bind fun _ => .ofExcept _)

theorem evalBinary_simulates (op : BinaryOp) {left right : Walk Value}
    {left' right' : Action Value} (hleft : Simulates [] left left')
    (hright : Simulates [] right right') :
    Simulates [] (evalBinary op left right) (binaryFor op left' right') := by
  refine hleft.bind fun x => Simulates.heap.bind fun h => ?_
  split
  · exact .pure _
  · exact hright.bind fun y => applyBinary_simulates op x y

end Nodes

/-! ### Trees -/

/-- The readings of a tree on a stack of targets agree with those that are handed the target: for
any target that is pending, and for none. -/
structure Reading.Refines (r : Reading) (m : Meaning) : Prop where
  /-- The values agree. -/
  value (pending : Option Target) :
    Simulates pending.toList r.value (m.value (pending.getD .property))
  /-- The texts agree. -/
  text : Simulates [] r.text m.text

namespace Reading.Refines

theorem ofValue {a : Walk Value} {b : Target → Action Value}
    (h : ∀ pending : Option Target, Simulates pending.toList a (b (pending.getD .property))) :
    (Reading.ofValue a).Refines (Meaning.ofValue b) where
  value := h
  text := (h none).bind fun _ => Simulates.heap.bind fun _ => .pure _

/-- A node that takes the target off the stack before its children are walked. -/
theorem ofPop {a : Target → Walk Value} {b : Target → Action Value}
    (h : ∀ target, Simulates [] (a target) (b target)) :
    (Reading.ofValue (Walk.popTarget >>= a)).Refines (Meaning.ofValue b) :=
  .ofValue fun _ => .popTarget_bind h

/-- A node that means the same whatever is wanted. -/
theorem ofDiscard {a : Walk Value} {b : Action Value} (h : Simulates [] a b) :
    (Reading.ofValue do discard Walk.popTarget; a).Refines (Meaning.ofValue fun _ => b) :=
  ofPop (a := fun _ => a) fun _ => h

end Reading.Refines

theorem evalSum_simulates {left right : Reading} {left' right' : Meaning}
    (hleft : left.Refines left') (hright : right.Refines right') :
    Simulates [] (evalSum left right) (sumFor left' right') := by
  refine (hleft.value none).bind fun x => Simulates.heap.bind fun h => ?_
  split
  · exact hright.text.bind fun t => applyBinary_simulates .add x (.string t)
  · refine (hright.value none).bind fun y => Simulates.heap.bind fun h => ?_
    split
    · exact hleft.text.bind fun s => applyBinary_simulates .add (.string s) y
    · exact applyBinary_simulates .add x y

mutual

theorem Expr.reading_refines (host : Host) (ctx : Context) :
    (e : Expr) → (e.reading host ctx).Refines (e.meaning host ctx)
  | .int _ => .ofDiscard (.pure _)
  | .float _ => .ofDiscard (.pure _)
  | .string _ => .ofDiscard (.pure _)
  | .name s => .ofValue fun pending => evalName_simulates ctx pending s false
  | .select object field => by
    have hobject := Expr.reading_refines host ctx object
    rw [Expr.reading, Expr.meaning]
    refine .ofPop fun target => ?_
    -- A name that is selected from is looked up by the selection and pops the stack once more.
    cases object with
    | name s => exact (evalName_simulates ctx none s true).bind fun _ => resolve_simulates _ _ _
    | _ => exact (hobject.value none).bind fun _ => resolve_simulates _ _ _
  | .index object key => by
    have hobject := Expr.reading_refines host ctx object
    have hkey := Expr.reading_refines host ctx key
    exact .ofPop fun target => (hobject.value none).bind fun _ => (hkey.value none).bind fun _ =>
      resolve_simulates _ _ _
  | .call callee args => by
    have hcallee := Expr.reading_refines host ctx callee
    have hargs := Expr.evalAll_simulates host ctx args
    exact .ofDiscard (evalCall_simulates (hcallee.value (some .method)) hargs)
  | .unary op operand => by
    have hoperand := Expr.reading_refines host ctx operand
    exact .ofDiscard ((hoperand.value none).bind fun _ => Simulates.heap.bind fun _ => .ofExcept _)
  | .binary op left right => by
    have hleft := Expr.reading_refines host ctx left
    have hright := Expr.reading_refines host ctx right
    cases op with
    | add => exact {
        value := fun _ => .popTarget_bind fun _ => evalSum_simulates hleft hright
        text := hleft.text.bind fun _ => hright.text.bind fun _ => .pure _ }
    | _ => exact .ofDiscard (evalBinary_simulates _ (hleft.value none) (hright.value none))
  | .paren inner => .ofValue (Expr.reading_refines host ctx inner).value

theorem Expr.evalAll_simulates (host : Host) (ctx : Context) :
    (es : List Expr) → Simulates [] (Expr.evalAll host ctx es) (Expr.valuesOf host ctx es)
  | [] => .pure _
  | e :: es =>
    ((Expr.reading_refines host ctx e).value none).bind fun _ =>
      (Expr.evalAll_simulates host ctx es).bind fun _ => .pure _

end

/-- An evaluation is a walk from an empty stack. -/
theorem Expr.run_eval (host : Host) (ctx : Context) (e : Expr) (w : World) :
    (e.eval host ctx).run.run w =
      ((e.walk host ctx ⟨.empty, w⟩).1, (e.walk host ctx ⟨.empty, w⟩).2.world) := by
  have hget (w : World) : (get : Action World).run.run w = (.ok w, w) := rfl
  simp only [Expr.eval, run_bind_run, hget]
  rcases e.walk host ctx ⟨.empty, w⟩ with ⟨err | v, m⟩ <;> rfl

/-- An evaluation runs as the reading of a tree for a plain value. -/
theorem Expr.run_eval_eq_meaning (host : Host) (ctx : Context) (e : Expr) (w : World) :
    (e.eval host ctx).run.run w = ((e.meaning host ctx).value .property).run.run w :=
  (e.run_eval host ctx w).trans ((e.reading_refines host ctx).value none .invalid .invalid w).1

/-- Whether it succeeds or fails, a walk has the result of the evaluation that is handed the target
and changes the world as that does: from no target it evaluates for a plain value, and from one
target for what that target wants. No target is left in either case. -/
theorem Expr.walk_eq_valueFor (host : Host) (ctx : Context) (e : Expr) :
    e.eval host ctx = e.valueFor host ctx .property ∧
      (∀ x y w, let r := e.walk host ctx ⟨⟨[], x, y⟩, w⟩
        (r.1, r.2.world) = (e.valueFor host ctx .property).run.run w ∧
          r.2.stack.targets = []) ∧
      ∀ target x y w, let r := e.walk host ctx ⟨⟨[target], x, y⟩, w⟩
        (r.1, r.2.world) = (e.valueFor host ctx target).run.run w ∧
          r.2.stack.targets = [] := by
  have hvalue := (Expr.reading_refines host ctx e).value
  refine ⟨?_, hvalue none, fun target => hvalue (some target)⟩
  refine ExceptT.ext (StateT.ext fun w => ?_)
  obtain ⟨hr, -⟩ := hvalue none .invalid .invalid w
  rw [Expr.run_eval]
  exact hr

end DynamicEval
