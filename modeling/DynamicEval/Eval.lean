import DynamicEval.Eval.Operation
import DynamicEval.Expr.Parser
import DynamicEval.Expr.Printer
import DynamicEval.Text.Blank
import DynamicEval.World

/-!
# Evaluation

An expression is evaluated by a walk over its tree. A name or a member means a callable where a call
wants one and a plain value elsewhere; what is wanted stands on a stack of targets, from which every
node takes what was meant for it. A sum with a text on either side is read again as a text, operand
by operand, so a node denotes two readings: one for its value and one for its text.

## Main definitions

* `Context`: how names are resolved and where expressions are remembered.
* `Target`, `Stack`: what is wanted, and the state of a walk.
* `Reading`, `Expr.reading`: the readings of a tree.
* `Expr.walk`, `Expr.eval`: the value of a tree, from a given state and from an empty stack.
* `evalText`: the value of a text.
-/

namespace DynamicEval

/-- How names are resolved and where expressions are remembered. -/
structure Context where
  /-- The plain value of a possibly dotted name. -/
  value : String → World → Option Value
  /-- The callable of a possibly dotted name. -/
  method : String → World → Option Value × World
  /-- The remembered expression of a text. -/
  remembered : String → World → Option Expr × World
  /-- Remembers the expression of a text. -/
  remember : String → Expr → World → World

/-- What a name or a member is wanted for. -/
inductive Target where
  /-- A plain value. -/
  | property
  /-- A callable, for which methods win over fields. -/
  | method
deriving DecidableEq

/-- The state of a walk. -/
structure Stack where
  /-- What is wanted, the innermost wish first. -/
  targets : List Target
  /-- The left operand of the last binary operator. -/
  x : Value
  /-- The right operand of the last binary operator. -/
  y : Value

namespace Stack

/-- A stack before a walk. -/
def empty : Stack := ⟨[], .invalid, .invalid⟩

/-- Announces what is wanted next. -/
def push (s : Stack) (t : Target) : Stack := { s with targets := t :: s.targets }

/-- Takes what is wanted off the stack, a plain value when nothing was announced. -/
def pop (s : Stack) : Target × Stack :=
  (s.targets.headD .property, { s with targets := s.targets.tail })

/-- Drops what was announced after the stack had the given depth. -/
def truncate (s : Stack) (depth : Nat) : Stack :=
  { s with targets := s.targets.drop (s.targets.length - depth) }

end Stack

/-- The state of a walk together with the world. -/
structure Machine where
  /-- The state of the walk. -/
  stack : Stack
  /-- The world. -/
  world : World

/-- A computation within a walk. -/
abbrev Walk := ExceptT Error (StateM Machine)

namespace Walk

/-- The heap of the world. -/
def heap : Walk Heap := return (← get).world.heap

/-- An action on the world within a walk. -/
def lift {α : Type} (a : Action α) : Walk α := do
  let m ← get
  let (result, world) := a.run.run m.world
  set { m with world := world }
  match result with
  | .ok a => return a
  | .error e => throw e

/-- A change of the world without failure. -/
def change {α : Type} (f : World → α × World) : Walk α :=
  modifyGet fun m => ((f m.world).1, { m with world := (f m.world).2 })

/-- Takes what is wanted off the stack. -/
def popTarget : Walk Target :=
  modifyGet fun m => (m.stack.pop.1, { m with stack := m.stack.pop.2 })

/-- Sets the operands of the last binary operator. -/
def setOperands (x y : Value) : Walk Unit :=
  modify fun m => { m with stack := { m.stack with x := x, y := y } }

/-- Runs a computation that wants a callable. Whether it succeeds or fails, it leaves nothing behind
that it announced. -/
def wantingMethod {α : Type} (a : Walk α) : Walk α := do
  let depth := (← get).stack.targets.length
  modify fun m => { m with stack := m.stack.push .method }
  let result : Except Error α ← ExceptT.lift a.run
  modify fun m => { m with stack := m.stack.truncate depth }
  match result with
  | .ok a => return a
  | .error e => throw e

end Walk

/-- A value, if it is what is wanted: a callable wherever one is wanted. -/
def Target.filter (t : Target) (v : Value) (h : Heap) : Option Value :=
  if t == .method && !v.isFunc h then none else some v

/-- The two readings of a tree. -/
structure Reading where
  /-- The reading for a value. -/
  value : Walk Value
  /-- The reading as a text. -/
  text : Walk String

/-- The readings of a tree whose text is that of its value. -/
def Reading.ofValue (value : Walk Value) : Reading where
  value := value
  text := do
    let v ← value
    return v.toText (← Walk.heap)

/-- The constant that a name stands for. -/
def constant? (name : String) : Option Value :=
  if name = "nil" ∨ name = "null" then some .invalid
  else if name = "true" then some (.bool true)
  else if name = "false" then some (.bool false)
  else none

section Nodes

variable (host : Host) (ctx : Context)

/-- The value of a name. The names of constants are names like any other where a member of theirs is
selected. -/
def evalName (name : String) (selected : Bool) : Walk Value := do
  let target ← Walk.popTarget
  match if selected then none else constant? name with
  | some v => return v
  | none =>
    match ← if target = .method then Walk.change (ctx.method name) else pure none with
    | some m => return m
    | none =>
      let w := (← get).world
      return ((ctx.value name w).bind fun v => target.filter v w.heap).getD .invalid

/-- The member or element of a value that a segment selects, as it is wanted. -/
def resolve (target : Target) (parent key : Value) : Walk Value := do
  if parent.isInvalid then
    return .invalid
  let h ← Walk.heap
  match if target = .method then parent.methodAt? [key] h else none with
  | some (name, body, receiver) =>
    Walk.change fun w => w.methodValue (.ofRecord name body receiver)
  | none => return ((parent.propAt? [key] h).bind fun v => target.filter v h).getD .invalid

/-- A call of the value of a tree with arguments that are evaluated once the value is known to be
callable. -/
def evalCall (name : String) (callee : Walk Value) (args : Walk (List Value)) : Walk Value := do
  let f ← callee.wantingMethod
  match f.base (← Walk.heap) with
  | .func f =>
    let args ← args
    Walk.lift (f.call host args)
  | .invalid => throw (.undefinedMethod name)
  | v => throw (.notCallable v.typeName)

/-- A binary operator on values that are known. -/
def applyBinary (op : BinaryOp) (x y : Value) : Walk Value := do
  Walk.setOperands x y
  MonadExcept.ofExcept (op.apply x y (← Walk.heap))

/-- A binary operator other than a sum. Only a disjunction may do without its right operand. -/
def evalBinary (op : BinaryOp) (left right : Walk Value) : Walk Value := do
  let x ← left
  if op == .or && x.toBool (← Walk.heap) then
    return .bool true
  let y ← right
  applyBinary op x y

/-- A sum. Once a side is a text the other is read as one. -/
def evalSum (left right : Reading) : Walk Value := do
  let x ← left.value
  if x.isString (← Walk.heap) then
    let y ← right.text
    applyBinary .add x (.string y)
  else
    let y ← right.value
    if y.isString (← Walk.heap) then
      let x ← left.text
      applyBinary .add (.string x) y
    else
      applyBinary .add x y

end Nodes

mutual

/-- The readings of a tree. -/
def Expr.reading (host : Host) (ctx : Context) : Expr → Reading
  | .int n => .ofValue do
    discard Walk.popTarget
    return .int .bits64 n
  | .float x => .ofValue do
    discard Walk.popTarget
    return .float .double x
  | .string s => .ofValue do
    discard Walk.popTarget
    return .string s
  | .name s => .ofValue (evalName ctx s false)
  | .select object field => .ofValue do
    let target ← Walk.popTarget
    let parent ← match object with
      | .name s => evalName ctx s true
      | object => (object.reading host ctx).value
    resolve target parent (.string field)
  | .index object key => .ofValue do
    let target ← Walk.popTarget
    let parent ← (object.reading host ctx).value
    let key ← (key.reading host ctx).value
    resolve target parent key
  | .call callee args => .ofValue do
    discard Walk.popTarget
    evalCall host callee.text (callee.reading host ctx).value (Expr.evalAll host ctx args)
  | .unary op operand => .ofValue do
    discard Walk.popTarget
    let v ← (operand.reading host ctx).value
    MonadExcept.ofExcept (op.apply v (← Walk.heap))
  | .binary .add left right => {
    value := do
      discard Walk.popTarget
      evalSum (left.reading host ctx) (right.reading host ctx)
    text := do
      let s ← (left.reading host ctx).text
      let t ← (right.reading host ctx).text
      return s ++ t }
  | .binary op left right => .ofValue do
    discard Walk.popTarget
    evalBinary op (left.reading host ctx).value (right.reading host ctx).value
  | .paren inner => .ofValue (inner.reading host ctx).value
termination_by structural e => e

/-- The values of trees from left to right. -/
def Expr.evalAll (host : Host) (ctx : Context) : List Expr → Walk (List Value)
  | [] => return []
  | e :: es => do
    let v ← (e.reading host ctx).value
    let vs ← Expr.evalAll host ctx es
    return v :: vs
termination_by structural es => es

end

/-- The value of a tree by a walk that starts in a given state, with the state it leaves behind. -/
def Expr.walk (host : Host) (ctx : Context) (e : Expr) (m : Machine) :
    Except Error Value × Machine :=
  (e.reading host ctx).value.run.run m

/-- The value of a tree, by a walk that starts with an empty stack. -/
def Expr.eval (host : Host) (ctx : Context) (e : Expr) : Action Value := do
  let (result, m) := e.walk host ctx ⟨.empty, ← get⟩
  set m.world
  MonadExcept.ofExcept result

/-- The expression that a text is read as, remembered from an earlier reading or read anew. -/
def Context.expr (ctx : Context) (text : String) : Action Expr := do
  match ← modifyGet (ctx.remembered text) with
  | some e => return e
  | none =>
    match Expr.read text with
    | .ok e =>
      modify (ctx.remember text e)
      return e
    | .error e => throw (.parse e)

/-- The value of a text without the blanks around it, its literals in double quotes. -/
def evalText (host : Host) (ctx : Context) (text : String) : Action Value := do
  let trimmed := Text.trim text.toList
  if trimmed.isEmpty then
    throw (.parse .emptyExpression)
  let e ← ctx.expr (String.ofList (Text.normalizeQuotes trimmed))
  e.eval host ctx

end DynamicEval
