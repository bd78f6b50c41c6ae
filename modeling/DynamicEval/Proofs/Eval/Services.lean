import DynamicEval.Proofs.Eval.Targets

/-!
# Evaluation on services

Evaluation asks its surroundings for six things: the heap, the tree of a text, the value of a name,
the value of a member, arguments that are coerced for a callable, and the result of a callable. We
give the readings of a tree once more, on services that answer these requests in any state. Two
states that are related stay related if the services relate them, so a fact about the services is a
fact about the evaluation of every tree. For instance the calls that an evaluation makes are noted
in a ledger by services that do otherwise what the world does, and the ledger changes nothing.

## Main definitions

* `Services`: what evaluation asks for; `Services.plain`: the world as it is.
* `Expr.meaningIn`, `Services.textValue`: the readings of a tree and the value of a text.
* `Agree`, `Services.Agree`: computations and services that keep states related.
* `Call`, `Services.noting`, `callsOf`: the calls that an evaluation makes.

## Main results

* `Expr.meaningIn_plain`, `run_evalText`: evaluation is evaluation on the world as it is.
* `Expr.meaningIn_agree`, `Services.Agree.textValue`: what services keep, evaluation keeps.
* `run_evalText_noting`: a ledger changes nothing.
-/

namespace DynamicEval

/-! ### Services -/

/-- A computation that changes a state and may fail; what it changed before a failure stays. -/
abbrev Fallible (σ : Type) := ExceptT Error (StateM σ)

/-- What evaluation asks of its surroundings, which have a state. -/
structure Services (σ : Type) where
  /-- The heap. -/
  heap : Fallible σ Heap
  /-- The tree that a text is read as. -/
  tree : String → Fallible σ Expr
  /-- The value of a name, as it is wanted. -/
  name : Target → String → Bool → Fallible σ Value
  /-- The member or element of a value that a segment selects, as it is wanted. -/
  member : Target → Value → Value → Fallible σ Value
  /-- Arguments as a callable takes them. -/
  prepare : Callable → List Value → Fallible σ (List Value)
  /-- The result of a callable on arguments that it takes. -/
  invoke : Callable → List Value → Fallible σ Value

/-- Arguments as a callable takes them. Declared parameters fix their number and their types. -/
def CallableOf.prepare (f : Callable) (args : List Value) : Action (List Value) := do
  match f.params with
  | none => return args
  | some params =>
    if params.length ≠ args.length then
      throw (.arityMismatch f.name params.length args.length)
    (coerceArgs params args).act

/-- What the world does for evaluation. -/
def Services.plain (host : Host) (ctx : Context) : Services World where
  heap := Action.heap
  tree := ctx.expr
  name := nameFor ctx
  member := memberFor
  prepare f args := f.prepare args
  invoke f args := host f.routine f.held args

/-! ### Evaluation on services -/

/-- The readings of a tree in some surroundings, the one for its value for everything that can be
wanted. -/
structure MeaningIn (σ : Type) where
  /-- The reading for a value, as it is wanted. -/
  value : Target → Fallible σ Value
  /-- The reading as a text. -/
  text : Fallible σ String

section Nodes

variable {σ : Type} (o : Services σ)

/-- The readings of a tree whose text is that of its value, which is wanted as a plain one. -/
def MeaningIn.ofValue (value : Target → Fallible σ Value) : MeaningIn σ where
  value := value
  text := do
    let v ← value .property
    return v.toText (← o.heap)

/-- A call of a value with arguments that are evaluated once it is known to be callable. -/
def callIn (name : String) (callee : Fallible σ Value) (args : Fallible σ (List Value)) :
    Fallible σ Value := do
  let f ← callee
  match f.base (← o.heap) with
  | .func f =>
    let args ← args
    let args ← o.prepare f args
    o.invoke f args
  | .invalid => throw (.undefinedMethod name)
  | v => throw (.notCallable v.typeName)

/-- A binary operator on values that are known. -/
def binaryOnIn (op : BinaryOp) (x y : Value) : Fallible σ Value := do
  MonadExcept.ofExcept (op.apply x y (← o.heap))

/-- A binary operator other than a sum. -/
def binaryIn (op : BinaryOp) (left right : Fallible σ Value) : Fallible σ Value := do
  let x ← left
  if op == .or && x.toBool (← o.heap) then
    return .bool true
  let y ← right
  binaryOnIn o op x y

/-- A sum, its operands wanted as plain values or read as texts. -/
def sumIn (left right : MeaningIn σ) : Fallible σ Value := do
  let x ← left.value .property
  if x.isString (← o.heap) then
    let y ← right.text
    binaryOnIn o .add x (.string y)
  else
    let y ← right.value .property
    if y.isString (← o.heap) then
      let x ← left.text
      binaryOnIn o .add (.string x) y
    else
      binaryOnIn o .add x y

mutual

/-- The readings of a tree on services. -/
def Expr.meaningIn : Expr → MeaningIn σ
  | .int n => .ofValue o fun _ => return .int .bits64 n
  | .float x => .ofValue o fun _ => return .float .double x
  | .string s => .ofValue o fun _ => return .string s
  | .name s => .ofValue o fun target => o.name target s false
  | .select object field => .ofValue o fun target => do
    let parent ← match object with
      | .name s => o.name .property s true
      | object => object.meaningIn.value .property
    o.member target parent (.string field)
  | .index object key => .ofValue o fun target => do
    let parent ← object.meaningIn.value .property
    let key ← key.meaningIn.value .property
    o.member target parent key
  | .call callee args => .ofValue o fun _ =>
    callIn o callee.text (callee.meaningIn.value .method) (Expr.valuesIn args)
  | .unary op operand => .ofValue o fun _ => do
    let v ← operand.meaningIn.value .property
    MonadExcept.ofExcept (op.apply v (← o.heap))
  | .binary .add left right => {
    value := fun _ => sumIn o left.meaningIn right.meaningIn
    text := do
      let s ← left.meaningIn.text
      let t ← right.meaningIn.text
      return s ++ t }
  | .binary op left right => .ofValue o fun _ =>
    binaryIn o op (left.meaningIn.value .property) (right.meaningIn.value .property)
  | .paren inner => .ofValue o inner.meaningIn.value
termination_by structural e => e

/-- The plain values of trees from left to right, on services. -/
def Expr.valuesIn : List Expr → Fallible σ (List Value)
  | [] => return []
  | e :: es => do
    let v ← e.meaningIn.value .property
    let vs ← Expr.valuesIn es
    return v :: vs
termination_by structural es => es

end

/-- The value of a text on services. -/
def Services.textValue (text : String) : Fallible σ Value := do
  let trimmed := Text.trim text.toList
  if trimmed.isEmpty then
    throw (.parse .emptyExpression)
  let e ← o.tree (String.ofList (Text.normalizeQuotes trimmed))
  (e.meaningIn o).value .property

end Nodes

/-! ### The world as it is -/

/-- A call is the preparation of the arguments and the routine behind the callable. -/
theorem CallableOf.call_eq_bind (host : Host) (f : Callable) (args : List Value) :
    f.call host args = f.prepare args >>= host f.routine f.held := by
  rw [call, prepare]
  cases f.params with
  | none => rfl
  | some params =>
    dsimp only
    split
    · rfl
    · rfl

section Plain

variable {host : Host} {ctx : Context}

theorem callIn_plain (name : String) (callee : Action Value) (args : Action (List Value)) :
    callIn (.plain host ctx) name callee args = callFor host name callee args := by
  refine congrArg (callee >>= ·) (funext fun f => congrArg (Action.heap >>= ·) (funext fun h => ?_))
  generalize f.base h = v
  cases v with
  | func f => exact congrArg (args >>= ·) (funext fun vs => (f.call_eq_bind host vs).symm)
  | _ => rfl

mutual

/-- Evaluation is evaluation on what the world does for it. -/
theorem Expr.meaningIn_plain (e : Expr) :
    e.meaningIn (.plain host ctx) = ⟨(e.meaning host ctx).value, (e.meaning host ctx).text⟩ := by
  match e with
  | .int _ | .float _ | .string _ | .name _ => rfl
  | .select object field =>
    have hobject := Expr.meaningIn_plain object
    cases object with
    | name s => rfl
    | _ => rw [Expr.meaningIn, Expr.meaning]; simp only [hobject]; rfl
  | .index object key =>
    rw [Expr.meaningIn, Expr.meaning, Expr.meaningIn_plain object, Expr.meaningIn_plain key]
    rfl
  | .call callee args =>
    rw [Expr.meaningIn, Expr.meaning, Expr.meaningIn_plain callee, Expr.valuesIn_plain args]
    simp only [callIn_plain]
    rfl
  | .unary op operand =>
    rw [Expr.meaningIn, Expr.meaning, Expr.meaningIn_plain operand]
    rfl
  | .binary op left right =>
    have hleft := Expr.meaningIn_plain left
    have hright := Expr.meaningIn_plain right
    cases op with
    | add => rw [Expr.meaningIn, Expr.meaning, hleft, hright]; rfl
    | _ => simp only [Expr.meaningIn, Expr.meaning, hleft, hright]; rfl
  | .paren inner =>
    rw [Expr.meaningIn, Expr.meaning, Expr.meaningIn_plain inner]
    rfl

theorem Expr.valuesIn_plain (es : List Expr) :
    Expr.valuesIn (.plain host ctx) es = Expr.valuesOf host ctx es := by
  match es with
  | [] => rfl
  | e :: es =>
    rw [Expr.valuesIn, Expr.valuesOf, Expr.meaningIn_plain e, Expr.valuesIn_plain es]

end

/-- The value of a text is its value on what the world does for evaluation. -/
theorem run_evalText (text : String) (w : World) :
    (evalText host ctx text).run.run w =
      ((Services.plain host ctx).textValue text).run.run w := by
  have heval (e : Expr) (w : World) : (e.eval host ctx).run.run w =
      ((e.meaningIn (.plain host ctx)).value .property).run.run w := by
    rw [e.run_eval, e.meaningIn_plain]
    exact ((e.reading_refines host ctx).value none .invalid .invalid w).1
  rw [evalText, Services.textValue]
  dsimp only
  split
  · rfl
  · simp only [run_bind_run, heval]
    rfl

end Plain

/-! ### Services that keep states related -/

section Agree

variable {σ τ : Type} {S : σ → τ → Prop}

/-- From related states the two computations have the same result and leave related states. -/
def Agree (S : σ → τ → Prop) {α : Type} (a : Fallible σ α) (b : Fallible τ α) : Prop :=
  ∀ s t, S s t → (a.run.run s).1 = (b.run.run t).1 ∧ S (a.run.run s).2 (b.run.run t).2

namespace Agree

variable {α β : Type}

theorem pure (v : α) : Agree S (pure v) (pure v) := fun _ _ h => ⟨rfl, h⟩

theorem throw (e : Error) : Agree (α := α) S (throw e) (throw e) := fun _ _ h => ⟨rfl, h⟩

theorem ofExcept (r : Except Error α) :
    Agree S (MonadExcept.ofExcept r) (MonadExcept.ofExcept r) := by
  cases r with
  | ok v => exact pure v
  | error e => exact throw e

/-- What comes second is not run after a failure. -/
theorem bind {a : Fallible σ α} {b : Fallible τ α} {f : α → Fallible σ β} {g : α → Fallible τ β}
    (h : Agree S a b) (hf : ∀ v, Agree S (f v) (g v)) : Agree S (a >>= f) (b >>= g) := by
  intro s t hst
  obtain ⟨hresult, hstate⟩ := h s t hst
  simp only [run_bind_run]
  rcases ha : a.run.run s with ⟨e | v, s'⟩ <;> rcases hb : b.run.run t with ⟨e' | v', t'⟩ <;>
    rw [ha, hb] at hresult hstate <;> cases hresult
  · exact ⟨rfl, hstate⟩
  · exact hf v s' t' hstate

end Agree

/-- Services that answer alike in related states, and leave related states. -/
structure Services.Agree (S : σ → τ → Prop) (o : Services σ) (o' : Services τ) : Prop where
  /-- The heaps are the same. -/
  heap : DynamicEval.Agree S o.heap o'.heap
  /-- Texts are read as the same trees. -/
  tree (text : String) : DynamicEval.Agree S (o.tree text) (o'.tree text)
  /-- Names have the same values. -/
  name (target : Target) (name : String) (selected : Bool) :
    DynamicEval.Agree S (o.name target name selected) (o'.name target name selected)
  /-- So have members. -/
  member (target : Target) (parent key : Value) :
    DynamicEval.Agree S (o.member target parent key) (o'.member target parent key)
  /-- Arguments are coerced alike. -/
  prepare (f : Callable) (args : List Value) :
    DynamicEval.Agree S (o.prepare f args) (o'.prepare f args)
  /-- Callables give the same results. -/
  invoke (f : Callable) (args : List Value) :
    DynamicEval.Agree S (o.invoke f args) (o'.invoke f args)

/-- The readings of two trees agree. -/
structure MeaningIn.Agree (S : σ → τ → Prop) (m : MeaningIn σ) (m' : MeaningIn τ) : Prop where
  /-- The values agree, whatever is wanted. -/
  value (target : Target) : DynamicEval.Agree S (m.value target) (m'.value target)
  /-- So do the texts. -/
  text : DynamicEval.Agree S m.text m'.text

variable {o : Services σ} {o' : Services τ}

theorem MeaningIn.Agree.ofValue (ho : o.Agree S o') {value : Target → Fallible σ Value}
    {value' : Target → Fallible τ Value}
    (hvalue : ∀ target, DynamicEval.Agree S (value target) (value' target)) :
    (MeaningIn.ofValue o value).Agree S (MeaningIn.ofValue o' value') where
  value := hvalue
  text := (hvalue .property).bind fun _ => ho.heap.bind fun _ => .pure _

theorem callIn_agree (ho : o.Agree S o') (name : String) {callee : Fallible σ Value}
    {callee' : Fallible τ Value} {args : Fallible σ (List Value)} {args' : Fallible τ (List Value)}
    (hcallee : Agree S callee callee') (hargs : Agree S args args') :
    Agree S (callIn o name callee args) (callIn o' name callee' args') := by
  refine hcallee.bind fun f => ho.heap.bind fun h => ?_
  generalize f.base h = v
  cases v with
  | func f => exact hargs.bind fun vs => (ho.prepare f vs).bind fun ws => ho.invoke f ws
  | _ => exact .throw _

theorem binaryOnIn_agree (ho : o.Agree S o') (op : BinaryOp) (x y : Value) :
    Agree S (binaryOnIn o op x y) (binaryOnIn o' op x y) :=
  ho.heap.bind fun _ => .ofExcept _

theorem binaryIn_agree (ho : o.Agree S o') (op : BinaryOp) {left right : Fallible σ Value}
    {left' right' : Fallible τ Value} (hleft : Agree S left left') (hright : Agree S right right') :
    Agree S (binaryIn o op left right) (binaryIn o' op left' right') := by
  refine hleft.bind fun x => ho.heap.bind fun h => ?_
  split
  · exact .pure _
  · exact hright.bind fun y => binaryOnIn_agree ho op x y

theorem sumIn_agree (ho : o.Agree S o') {left right : MeaningIn σ}
    {left' right' : MeaningIn τ} (hleft : left.Agree S left') (hright : right.Agree S right') :
    Agree S (sumIn o left right) (sumIn o' left' right') := by
  refine (hleft.value .property).bind fun x => ho.heap.bind fun h => ?_
  split
  · exact hright.text.bind fun t => binaryOnIn_agree ho .add x (.string t)
  · refine (hright.value .property).bind fun y => ho.heap.bind fun h => ?_
    split
    · exact hleft.text.bind fun s => binaryOnIn_agree ho .add (.string s) y
    · exact binaryOnIn_agree ho .add x y

mutual

/-- What services keep, the readings of every tree keep. -/
theorem Expr.meaningIn_agree (ho : o.Agree S o') (e : Expr) :
    (e.meaningIn o).Agree S (e.meaningIn o') := by
  match e with
  | .int _ | .float _ | .string _ => exact .ofValue ho fun _ => .pure _
  | .name s => exact .ofValue ho fun target => ho.name target s false
  | .select object field =>
    have hobject := Expr.meaningIn_agree ho object
    rw [Expr.meaningIn, Expr.meaningIn]
    refine .ofValue ho fun target => ?_
    -- A name that is selected from is no constant.
    cases object with
    | name s => exact (ho.name .property s true).bind fun _ => ho.member _ _ _
    | _ => exact (hobject.value .property).bind fun _ => ho.member _ _ _
  | .index object key =>
    have hobject := Expr.meaningIn_agree ho object
    have hkey := Expr.meaningIn_agree ho key
    exact .ofValue ho fun target => (hobject.value .property).bind fun _ =>
      (hkey.value .property).bind fun _ => ho.member _ _ _
  | .call callee args =>
    have hcallee := Expr.meaningIn_agree ho callee
    have hargs := Expr.valuesIn_agree ho args
    exact .ofValue ho fun _ => callIn_agree ho _ (hcallee.value .method) hargs
  | .unary op operand =>
    have hoperand := Expr.meaningIn_agree ho operand
    exact .ofValue ho fun _ => (hoperand.value .property).bind fun _ =>
      ho.heap.bind fun _ => .ofExcept _
  | .binary op left right =>
    have hleft := Expr.meaningIn_agree ho left
    have hright := Expr.meaningIn_agree ho right
    cases op with
    | add => exact {
        value := fun _ => sumIn_agree ho hleft hright
        text := hleft.text.bind fun _ => hright.text.bind fun _ => .pure _ }
    | _ =>
      exact .ofValue ho fun _ => binaryIn_agree ho _ (hleft.value .property)
        (hright.value .property)
  | .paren inner => exact .ofValue ho (Expr.meaningIn_agree ho inner).value

theorem Expr.valuesIn_agree (ho : o.Agree S o') (es : List Expr) :
    Agree S (Expr.valuesIn o es) (Expr.valuesIn o' es) := by
  match es with
  | [] => exact .pure _
  | e :: es =>
    exact ((Expr.meaningIn_agree ho e).value .property).bind fun _ =>
      (Expr.valuesIn_agree ho es).bind fun _ => .pure _

end

/-- What services keep, the evaluation of every text keeps. -/
theorem Services.Agree.textValue (ho : o.Agree S o') (text : String) :
    DynamicEval.Agree S (o.textValue text) (o'.textValue text) := by
  rw [Services.textValue, Services.textValue]
  dsimp only
  split
  · exact .throw _
  · exact (ho.tree _).bind fun e => (Expr.meaningIn_agree ho e).value .property

end Agree

/-! ### Calls -/

/-- A call: what is called, on which arguments and in which world. -/
structure Call where
  /-- What is called. -/
  callable : Callable
  /-- The arguments, as the callable takes them. -/
  args : List Value
  /-- The world when the callable gets control. -/
  world : World

/-- A computation next to a ledger, in which it notes nothing. -/
def unnoted {α : Type} (a : Action α) : Fallible (World × List Call) α :=
  fun s => ((a.run.run s.1).1, (a.run.run s.1).2, s.2)

/-- What the world does for evaluation. Calls are noted in a ledger, in their order. -/
def Services.noting (host : Host) (ctx : Context) : Services (World × List Call) where
  heap := unnoted Action.heap
  tree text := unnoted (ctx.expr text)
  name target name selected := unnoted (nameFor ctx target name selected)
  member target parent key := unnoted (memberFor target parent key)
  prepare f args := unnoted (f.prepare args)
  invoke f args := do
    modify fun s => (s.1, s.2 ++ [⟨f, args, s.1⟩])
    unnoted (host f.routine f.held args)

theorem run_unnoted {α : Type} (a : Action α) (w : World) (calls : List Call) :
    (unnoted a).run.run (w, calls) = ((a.run.run w).1, (a.run.run w).2, calls) := rfl

/-- A call is noted when the callable gets control. -/
theorem run_noting_invoke (host : Host) (ctx : Context) (f : Callable) (args : List Value)
    (w : World) (calls : List Call) :
    ((Services.noting host ctx).invoke f args).run.run (w, calls) =
      (((host f.routine f.held args).run.run w).1, ((host f.routine f.held args).run.run w).2,
        calls ++ [⟨f, args, w⟩]) := rfl

/-- The calls that the evaluation of a text makes, in their order. -/
def callsOf (host : Host) (ctx : Context) (text : String) (w : World) : List Call :=
  (((Services.noting host ctx).textValue text).run.run (w, [])).2.2

/-- A ledger changes nothing. -/
theorem run_evalText_noting (host : Host) (ctx : Context) (text : String) (w : World) :
    ((Services.noting host ctx).textValue text).run.run (w, []) =
      (((evalText host ctx text).run.run w).1, ((evalText host ctx text).run.run w).2,
        callsOf host ctx text w) := by
  let S (s : World × List Call) (w : World) : Prop := s.1 = w
  have hunnoted {α : Type} (a : Action α) : Agree S (unnoted a) a := by
    rintro ⟨w, calls⟩ _ rfl
    exact ⟨rfl, rfl⟩
  have ho : (Services.noting host ctx).Agree S (.plain host ctx) := {
    heap := hunnoted _
    tree := fun _ => hunnoted _
    name := fun _ _ _ => hunnoted _
    member := fun _ _ _ => hunnoted _
    prepare := fun _ _ => hunnoted _
    invoke := by
      rintro f args ⟨w, calls⟩ _ rfl
      exact ⟨rfl, rfl⟩ }
  obtain ⟨hresult, hworld⟩ := ho.textValue text (w, []) w rfl
  rw [run_evalText]
  exact Prod.ext hresult (Prod.ext hworld rfl)

end DynamicEval
