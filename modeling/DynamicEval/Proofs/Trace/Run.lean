import DynamicEval.Proofs.Eval.Targets
import DynamicEval.Proofs.Trace.Order
import DynamicEval.Stock
import Mathlib.Order.CompletePartialOrder

/-!
# Evaluation with a trace

The evaluation of a tree is given once more, so that it records what happens: when a node is
entered, when the callable of a call is invoked, and what the tests of operands give. It does what
evaluation does, and records a word of the language of the tree, or the beginning of one if it
fails. So calls run from left to right, and a call runs again only in the left operand of a sum that
is read as a text once the right operand has turned out to be one.

## Main definitions

* `Traced`, `Expr.traced`: computations that record events, and evaluation as one of them.
* `Expr.trace`: what happens when a tree is evaluated.
* `Records`: a computation does what another one does and records a word of a language.

## Main results

* `Records.bind`: languages multiply when computations follow each other.
* `Expr.traced_refines`: evaluation records the words of the language of its tree.
* `Expr.eval_records`: the order and the number of events in an evaluation.
-/

namespace DynamicEval

/-- A computation that changes the world, records events, and may fail. -/
abbrev Traced := ExceptT Error (StateM (World × List Event))

namespace Traced

variable {α : Type}

/-- Records an event. -/
def record (x : Event) : Traced Unit := modify fun s => (s.1, s.2 ++ [x])

/-- An action during which nothing is recorded. -/
def lift (a : Action α) : Traced α := do
  let s ← get
  let (result, w) := a.run.run s.1
  set (w, s.2)
  match result with
  | .ok a => return a
  | .error e => throw e

/-- Records what the test of a child gives. -/
def test (p : NodePath) (child : Branch) (result : Bool) : Traced Bool := do
  record (.test p child result)
  return result

end Traced

open Traced

/-- The readings of a tree with what they record. -/
structure TracedMeaning where
  /-- The reading for a value, as it is wanted. -/
  value : Target → Traced Value
  /-- The reading as a text. -/
  text : Traced String

/-- The readings of a tree whose text is that of its value. -/
def TracedMeaning.ofValue (p : NodePath) (value : Target → Traced Value) : TracedMeaning where
  value target := do
    record (.enter p)
    value target
  text := do
    record (.enter p)
    let v ← value .property
    return v.toText (← lift Action.heap)

section Nodes

variable (host : Host) (p : NodePath)

/-- A call, whose callable is invoked once the arguments are evaluated. -/
def callTraced (name : String) (callee : Traced Value) (args : Traced (List Value)) :
    Traced Value := do
  let f ← callee
  match f.base (← lift Action.heap) with
  | .func f =>
    let args ← args
    record (.invoke p)
    lift (f.call host args)
  | .invalid => throw (.undefinedMethod name)
  | v => throw (.notCallable v.typeName)

/-- A disjunction, which does without its right operand if the left one is true. -/
def orTraced (left right : Traced Value) : Traced Value := do
  let x ← left
  if ← Traced.test p .left (x.toBool (← lift Action.heap)) then
    return .bool true
  let y ← right
  lift (binaryOn .or x y)

/-- A binary operator other than a sum. -/
def binaryTraced (op : BinaryOp) (left right : Traced Value) : Traced Value :=
  if op = .or then orTraced p left right
  else do
    let x ← left
    let y ← right
    lift (binaryOn op x y)

/-- A sum. Once a side is a text the other is read as one. -/
def sumTraced (left right : TracedMeaning) : Traced Value := do
  let x ← left.value .property
  if ← Traced.test p .augend (x.isString (← lift Action.heap)) then
    let y ← right.text
    lift (binaryOn .add x (.string y))
  else
    let y ← right.value .property
    if ← Traced.test p .addend (y.isString (← lift Action.heap)) then
      let x ← left.text
      lift (binaryOn .add (.string x) y)
    else
      lift (binaryOn .add x y)

end Nodes

mutual

/-- The readings of the tree at a node of a larger one, with what they record. -/
def Expr.traced (host : Host) (ctx : Context) : Expr → NodePath → TracedMeaning
  | .int n, p => .ofValue p fun _ => return .int .bits64 n
  | .float x, p => .ofValue p fun _ => return .float .double x
  | .string s, p => .ofValue p fun _ => return .string s
  | .name s, p => .ofValue p fun target => lift (nameFor ctx target s false)
  | .select object field, p => .ofValue p fun target => do
    let parent ← match object with
      | .name s => do
        record (.enter (.object :: p))
        lift (nameFor ctx .property s true)
      | object => (object.traced host ctx (.object :: p)).value .property
    lift (memberFor target parent (.string field))
  | .index object key, p => .ofValue p fun target => do
    let parent ← (object.traced host ctx (.object :: p)).value .property
    let key ← (key.traced host ctx (.key :: p)).value .property
    lift (memberFor target parent key)
  | .call callee args, p => .ofValue p fun _ =>
    callTraced host p callee.text ((callee.traced host ctx (.callee :: p)).value .method)
      (Expr.tracedArgs host ctx args p 0)
  | .unary op operand, p => .ofValue p fun _ => do
    let v ← (operand.traced host ctx (.operand :: p)).value .property
    lift do MonadExcept.ofExcept (op.apply v (← Action.heap))
  | .binary .add left right, p => {
    value := fun _ => do
      record (.enter p)
      sumTraced p (left.traced host ctx (.augend :: p)) (right.traced host ctx (.addend :: p))
    text := do
      record (.enter p)
      let s ← (left.traced host ctx (.augend :: p)).text
      let t ← (right.traced host ctx (.addend :: p)).text
      return s ++ t }
  | .binary op left right, p => .ofValue p fun _ =>
    binaryTraced p op ((left.traced host ctx (.left :: p)).value .property)
      ((right.traced host ctx (.right :: p)).value .property)
  | .paren inner, p => .ofValue p (inner.traced host ctx (.inner :: p)).value
termination_by structural e => e

/-- The plain values of the arguments of a call from the `i`-th one on. -/
def Expr.tracedArgs (host : Host) (ctx : Context) :
    List Expr → NodePath → Nat → Traced (List Value)
  | [], _, _ => return []
  | e :: es, p, i => do
    let v ← (e.traced host ctx (.arg i :: p)).value .property
    let vs ← Expr.tracedArgs host ctx es p (i + 1)
    return v :: vs
termination_by structural es => es

end

/-- What happens when a tree is evaluated. -/
def Expr.trace (host : Host) (ctx : Context) (e : Expr) (w : World) : List Event :=
  (((e.traced host ctx []).value .property).run.run (w, [])).2.2

/-! ### Words that are recorded -/

/-- A computation does what an action does. It records a word of the language, or what a word begins
with if it fails. -/
def Records {α : Type} (L : Language Event) (a : Traced α) (b : Action α) : Prop :=
  ∀ w t, ∃ u v, a.run.run (w, t) = ((b.run.run w).1, (b.run.run w).2, t ++ u) ∧ u ++ v ∈ L ∧
    ∀ x, (b.run.run w).1 = .ok x → v = []

instance : Nonempty Heap := ⟨.empty⟩

instance : Nonempty Value := ⟨.invalid⟩

namespace Records

variable {α β : Type} {L L' : Language Event}

theorem nonempty {a : Traced α} {b : Action α} (h : Records L a b) : ∃ t, t ∈ L := by
  obtain ⟨u, v, -, hmem, -⟩ := h .empty []
  exact ⟨u ++ v, hmem⟩

theorem mono {a : Traced α} {b : Action α} (h : Records L a b) (hle : L ≤ L') :
    Records L' a b := by
  intro w t
  obtain ⟨u, v, hrun, hmem, hok⟩ := h w t
  exact ⟨u, v, hrun, hle hmem, hok⟩

theorem lift (a : Action α) : Records 1 (Traced.lift a) a := by
  intro w t
  have hget (s : World × List Event) :
      (get : Traced (World × List Event)).run.run s = (.ok s, s) := rfl
  refine ⟨[], [], ?_, rfl, fun _ _ => rfl⟩
  simp only [Traced.lift, run_bind_run, hget, List.append_nil]
  rcases a.run.run w with ⟨e | x, w'⟩ <;> rfl

theorem pure (x : α) : Records 1 (pure x) (pure x) :=
  fun _ t => ⟨[], [], by rw [List.append_nil]; rfl, rfl, fun _ _ => rfl⟩

/-- A failure is the beginning of any word. -/
theorem throw (e : Error) (hL : ∃ t, t ∈ L) : Records (α := α) L (throw e) (throw e) := by
  obtain ⟨v, hv⟩ := hL
  exact fun _ t => ⟨[], v, by rw [List.append_nil]; rfl, hv, nofun⟩

/-- Languages multiply when computations follow each other. -/
theorem bind [Nonempty α] {a : Traced α} {b : Action α} {f : α → Traced β} {g : α → Action β}
    (h : Records L a b) (hf : ∀ x, Records L' (f x) (g x)) :
    Records (L * L') (a >>= f) (b >>= g) := by
  intro w t
  obtain ⟨u, v, hrun, hmem, hok⟩ := h w t
  simp only [run_bind_run]
  rw [hrun]
  rcases hb : b.run.run w with ⟨e | x, w'⟩
  · obtain ⟨x⟩ := ‹Nonempty α›
    obtain ⟨s, hs⟩ := (hf x).nonempty
    refine ⟨u, v ++ s, rfl, ?_, nofun⟩
    rw [← List.append_assoc]
    exact Language.append_mem_mul hmem hs
  · have hv : v = [] := hok x (congrArg Prod.fst hb)
    obtain ⟨u', v', hrun', hmem', hok'⟩ := hf x w' (t ++ u)
    refine ⟨u ++ u', v', ?_, ?_, hok'⟩
    · rw [← List.append_assoc]
      exact hrun'
    · rw [hv, List.append_nil] at hmem
      rw [List.append_assoc]
      exact Language.append_mem_mul hmem hmem'

/-- An event is recorded first. -/
theorem record_bind (x : Event) {a : Traced α} {b : Action α} (h : Records L a b) :
    Records (x.once * L) (record x >>= fun _ => a) b := by
  intro w t
  obtain ⟨u, v, hrun, hmem, hok⟩ := h w (t ++ [x])
  have hword : [x] ++ (u ++ v) ∈ x.once * L := Language.append_mem_mul x.mem_once hmem
  refine ⟨x :: u, v, ?_, hword, hok⟩
  have hrecord : (record x).run.run (w, t) = (.ok (), w, t ++ [x]) := rfl
  rw [run_bind_run, hrecord]
  simpa using hrun

/-- What comes after something that records nothing. -/
theorem lift_bind [Nonempty α] {a : Action α} {f : α → Traced β} {g : α → Action β}
    (hf : ∀ x, Records L (f x) (g x)) : Records L (Traced.lift a >>= f) (a >>= g) := by
  have h := (lift a).bind hf
  rwa [one_mul] at h

/-- What comes before something that records nothing. -/
theorem bind_lift [Nonempty α] {a : Traced α} {b : Action α} {f : α → Traced β} {g : α → Action β}
    (h : Records L a b) (hf : ∀ x, Records 1 (f x) (g x)) : Records L (a >>= f) (b >>= g) := by
  have h := h.bind hf
  rwa [mul_one] at h

theorem test_bind {p : NodePath} {child : Branch} {result : Bool} {f : Bool → Traced β}
    {b : Action β} (h : Records L (f result) b) :
    Records ((Event.test p child result).once * L) (Traced.test p child result >>= f) b := by
  have htest : Traced.test p child result >>= f =
      (record (.test p child result) >>= fun _ => f result) := by
    simp only [Traced.test, bind_assoc, pure_bind]
  rw [htest]
  exact record_bind _ h

/-- A test before something that records nothing. -/
theorem test_bind_one {p : NodePath} {child : Branch} {result : Bool} {f : Bool → Traced β}
    {b : Action β} (h : Records 1 (f result) b) :
    Records (Event.test p child result).once (Traced.test p child result >>= f) b := by
  rw [← mul_one (Event.test p child result).once]
  exact test_bind h

end Records

/-! ### Nodes -/

/-- The readings of a tree that records do what those of the tree do, and record words. -/
structure TracedMeaning.Refines (o : Orders) (r : TracedMeaning) (m : Meaning) : Prop where
  /-- The values agree. -/
  value (target : Target) : Records o.value (r.value target) (m.value target)
  /-- The texts agree. -/
  text : Records o.text r.text m.text

section Nodes

variable {host : Host} {p : NodePath} {L L' : Language Event}

theorem TracedMeaning.Refines.ofValue {a : Target → Traced Value} {b : Target → Action Value}
    (h : ∀ target, Records L (a target) (b target)) :
    (TracedMeaning.ofValue p a).Refines (.same ((Event.enter p).once * L)) (.ofValue b) where
  value target := .record_bind _ (h target)
  text := .record_bind _ ((h .property).bind_lift fun _ => .lift_bind fun _ => .pure _)

theorem callTraced_records {name : String} {callee : Traced Value} {callee' : Action Value}
    {args : Traced (List Value)} {args' : Action (List Value)} (hcallee : Records L callee callee')
    (hargs : Records L' args args') :
    Records (L * (L' * (Event.invoke p).once)) (callTraced host p name callee args)
      (callFor host name callee' args') := by
  have hinvoke (f : Callable) (vs : List Value) : Records (Event.invoke p).once
      (do record (.invoke p); Traced.lift (f.call host vs)) (f.call host vs) := by
    have h := Records.record_bind (.invoke p) (.lift (f.call host vs))
    rwa [mul_one] at h
  refine hcallee.bind fun f => .lift_bind fun h => ?_
  have hthrow (e : Error) : Records (α := Value) (L' * (Event.invoke p).once) (throw e) (throw e) := by
    obtain ⟨t, ht⟩ := hargs.nonempty
    exact .throw e ⟨t ++ [.invoke p], Language.append_mem_mul ht (Event.invoke p).mem_once⟩
  generalize f.base h = v
  cases v with
  | func f => exact hargs.bind fun vs => hinvoke f vs
  | _ => exact hthrow _

theorem orTraced_records {left right : Traced Value} {left' right' : Action Value}
    (hleft : Records L left left') (hright : Records L' right right') :
    Records (L * ((Event.test p .left true).once + (Event.test p .left false).once * L'))
      (orTraced p left right) (binaryFor .or left' right') := by
  refine hleft.bind fun x => .lift_bind fun h => ?_
  cases hx : x.toBool h with
  | true =>
    refine Records.mono (Records.test_bind_one ?_) le_sup_left
    exact Records.pure (Value.bool true)
  | false =>
    have hright := hright.bind_lift fun y => .lift (binaryOn .or x y)
    exact (Records.test_bind hright).mono le_sup_right

theorem sumTraced_records {left right : TracedMeaning} {left' right' : Meaning} {o o' : Orders}
    (hleft : left.Refines o left') (hright : right.Refines o' right') :
    Records (o.value * ((Event.test p .augend true).once * o'.text +
        (Event.test p .augend false).once * (o'.value *
          ((Event.test p .addend true).once * o.text + (Event.test p .addend false).once))))
      (sumTraced p left right) (sumFor left' right') := by
  refine (hleft.value .property).bind fun x => .lift_bind fun h => ?_
  cases hx : x.isString h with
  | true =>
    have htext := hright.text.bind_lift fun y => .lift (binaryOn .add x (.string y))
    exact (Records.test_bind htext).mono le_sup_left
  | false =>
    refine Records.mono (Records.test_bind ?_) le_sup_right
    refine (hright.value .property).bind fun y => .lift_bind fun h => ?_
    cases hy : y.isString h with
    | true =>
      have htext := hleft.text.bind_lift fun x => .lift (binaryOn .add (.string x) y)
      exact (Records.test_bind htext).mono le_sup_left
    | false =>
      refine Records.mono (Records.test_bind_one ?_) le_sup_right
      exact .lift (binaryOn .add x y)

end Nodes

/-! ### Trees -/

mutual

/-- Evaluation records the words of the language of its tree. -/
theorem Expr.traced_refines (host : Host) (ctx : Context) : (e : Expr) → (p : NodePath) →
    (e.traced host ctx p).Refines (e.orders p) (e.meaning host ctx)
  | .int n, p => by
    have h := TracedMeaning.Refines.ofValue (p := p) fun _ => Records.pure (.int .bits64 n)
    rwa [mul_one] at h
  | .float x, p => by
    have h := TracedMeaning.Refines.ofValue (p := p) fun _ => Records.pure (.float .double x)
    rwa [mul_one] at h
  | .string s, p => by
    have h := TracedMeaning.Refines.ofValue (p := p) fun _ => Records.pure (.string s)
    rwa [mul_one] at h
  | .name s, p => by
    have h := TracedMeaning.Refines.ofValue (p := p) fun target =>
      Records.lift (nameFor ctx target s false)
    rwa [mul_one] at h
  | .select object field, p => by
    have hobject := (Expr.traced_refines host ctx object (.object :: p)).value .property
    rw [Expr.traced, Expr.meaning, Expr.orders]
    refine .ofValue fun target => ?_
    -- A name that is selected from is looked up by the selection, as no constant.
    cases object with
    | name s =>
      have hname := (Records.lift (nameFor ctx .property s true)).bind_lift fun parent =>
        .lift (memberFor target parent (.string field))
      have hselect := Records.record_bind (.enter (.object :: p)) hname
      rw [mul_one] at hselect
      exact hselect
    | _ => exact hobject.bind_lift fun _ => .lift _
  | .index object key, p => by
    have hobject := (Expr.traced_refines host ctx object (.object :: p)).value .property
    have hkey := (Expr.traced_refines host ctx key (.key :: p)).value .property
    exact .ofValue fun target => hobject.bind fun _ => hkey.bind_lift fun _ => .lift _
  | .call callee args, p => by
    have hcallee := (Expr.traced_refines host ctx callee (.callee :: p)).value .method
    have hargs := Expr.tracedArgs_records host ctx args p 0
    exact .ofValue fun _ => callTraced_records hcallee hargs
  | .unary op operand, p => by
    have hoperand := (Expr.traced_refines host ctx operand (.operand :: p)).value .property
    exact .ofValue fun _ => hoperand.bind_lift fun _ => .lift _
  | .binary op left right, p => by
    by_cases hadd : op = .add
    · subst hadd
      have hleft := Expr.traced_refines host ctx left (.augend :: p)
      have hright := Expr.traced_refines host ctx right (.addend :: p)
      exact {
        value := fun _ => .record_bind _ (sumTraced_records hleft hright)
        text := .record_bind _ (hleft.text.bind fun _ => hright.text.bind_lift fun _ => .pure _) }
    · have hleft := (Expr.traced_refines host ctx left (.left :: p)).value .property
      have hright := (Expr.traced_refines host ctx right (.right :: p)).value .property
      cases op with
      | add => exact absurd rfl hadd
      | or => exact .ofValue fun _ => orTraced_records hleft hright
      | _ =>
        refine .ofValue fun _ => ?_
        exact hleft.bind fun _ => hright.bind_lift fun _ => .lift _
  | .paren inner, p => by
    have hinner := Expr.traced_refines host ctx inner (.inner :: p)
    exact .ofValue hinner.value
termination_by structural e => e

theorem Expr.tracedArgs_records (host : Host) (ctx : Context) : (es : List Expr) →
    (p : NodePath) → (i : Nat) → Records (Expr.ordersOfArgs es p i)
      (Expr.tracedArgs host ctx es p i) (Expr.valuesOf host ctx es)
  | [], p, i => .pure []
  | e :: es, p, i => by
    have hhead := (Expr.traced_refines host ctx e (.arg i :: p)).value .property
    have htail := Expr.tracedArgs_records host ctx es p (i + 1)
    exact hhead.bind fun _ => htail.bind_lift fun _ => .pure _
termination_by structural es => es

end

/-- Evaluation does what it does without a trace. What is recorded is a word of the language of the
tree, or the beginning of one if the evaluation fails. Nothing happens more than twice as often for
every sum that has read its left operand again with the node in it, and nothing happens twice if no
sum has. Each time that a call is entered, its callable is invoked at most once, and so is each of
its arguments evaluated. -/
theorem Expr.eval_records (host : Host) (ctx : Context) (e : Expr) (w : World) :
    let trace := e.trace host ctx w
    ((e.traced host ctx []).value .property).run.run (w, []) =
      (((e.eval host ctx).run.run w).1, ((e.eval host ctx).run.run w).2, trace) ∧
    (∃ rest, trace ++ rest ∈ (e.orders []).value ∧
      ∀ v, ((e.eval host ctx).run.run w).1 = .ok v → rest = []) ∧
    (∀ x, trace.count x ≤ 2 ^ rereads trace x.node) ∧
    ((∀ p, .test p .addend true ∉ trace) → trace.Nodup) ∧
    ∀ p, trace.count (.invoke p) ≤ trace.count (.enter p) ∧
      ∀ i, trace.count (.enter (.arg i :: p)) ≤ trace.count (.enter p) := by
  have heval : (e.eval host ctx).run.run w = ((e.meaning host ctx).value .property).run.run w := by
    rw [Expr.run_eval]
    exact ((Expr.reading_refines host ctx e).value none .invalid .invalid w).1
  obtain ⟨u, v, hrun, hmem, hok⟩ := (Expr.traced_refines host ctx e []).value .property w []
  have htrace : e.trace host ctx w = u := by rw [Expr.trace, hrun, List.nil_append]
  rw [heval, htrace]
  refine ⟨hrun, ⟨v, hmem, hok⟩, Expr.count_le_of_orders hmem, Expr.nodup_of_orders hmem, ?_⟩
  refine fun p => ⟨Expr.count_le_enter_of_orders hmem (.inl rfl), fun i => ?_⟩
  exact Expr.count_le_enter_of_orders hmem (.inr ⟨.arg i, nofun, rfl⟩)

/-- Names in a scope in which a callable counts its calls. -/
def tickContext : Context :=
  ((Scope.empty none).bind "f" (.func ⟨0, "f", none, .plain "tick", []⟩) .empty).context

/-- In a sum of numbers a call runs once, and the evaluation is a word of the language of the sum. -/
theorem Expr.eval_records_plain :
    let e : Expr := .binary .add (.call (.name "f") []) (.int 1)
    let trace := e.trace (Stock.host fun _ => none) tickContext .empty
    (∀ p, .test p .addend true ∉ trace) ∧ trace.Nodup ∧ trace ∈ (e.orders []).value ∧
      .invoke [.augend] ∈ trace := by
  intro e trace
  have htrace : trace = [.enter [], .enter [.augend], .enter [.callee, .augend], .invoke [.augend],
    .test [] .augend false, .enter [.addend], .test [] .addend false] := by decide +kernel
  have htests : ∀ p, .test p .addend true ∉ trace := by simp [htrace]
  have hok : ((e.eval (Stock.host fun _ => none) tickContext).run.run .empty).1.isOk = true := by
    decide +kernel
  obtain ⟨-, ⟨rest, hword, hrest⟩, -, hnodup, -⟩ :=
    Expr.eval_records (Stock.host fun _ => none) tickContext e .empty
  obtain ⟨v, hv⟩ := Except.exists_ok_of_isOk hok
  rw [hrest v hv, List.append_nil] at hword
  exact ⟨htests, hnodup htests, hword, by simp [htrace]⟩

/-- In the left operand of a sum a call runs a second time if the right operand is a text. -/
theorem Expr.eval_twice :
    let e : Expr := .binary .add (.call (.name "f") []) (.string "a")
    let r := (e.eval (Stock.host fun _ => none) tickContext).run.run .empty
    ¬(e.trace (Stock.host fun _ => none) tickContext .empty).count (.invoke [.augend]) ≤ 1 ∧
      r.2.log = ["tick 1", "tick 2"] := by
  decide +kernel

end DynamicEval
