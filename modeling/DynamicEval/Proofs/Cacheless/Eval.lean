import DynamicEval.Proofs.Cacheless.World

/-!
# Evaluation without caches

Evaluation gives what an evaluation gives that reads every text anew, as long as caches are
faithful, and it keeps them so. The walk over a tree is followed in the form that is handed its
targets.

## Main definitions

* `Context.Cacheless`: a context whose names mean the same without caches.
* `evalAnew`: the value of a text that is read anew.

## Main results

* `Expr.meaning_mirrors`, `Expr.eval_mirrors`: values of trees.
* `evalText_mirrors`: values of texts.
* `Scope.context_cacheless`, `topContext_cacheless`: the contexts of scopes and roots.
-/

namespace DynamicEval

/-! ### Contexts -/

/-- A context whose names mean the same without caches, and whose memory is the caches. -/
structure Context.Cacheless (ctx : Context) : Prop where
  /-- Plain values are the same without caches. -/
  value (name : String) (w : World) : ctx.value name w.bare = ctx.value name w
  /-- So are callables. -/
  method (name : String) (w : World) :
    ctx.method name w.bare = ((ctx.method name w).1, (ctx.method name w).2.bare)
  /-- Looking a callable up changes no cache. -/
  method_caches (name : String) (w : World) : (ctx.method name w).2.caches = w.caches
  /-- Looking an expression up changes nothing but caches. -/
  bare_remembered (text : String) (w : World) : (ctx.remembered text w).2.bare = w.bare
  /-- What is found in faithful caches is what the text is read as. -/
  remembered_eq {text w e} (hw : w.Faithful) (he : (ctx.remembered text w).1 = some e) :
    Expr.read text = .ok e
  /-- Caches stay faithful when an expression is looked up. -/
  remembered {w} (hw : w.Faithful) (text : String) : (ctx.remembered text w).2.Faithful
  /-- Remembering an expression changes nothing but caches. -/
  bare_remember (text : String) (e : Expr) (w : World) : (ctx.remember text e w).bare = w.bare
  /-- Caches stay faithful when they take what a text is read as. -/
  remember {w text e} (hw : w.Faithful) (he : Expr.read text = .ok e) :
    (ctx.remember text e w).Faithful

theorem Scope.context_cacheless (s : Scope) : s.context.Cacheless where
  value name w := w.bare_value? s name
  method name w := by
    dsimp only [Scope.context]
    rw [World.bare_method?]
    exact w.bare_methodValue? _
  method_caches _ w := w.methodValue?_caches _
  bare_remembered text w := by
    dsimp only [Scope.context]
    split
    · exact w.bare_remembered _ text
    · rfl
  remembered_eq hw he := by
    dsimp only [Scope.context] at he
    split at he
    · exact hw.remembered_eq he
    · cases he
  remembered hw text := by
    dsimp only [Scope.context]
    split
    · exact hw.remembered _ text
    · exact hw
  bare_remember text e w := by
    dsimp only [Scope.context]
    split
    · exact w.bare_modifyCache _ _
    · rfl
  remember hw he := by
    dsimp only [Scope.context]
    split
    · exact hw.remember _ he
    · exact hw

theorem topContext_cacheless (r : RootId) (top : Scope) : (topContext r top).Cacheless where
  value _ _ := rfl
  method _ w := w.bare_methodValue? _
  method_caches _ w := w.methodValue?_caches _
  bare_remembered text w := w.bare_remembered r text
  remembered_eq hw he := hw.remembered_eq he
  remembered hw text := hw.remembered r text
  bare_remember _ _ w := w.bare_modifyCache r _
  remember hw he := hw.remember r he

/-! ### Nodes -/

section Nodes

variable {host host' : Host} {ctx : Context}

theorem nameFor_mirrors (hctx : ctx.Cacheless) (target : Target) (name : String)
    (selected : Bool) : (nameFor ctx target name selected).Mirrors
      (nameFor ctx target name selected) := by
  let plain (w : World) := ((ctx.value name w).bind fun v => target.filter v w.heap).getD .invalid
  have hplain : Action.Mirrors (do return plain (← get)) (do return plain (← get)) :=
    .get_bind (fun w => by simp only [plain, hctx.value, World.bare_heap]) .pure
  have hmethod : Action.Mirrors (modifyGet (ctx.method name)) (modifyGet (ctx.method name)) :=
    .modifyGet (fun w hw => by rwa [World.Faithful, hctx.method_caches]) fun w _ =>
      hctx.method name w
  rw [nameFor]
  split
  · exact .pure _
  · dsimp only
    split
    · refine hmethod.bind fun o => ?_
      cases o with
      | some m => exact .pure m
      | none => exact hplain
    · exact hplain

theorem memberFor_mirrors (target : Target) (parent key : Value) :
    (memberFor target parent key).Mirrors (memberFor target parent key) := by
  rw [memberFor]
  split
  · exact .pure _
  refine Action.Mirrors.heap.bind fun h => ?_
  split
  · exact .modifyGet (fun _ hw => hw) fun _ _ => rfl
  · exact .pure _

theorem CallableOf.call_mirrors (hhost : host.Mirrors host') (f : Callable) (args : List Value) :
    (f.call host args).Mirrors (f.call host' args) := by
  rw [CallableOf.call, CallableOf.call]
  split
  · exact hhost _ _ _
  · split
    · exact .throw _
    · exact (Action.Mirrors.act _).bind fun ws => hhost _ _ ws

theorem callFor_mirrors (hhost : host.Mirrors host') (name : String) {callee callee' : Action Value}
    {args args' : Action (List Value)} (hcallee : callee.Mirrors callee')
    (hargs : args.Mirrors args') :
    (callFor host name callee args).Mirrors (callFor host' name callee' args') := by
  refine hcallee.bind fun f => Action.Mirrors.heap.bind fun h => ?_
  split
  · exact hargs.bind fun vs => CallableOf.call_mirrors hhost _ vs
  · exact .throw _
  · exact .throw _

theorem binaryOn_mirrors (op : BinaryOp) (x y : Value) :
    (binaryOn op x y).Mirrors (binaryOn op x y) :=
  Action.Mirrors.heap.bind fun _ => .ofExcept _

theorem binaryFor_mirrors (op : BinaryOp) {left left' right right' : Action Value}
    (hleft : left.Mirrors left') (hright : right.Mirrors right') :
    (binaryFor op left right).Mirrors (binaryFor op left' right') := by
  refine hleft.bind fun x => Action.Mirrors.heap.bind fun h => ?_
  split
  · exact .pure _
  · exact hright.bind fun y => binaryOn_mirrors op x y

end Nodes

/-! ### Trees -/

/-- Both readings of two trees mirror each other. -/
structure Meaning.Mirrors (m m' : Meaning) : Prop where
  /-- The values mirror each other, whatever is wanted. -/
  value (target : Target) : (m.value target).Mirrors (m'.value target)
  /-- So do the texts. -/
  text : m.text.Mirrors m'.text

theorem Meaning.Mirrors.ofValue {value value' : Target → Action Value}
    (hvalue : ∀ target, (value target).Mirrors (value' target)) :
    (Meaning.ofValue value).Mirrors (Meaning.ofValue value') where
  value := hvalue
  text := (hvalue .property).bind fun _ => Action.Mirrors.heap.bind fun _ => .pure _

theorem sumFor_mirrors {left left' right right' : Meaning} (hleft : left.Mirrors left')
    (hright : right.Mirrors right') : (sumFor left right).Mirrors (sumFor left' right') := by
  refine (hleft.value .property).bind fun x => Action.Mirrors.heap.bind fun h => ?_
  split
  · exact hright.text.bind fun t => binaryOn_mirrors .add x (.string t)
  · refine (hright.value .property).bind fun y => Action.Mirrors.heap.bind fun h => ?_
    split
    · exact hleft.text.bind fun s => binaryOn_mirrors .add (.string s) y
    · exact binaryOn_mirrors .add x y

section Trees

variable {host host' : Host} {ctx : Context}

mutual

/-- The readings of a tree mirror each other when the routines behind callables do. -/
theorem Expr.meaning_mirrors (hhost : host.Mirrors host') (hctx : ctx.Cacheless) (e : Expr) :
    (e.meaning host ctx).Mirrors (e.meaning host' ctx) := by
  match e with
  | .int _ | .float _ | .string _ => exact .ofValue fun _ => .pure _
  | .name s => exact .ofValue fun target => nameFor_mirrors hctx target s false
  | .select object field =>
    have hobject := Expr.meaning_mirrors hhost hctx object
    rw [Expr.meaning, Expr.meaning]
    refine .ofValue fun target => ?_
    -- A name that is selected from is no constant.
    cases object with
    | name s =>
      exact (nameFor_mirrors hctx .property s true).bind fun _ => memberFor_mirrors _ _ _
    | _ => exact (hobject.value .property).bind fun _ => memberFor_mirrors _ _ _
  | .index object key =>
    have hobject := Expr.meaning_mirrors hhost hctx object
    have hkey := Expr.meaning_mirrors hhost hctx key
    exact .ofValue fun target => (hobject.value .property).bind fun _ =>
      (hkey.value .property).bind fun _ => memberFor_mirrors _ _ _
  | .call callee args =>
    have hcallee := Expr.meaning_mirrors hhost hctx callee
    have hargs := Expr.valuesOf_mirrors hhost hctx args
    exact .ofValue fun _ => callFor_mirrors hhost _ (hcallee.value .method) hargs
  | .unary op operand =>
    have hoperand := Expr.meaning_mirrors hhost hctx operand
    exact .ofValue fun _ => (hoperand.value .property).bind fun _ =>
      Action.Mirrors.heap.bind fun _ => .ofExcept _
  | .binary op left right =>
    have hleft := Expr.meaning_mirrors hhost hctx left
    have hright := Expr.meaning_mirrors hhost hctx right
    cases op with
    | add => exact {
        value := fun _ => sumFor_mirrors hleft hright
        text := hleft.text.bind fun _ => hright.text.bind fun _ => .pure _ }
    | _ =>
      exact .ofValue fun _ => binaryFor_mirrors _ (hleft.value .property) (hright.value .property)
  | .paren inner => exact .ofValue (Expr.meaning_mirrors hhost hctx inner).value

theorem Expr.valuesOf_mirrors (hhost : host.Mirrors host') (hctx : ctx.Cacheless)
    (es : List Expr) : (Expr.valuesOf host ctx es).Mirrors (Expr.valuesOf host' ctx es) := by
  match es with
  | [] => exact .pure _
  | e :: es =>
    exact ((Expr.meaning_mirrors hhost hctx e).value .property).bind fun _ =>
      (Expr.valuesOf_mirrors hhost hctx es).bind fun _ => .pure _

end

theorem Expr.eval_mirrors (hhost : host.Mirrors host') (hctx : ctx.Cacheless) (e : Expr) :
    (e.eval host ctx).Mirrors (e.eval host' ctx) := by
  have hmeaning (host : Host) (w : World) :
      (e.eval host ctx).run.run w = ((e.meaning host ctx).value .property).run.run w :=
    (e.run_eval host ctx w).trans ((e.reading_refines host ctx).value none .invalid .invalid w).1
  intro w hw
  rw [hmeaning, hmeaning]
  exact (Expr.meaning_mirrors hhost hctx e).value .property w hw

end Trees

/-! ### Texts -/

/-- The expression that a text is read as anew. -/
def readAnew (text : String) : Action Expr :=
  match Expr.read text with
  | .ok e => return e
  | .error e => throw (.parse e)

/-- The value of a text that is read anew: it is nothing but blanks, or the text without the blanks
around it, its literals in double quotes, is read and the tree is walked. -/
def evalAnew (host : Host) (ctx : Context) (text : String) : Action Value := do
  let trimmed := Text.trim text.toList
  if trimmed.isEmpty then
    throw (.parse .emptyExpression)
  let e ← readAnew (String.ofList (Text.normalizeQuotes trimmed))
  e.eval host ctx

section Texts

variable {host host' : Host} {ctx : Context}

/-- Whether it is remembered or not, a text is read as it is read anew. -/
theorem Context.expr_mirrors (hctx : ctx.Cacheless) (text : String) :
    (ctx.expr text).Mirrors (readAnew text) := by
  intro w hw
  have hget : (MonadStateOf.modifyGet (ctx.remembered text) : Action (Option Expr)).run.run w =
      (.ok (ctx.remembered text w).1, (ctx.remembered text w).2) := rfl
  have hfaithful := hctx.remembered hw text
  have hbare := hctx.bare_remembered text w
  rw [Context.expr, run_bind_run]
  simp only [modifyGet, hget]
  cases hfound : (ctx.remembered text w).1 with
  | some e =>
    rw [readAnew, hctx.remembered_eq hw hfound, ← hbare]
    exact ⟨hfaithful, rfl⟩
  | none =>
    rw [readAnew, ← hbare]
    cases hread : Expr.read text with
    | ok e => exact ⟨hctx.remember hfaithful hread, congrArg _ (hctx.bare_remember text e _).symm⟩
    | error e => exact ⟨hfaithful, rfl⟩

/-- The value of a text is what it is when the text is read anew. -/
theorem evalText_mirrors (hhost : host.Mirrors host') (hctx : ctx.Cacheless) (text : String) :
    (evalText host ctx text).Mirrors (evalAnew host' ctx text) := by
  rw [evalText, evalAnew]
  dsimp only
  split
  · exact .throw _
  · exact (Context.expr_mirrors hctx _).bind fun e => Expr.eval_mirrors hhost hctx e

end Texts

end DynamicEval
