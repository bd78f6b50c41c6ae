import DynamicEval.Proofs.Eval.Targets

/-!
# The names that a tree asks for

What a tree evaluates to depends on its context only through the names in it, each as it is wanted:
a callable of what is called, and a plain value everywhere else. Two contexts that give the same
for these names evaluate the tree alike, whatever else they give.

## Main definitions

* `Expr.asks`: the names in a tree, with what is wanted of them.
* `Context.AgreeOn`: two contexts that give the same for some names.

## Main results

* `Expr.meaning_congr`: a tree is read alike in contexts that agree on what it asks for.
* `Expr.eval_congr`: so it is evaluated alike.
-/

namespace DynamicEval

mutual

/-- The names that a tree asks its context for, with what is wanted of each, if `t` is wanted of the
tree. -/
def Expr.asks (t : Target) : Expr → List (Target × String)
  | .int _ | .float _ | .string _ => []
  | .name s => [(t, s)]
  | .select object _ => object.asks .property
  | .index object key => object.asks .property ++ key.asks .property
  | .call callee args => callee.asks .method ++ Expr.asksAll args
  | .unary _ operand => operand.asks .property
  | .binary _ left right => left.asks .property ++ right.asks .property
  | .paren inner => inner.asks t
termination_by structural e => e

/-- The names that trees ask for, if plain values are wanted of them. -/
def Expr.asksAll : List Expr → List (Target × String)
  | [] => []
  | e :: es => e.asks .property ++ Expr.asksAll es
termination_by structural es => es

end

/-- Two contexts give the same for some names, each as it is wanted, where they stand for themselves
and where a member of theirs is selected. -/
def Context.AgreeOn (ctx ctx' : Context) (names : List (Target × String)) : Prop :=
  ∀ q ∈ names, ∀ selected, nameFor ctx q.1 q.2 selected = nameFor ctx' q.1 q.2 selected

/-- The readings of a tree are the same in two contexts that agree on what it asks for. -/
structure Expr.ReadAlike (host : Host) (ctx ctx' : Context) (e : Expr) : Prop where
  /-- The reading for a value, as it is wanted. -/
  value (t : Target) (h : ctx.AgreeOn ctx' (e.asks t)) :
    (e.meaning host ctx).value t = (e.meaning host ctx').value t
  /-- The reading as a text. -/
  text (h : ctx.AgreeOn ctx' (e.asks .property)) :
    (e.meaning host ctx).text = (e.meaning host ctx').text

section

variable {host : Host} {ctx ctx' : Context}

theorem Context.agreeOn_append {names names' : List (Target × String)} :
    ctx.AgreeOn ctx' (names ++ names') ↔ ctx.AgreeOn ctx' names ∧ ctx.AgreeOn ctx' names' :=
  List.forall_mem_append

/-- Contexts that give the same plain value for a name give the same where one is wanted. -/
theorem nameFor_property_congr {name : String} (hvalue : ctx.value name = ctx'.value name)
    (selected : Bool) :
    nameFor ctx .property name selected = nameFor ctx' .property name selected := by
  rw [nameFor, nameFor, hvalue]
  rfl

/-- Contexts that give the same callable for a name give the same where one is wanted, if there
always is one, or else if they also give the same plain value. -/
theorem nameFor_method_congr {name : String} (hmethod : ctx.method name = ctx'.method name)
    (hfound : (∀ w, (ctx'.method name w).1.isSome) ∨ ctx.value name = ctx'.value name)
    (selected : Bool) :
    nameFor ctx .method name selected = nameFor ctx' .method name selected := by
  rcases hfound with hfound | hvalue
  · refine ExceptT.ext (StateT.ext fun w => ?_)
    obtain ⟨m, hm⟩ := Option.isSome_iff_exists.mp (hfound w)
    have hrun : (modifyGet (ctx'.method name) : Action (Option Value)).run.run w =
        (.ok (some m), (ctx'.method name w).2) := hm ▸ rfl
    rw [nameFor, nameFor, hmethod]
    split
    · rfl
    · simp only [↓reduceIte, run_bind_run, hrun]
  · rw [nameFor, nameFor, hmethod, hvalue]

/-- The text of a tree is that of its value, but for sums. -/
theorem Expr.ReadAlike.ofValue {e : Expr} {value value' : Target → Action Value}
    (he : e.meaning host ctx = .ofValue value) (he' : e.meaning host ctx' = .ofValue value')
    (hvalue : ∀ t, ctx.AgreeOn ctx' (e.asks t) → value t = value' t) :
    e.ReadAlike host ctx ctx' where
  value t h := by
    rw [he, he']
    exact hvalue t h
  text h := by
    rw [he, he', Meaning.ofValue, Meaning.ofValue, hvalue .property h]

mutual

/-- A tree is read alike in contexts that agree on what it asks for. -/
theorem Expr.meaning_congr (host : Host) (ctx ctx' : Context) (e : Expr) :
    e.ReadAlike host ctx ctx' := by
  match e with
  | .int _ | .float _ | .string _ => exact .ofValue rfl rfl fun _ _ => rfl
  | .name s => exact .ofValue rfl rfl fun t h => h (t, s) List.mem_cons_self false
  | .select object field =>
    have hobject := Expr.meaning_congr host ctx ctx' object
    cases object with
    | name s =>
      refine .ofValue rfl rfl fun t h => ?_
      rw [h (.property, s) List.mem_cons_self true]
    | _ => exact .ofValue rfl rfl fun t h => by rw [hobject.value .property h]
  | .index object key =>
    have hobject := Expr.meaning_congr host ctx ctx' object
    have hkey := Expr.meaning_congr host ctx ctx' key
    refine .ofValue rfl rfl fun t h => ?_
    obtain ⟨h, h'⟩ := Context.agreeOn_append.mp h
    rw [hobject.value _ h, hkey.value _ h']
  | .call callee args =>
    have hcallee := Expr.meaning_congr host ctx ctx' callee
    have hargs := Expr.valuesOf_congr host ctx ctx' args
    refine .ofValue rfl rfl fun t h => ?_
    obtain ⟨h, h'⟩ := Context.agreeOn_append.mp h
    rw [hcallee.value _ h, hargs h']
  | .unary op operand =>
    have hoperand := Expr.meaning_congr host ctx ctx' operand
    exact .ofValue rfl rfl fun t h => by rw [hoperand.value _ h]
  | .binary op left right =>
    have hleft := Expr.meaning_congr host ctx ctx' left
    have hright := Expr.meaning_congr host ctx ctx' right
    cases op with
    | add =>
      refine ⟨fun t h => ?_, fun h => ?_⟩
      · obtain ⟨h, h'⟩ := Context.agreeOn_append.mp h
        simp only [Expr.meaning, sumFor, hleft.value _ h, hright.value _ h', hleft.text h,
          hright.text h']
      · obtain ⟨h, h'⟩ := Context.agreeOn_append.mp h
        simp only [Expr.meaning, hleft.text h, hright.text h']
    | _ =>
      refine .ofValue rfl rfl fun t h => ?_
      obtain ⟨h, h'⟩ := Context.agreeOn_append.mp h
      rw [hleft.value _ h, hright.value _ h']
  | .paren inner =>
    have hinner := Expr.meaning_congr host ctx ctx' inner
    exact .ofValue rfl rfl hinner.value

theorem Expr.valuesOf_congr (host : Host) (ctx ctx' : Context) (es : List Expr)
    (h : ctx.AgreeOn ctx' (Expr.asksAll es)) :
    Expr.valuesOf host ctx es = Expr.valuesOf host ctx' es := by
  match es with
  | [] => rfl
  | e :: es =>
    obtain ⟨h, h'⟩ := Context.agreeOn_append.mp h
    rw [Expr.valuesOf, Expr.valuesOf, (Expr.meaning_congr host ctx ctx' e).value _ h,
      Expr.valuesOf_congr host ctx ctx' es h']

end

/-- A tree is evaluated alike in contexts that agree on what it asks for. -/
theorem Expr.eval_congr {e : Expr} (h : ctx.AgreeOn ctx' (e.asks .property)) :
    e.eval host ctx = e.eval host ctx' := by
  refine ExceptT.ext (StateT.ext fun w => ?_)
  rw [run_eval_eq_meaning, run_eval_eq_meaning, (meaning_congr host ctx ctx' e).value _ h]

end

end DynamicEval
