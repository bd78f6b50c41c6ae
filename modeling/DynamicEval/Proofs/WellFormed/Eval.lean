import DynamicEval.Proofs.Eval.Targets
import DynamicEval.Proofs.WellFormed.World

/-!
# Evaluation keeps what is well-formed

Literals, operators and members of well-formed values are well-formed, and so is what a sound host
makes of them. The walk over a tree is followed in the form that is handed its targets.

## Main definitions

* `Context.Sound`: a context that resolves names to well-formed values.

## Main results

* `BinaryOp.apply_wellFormed`, `UnaryOp.apply_wellFormed`: values of operators.
* `Expr.meaning_keeps`, `Expr.eval_keeps`: values of trees.
* `Scope.eval_keeps`, `evalTop_keeps`: values of texts.
-/

namespace DynamicEval

/-! ### Operators -/

section

variable {h : Heap} {x y v : Value}

theorem BinaryOp.arithmetic_wellFormed {op : BinaryOp} (hv : op.arithmetic x y h = .ok v) :
    v.WellFormed h := by
  rw [arithmetic] at hv
  split at hv
  · cases hv
    exact .string _
  dsimp only at hv
  split at hv
  · cases hv
  split at hv
  · obtain ⟨a, -, hv⟩ := Except.bind_eq_ok.mp hv
    obtain ⟨b, -, hv⟩ := Except.bind_eq_ok.mp hv
    obtain ⟨n, -, hv⟩ := Except.bind_eq_ok.mp hv
    cases hv
    exact .int rfl
  · obtain ⟨a, -, hv⟩ := Except.bind_eq_ok.mp hv
    obtain ⟨b, -, hv⟩ := Except.bind_eq_ok.mp hv
    obtain ⟨z, -, hv⟩ := Except.bind_eq_ok.mp hv
    cases hv
    exact .float trivial

theorem BinaryOp.bitwise_wellFormed {op : BinaryOp} (hv : op.bitwise x y h = .ok v) :
    v.WellFormed h := by
  rw [bitwise] at hv
  split at hv
  · cases hv
  · obtain ⟨a, -, hv⟩ := Except.bind_eq_ok.mp hv
    obtain ⟨b, -, hv⟩ := Except.bind_eq_ok.mp hv
    obtain ⟨n, -, hv⟩ := Except.bind_eq_ok.mp hv
    cases hv
    exact .uint rfl

/-- The value of a binary operator is well-formed. -/
theorem BinaryOp.apply_wellFormed {op : BinaryOp} (hv : op.apply x y h = .ok v) :
    v.WellFormed h := by
  unfold apply at hv
  split at hv
  · cases hv
    exact .bool _
  · cases hv
    exact .bool _
  · split at hv
    · cases hv
      exact .bool _
    · split at hv
      · exact bitwise_wellFormed hv
      · exact arithmetic_wellFormed hv

/-- The value of a unary operator is well-formed. -/
theorem UnaryOp.apply_wellFormed {op : UnaryOp} (hx : x.WellFormed h) (hv : op.apply x h = .ok v) :
    v.WellFormed h := by
  cases op with
  | not =>
    cases hv
    exact .bool _
  | neg =>
    rw [apply] at hv
    split at hv
    · cases hv
      exact .int rfl
    · cases hv
      exact .uint rfl
    · cases hv
      exact .float trivial
    · cases hv
  | plus =>
    rw [apply] at hv
    split at hv
    · cases hv
      exact hx
    · cases hv

end

/-! ### Contexts -/

/-- A context that resolves names to well-formed values, in all worlds later than `w₀`. -/
structure Context.Sound (ctx : Context) (w₀ : World) : Prop where
  /-- Plain values are well-formed. -/
  value {w name v} (hw : w₀.Grows w) (hv : ctx.value name w = some v) : v.WellFormed w.heap
  /-- Callables are well-formed. -/
  method {w} (hw : w₀.Grows w) (name : String) : w.Grows (ctx.method name w).2 ∧
    ∀ v, (ctx.method name w).1 = some v → v.WellFormed (ctx.method name w).2.heap
  /-- Looking an expression up leaves a later world. -/
  remembered {w} (hw : w₀.Grows w) (text : String) : w.Grows (ctx.remembered text w).2
  /-- Remembering an expression leaves a later world. -/
  remember {w} (hw : w₀.Grows w) (text : String) (e : Expr) : w.Grows (ctx.remember text e w)

theorem Scope.context_sound {s : Scope} {w₀ : World} (hs : s.WellFormed w₀.heap) :
    s.context.Sound w₀ where
  value hw hv := World.value?_wellFormed hw.wellFormed (hs.mono hw.heap) hv
  method hw _ := hw.wellFormed.methodValue? fun _ hfound =>
    World.method?_wellFormed hw.wellFormed (hs.mono hw.heap) hfound
  remembered {w} hw text := by
    dsimp only [Scope.context]
    split
    · exact hw.wellFormed.remembered _ text
    · exact hw.wellFormed.grows
  remember {w} hw text e := by
    dsimp only [Scope.context]
    split
    · exact hw.wellFormed.remember _ text e
    · exact hw.wellFormed.grows

theorem topContext_sound {r : RootId} {top : Scope} {w₀ : World} (htop : top.WellFormed w₀.heap) :
    (topContext r top).Sound w₀ where
  value hw hv := Scope.ownValue?_wellFormed hw.wellFormed.heap (htop.mono hw.heap) hv
  method hw _ := hw.wellFormed.methodValue? fun _ hfound =>
    Scope.ownMethod?_wellFormed hw.wellFormed.heap (htop.mono hw.heap) hfound
  remembered hw text := hw.wellFormed.remembered r text
  remember hw text e := hw.wellFormed.remember r text e

/-! ### Nodes -/

/-- An action leaves a later world and gives a well-formed value. -/
abbrev Action.GivesValue (a : Action Value) (w : World) : Prop :=
  a.Keeps w fun w' v => v.WellFormed w'.heap

section Nodes

variable {host : Host} {ctx : Context} {w₀ w : World}

theorem Target.filter_wellFormed {h : Heap} {v : Value} (target : Target) (hv : v.WellFormed h) :
    ((target.filter v h).getD .invalid).WellFormed h := by
  rw [filter]
  split
  · exact .invalid
  · exact hv

theorem constant?_wellFormed {h : Heap} {name : String} {v : Value} (hv : constant? name = some v) :
    v.WellFormed h := by
  rw [constant?] at hv
  split at hv
  · cases hv
    exact .invalid
  split at hv
  · cases hv
    exact .bool true
  split at hv
  · cases hv
    exact .bool false
  · cases hv

theorem nameFor_keeps (hctx : ctx.Sound w₀) (hw : w₀.Grows w) (target : Target) (name : String)
    (selected : Bool) : (nameFor ctx target name selected).GivesValue w := by
  have hplain {w : World} (hw : w₀.Grows w) : Action.GivesValue (do
      let w ← get
      return ((ctx.value name w).bind fun v => target.filter v w.heap).getD .invalid) w := by
    refine .get_bind (.pure hw.wellFormed ?_)
    cases hv : ctx.value name w with
    | none => exact .invalid
    | some v => exact Target.filter_wellFormed target (hctx.value hw hv)
  rw [nameFor]
  split
  · next v hv =>
    refine .pure hw.wellFormed (constant?_wellFormed (?_ : constant? name = some v))
    split at hv
    · cases hv
    · exact hv
  · dsimp only
    split
    · obtain ⟨hgrows, hv⟩ := hctx.method hw name
      refine Action.Keeps.bind (P := fun w' o => ∀ v, o = some v → v.WellFormed w'.heap)
        (.modifyGet hgrows hv) fun o w' hgrows ho => ?_
      cases o with
      | some m => exact .pure hgrows.wellFormed (ho m rfl)
      | none => exact hplain (hw.trans hgrows)
    · exact hplain hw

theorem memberFor_keeps (hw : w.WellFormed) (target : Target) {parent : Value} (key : Value)
    (hparent : parent.WellFormed w.heap) : (memberFor target parent key).GivesValue w := by
  rw [memberFor]
  split
  · exact .pure hw .invalid
  refine .get_bind ?_
  split
  · next name body receiver hm =>
    split at hm
    · have hreceiver := Value.methodAt?_wellFormed hw.heap hparent hm
      obtain ⟨hgrows, hv⟩ := hw.methodValue (m := .ofRecord name body receiver) hreceiver
      exact .modifyGet hgrows hv
    · cases hm
  · refine .pure hw ?_
    cases hv : parent.propAt? [key] w.heap with
    | none => exact .invalid
    | some v =>
      exact Target.filter_wellFormed target (Value.propAt?_wellFormed hw.heap hparent hv)

theorem callFor_keeps (hhost : host.Sound) {name : String} {callee : Action Value}
    {args : Action (List Value)} (hcallee : callee.GivesValue w)
    (hargs : ∀ w', w.Grows w' →
      args.Keeps w' fun w'' vs => ∀ v ∈ vs, v.WellFormed w''.heap) :
    (callFor host name callee args).GivesValue w := by
  refine hcallee.bind fun f w' hgrows hf => ?_
  refine .get_bind ?_
  have hbase := hf.base hgrows.wellFormed.heap
  split
  · next f hfunc =>
    rw [hfunc] at hbase
    refine (hargs w' hgrows).bind fun vs w'' hgrows' hvs => ?_
    exact CallableOf.call_keeps hhost hgrows'.wellFormed (hbase.mono hgrows'.heap) hvs
  · exact .throw hgrows.wellFormed _
  · exact .throw hgrows.wellFormed _

theorem binaryOn_keeps (hw : w.WellFormed) (op : BinaryOp) (x y : Value) :
    (binaryOn op x y).GivesValue w :=
  .get_bind (.ofExcept hw fun _ hv => op.apply_wellFormed hv)

theorem binaryFor_keeps {op : BinaryOp} {left right : Action Value} (hleft : left.GivesValue w)
    (hright : ∀ w', w.Grows w' → right.GivesValue w') :
    (binaryFor op left right).GivesValue w := by
  refine hleft.bind fun x w' hgrows _ => ?_
  refine .get_bind ?_
  split
  · exact .pure hgrows.wellFormed (.bool true)
  · exact (hright w' hgrows).bind fun y w'' hgrows' _ => binaryOn_keeps hgrows'.wellFormed op x y

end Nodes

/-! ### Trees -/

/-- Both readings of a tree leave later worlds, and that for its value gives a well-formed one. -/
structure Meaning.Sound (m : Meaning) (w₀ : World) : Prop where
  /-- The values are well-formed. -/
  value {w} (hw : w₀.Grows w) (target : Target) : (m.value target).GivesValue w
  /-- The worlds after reading the text are later ones. -/
  text {w} (hw : w₀.Grows w) : m.text.Keeps w fun _ _ => True

theorem Meaning.Sound.ofValue {value : Target → Action Value} {w₀ : World}
    (hvalue : ∀ {w}, w₀.Grows w → ∀ target, (value target).GivesValue w) :
    (Meaning.ofValue value).Sound w₀ where
  value := hvalue
  text hw := (hvalue hw .property).bind fun _ _ hgrows _ =>
    .get_bind (.pure hgrows.wellFormed trivial)

section Trees

variable {host : Host} {ctx : Context} {w₀ : World}

theorem sumFor_keeps {w : World} {left right : Meaning} (hleft : left.Sound w₀) (hright : right.Sound w₀)
    (hw : w₀.Grows w) : (sumFor left right).GivesValue w := by
  refine (hleft.value hw .property).bind fun x w₁ hgrows _ => ?_
  have hw₁ := hw.trans hgrows
  refine .get_bind ?_
  split
  · exact (hright.text hw₁).bind fun t w₂ hgrows' _ =>
      binaryOn_keeps hgrows'.wellFormed .add x (.string t)
  · refine (hright.value hw₁ .property).bind fun y w₂ hgrows' _ => ?_
    refine .get_bind ?_
    split
    · exact (hleft.text (hw₁.trans hgrows')).bind fun s w₃ hgrows'' _ =>
        binaryOn_keeps hgrows''.wellFormed .add (.string s) y
    · exact binaryOn_keeps hgrows'.wellFormed .add x y

mutual

/-- The readings of every tree are sound on a sound host and in a sound context. -/
theorem Expr.meaning_sound (hhost : host.Sound) (hctx : ctx.Sound w₀) (e : Expr) :
    (e.meaning host ctx).Sound w₀ := by
  match e with
  | .int n => exact .ofValue fun hw _ => .pure hw.wellFormed (.int rfl)
  | .float x => exact .ofValue fun hw _ => .pure hw.wellFormed (.float trivial)
  | .string s => exact .ofValue fun hw _ => .pure hw.wellFormed (.string s)
  | .name s => exact .ofValue fun hw target => nameFor_keeps hctx hw target s false
  | .select object field =>
    have hobject := Expr.meaning_sound hhost hctx object
    have hmember {a : Action Value} {w : World} (target : Target) (ha : a.GivesValue w) :
        (a >>= fun parent => memberFor target parent (.string field)).GivesValue w :=
      ha.bind fun _ _ hgrows hparent =>
        memberFor_keeps hgrows.wellFormed target (.string field) hparent
    rw [Expr.meaning]
    refine .ofValue fun hw target => ?_
    cases object with
    | name s => exact hmember target (nameFor_keeps hctx hw .property s true)
    | _ => exact hmember target (hobject.value hw .property)
  | .index object key =>
    have hobject := Expr.meaning_sound hhost hctx object
    have hkey := Expr.meaning_sound hhost hctx key
    refine .ofValue fun hw target => ?_
    refine (hobject.value hw .property).bind fun parent w₁ hgrows hparent => ?_
    refine (hkey.value (hw.trans hgrows) .property).bind fun key w₂ hgrows' _ => ?_
    exact memberFor_keeps hgrows'.wellFormed target key (hparent.mono hgrows'.heap)
  | .call callee args =>
    have hcallee := Expr.meaning_sound hhost hctx callee
    exact .ofValue fun hw _ => callFor_keeps hhost (hcallee.value hw .method) fun _ hgrows =>
      Expr.valuesOf_keeps hhost hctx args (hw.trans hgrows)
  | .unary op operand =>
    have hoperand := Expr.meaning_sound hhost hctx operand
    refine .ofValue fun hw _ => ?_
    refine (hoperand.value hw .property).bind fun v w₁ hgrows hv => ?_
    exact .get_bind (.ofExcept hgrows.wellFormed fun _ hresult => op.apply_wellFormed hv hresult)
  | .binary op left right =>
    have hleft := Expr.meaning_sound hhost hctx left
    have hright := Expr.meaning_sound hhost hctx right
    have hvalue (op : BinaryOp) : (Meaning.ofValue fun _ => binaryFor op
        ((left.meaning host ctx).value .property) ((right.meaning host ctx).value .property)).Sound
          w₀ :=
      .ofValue fun hw _ => binaryFor_keeps (hleft.value hw .property) fun _ hgrows =>
        hright.value (hw.trans hgrows) .property
    cases op with
    | add =>
      refine ⟨fun hw _ => sumFor_keeps hleft hright hw, fun hw => ?_⟩
      refine (hleft.text hw).bind fun s w₁ hgrows _ => ?_
      refine (hright.text (hw.trans hgrows)).bind fun t w₂ hgrows' _ => ?_
      exact .pure hgrows'.wellFormed trivial
    | _ => exact hvalue _
  | .paren inner =>
    have hinner := Expr.meaning_sound hhost hctx inner
    exact .ofValue fun hw target => hinner.value hw target

theorem Expr.valuesOf_keeps (hhost : host.Sound) (hctx : ctx.Sound w₀) (es : List Expr)
    {w : World} (hw : w₀.Grows w) :
    (Expr.valuesOf host ctx es).Keeps w fun w' vs => ∀ v ∈ vs, v.WellFormed w'.heap := by
  match es with
  | [] => exact .pure hw.wellFormed (List.forall_mem_nil _)
  | e :: es =>
    have he := Expr.meaning_sound hhost hctx e
    refine (he.value hw .property).bind fun v w₁ hgrows hv => ?_
    refine (Expr.valuesOf_keeps hhost hctx es (hw.trans hgrows)).bind fun vs w₂ hgrows' hvs => ?_
    refine .pure hgrows'.wellFormed fun u hu => ?_
    rcases List.mem_cons.mp hu with rfl | hu
    · exact hv.mono hgrows'.heap
    · exact hvs u hu

end

/-- The value of a tree is well-formed. -/
theorem Expr.eval_keeps (hhost : host.Sound) (hctx : ctx.Sound w₀) (e : Expr) {w : World}
    (hw : w₀.Grows w) : (e.eval host ctx).GivesValue w := by
  have hvalue := (Expr.meaning_sound hhost hctx e).value hw .property
  obtain ⟨hrun, -⟩ := (e.reading_refines host ctx).value none .invalid .invalid w
  exact hvalue.congr ((e.run_eval host ctx w).trans hrun)

/-- Reading a text as an expression leaves a later world. -/
theorem Context.expr_keeps (hctx : ctx.Sound w₀) (text : String) {w : World} (hw : w₀.Grows w) :
    (ctx.expr text).Keeps w fun _ _ => True := by
  rw [Context.expr]
  refine Action.Keeps.bind (P := fun _ _ => True)
    (.modifyGet (hctx.remembered hw text) trivial) fun o w₁ hgrows _ => ?_
  have hw₁ := hw.trans hgrows
  split
  · exact .pure hgrows.wellFormed trivial
  · split
    · next e _ =>
      refine Action.Keeps.bind (P := fun _ _ => True)
        (.modifyGet (hctx.remember hw₁ text e) trivial) fun _ w₂ hgrows' _ => ?_
      exact .pure hgrows'.wellFormed trivial
    · exact .throw hgrows.wellFormed _

/-- The value of a text is well-formed. -/
theorem evalText_keeps (hhost : host.Sound) (hctx : ctx.Sound w₀) (text : String)
    {w : World} (hw : w₀.Grows w) : (evalText host ctx text).GivesValue w := by
  rw [evalText]
  dsimp only
  split
  · exact ⟨hw.wellFormed.grows, nofun⟩
  · exact (Context.expr_keeps hctx _ hw).bind fun e w₁ hgrows _ =>
      Expr.eval_keeps hhost hctx e (hw.trans hgrows)

end Trees

/-- The value of a text in a scope is well-formed. -/
theorem Scope.eval_keeps {host : Host} (hhost : host.Sound) {w : World} (hw : w.WellFormed)
    {s : Scope} (hs : s.WellFormed w.heap) (text : String) : (s.eval host text).GivesValue w :=
  evalText_keeps hhost (context_sound hs) text hw.grows

/-- The value of a text in the top scope of a root is well-formed. -/
theorem evalTop_keeps {host : Host} (hhost : host.Sound) {w : World} (hw : w.WellFormed)
    (r : RootId) (text : String) : (evalTop host r text).GivesValue w := by
  refine .get_bind (evalText_keeps hhost (topContext_sound ?_) text hw.grows)
  cases htop : w.top? r with
  | none => exact .empty none
  | some top => exact hw.tops r top htop

end DynamicEval
