import DynamicEval.Proofs.Eval.Targets
import DynamicEval.Proofs.Number

/-!
# Failures of evaluation without calls

Without calls an expression fails only where an operator has no meaning for its operands or divides
by zero. What makes other failures possible is a number that cannot be read as one: a pointer to
nothing counts as a number if it was declared to point to one, and while it is read as zero itself,
a pointer to a cell with it is not. Values without such a cell in or behind them hand on that
property to their parts, and so to everything that an expression makes of them.

## Main definitions

* `Heap.Contains`: a value stands somewhere in another one or behind it.
* `Value.Readable`: no cell in or behind a value leads to a pointer to nothing.
* `Expr.callFree`, `Expr.operatorFree`: trees without calls, and without operators too.
* `Outcome`, `Action.Settles`: what a computation gives or fails with, the world as it was.

## Main results

* `Value.Readable.exists_readings`: a readable value that counts as a number is read as one.
* `BinaryOp.apply_outcome`, `UnaryOp.apply_outcome`: how operators fail on readable values.
* `Expr.meaning_settles`: how trees without calls fail.
* `Expr.eval_callFree`: trees without calls fail with failures of operators only, and trees without
  operators not at all.
-/

namespace DynamicEval

/-! ### Readable values -/

/-- A value stands in another one or behind it. What a callable holds is not looked at. -/
inductive Heap.Contains (h : Heap) : Value → Value → Prop where
  | self (v : Value) : Contains h v v
  | slot {v u : Value} (hu : Contains h v u) : Contains h (.slot v) u
  | cell {e : Ty} {a : Addr} {u : Value} (hu : Contains h (h.get a) u) :
      Contains h (.pointer e (some a)) u
  | list {e : Ty} {items : List Value} {v u : Value} (hmem : v ∈ items) (hu : Contains h v u) :
      Contains h (.list e items) u
  | array {e : Ty} {items : List Value} {v u : Value} (hmem : v ∈ items) (hu : Contains h v u) :
      Contains h (.array e items) u
  | map {k e : Ty} {entries : List (Key × Value)} {entry : Key × Value} {u : Value}
      (hmem : entry ∈ entries) (hu : Contains h entry.2 u) : Contains h (.map k e entries) u
  | record {r : RecordType} {fields : List Value} {v u : Value} (hmem : v ∈ fields)
      (hu : Contains h v u) : Contains h (.record r fields) u

namespace Value

/-- A pointer to nothing, in any slots. -/
def endsInNil : Value → Bool
  | pointer _ none => true
  | slot v => v.endsInNil
  | _ => false

/-- The absent value or a value of a type without parts. -/
def isScalar : Value → Bool
  | invalid | bool _ | int _ _ | uint _ _ | float _ _ | string _ => true
  | _ => false

/-- No pointer in a value or behind it is to a cell that leads to a pointer to nothing through slots
only, and no slot is in a slot. -/
structure Readable (v : Value) (h : Heap) : Prop where
  /-- No cell leads to a pointer to nothing. -/
  cells : ∀ e a, h.Contains v (.pointer e (some a)) → (h.get a).endsInNil = false
  /-- Slots do not nest. -/
  slots : ∀ u, h.Contains v (.slot u) → u.isSlot = false

end Value

section Contains

variable {h : Heap} {v u t key : Value} {p : Place}

theorem Heap.Contains.trans (hu : h.Contains v u) (ht : h.Contains u t) : h.Contains v t := by
  induction hu with
  | self => exact ht
  | slot _ ih => exact .slot (ih ht)
  | cell _ ih => exact .cell (ih ht)
  | list hmem _ ih => exact .list hmem (ih ht)
  | array hmem _ ih => exact .array hmem (ih ht)
  | map hmem _ ih => exact .map hmem (ih ht)
  | record hmem _ ih => exact .record hmem (ih ht)

theorem Heap.contains_baseStep {deref : Addr → Value}
    (hderef : ∀ a, h.Contains (h.get a) (deref a) ∨ deref a = .invalid) (v : Value) :
    h.Contains v (v.baseStep deref) ∨ v.baseStep deref = .invalid := by
  match v with
  | .pointer _ (some a) => exact (hderef a).imp_left .cell
  | .pointer _ none | .emptySlot => exact .inr rfl
  | .slot v => exact (Heap.contains_baseStep hderef v).imp_left .slot
  | .invalid | .bool _ | .int _ _ | .uint _ _ | .float _ _ | .string _ | .list _ _ | .array _ _
  | .map _ _ _ | .record _ _ | .func _ => exact .inl (.self _)

/-- A value contains what stands at its base. -/
theorem Heap.contains_base (h : Heap) (v : Value) :
    h.Contains v (v.base h) ∨ v.base h = .invalid := by
  suffices ∀ n v, h.Contains v (h.unroll .invalid Value.baseStep n v) ∨
      h.unroll .invalid Value.baseStep n v = .invalid from this h.size v
  intro n
  induction n with
  | zero => exact Heap.contains_baseStep fun _ => .inr rfl
  | succ n ih => exact Heap.contains_baseStep fun a => ih (h.get a)

theorem Value.Selects.contains (hp : key.Selects h v p) : h.Contains v p.content := by
  cases hp with
  | entry _ hw =>
    obtain ⟨entry, hentry, rfl⟩ := Entries.mem_of_find?_eq_some hw
    exact .map hentry (.self _)
  | field _ _ hw => exact .record (List.mem_of_getElem? hw) (.self _)
  | listItem _ hw => exact .list (List.mem_of_getElem? hw) (.self _)
  | arrayItem _ hw => exact .array (List.mem_of_getElem? hw) (.self _)

namespace Value.Readable

theorem of_contains (hv : v.Readable h) (hu : h.Contains v u) : u.Readable h :=
  ⟨fun e a ha => hv.cells e a (hu.trans ha), fun t ht => hv.slots t (hu.trans ht)⟩

theorem of_isScalar (hv : v.isScalar = true) : v.Readable h := by
  cases v with
  | invalid | bool | int | uint | float | string =>
    exact ⟨fun _ _ hu => (nomatch hu), fun _ hu => (nomatch hu)⟩
  | _ => cases hv

theorem peel (hv : v.Readable h) : v.peel.Readable h := by
  cases v with
  | slot v => exact hv.of_contains (.slot (.self v))
  | emptySlot => exact of_isScalar rfl
  | _ => exact hv

theorem base (hv : v.Readable h) : (v.base h).Readable h := by
  rcases h.contains_base v with hbase | hbase
  · exact hv.of_contains hbase
  · exact of_isScalar (hbase ▸ rfl)

/-- The value that a segment selects in a readable value is readable. -/
theorem propAt? (hv : v.Readable h) (hu : v.propAt? [key] h = some u) : u.Readable h := by
  obtain ⟨w, hw, rfl⟩ := Option.map_eq_some_iff.mp hu
  obtain ⟨-, hwalk⟩ := walk?_of_fieldAt? hw
  obtain ⟨w', hpart, hw'⟩ := Option.bind_eq_some_iff.mp hwalk
  cases hw'
  rw [part?_eq_place?] at hpart
  obtain ⟨p, hp, rfl⟩ := Option.map_eq_some_iff.mp hpart
  exact (hv.base.of_contains (place?_eq_some.mp hp).contains).peel

end Value.Readable

theorem Value.baseStep_ne_invalid {deref : Addr → Value} {derefTy : Addr → Ty} {v : Value}
    (hderef : ∀ e a, h.Contains v (.pointer e (some a)) → derefTy a ≠ .invalid →
      deref a ≠ .invalid)
    (hnil : v.endsInNil = false) (hty : v.baseTyStep derefTy ≠ .invalid) :
    v.baseStep deref ≠ .invalid := by
  match v with
  | .pointer e (some a) => exact hderef e a (.self _) hty
  | .pointer _ none => cases hnil
  | .slot v => exact baseStep_ne_invalid (v := v) (fun e a ha => hderef e a (.slot ha)) hnil hty
  | .emptySlot | .invalid => exact absurd rfl hty
  | .bool _ | .int _ _ | .uint _ _ | .float _ _ | .string _ | .list _ _ | .array _ _ | .map _ _ _
  | .record _ _ | .func _ => nofun

namespace Value.Readable

/-- Where a type is found behind the pointers of a readable value, so is a value. -/
theorem base_ne_invalid (hv : v.Readable h) (hnil : v.endsInNil = false)
    (hty : v.baseTy h ≠ .invalid) : v.base h ≠ .invalid := by
  suffices ∀ n (v : Value), v.Readable h → v.endsInNil = false →
      h.unroll .invalid baseTyStep n v ≠ .invalid → h.unroll .invalid baseStep n v ≠ .invalid from
    this h.size v hv hnil hty
  intro n
  induction n with
  | zero => exact fun v _ => baseStep_ne_invalid (h := h) fun _ _ _ hne => absurd rfl hne
  | succ n ih =>
    exact fun v hv => baseStep_ne_invalid fun e a ha =>
      ih (h.get a) (hv.of_contains (ha.trans (.cell (.self _)))) (hv.cells e a ha)

/-- A readable value that counts as a number is nothing or has a number at its base. -/
theorem isNil_or_holdsNumber (hv : v.Readable h) (hnum : v.isNumber h = true) :
    v.peel.isNil = true ∨ v.holdsNumber h = true := by
  refine or_iff_not_imp_left.mpr fun hnil => ?_
  have hends : v.endsInNil = false := by
    match v with
    | .slot (.pointer _ none) | .pointer _ none => exact absurd rfl hnil
    | .slot (.slot u) => cases hv.slots _ (.self _)
    | .slot .emptySlot => cases hv.slots _ (.self _)
    | .slot (.pointer _ (some _)) | .slot .invalid | .slot (.bool _) | .slot (.int _ _)
    | .slot (.uint _ _) | .slot (.float _ _) | .slot (.string _) | .slot (.list _ _)
    | .slot (.array _ _) | .slot (.map _ _ _) | .slot (.record _ _) | .slot (.func _)
    | .pointer _ (some _) | .emptySlot | .invalid | .bool _ | .int _ _ | .uint _ _ | .float _ _
    | .string _ | .list _ _ | .array _ _ | .map _ _ _ | .record _ _ | .func _ => rfl
  refine holdsNumber_iff.mpr ⟨hnum, hv.base_ne_invalid hends fun hty => ?_⟩
  rw [isNumber, baseKind, hty] at hnum
  cases hnum

/-- A readable value that counts as a number can be read as a number of each kind. -/
theorem exists_readings (hv : v.Readable h) (hnum : v.isNumber h = true) :
    (∃ n, v.toInt64 h = .ok n) ∧ (∃ n, v.toUInt64 h = .ok n) ∧ ∃ x, v.toFloat h = .ok x :=
  Value.exists_readings (hv.isNil_or_holdsNumber hnum)

end Value.Readable

end Contains

/-! ### Operators -/

/-- The failure of an operator: it has no meaning for its operands, or divides by zero. -/
def Error.isOperator : Error → Bool
  | invalidOperation _ _ _ | invalidUnary _ _ | divisionByZero => true
  | _ => false

theorem Error.severity_of_isOperator {e : Error} (he : e.isOperator = true) :
    e.severity = .recoverable := by
  cases e <;> first | rfl | cases he

/-- `P` holds of a result and `E` of a failure. -/
def Outcome {α : Type} (P : α → Prop) (E : Error → Prop) : Except Error α → Prop
  | .ok a => P a
  | .error e => E e

section Outcome

variable {α β : Type} {P : α → Prop} {Q : β → Prop} {E : Error → Prop}

theorem Outcome.of_exists {r : Except Error α} (hr : ∃ a, r = .ok a) :
    Outcome (fun _ => True) E r := by
  obtain ⟨a, rfl⟩ := hr
  trivial

theorem Outcome.bind {r : Except Error α} {f : α → Except Error β} (hr : Outcome P E r)
    (hf : ∀ a, P a → Outcome Q E (f a)) : Outcome Q E (r >>= f) := by
  cases r with
  | ok a => exact hf a hr
  | error e => exact hr

theorem Outcome.imp {P' : α → Prop} {E' : Error → Prop} {r : Except Error α}
    (hr : Outcome P E r) (hP : ∀ a, P a → P' a) (hE : ∀ e, E e → E' e) : Outcome P' E' r := by
  cases r with
  | ok a => exact hP a hr
  | error e => exact hE e hr

end Outcome

/-- What an operator gives or fails with: a scalar, or a failure of an operator. -/
abbrev OfOperator (r : Except Error Value) : Prop :=
  Outcome (fun v => v.isScalar = true) (fun e => e.isOperator = true) r

section Operators

variable {h : Heap} {x y : Value} {err : Error}

theorem BinaryOp.onInt64_outcome (op : BinaryOp) (herr : err.isOperator = true) (a b : Int64) :
    Outcome (fun _ => True) (fun e => e.isOperator = true) (op.onInt64 err a b) := by
  unfold onInt64
  split
  · trivial
  · trivial
  · trivial
  · split
    · rfl
    · trivial
  · split
    · rfl
    · trivial
  · exact herr

theorem BinaryOp.onFloat_outcome (op : BinaryOp) (herr : err.isOperator = true) (a b : Binary64) :
    Outcome (fun _ => True) (fun e => e.isOperator = true) (op.onFloat err a b) := by
  unfold onFloat
  split <;> first | exact herr | trivial

theorem BinaryOp.onUInt64_outcome (op : BinaryOp) (herr : err.isOperator = true) (a b : UInt64) :
    Outcome (fun _ => True) (fun e => e.isOperator = true) (op.onUInt64 err a b) := by
  unfold onUInt64
  split <;> first | exact herr | trivial

theorem BinaryOp.arithmetic_outcome (op : BinaryOp) (hx : x.Readable h) (hy : y.Readable h) :
    OfOperator (op.arithmetic x y h) := by
  rw [arithmetic]
  split
  · rfl
  dsimp only
  split
  · rfl
  next hnum =>
    rw [Bool.or_eq_true, Bool.not_eq_true', Bool.not_eq_true', not_or, Bool.not_eq_false,
      Bool.not_eq_false] at hnum
    obtain ⟨hxint, -, hxfloat⟩ := hx.exists_readings hnum.1
    obtain ⟨hyint, -, hyfloat⟩ := hy.exists_readings hnum.2
    split
    · exact .bind (.of_exists hxint) fun a _ => .bind (.of_exists hyint) fun b _ =>
        .bind (op.onInt64_outcome rfl a b) fun _ _ => rfl
    · exact .bind (.of_exists hxfloat) fun a _ => .bind (.of_exists hyfloat) fun b _ =>
        .bind (op.onFloat_outcome rfl a b) fun _ _ => rfl

theorem BinaryOp.bitwise_outcome (op : BinaryOp) (hx : x.Readable h) (hy : y.Readable h) :
    OfOperator (op.bitwise x y h) := by
  have hnumber {v : Value} (hv : v.isGeneralInt h = true) : v.isNumber h = true :=
    Bool.or_eq_true_iff.mpr (.inl hv)
  rw [bitwise]
  split
  · rfl
  next hint =>
    rw [Bool.or_eq_true, Bool.not_eq_true', Bool.not_eq_true', not_or, Bool.not_eq_false,
      Bool.not_eq_false] at hint
    obtain ⟨-, hxint, -⟩ := hx.exists_readings (hnumber hint.1)
    obtain ⟨-, hyint, -⟩ := hy.exists_readings (hnumber hint.2)
    exact .bind (.of_exists hxint) fun a _ => .bind (.of_exists hyint) fun b _ =>
      .bind (op.onUInt64_outcome rfl a b) fun _ _ => rfl

/-- On readable values a binary operator gives a scalar or fails as an operator. -/
theorem BinaryOp.apply_outcome (op : BinaryOp) (hx : x.Readable h) (hy : y.Readable h) :
    OfOperator (op.apply x y h) := by
  unfold apply
  split
  · rfl
  · rfl
  · split
    · rfl
    split
    · exact op.bitwise_outcome hx hy
    · exact op.arithmetic_outcome hx hy

/-- An operator on one value gives that value or a scalar, or fails as an operator. -/
theorem UnaryOp.apply_outcome (op : UnaryOp) (x : Value) (h : Heap) :
    Outcome (fun v => v = x ∨ v.isScalar = true) (fun e => e.isOperator = true) (op.apply x h) := by
  cases op with
  | not => exact .inr rfl
  | neg =>
    rw [apply]
    split <;> first | exact .inr rfl | rfl
  | plus =>
    rw [apply]
    split
    · exact .inl rfl
    · rfl

end Operators

/-! ### Trees without calls -/

/-- A tree without calls. -/
def Expr.callFree : Expr → Bool
  | int _ | float _ | string _ | name _ => true
  | select object _ => object.callFree
  | index object key => object.callFree && key.callFree
  | call _ _ => false
  | unary _ operand => operand.callFree
  | binary _ left right => left.callFree && right.callFree
  | paren inner => inner.callFree

/-- A tree of names, members, elements, parentheses and literals. -/
def Expr.operatorFree : Expr → Bool
  | int _ | float _ | string _ | name _ => true
  | select object _ => object.operatorFree
  | index object key => object.operatorFree && key.operatorFree
  | call _ _ | unary _ _ | binary _ _ _ => false
  | paren inner => inner.operatorFree

theorem Expr.callFree_of_operatorFree {e : Expr} (he : e.operatorFree = true) :
    e.callFree = true := by
  match e with
  | .int _ | .float _ | .string _ | .name _ => rfl
  | .select object _ => exact callFree_of_operatorFree (e := object) he
  | .index object key =>
    obtain ⟨hobject, hkey⟩ := Bool.and_eq_true_iff.mp he
    exact Bool.and_eq_true_iff.mpr ⟨callFree_of_operatorFree hobject, callFree_of_operatorFree hkey⟩
  | .paren inner => exact callFree_of_operatorFree (e := inner) he

/-- From a world `w` a computation leaves that world, and `P` holds of its result or `E` of its
failure. -/
def Action.Settles {α : Type} (w : World) (P : α → Prop) (E : Error → Prop) (a : Action α) :
    Prop :=
  ∃ r, a.run.run w = (r, w) ∧ Outcome P E r

namespace Action.Settles

variable {α β : Type} {w : World} {P : α → Prop} {Q : β → Prop} {E : Error → Prop}

theorem pure {v : α} (hv : P v) : (Pure.pure v : Action α).Settles w P E := ⟨.ok v, rfl, hv⟩

theorem ofExcept {r : Except Error α} (hr : Outcome P E r) :
    (MonadExcept.ofExcept r : Action α).Settles w P E := by
  refine ⟨r, ?_, hr⟩
  cases r <;> rfl

theorem bind {a : Action α} {f : α → Action β} (ha : a.Settles w P E)
    (hf : ∀ v, P v → (f v).Settles w Q E) : (a >>= f).Settles w Q E := by
  obtain ⟨r, hrun, hr⟩ := ha
  cases r with
  | error e => exact ⟨.error e, by rw [run_bind_run, hrun], hr⟩
  | ok v =>
    obtain ⟨r', hrun', hr'⟩ := hf v hr
    exact ⟨r', by rw [run_bind_run, hrun]; exact hrun', hr'⟩

theorem heap_bind {f : Heap → Action β} (hf : (f w.heap).Settles w Q E) :
    (Action.heap >>= f).Settles w Q E := hf

theorem get_bind {f : World → Action β} (hf : (f w).Settles w Q E) :
    (get >>= f : Action β).Settles w Q E := hf

end Action.Settles

/-- A property of values that holds of scalars and is handed on to members and elements. -/
structure Value.Handed (P : Value → Prop) (h : Heap) : Prop where
  /-- It holds of scalars. -/
  scalar : ∀ v : Value, v.isScalar = true → P v
  /-- It holds of what a segment selects. -/
  member : ∀ v key u : Value, P v → v.propAt? [key] h = some u → P u

/-- A property of values and one of failures that operators have on operands with the former. -/
structure Operates (P : Value → Prop) (E : Error → Prop) (h : Heap) : Prop where
  /-- Operators on one value. -/
  unary : ∀ op x, P x → Outcome P E (UnaryOp.apply op x h)
  /-- Operators on two values. -/
  binary : ∀ op x y, P x → P y → Outcome P E (BinaryOp.apply op x y h)

theorem Value.readable_handed (h : Heap) : Handed (Readable · h) h where
  scalar _ := .of_isScalar
  member _ _ _ hv := hv.propAt?

theorem Value.readable_operates (h : Heap) :
    Operates (Readable · h) (fun e => e.isOperator = true) h where
  unary op x hx := (op.apply_outcome x h).imp
    (fun _ => Or.rec (fun heq => heq ▸ hx) .of_isScalar) fun _ => id
  binary op _ _ hx hy := (op.apply_outcome hx hy).imp (fun _ => .of_isScalar) fun _ => id

section Trees

variable {host : Host} {ctx : Context} {w : World} {P : Value → Prop} {E : Error → Prop}

theorem constant?_isScalar {name : String} {v : Value} (hv : constant? name = some v) :
    v.isScalar = true := by
  rw [constant?] at hv
  split at hv
  · cases hv
    rfl
  split at hv
  · cases hv
    rfl
  split at hv
  · cases hv
    rfl
  · cases hv

theorem nameFor_settles (hP : Value.Handed P w.heap)
    (hctx : ∀ name v, ctx.value name w = some v → P v) (name : String) (selected : Bool) :
    (nameFor ctx .property name selected).Settles w P E := by
  rw [nameFor]
  split
  · next v hv =>
    refine .pure (hP.scalar v (constant?_isScalar (?_ : constant? name = some v)))
    split at hv
    · cases hv
    · exact hv
  · refine .get_bind (.pure ?_)
    cases hv : ctx.value name w with
    | none => exact hP.scalar _ rfl
    | some v => exact hctx name v hv

theorem memberFor_settles (hP : Value.Handed P w.heap) {parent : Value} (hparent : P parent)
    (key : Value) : (memberFor .property parent key).Settles w P E := by
  rw [memberFor]
  split
  · exact .pure (hP.scalar _ rfl)
  · refine .heap_bind (.pure ?_)
    cases hv : parent.propAt? [key] w.heap with
    | none => exact hP.scalar _ rfl
    | some v => exact hP.member parent key v hparent hv

theorem binaryOn_settles (hops : Operates P E w.heap) {x y : Value} (op : BinaryOp) (hx : P x)
    (hy : P y) : (binaryOn op x y).Settles w P E :=
  .heap_bind (.ofExcept (hops.binary op x y hx hy))

theorem binaryFor_settles (hP : Value.Handed P w.heap) (hops : Operates P E w.heap)
    {op : BinaryOp} {left right : Action Value} (hleft : left.Settles w P E)
    (hright : right.Settles w P E) : (binaryFor op left right).Settles w P E := by
  refine hleft.bind fun x hx => .heap_bind ?_
  split
  · exact .pure (hP.scalar _ rfl)
  · exact hright.bind fun y hy => binaryOn_settles hops op hx hy

/-- Both readings of a tree leave the world as it is and end as they are permitted to. -/
structure Meaning.Settles (m : Meaning) (w : World) (P : Value → Prop) (E : Error → Prop) :
    Prop where
  /-- The reading for a value. -/
  value : (m.value .property).Settles w P E
  /-- The reading as a text. -/
  text : m.text.Settles w (fun _ => True) E

theorem Meaning.Settles.ofValue {value : Target → Action Value}
    (hvalue : (value .property).Settles w P E) : (Meaning.ofValue value).Settles w P E where
  value := hvalue
  text := hvalue.bind fun _ _ => .heap_bind (.pure trivial)

theorem sumFor_settles (hP : Value.Handed P w.heap) (hops : Operates P E w.heap)
    {left right : Meaning} (hleft : left.Settles w P E) (hright : right.Settles w P E) :
    (sumFor left right).Settles w P E := by
  refine hleft.value.bind fun x hx => .heap_bind ?_
  split
  · exact hright.text.bind fun t _ => binaryOn_settles hops .add hx (hP.scalar (.string t) rfl)
  · refine hright.value.bind fun y hy => .heap_bind ?_
    split
    · exact hleft.text.bind fun s _ => binaryOn_settles hops .add (hP.scalar (.string s) rfl) hy
    · exact binaryOn_settles hops .add hx hy

/-- A tree without calls leaves the world as it is. Its values are what scalars and the values of
the context hand on, and it fails as operators do if it has any. -/
theorem Expr.meaning_settles (hP : Value.Handed P w.heap)
    (hctx : ∀ name v, ctx.value name w = some v → P v) (e : Expr) (he : e.callFree = true)
    (hops : e.operatorFree = true ∨ Operates P E w.heap) :
    (e.meaning host ctx).Settles w P E := by
  match e with
  | .int _ | .float _ | .string _ => exact .ofValue (.pure (hP.scalar _ rfl))
  | .name s => exact .ofValue (nameFor_settles hP hctx s false)
  | .select object field =>
    have hobject := Expr.meaning_settles hP hctx object he hops
    have hmember {a : Action Value} (ha : a.Settles w P E) :
        (a >>= fun parent => memberFor .property parent (.string field)).Settles w P E :=
      ha.bind fun _ hparent => memberFor_settles hP hparent (.string field)
    rw [Expr.meaning]
    refine .ofValue ?_
    cases object with
    | name s => exact hmember (nameFor_settles hP hctx s true)
    | _ => exact hmember hobject.value
  | .index object key =>
    obtain ⟨hobject, hkey⟩ := Bool.and_eq_true_iff.mp he
    have hobject := Expr.meaning_settles hP hctx object hobject
      (hops.imp_left fun hfree => (Bool.and_eq_true_iff.mp hfree).1)
    have hkey := Expr.meaning_settles hP hctx key hkey
      (hops.imp_left fun hfree => (Bool.and_eq_true_iff.mp hfree).2)
    exact .ofValue (hobject.value.bind fun _ hparent => hkey.value.bind fun key _ =>
      memberFor_settles hP hparent key)
  | .unary op operand =>
    have hoperates := hops.resolve_left nofun
    have hoperand := Expr.meaning_settles hP hctx operand he (.inr hoperates)
    exact .ofValue (hoperand.value.bind fun v hv =>
      .heap_bind (.ofExcept (hoperates.unary op v hv)))
  | .binary op left right =>
    obtain ⟨hl, hr⟩ := Bool.and_eq_true_iff.mp he
    have hoperates := hops.resolve_left nofun
    have hleft := Expr.meaning_settles hP hctx left hl (.inr hoperates)
    have hright := Expr.meaning_settles hP hctx right hr (.inr hoperates)
    cases op with
    | add =>
      exact ⟨sumFor_settles hP hoperates hleft hright,
        hleft.text.bind fun _ _ => hright.text.bind fun _ _ => .pure trivial⟩
    | _ => exact .ofValue (binaryFor_settles hP hoperates hleft.value hright.value)
  | .paren inner => exact .ofValue (Expr.meaning_settles hP hctx inner he hops).value

theorem Expr.eval_settles (hP : Value.Handed P w.heap)
    (hctx : ∀ name v, ctx.value name w = some v → P v) {e : Expr} (he : e.callFree = true)
    (hops : e.operatorFree = true ∨ Operates P E w.heap) : (e.eval host ctx).Settles w P E := by
  have hsettles : (e.meaning host ctx).Settles w P E := Expr.meaning_settles hP hctx e he hops
  obtain ⟨r, hrun, hr⟩ := hsettles.value
  exact ⟨r, (e.run_eval_eq_meaning host ctx w).trans hrun, hr⟩

end Trees

/-- Without calls, and in a context of readable values, an expression gives a value or fails as
operators do, which is never fatal. A tree of names, members, elements, parentheses and literals
gives a value in every context. In either case the world is left as it is. A readable value that
counts as a number can be read as a number of each kind. -/
theorem Expr.eval_callFree (host : Host) (ctx : Context) (w : World) :
    ((∀ name v, ctx.value name w = some v → v.Readable w.heap) → ∀ e : Expr, e.callFree = true →
      (∃ v, (e.eval host ctx).run.run w = (.ok v, w)) ∨
        ∃ err, (e.eval host ctx).run.run w = (.error err, w) ∧ err.isOperator = true ∧
          err.severity ≠ .fatal) ∧
      (∀ e : Expr, e.operatorFree = true → ∃ v, (e.eval host ctx).run.run w = (.ok v, w)) ∧
      ∀ v : Value, v.Readable w.heap → v.isNumber w.heap = true →
        (∃ n, v.toInt64 w.heap = .ok n) ∧ (∃ n, v.toUInt64 w.heap = .ok n) ∧
          ∃ x, v.toFloat w.heap = .ok x := by
  refine ⟨fun hctx e he => ?_, fun e he => ?_, fun v hv => hv.exists_readings⟩
  · have hsettles : (e.eval host ctx).Settles w (·.Readable w.heap) (·.isOperator = true) :=
      Expr.eval_settles (Value.readable_handed w.heap) hctx he
        (.inr (Value.readable_operates w.heap))
    obtain ⟨r, hrun, hr⟩ := hsettles
    cases r with
    | ok v => exact .inl ⟨v, hrun⟩
    | error err =>
      have herr : err.isOperator = true := hr
      exact .inr ⟨err, hrun, herr, by rw [Error.severity_of_isOperator herr]; nofun⟩
  · have hsettles : (e.eval host ctx).Settles w (fun _ => True) fun _ => False :=
      Expr.eval_settles ⟨fun _ _ => trivial, fun _ _ _ _ _ => trivial⟩ (fun _ _ _ => trivial)
        (Expr.callFree_of_operatorFree he) (.inl he)
    obtain ⟨r, hrun, hr⟩ := hsettles
    cases r with
    | ok v => exact ⟨v, hrun⟩
    | error err => exact hr.elim

/-- A world with one cell, which holds zero. -/
def zeroWorld : World := { World.empty with heap := ⟨#[.int .word 0]⟩ }

/-- A pointer to the cell of `zeroWorld`. -/
def zeroPointer : Value := .pointer (.int .word) (some 0)

/-- A context in which this pointer is the value of every name. -/
def zeroContext : Context where
  value _ _ := some zeroPointer
  method _ w := (none, w)
  remembered _ w := (none, w)
  remember _ _ w := w

theorem zeroPointer_readable : zeroPointer.Readable zeroWorld.heap where
  cells e a ha := by
    cases ha with
    | self => rfl
    | cell ha => cases (ha : zeroWorld.heap.Contains (.int .word 0) _)
  slots u hu := by
    cases hu with
    | cell hu => cases (hu : zeroWorld.heap.Contains (.int .word 0) _)

/-- A quotient by a pointer to zero fails as an operator; the pointer itself is a value and a
number. -/
theorem eval_callFree_quotient :
    let host : Host := fun _ _ _ => throw (.host "no routine")
    let e : Expr := .binary .div (.int 1) (.name "n")
    ((e.eval host zeroContext).run.run zeroWorld).1.isOk = false ∧
      ((∃ v, (e.eval host zeroContext).run.run zeroWorld = (.ok v, zeroWorld)) ∨
        ∃ err, (e.eval host zeroContext).run.run zeroWorld = (.error err, zeroWorld) ∧
          err.isOperator = true ∧ err.severity ≠ .fatal) ∧
      (∃ v, ((Expr.name "n").eval host zeroContext).run.run zeroWorld = (.ok v, zeroWorld)) ∧
      (∃ n, zeroPointer.toInt64 zeroWorld.heap = .ok n) ∧
        (∃ n, zeroPointer.toUInt64 zeroWorld.heap = .ok n) ∧
          ∃ x, zeroPointer.toFloat zeroWorld.heap = .ok x := by
  intro host e
  obtain ⟨hcalls, hnames, hnumbers⟩ := Expr.eval_callFree host zeroContext zeroWorld
  have hctx : ∀ name v, zeroContext.value name zeroWorld = some v →
      v.Readable zeroWorld.heap := by
    rintro name v ⟨⟩
    exact zeroPointer_readable
  exact ⟨by decide +kernel, hcalls hctx e rfl, hnames (.name "n") rfl,
    hnumbers zeroPointer zeroPointer_readable rfl⟩

end DynamicEval
