import DynamicEval.Proofs.Eval.Targets
import DynamicEval.Proofs.Number
import DynamicEval.Stock

/-!
# Chains of sums

A chain of sums leans to the left: its left operand is the chain before the last operand. While the
operands are numbers they are added up; the first text among them turns the chain into the texts of
all operands, those that were added up before included, as the chain on its left is then read again
as a text. From there on the chain is a text, to which the remaining operands are appended.

## Main definitions

* `Expr.sum`, `Expr.isSum`: chains of sums, and what an operand of one is not.
* `Action.Ends`, `Action.Yields`: a computation has the same outcome, or gives the same result, in
  every world of a set and stays in the set.
* `Value.isAddend`, `Value.plus`: values that can be added up, and their sum.

## Main results

* `BinaryOp.apply_add`: addends are added up.
* `Expr.yields_sum_of_text`, `Expr.yields_sum_of_addends`: how a chain goes on behind a text, and how
  addends are added up.
* `Expr.eval_sum`: what chains evaluate to.
-/

namespace DynamicEval

/-! ### Addends -/

namespace Value

/-- A value that counts as a number and can be read as one: there is a number at the base, or nothing
at all, which reads as zero. -/
def isAddend (v : Value) (h : Heap) : Bool :=
  v.isNumber h && (v.peel.isNil || v.holdsNumber h)

/-- The integer at the base of a value, zero where there is none. -/
def integerAt (v : Value) (h : Heap) : Int := (v.base h).toInt?.getD 0

/-- The floating-point number nearest to the number at the base of a value, zero where there is
none. -/
def floatAt (v : Value) (h : Heap) : Binary64 := (v.base h).toFloat?.getD .zero

/-- The sum of two numbers: the sum of integers reduced to 64 bits, and the sum of floating-point
numbers if a side is one. -/
def plus (h : Heap) (x y : Value) : Value :=
  if x.isGeneralInt h && y.isGeneralInt h then
    int .bits64 (.ofInt (x.integerAt h + y.integerAt h))
  else float .double ((x.floatAt h).add (y.floatAt h))

variable {h : Heap} {v x y : Value}

theorem isAddend_iff : v.isAddend h = true ↔
    v.isNumber h = true ∧ (v.peel.isNil = true ∨ v.holdsNumber h = true) := by
  rw [isAddend, Bool.and_eq_true, Bool.or_eq_true]

theorem isAddend_of_holdsNumber (hv : v.holdsNumber h = true) : v.isAddend h = true :=
  isAddend_iff.mpr ⟨(holdsNumber_iff.mp hv).1, .inr hv⟩

theorem isString_of_isNumber (hv : v.isNumber h = true) : v.isString h = false := by
  rw [isNumber] at hv
  rw [isString]
  cases hk : v.baseKind h <;> first | rfl | (rw [hk] at hv; cases hv)

theorem asInt64?_of_isGeneralInt {b : Value} (hb : b.ty.kind.isGeneralInt = true) :
    b.asInt64? = some (.ofInt (b.toInt?.getD 0)) := by
  cases b with
  | int w n => exact congrArg some (Int64.ofInt_toInt n).symm
  | uint w n => exact asInt64?_uint w n
  | float w x => cases w <;> cases hb
  | _ => cases hb

theorem asFloat?_of_isNumber {b : Value} (hb : b.ty.kind.isNumber = true) :
    b.asFloat? = some (b.toFloat?.getD .zero) := by
  cases b with
  | int | uint | float => rfl
  | _ => cases hb

/-- An integer is read as a signed one by the integer at its base. -/
theorem IsAddend.toInt64 (hv : v.isAddend h = true) (hint : v.isGeneralInt h = true) :
    v.toInt64 h = .ok (.ofInt (v.integerAt h)) := by
  rw [toInt64_eq, readAs, integerAt]
  split
  · next hnil => rw [← base_peel, base_of_isNil hnil]; rfl
  · next hnil =>
    have hholds := (isAddend_iff.mp hv).2.resolve_left hnil
    rw [isGeneralInt, baseKind, baseTy_of_holdsNumber hholds] at hint
    rw [asInt64?_of_isGeneralInt hint]

/-- A number is read as a floating-point number by the number at its base. -/
theorem IsAddend.toFloat (hv : v.isAddend h = true) : v.toFloat h = .ok (v.floatAt h) := by
  rw [toFloat_eq, readAs, floatAt]
  split
  · next hnil => rw [← base_peel, base_of_isNil hnil]; rfl
  · next hnil => rw [asFloat?_of_isNumber ((isAddend_iff.mp hv).2.resolve_left hnil)]

theorem plus_isAddend (h : Heap) (x y : Value) : (plus h x y).isAddend h = true := by
  refine isAddend_of_holdsNumber ?_
  rw [plus]
  split <;> (rw [holdsNumber, base, Heap.follow_eq_of_step fun _ => rfl]; rfl)

end Value

theorem BinaryOp.arithmetic_add {h : Heap} {x y : Value} (hx : x.isAddend h = true)
    (hy : y.isAddend h = true) : BinaryOp.add.arithmetic x y h = .ok (Value.plus h x y) := by
  have hxnum := (Value.isAddend_iff.mp hx).1
  have hynum := (Value.isAddend_iff.mp hy).1
  rw [arithmetic, Value.isString_of_isNumber hxnum, Value.isString_of_isNumber hynum, if_neg nofun]
  dsimp only
  rw [hxnum, hynum, if_neg nofun, Value.plus]
  split
  · next hint =>
    obtain ⟨hxint, hyint⟩ := Bool.and_eq_true_iff.mp hint
    rw [Value.IsAddend.toInt64 hx hxint, Value.IsAddend.toInt64 hy hyint, Int64.ofInt_add]
    rfl
  · rw [Value.IsAddend.toFloat hx, Value.IsAddend.toFloat hy]
    rfl

/-! ### Steady computations -/

/-- In every world of a set a computation ends with the outcome `r` and leaves a world of the set. -/
def Action.Ends {α : Type} (S : World → Prop) (m : Action α) (r : Except Error α) : Prop :=
  ∀ w, S w → ∃ w', m.run.run w = (r, w') ∧ S w'

/-- In every world of a set a computation gives `a` and leaves a world of the set. -/
def Action.Yields {α : Type} (S : World → Prop) (m : Action α) (a : α) : Prop :=
  ∀ w, S w → ∃ w', m.run.run w = (.ok a, w') ∧ S w'

namespace Action.Ends

variable {α β : Type} {S : World → Prop} {h : Heap} {a : α} {r : Except Error β}

theorem bind {m : Action α} {f : α → Action β} (hm : m.Yields S a) (hf : (f a).Ends S r) :
    (m >>= f).Ends S r := by
  intro w hw
  obtain ⟨w₁, hrun, hw₁⟩ := hm w hw
  obtain ⟨w₂, hrun', hw₂⟩ := hf w₁ hw₁
  exact ⟨w₂, by rw [run_bind_run, hrun]; exact hrun', hw₂⟩

/-- The heap is the one that all worlds of the set share. -/
theorem heap_bind (hS : ∀ w, S w → w.heap = h) {f : Heap → Action β} (hf : (f h).Ends S r) :
    (Action.heap >>= f).Ends S r := by
  intro w hw
  obtain ⟨w', hrun, hw'⟩ := hf w hw
  refine ⟨w', ?_, hw'⟩
  show (f w.heap).run.run w = _
  rw [hS w hw]
  exact hrun

theorem ofExcept (r : Except Error β) : (MonadExcept.ofExcept r : Action β).Ends S r :=
  fun w hw => ⟨w, by cases r <;> rfl, hw⟩

end Action.Ends

namespace Action.Yields

variable {α β : Type} {S : World → Prop} {h : Heap} {a : α} {b : β}

theorem pure (a : α) : (Pure.pure a : Action α).Yields S a := fun w hw => ⟨w, rfl, hw⟩

theorem bind {m : Action α} {f : α → Action β} (hm : m.Yields S a) (hf : (f a).Yields S b) :
    (m >>= f).Yields S b :=
  Action.Ends.bind hm hf

/-- The heap is the one that all worlds of the set share. -/
theorem heap_bind (hS : ∀ w, S w → w.heap = h) {f : Heap → Action β} (hf : (f h).Yields S b) :
    (Action.heap >>= f).Yields S b :=
  Action.Ends.heap_bind hS hf

end Action.Yields

/-- An evaluation is as steady as the reading of its tree for a plain value. -/
theorem Expr.yields_eval_iff {host : Host} {ctx : Context} {S : World → Prop} {e : Expr}
    {v : Value} : (e.eval host ctx).Yields S v ↔
      ((e.meaning host ctx).value .property).Yields S v := by
  rw [Action.Yields, Action.Yields]
  simp only [e.run_eval_eq_meaning]

/-- Both readings of a tree are steady. -/
structure Meaning.Yields (m : Meaning) (S : World → Prop) (v : Value) (t : String) : Prop where
  /-- The reading for a value. -/
  value : (m.value .property).Yields S v
  /-- The reading as a text. -/
  text : m.text.Yields S t

section Sums

variable {S : World → Prop} {h : Heap} {l r : Meaning} {x y : Value} {s t : String}

theorem binaryOn_ends {op : BinaryOp} (hS : ∀ w, S w → w.heap = h) :
    (binaryOn op x y).Ends S (op.apply x y h) :=
  .heap_bind hS (.ofExcept _)

theorem binaryOn_yields (hS : ∀ w, S w → w.heap = h) {op : BinaryOp} {z : Value}
    (hz : op.apply x y h = .ok z) : (binaryOn op x y).Yields S z := by
  have hends : (binaryOn op x y).Ends S (op.apply x y h) := binaryOn_ends hS
  rwa [hz] at hends

theorem Value.toText_string (s : String) (h : Heap) : (string s).toText h = s := by
  rw [toText, base, Heap.follow_eq_of_step fun _ => rfl]

theorem Value.isString_string (s : String) (h : Heap) : (string s).isString h = true := by
  rw [isString, baseKind, baseTy, Heap.follow_eq_of_step fun _ => rfl]
  rfl

theorem BinaryOp.apply_add_of_isString (hxy : x.isString h = true ∨ y.isString h = true) :
    BinaryOp.add.apply x y h = .ok (.string (x.toText h ++ y.toText h)) := by
  show BinaryOp.add.arithmetic x y h = _
  rw [arithmetic, if_pos]
  · rfl
  · exact Bool.or_eq_true_iff.mpr hxy

/-- Behind a text the right operand is read as a text. -/
theorem sumFor_yields_of_left (hS : ∀ w, S w → w.heap = h) (hl : l.Yields S x s)
    (hr : r.Yields S y t) (hx : x.isString h = true) :
    (sumFor l r).Yields S (.string (x.toText h ++ t)) := by
  refine hl.value.bind (.heap_bind hS ?_)
  rw [if_pos hx]
  refine hr.text.bind (binaryOn_yields hS ?_)
  rw [BinaryOp.apply_add_of_isString (.inl hx), Value.toText_string]

/-- Before a text the left operand is read again as a text. -/
theorem sumFor_yields_of_right (hS : ∀ w, S w → w.heap = h) (hl : l.Yields S x s)
    (hr : r.Yields S y t) (hx : x.isString h = false) (hy : y.isString h = true) :
    (sumFor l r).Yields S (.string (s ++ y.toText h)) := by
  refine hl.value.bind (.heap_bind hS ?_)
  rw [hx, if_neg nofun]
  refine hr.value.bind (.heap_bind hS ?_)
  rw [if_pos hy]
  refine hl.text.bind (binaryOn_yields hS ?_)
  rw [BinaryOp.apply_add_of_isString (.inr hy), Value.toText_string]

theorem sumFor_yields_of_addends (hS : ∀ w, S w → w.heap = h) (hl : l.Yields S x s)
    (hr : r.Yields S y t) (hx : x.isAddend h = true) (hy : y.isAddend h = true) :
    (sumFor l r).Yields S (x.plus h y) := by
  have hstring {v : Value} (hv : v.isAddend h = true) : v.isString h = false :=
    Value.isString_of_isNumber (Value.isAddend_iff.mp hv).1
  refine hl.value.bind (.heap_bind hS ?_)
  rw [hstring hx, if_neg nofun]
  refine hr.value.bind (.heap_bind hS ?_)
  rw [hstring hy, if_neg nofun]
  exact binaryOn_yields hS (BinaryOp.arithmetic_add hx hy)

end Sums

/-! ### Chains -/

/-- A sum that is not in parentheses. -/
def Expr.isSum : Expr → Bool
  | binary .add _ _ => true
  | _ => false

/-- A chain of sums, which leans to the left. -/
def Expr.sum (e : Expr) (es : List Expr) : Expr :=
  es.foldl (binary .add) e

/-- An operand of a chain, which is not a sum itself, and evaluates to the same value in every world
of a set and stays in the set. -/
structure Expr.Operand (host : Host) (ctx : Context) (S : World → Prop) (e : Expr) (v : Value) :
    Prop where
  /-- It is not a sum. -/
  isSum : e.isSum = false
  /-- It evaluates to `v`. -/
  yields : (e.eval host ctx).Yields S v

section Chains

variable {host : Host} {ctx : Context} {S : World → Prop} {h : Heap} {e c : Expr} {es : List Expr}
  {u v x : Value} {vs pre post : List Value} {t : String}

/-- Every tree but a sum is read as the text of its value. -/
theorem Expr.meaning_text (he : e.isSum = false) :
    (e.meaning host ctx).text = (Meaning.ofValue (e.meaning host ctx).value).text := by
  cases e with
  | binary op l r =>
    cases op with
    | add => cases he
    | _ => rfl
  | select object field => cases object <;> rfl
  | _ => rfl

theorem Expr.Operand.meaning (hS : ∀ w, S w → w.heap = h) (he : e.Operand host ctx S v) :
    (e.meaning host ctx).Yields S v (v.toText h) := by
  have hvalue := Expr.yields_eval_iff.mp he.yields
  refine ⟨hvalue, ?_⟩
  rw [Expr.meaning_text he.isSum]
  exact hvalue.bind (.heap_bind hS (.pure _))

/-- One more operand of a chain, where its sum with the chain is known. -/
theorem Expr.meaning_binary_yields {z : Value} (hS : ∀ w, S w → w.heap = h)
    (hc : (c.meaning host ctx).Yields S x t) (he : e.Operand host ctx S v)
    (hz : (sumFor (c.meaning host ctx) (e.meaning host ctx)).Yields S z) :
    ((binary .add c e).meaning host ctx).Yields S z (t ++ v.toText h) :=
  ⟨hz, hc.text.bind ((he.meaning hS).text.bind (.pure _))⟩

/-- A chain that has become a text stays one. -/
theorem Expr.yields_sum_of_text (hS : ∀ w, S w → w.heap = h)
    (hes : List.Forall₂ (Expr.Operand host ctx S) es vs)
    (hc : (c.meaning host ctx).Yields S (.string t) t) :
    (((c.sum es).meaning host ctx).value .property).Yields S
      (.string (t ++ String.join (vs.map (·.toText h)))) := by
  induction hes generalizing c t with
  | nil =>
    have hempty : t ++ String.join [] = t := String.append_empty
    rw [List.map_nil, hempty]
    exact hc.value
  | cons he _ ih =>
    rw [List.map_cons, String.join_cons, ← String.append_assoc]
    refine ih (Expr.meaning_binary_yields hS hc he ?_)
    have hsum := sumFor_yields_of_left hS hc (he.meaning hS) (Value.isString_string t h)
    rwa [Value.toText_string] at hsum

/-- Addends are added up from left to right. -/
theorem Expr.yields_sum_of_addends (hS : ∀ w, S w → w.heap = h)
    (hes : List.Forall₂ (Expr.Operand host ctx S) es vs)
    (hc : (c.meaning host ctx).Yields S x t) (hx : x.isAddend h = true)
    (hvs : ∀ v ∈ vs, v.isAddend h = true) :
    (((c.sum es).meaning host ctx).value .property).Yields S (vs.foldl (Value.plus h) x) := by
  induction hes generalizing c x t with
  | nil => exact hc.value
  | cons he _ ih =>
    obtain ⟨hv, hvs⟩ := List.forall_mem_cons.mp hvs
    refine ih (Expr.meaning_binary_yields hS hc he ?_) (Value.plus_isAddend h _ _) hvs
    exact sumFor_yields_of_addends hS hc (he.meaning hS) hx hv

/-- The first text behind addends, or behind a single operand, turns a chain into a text. -/
theorem Expr.yields_sum_of_first_text (hS : ∀ w, S w → w.heap = h)
    (hes : List.Forall₂ (Expr.Operand host ctx S) es (pre ++ u :: post))
    (hc : (c.meaning host ctx).Yields S x t) (hx : x.isString h = false) (hu : u.isString h = true)
    (hpre : pre = [] ∨ x.isAddend h = true ∧ ∀ v ∈ pre, v.isAddend h = true) :
    (((c.sum es).meaning host ctx).value .property).Yields S
      (.string (t ++ String.join ((pre ++ u :: post).map (·.toText h)))) := by
  induction pre generalizing c x t es with
  | nil =>
    cases hes with
    | @cons e _ _ _ he hes =>
      rw [List.nil_append, List.map_cons, String.join_cons, ← String.append_assoc]
      refine Expr.yields_sum_of_text (c := .binary .add c e) hS hes
        (Expr.meaning_binary_yields hS hc he ?_)
      exact sumFor_yields_of_right hS hc (he.meaning hS) hx hu
  | cons v pre ih =>
    obtain ⟨hxadd, hpre⟩ := hpre.resolve_left nofun
    obtain ⟨hv, hpre⟩ := List.forall_mem_cons.mp hpre
    cases hes with
    | @cons e _ _ _ he hes =>
      have hplus := Value.plus_isAddend h x v
      rw [List.cons_append, List.map_cons, String.join_cons, ← String.append_assoc]
      refine ih (c := .binary .add c e) hes (Expr.meaning_binary_yields hS hc he ?_)
        (Value.isString_of_isNumber (Value.isAddend_iff.mp hplus).1) (.inr ⟨hplus, hpre⟩)
      exact sumFor_yields_of_addends hS hc (he.meaning hS) hxadd hv

/-- A chain of at least two operands with steady values. If the first text among them is the first
or the second value, or comes behind addends only, the chain is the text of all values put
together. If all values are addends, it is their sum from left to right. -/
theorem Expr.eval_sum (hS : ∀ w, S w → w.heap = h) (hne : es ≠ [])
    (hoperands : List.Forall₂ (Expr.Operand host ctx S) (e :: es) (v :: vs)) :
    (∀ pre u post, v :: vs = pre ++ u :: post → (∀ x ∈ pre, x.isString h = false) →
      u.isString h = true → (pre.length ≤ 1 ∨ ∀ x ∈ pre, x.isAddend h = true) →
      ((e.sum es).eval host ctx).Yields S
        (.string (String.join ((v :: vs).map (·.toText h))))) ∧
      ((∀ x ∈ v :: vs, x.isAddend h = true) →
        ((e.sum es).eval host ctx).Yields S (vs.foldl (Value.plus h) v)) := by
  obtain ⟨he, hes⟩ := List.forall₂_cons.mp hoperands
  have hc := he.meaning hS
  simp only [yields_eval_iff]
  refine ⟨fun pre u post hvs hpre hu hadd => ?_, fun hadd => ?_⟩
  · rw [List.map_cons, String.join_cons]
    cases pre with
    | nil =>
      obtain ⟨rfl, rfl⟩ := List.cons.inj hvs
      cases hes with
      | nil => exact absurd rfl hne
      | @cons d _ _ _ hd hes =>
        rw [List.map_cons, String.join_cons, ← String.append_assoc]
        refine Expr.yields_sum_of_text (c := .binary .add e d) hS hes
          (Expr.meaning_binary_yields hS hc hd ?_)
        exact sumFor_yields_of_left hS hc (hd.meaning hS) hu
    | cons x pre =>
      obtain ⟨rfl, rfl⟩ := List.cons.inj hvs
      refine Expr.yields_sum_of_first_text hS hes hc (hpre v List.mem_cons_self) hu ?_
      refine hadd.imp (fun hle => ?_) List.forall_mem_cons.mp
      exact List.eq_nil_of_length_eq_zero (Nat.le_zero.mp (Nat.le_of_succ_le_succ hle))
  · obtain ⟨hv, hvs⟩ := List.forall_mem_cons.mp hadd
    exact Expr.yields_sum_of_addends hS hes hc hv hvs

end Chains

/-- Two numbers are put together with the text behind them, and added up without it. -/
theorem Expr.eval_sum_one_two :
    let host := Stock.host fun _ => none
    let ctx := (Scope.empty none).context
    ((Expr.sum (.int 1) [.int 2, .string "a"]).eval host ctx).Yields (· = .empty) (.string "12a") ∧
      ((Expr.sum (.int 1) [.int 2]).eval host ctx).Yields (· = .empty) (.int .bits64 3) := by
  intro host ctx
  have hS : ∀ w, w = World.empty → w.heap = .empty := fun w hw => hw ▸ rfl
  have hone : (Expr.int 1).Operand host ctx (· = .empty) (.int .bits64 1) :=
    ⟨rfl, fun w hw => ⟨w, rfl, hw⟩⟩
  have htwo : (Expr.int 2).Operand host ctx (· = .empty) (.int .bits64 2) :=
    ⟨rfl, fun w hw => ⟨w, rfl, hw⟩⟩
  have ha : (Expr.string "a").Operand host ctx (· = .empty) (.string "a") :=
    ⟨rfl, fun w hw => ⟨w, rfl, hw⟩⟩
  have hints : ∀ x ∈ [Value.int .bits64 1, .int .bits64 2], x.isAddend .empty = true := by
    decide +kernel
  have hpre : ∀ x ∈ [Value.int .bits64 1, .int .bits64 2], x.isString .empty = false := by
    decide +kernel
  constructor
  · exact (Expr.eval_sum hS (List.cons_ne_nil _ _) (.cons hone (.cons htwo (.cons ha .nil)))).1
      _ (.string "a") [] rfl hpre rfl (.inr hints)
  · exact (Expr.eval_sum hS (List.cons_ne_nil _ _) (.cons hone (.cons htwo .nil))).2 hints

end DynamicEval
