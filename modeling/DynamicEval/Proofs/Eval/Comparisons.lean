import DynamicEval.Proofs.Eval.Sums
import DynamicEval.Proofs.Order

/-!
# Comparisons in trees

A tree that compares two operands asks for their order and evaluates to a truth value. The six
operators read one order in six ways, and with the operands exchanged the order is the reverse. So
all twelve comparisons of two operands are told by three truth values, of which at most one is true.

## Main definitions

* `Expr.Verdicts`: what the six comparisons of two trees evaluate to.

## Main results

* `Expr.yields_comparison`: a comparison evaluates to its answer to the order of the operands.
* `Expr.eval_comparisons`: the comparisons of two operands, in both arrangements.
-/

namespace DynamicEval

/-- In every world of a set the six comparisons of two trees evaluate to what three truth values
say: whether the first operand is less, equal and greater. -/
structure Expr.Verdicts (host : Host) (ctx : Context) (S : World → Prop) (l r : Expr)
    (less equal greater : Bool) : Prop where
  /-- The operand is less. -/
  lt : ((binary .lt l r).eval host ctx).Yields S (.bool less)
  /-- The operand is greater. -/
  gt : ((binary .gt l r).eval host ctx).Yields S (.bool greater)
  /-- The operands are equal. -/
  eq : ((binary .eq l r).eval host ctx).Yields S (.bool equal)
  /-- The operands are not equal. -/
  ne : ((binary .ne l r).eval host ctx).Yields S (.bool !equal)
  /-- The operand is less or equal. -/
  le : ((binary .le l r).eval host ctx).Yields S (.bool (less || equal))
  /-- The operand is greater or equal. -/
  ge : ((binary .ge l r).eval host ctx).Yields S (.bool (greater || equal))

variable {host : Host} {ctx : Context} {S : World → Prop} {h : Heap} {l r : Expr} {x y : Value}

/-- A comparison asks for both operands and then for their order. -/
theorem binaryFor_yields_of_isComparison {left right : Action Value} {op : BinaryOp}
    (hop : op.isComparison = true) (hS : ∀ w, S w → w.heap = h) (hleft : left.Yields S x)
    (hright : right.Yields S y) :
    (binaryFor op left right).Yields S (.bool (op.holds (x.compare? y h))) := by
  have happly : op.apply x y h = .ok (.bool (op.holds (x.compare? y h))) := by
    cases op <;> first | rfl | cases hop
  have hor : (op == .or) = false := by
    cases op <;> first | rfl | cases hop
  refine hleft.bind (.heap_bind hS ?_)
  rw [hor, Bool.false_and, if_neg nofun]
  exact hright.bind (binaryOn_yields hS happly)

theorem Expr.yields_comparison {op : BinaryOp} (hop : op.isComparison = true)
    (hS : ∀ w, S w → w.heap = h) (hl : (l.eval host ctx).Yields S x)
    (hr : (r.eval host ctx).Yields S y) :
    ((binary op l r).eval host ctx).Yields S (.bool (op.holds (x.compare? y h))) := by
  rw [yields_eval_iff] at hl hr ⊢
  cases op with
  | add => cases hop
  | _ => exact binaryFor_yields_of_isComparison hop hS hl hr

theorem Expr.verdicts (hS : ∀ w, S w → w.heap = h) (hl : (l.eval host ctx).Yields S x)
    (hr : (r.eval host ctx).Yields S y) :
    Expr.Verdicts host ctx S l r (x.compare? y h == some .lt) (x.compare? y h == some .eq)
      (x.compare? y h == some .gt) where
  lt := yields_comparison rfl hS hl hr
  gt := yields_comparison rfl hS hl hr
  eq := yields_comparison rfl hS hl hr
  ne := yields_comparison rfl hS hl hr
  le := yields_comparison rfl hS hl hr
  ge := yields_comparison rfl hS hl hr

theorem map_swap_beq_some (order : Option Ordering) (o : Ordering) :
    (order.map Ordering.swap == some o) = (order == some o.swap) := by
  rcases order with _ | _ | _ | _ <;> cases o <;> rfl

/-- With its sides exchanged a comparison of values has the reverse order, and none if it had none.
So it tells by three truth values, of which at most one is true, what all comparisons of two
operands with these values evaluate to, and with less and greater exchanged what those of the
operands in the other arrangement do. -/
theorem Expr.eval_comparisons (hh : h.WellFormed) (hx : x.WellFormed h) (hy : y.WellFormed h) :
    y.compare? x h = (x.compare? y h).map Ordering.swap ∧
      let less := x.compare? y h == some .lt
      let equal := x.compare? y h == some .eq
      let greater := x.compare? y h == some .gt
      [less, equal, greater].count true ≤ 1 ∧
        ∀ {host : Host} {ctx : Context} {S : World → Prop} {l r : Expr},
          (∀ w, S w → w.heap = h) → (l.eval host ctx).Yields S x →
          (r.eval host ctx).Yields S y →
            Expr.Verdicts host ctx S l r less equal greater ∧
              Expr.Verdicts host ctx S r l greater equal less := by
  have hswap := Value.compare?_swap hh hx hy
  refine ⟨hswap, ?_, fun hS hl hr => ⟨verdicts hS hl hr, ?_⟩⟩
  · rcases x.compare? y h with _ | _ | _ | _ <;> decide
  · have hverdicts := verdicts hS hr hl
    rwa [hswap, map_swap_beq_some, map_swap_beq_some, map_swap_beq_some] at hverdicts

/-- A name for a pointer to an integer is compared with a floating-point number. -/
theorem Expr.eval_comparisons_pointer :
    let h := (Heap.empty.alloc (.int .word 2)).1
    let p := Value.pointer (.int .word) (some 0)
    let w : World := { World.empty with heap := h }
    let ctx := ((Scope.empty none).putPlain "p" p).context
    let host := Stock.host fun _ => none
    (h.WellFormed ∧ p.WellFormed h ∧ (Value.float .double (.ofInt 3)).WellFormed h) ∧
      ((name "p").eval host ctx).Yields (· = w) p ∧
      Expr.Verdicts host ctx (· = w) (name "p") (float (.ofInt 3)) true false false ∧
      Expr.Verdicts host ctx (· = w) (float (.ofInt 3)) (name "p") false false true := by
  intro h p w ctx host
  have hh : h.WellFormed := (Heap.empty_wellFormed.alloc (.int rfl)).wellFormed
  have hp : p.WellFormed h := .pointer (by decide) BEq.rfl
  have hthree : (Value.float .double (.ofInt 3)).WellFormed h := .float trivial
  have hname : ((name "p").eval host ctx).Yields (· = w) p :=
    fun v hv => ⟨w, by rw [hv]; rfl, rfl⟩
  have hfloat : ((float (.ofInt 3)).eval host ctx).Yields (· = w) (.float .double (.ofInt 3)) :=
    fun v hv => ⟨w, by rw [hv]; rfl, rfl⟩
  have hlt : p.compare? (.float .double (.ofInt 3)) h = some .lt := by decide +kernel
  have hverdicts := (Expr.eval_comparisons hh hp hthree).2.2 (fun v hv => by rw [hv]) hname hfloat
  rw [hlt] at hverdicts
  exact ⟨⟨hh, hp, hthree⟩, hname, hverdicts⟩

end DynamicEval
