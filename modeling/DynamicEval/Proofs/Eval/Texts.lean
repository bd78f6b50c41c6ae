import DynamicEval.Eval
import DynamicEval.Proofs.Run

/-!
# Evaluation of texts

A text is evaluated without the blanks around it, its quotes rewritten. Where nothing else is
remembered for what is left, its value is that of the tree that this is read as.

## Main results

* `Text.trim_eq_self`: a text without blanks at its ends is left alone.
* `run_evalText_of_read`: the value of a text is that of the tree that it is read as.
-/

namespace DynamicEval

/-- A text that neither begins nor ends with a blank is left alone. -/
theorem Text.trim_eq_self {cs : List Char} (hhead : ∀ c, cs.head? = some c → isBlank c = false)
    (hlast : ∀ c, cs.getLast? = some c → isBlank c = false) : trim cs = cs := by
  have hdrop : ∀ ds : List Char, (∀ c, ds.head? = some c → isBlank c = false) →
      ds.dropWhile isBlank = ds := by
    intro ds hds
    cases ds with
    | nil => rfl
    | cons d ds => rw [List.dropWhile_cons, hds d rfl, if_neg nofun]
  rw [trim, hdrop cs hhead, hdrop _ fun c hc => hlast c (List.head?_reverse ▸ hc),
    List.reverse_reverse]

/-- The value of a text is that of the tree that it is read as, if nothing else is remembered for
it. -/
theorem run_evalText_of_read (host : Host) {ctx : Context} {text s : String} {e : Expr} {w : World}
    (hne : Text.trim text.toList ≠ [])
    (hs : String.ofList (Text.normalizeQuotes (Text.trim text.toList)) = s)
    (hread : Expr.read s = .ok e)
    (hmemory : ∀ e', (ctx.remembered s w).1 = some e' → Expr.read s = .ok e') :
    ∃ w', (evalText host ctx text).run.run w = (e.eval host ctx).run.run w' := by
  have hget : (modifyGet (ctx.remembered s) : Action (Option Expr)).run.run w =
      (.ok (ctx.remembered s w).1, (ctx.remembered s w).2) := rfl
  rw [evalText]
  dsimp only
  rw [if_neg (mt List.isEmpty_iff.mp hne), hs, run_bind_run, Context.expr, run_bind_run, hget]
  dsimp only
  cases hfound : (ctx.remembered s w).1 with
  | some e' =>
    rw [Except.ok.inj ((hmemory e' hfound).symm.trans hread)]
    exact ⟨_, rfl⟩
  | none =>
    rw [hread]
    exact ⟨_, rfl⟩

end DynamicEval
