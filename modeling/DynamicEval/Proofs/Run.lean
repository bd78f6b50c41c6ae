import DynamicEval.World

/-!
# Runs of computations

What sequences of computations do: those that may fail, those that also change a state, and those
that change a heap only if they succeed.

## Main results

* `Except.bind_eq_ok`, `Except.map_eq_ok`, `HeapM.run_bind_eq_ok`: a sequence succeeds when its
  parts do.
* `run_bind_run`: a sequence runs its second part on the state that the first one leaves.
-/

namespace DynamicEval

theorem Except.exists_ok_of_isOk {ε α : Type} {x : Except ε α} (hx : x.isOk = true) :
    ∃ a, x = .ok a := by
  cases x with
  | ok a => exact ⟨a, rfl⟩
  | error e => cases hx

/-- A computation succeeds after another one when both do. -/
theorem Except.bind_eq_ok {ε α β : Type} {x : Except ε α} {f : α → Except ε β} {b : β} :
    x >>= f = .ok b ↔ ∃ a, x = .ok a ∧ f a = .ok b := by
  cases x <;> simp [bind, Except.bind]

/-- An image is a success when the computation is one. -/
theorem Except.map_eq_ok {ε α β : Type} {x : Except ε α} {f : α → β} {b : β} :
    x.map f = .ok b ↔ ∃ a, x = .ok a ∧ f a = b := by
  cases x <;> simp [Except.map]

/-- A change of the heap succeeds after another one when it does so on the heap of that one. -/
theorem HeapM.run_bind_eq_ok {α β : Type} {m : HeapM α} {f : α → HeapM β} {h : Heap}
    {r : β × Heap} :
    (m >>= f).run h = .ok r ↔ ∃ a h', m.run h = .ok (a, h') ∧ (f a).run h' = .ok r := by
  rw [StateT.run_bind, Except.bind_eq_ok]
  exact Prod.exists

theorem run_bind_run {σ α β : Type} (a : ExceptT Error (StateM σ) α)
    (f : α → ExceptT Error (StateM σ) β) (s : σ) :
    (a >>= f).run.run s = match a.run.run s with
      | (.ok v, s) => (f v).run.run s
      | (.error e, s) => (.error e, s) := by
  rw [ExceptT.run_bind, StateT.run_bind]
  rcases a.run.run s with ⟨v | e, s⟩ <;> rfl

end DynamicEval
