import DynamicEval.Proofs.Eval.Names
import DynamicEval.Proofs.Shadowing

/-!
# Names that are bound twice

Plain values and callables are bound apart. A second bind of a name takes the place of the first one
if both are of one kind, and the scope is then the one that the second bind alone would give. If one
is a plain value and the other a callable both stay, whichever came last: plain values are looked up
as after the plain bind alone and callables as after the other one alone.

## Main results

* `Scope.bind_bind_of_isFunc_eq`: binds of one kind, of which the last one stays.
* `Scope.value?_bind_of_isFunc`, `Scope.method?_bind_of_not_isFunc`: the lookups that a bind leaves
  alone.
* `Scope.bind_bind`: what is looked up and evaluated after two binds of a name.
-/

namespace DynamicEval

theorem Assoc.put_put {κ α : Type} [DecidableEq κ] (k : κ) (a b : α) (es : List (κ × α)) :
    put k b (put k a es) = put k b es := by
  induction es with
  | nil => exact if_pos rfl
  | cons entry es ih =>
    obtain ⟨j, c⟩ := entry
    by_cases hj : j = k
    · rw [put, if_pos hj, put, if_pos rfl, put, if_pos hj]
    · rw [put, if_neg hj, put, if_neg hj, ih, put, if_neg hj]

theorem Entries.put_put {α : Type} (k : Key) (a b : α) (es : List (Key × α)) :
    put k b (put k a es) = put k b es := by
  induction es with
  | nil => exact if_pos rfl
  | cons entry es ih =>
    obtain ⟨j, c⟩ := entry
    by_cases hj : j.bare = k.bare
    · rw [put, if_pos hj, put, if_pos rfl, put, if_pos hj]
    · rw [put, if_neg hj, put, if_neg hj, ih, put, if_neg hj]

namespace Scope

variable {s : Scope} {n m : String} {u v : Value} {h h' : Heap} {w : World}

theorem bind_of_isFunc (hv : v.isFunc h = true) :
    s.bind n v h = { s with callers := Assoc.put n v.peel s.callers } := by
  rw [bind, if_pos hv]

theorem bind_of_not_isFunc (hv : v.isFunc h = false) : s.bind n v h = s.putPlain n v := by
  rw [bind, if_neg (Bool.eq_false_iff.mp hv)]

/-- Of two binds of one kind the last one stays. -/
theorem bind_bind_of_isFunc_eq (huv : v.isFunc h = u.isFunc h') :
    (s.bind n v h).bind n u h' = s.bind n u h' := by
  cases hu : u.isFunc h' with
  | true =>
    rw [bind_of_isFunc (huv.trans hu), bind_of_isFunc hu, bind_of_isFunc hu, Assoc.put_put]
  | false =>
    rw [bind_of_not_isFunc (huv.trans hu), bind_of_not_isFunc hu, bind_of_not_isFunc hu, putPlain,
      putPlain, putPlain, Entries.put_put]

/-- Two binds of different kinds do not depend on their order. -/
theorem bind_bind_comm (hv : v.isFunc h = false) (hu : u.isFunc h' = true) :
    (s.bind n v h).bind n u h' = (s.bind n u h').bind n v h := by
  rw [bind_of_not_isFunc hv, bind_of_isFunc hu, bind_of_isFunc hu, bind_of_not_isFunc hv]
  rfl

/-! ### Lookups that a bind leaves alone -/

/-- Plain values are looked up as before a callable was bound. -/
theorem value?_bind_of_isFunc (hv : v.isFunc h = true) :
    w.value? (s.bind n v h) m = w.value? s m := by
  rw [bind_of_isFunc hv]
  rfl

/-- Callables are looked up as before a plain value was bound. -/
theorem method?_bind_of_not_isFunc (hv : v.isFunc h = false) :
    w.method? (s.bind n v h) m = w.method? s m := by
  rw [bind_of_not_isFunc hv]
  rfl

/-- So are plain values by names that do not read the one that was bound. -/
theorem value?_bind_of_not_mem (hm : n ∉ lookupNames m) :
    w.value? (s.bind n v h) m = w.value? s m := by
  have hplain : ∀ j ∈ lookupNames m, ((s.bind n v h).binding j).plain = (s.binding j).plain := by
    intro j hj
    rw [binding_bind, if_neg fun heq : j = n => hm (heq ▸ hj)]
  rw [World.value?, World.value?, ownValue?, ownValue?, propById?_bindsMap_congr hplain, vars_bind,
    root_bind]

/-- So are callables by every other name. -/
theorem method?_bind_of_ne (hm : m ≠ n) : w.method? (s.bind n v h) m = w.method? s m := by
  have hcaller : Assoc.find? m (s.bind n v h).callers = Assoc.find? m s.callers := by
    have hbinding := congrArg Binding.caller (binding_bind (h := h) s (n := m) n v)
    rwa [if_neg hm] at hbinding
  rw [World.method?, World.method?, ownMethod?, ownMethod?, hcaller, vars_bind, root_bind]

/-- A name to which a callable is bound has one. -/
theorem isSome_method?_bind (hv : v.isFunc h = true) :
    (w.method? (s.bind n v h) n).isSome = true := by
  have hcaller : Assoc.find? n (s.bind n v h).callers = some v.peel := by
    rw [bind_of_isFunc hv, Assoc.find?_put, if_pos rfl]
  have hown : ((s.bind n v h).ownMethod? n w.heap).isSome = true := by
    rw [ownMethod?, hcaller]
    split <;> rfl
  obtain ⟨found, hfound⟩ := Option.isSome_iff_exists.mp hown
  rw [World.method?, hfound]
  rfl

/-- Two scopes give the same for a name, as it is wanted, if their callables agree where one is
wanted, and their plain values agree or there is a callable where one is wanted. -/
theorem nameFor_context_congr {s s' : Scope} {t : Target} {m : String}
    (hmethod : t = .method → ∀ w : World, w.method? s m = w.method? s' m)
    (hvalue : (t = .method ∧ ∀ w : World, (w.method? s' m).isSome = true) ∨
      ∀ w : World, w.value? s m = w.value? s' m) (selected : Bool) :
    nameFor s.context t m selected = nameFor s'.context t m selected := by
  cases t with
  | property =>
    have hvalue : s.context.value m = s'.context.value m := funext (hvalue.resolve_left nofun)
    exact nameFor_property_congr hvalue selected
  | method =>
    have hcallable : s.context.method m = s'.context.method m :=
      funext fun w => congrArg w.methodValue? (hmethod rfl w)
    refine nameFor_method_congr hcallable ?_ selected
    refine hvalue.imp (fun hfound w => ?_) funext
    obtain ⟨found, hfound⟩ := Option.isSome_iff_exists.mp (hfound.2 w)
    show (w.methodValue? (w.method? s' m)).1.isSome = true
    rw [hfound]
    rfl

/-! ### Two binds -/

/-- Two binds of a name. If both bind a plain value, or both a callable, the scope is the one that
the second bind alone gives. If the first one binds a plain value and the second one a callable,
callables are looked up as after the second bind alone and plain values as after the first one
alone, which shows only in plain values looked up by names that read the one bound; a tree without
such names, other than the name itself where it is called, is evaluated as after the second bind
alone. If it is the other way round, plain values are looked up as after the second bind alone and
callables as after the first one alone, which shows only in the callable of the name bound; a tree
that does not call the name is evaluated as after the second bind alone. -/
theorem bind_bind (s : Scope) (n : String) (v u : Value) (h h' : Heap) :
    let both := (s.bind n v h).bind n u h'
    let first := s.bind n v h
    let second := s.bind n u h'
    (v.isFunc h = u.isFunc h' → both = second) ∧
    (v.isFunc h = false → u.isFunc h' = true →
      (∀ (w : World) (m : String), w.method? both m = w.method? second m ∧
        w.value? both m = w.value? first m ∧
        (n ∉ lookupNames m → w.value? both m = w.value? second m)) ∧
      ∀ (host : Host) (e : Expr),
        (∀ q ∈ e.asks .property, n ∈ lookupNames q.2 → q = (.method, n)) →
          e.eval host both.context = e.eval host second.context) ∧
    (v.isFunc h = true → u.isFunc h' = false →
      (∀ (w : World) (m : String), w.value? both m = w.value? second m ∧
        w.method? both m = w.method? first m ∧
        (m ≠ n → w.method? both m = w.method? second m)) ∧
      ∀ (host : Host) (e : Expr), (.method, n) ∉ e.asks .property →
        e.eval host both.context = e.eval host second.context) := by
  intro both first second
  refine ⟨bind_bind_of_isFunc_eq, fun hv hu => ?_, fun hv hu => ?_⟩
  · have hboth : both = second.bind n v h := bind_bind_comm hv hu
    have hmethod (w : World) (m : String) : w.method? both m = w.method? second m :=
      hboth ▸ method?_bind_of_not_isFunc hv
    have hvalue {m : String} (hm : n ∉ lookupNames m) (w : World) :
        w.value? both m = w.value? second m :=
      hboth ▸ value?_bind_of_not_mem hm
    refine ⟨fun w m => ⟨hmethod w m, value?_bind_of_isFunc hu, fun hm => hvalue hm w⟩,
      fun host e he => Expr.eval_congr fun q hq => nameFor_context_congr (fun _ w => hmethod w _) ?_⟩
    by_cases hn : n ∈ lookupNames q.2
    · cases he q hq hn
      exact .inl ⟨rfl, fun w => isSome_method?_bind hu⟩
    · exact .inr (hvalue hn)
  · have hboth : both = second.bind n v h := (bind_bind_comm hu hv).symm
    have hvalue (w : World) (m : String) : w.value? both m = w.value? second m :=
      hboth ▸ value?_bind_of_isFunc hv
    have hmethod {m : String} (hm : m ≠ n) (w : World) : w.method? both m = w.method? second m :=
      hboth ▸ method?_bind_of_ne hm
    refine ⟨fun w m => ⟨hvalue w m, method?_bind_of_not_isFunc hu, fun hm => hmethod hm w⟩,
      fun host e he => Expr.eval_congr fun q hq => nameFor_context_congr ?_
        (.inr fun w => hvalue w _)⟩
    rintro ht
    refine hmethod fun hn => he ?_
    rw [← ht, ← hn]
    exact hq

/-- A name for a number is bound to a callable as well: a call of the name is evaluated as if the
number were not there, and the number can still be looked up. -/
theorem bind_bind_call :
    let f := Value.func ⟨0, "f", none, .plain "", []⟩
    let both := ((empty none).bind "x" (.int .word 1) .empty).bind "x" f .empty
    let second := (empty none).bind "x" f .empty
    let host : Host := fun _ _ _ => throw (.host "no routine")
    let e := Expr.call (.name "x") [.int 1]
    ((Value.int .word 1).isFunc .empty = false ∧ f.isFunc .empty = true) ∧
      e.eval host both.context = e.eval host second.context ∧
      World.empty.value? both "x" = some (.int .word 1) := by
  intro f both second host e
  have hone : (Value.int .word 1).isFunc .empty = false := by decide
  have hf : f.isFunc .empty = true := by decide
  obtain ⟨-, hplain, -⟩ := bind_bind (empty none) "x" (.int .word 1) f .empty .empty
  obtain ⟨hlookup, heval⟩ := hplain hone hf
  refine ⟨⟨hone, hf⟩, heval host e (by decide), (hlookup .empty "x").2.1.trans rfl⟩

/-- A plain value stays bound beside the callable that its name is bound to later, and a callable
beside a plain value. -/
theorem not_forall_lookup_bind_bind :
    ¬(∀ (w : World) (s : Scope) (n : String) (v u : Value) (m : String),
      w.value? ((s.bind n v w.heap).bind n u w.heap) m = w.value? (s.bind n u w.heap) m) ∧
    ¬∀ (w : World) (s : Scope) (n : String) (v u : Value) (m : String),
      w.method? ((s.bind n v w.heap).bind n u w.heap) m = w.method? (s.bind n u w.heap) m := by
  let f := Value.func ⟨0, "f", none, .plain "", []⟩
  refine ⟨fun hall => ?_, fun hall => ?_⟩
  · exact absurd (hall .empty (empty none) "x" (.int .word 1) f "x") nofun
  · exact absurd (hall .empty (empty none) "x" f (.int .word 1) "x") nofun

end Scope

end DynamicEval
