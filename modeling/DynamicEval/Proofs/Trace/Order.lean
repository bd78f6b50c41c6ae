import DynamicEval.Expr
import Mathlib.Computability.Language

/-!
# The order of evaluation

What happens during an evaluation, and in which order, is a word of events: nodes of the tree are
entered, calls invoke their callables, and operands are tested where the course of the evaluation
depends on them. The words that a tree allows are a language, given by recursion on the tree. It has
one walk over the tree from left to right, with two exceptions: a disjunction may do without its
right operand, and a sum whose right operand turns out to be a text has its left operand walked over
once more, to read it as a text.

## Main definitions

* `Branch`, `NodePath`, `Event`: children of nodes, nodes of a tree, and what happens at them.
* `Expr.orders`: the words of events of a tree when it is read for its value and as a text.
* `rereads`: how many of the sums above a node have read it again.

## Main results

* `Expr.count_le_of_orders`: an event happens at most twice as often for every sum that has read its
  node again.
* `Expr.nodup_of_orders`: nothing happens twice if no sum reads its left operand again.
* `Expr.count_le_enter_of_orders`: nothing happens at a node more often than the node is entered.
-/

namespace DynamicEval

/-- A child of a node. -/
inductive Branch where
  /-- What a member or an element is selected from. -/
  | object
  /-- What selects an element. -/
  | key
  /-- What is called. -/
  | callee
  /-- An argument of a call. -/
  | arg (i : Nat)
  /-- The operand of a unary operator. -/
  | operand
  /-- What stands in parentheses. -/
  | inner
  /-- The left operand of a binary operator other than a sum. -/
  | left
  /-- The right operand of a binary operator other than a sum. -/
  | right
  /-- The left operand of a sum. -/
  | augend
  /-- The right operand of a sum. -/
  | addend
deriving DecidableEq

/-- A node of a tree: the branches that lead from it up to the root. -/
abbrev NodePath := List Branch

/-- Something that happens at a node. -/
inductive Event where
  /-- The evaluation of the node begins. -/
  | enter (p : NodePath)
  /-- The callable of a call is invoked. -/
  | invoke (p : NodePath)
  /-- A child has been evaluated and is tested: the operand of a sum for being a text, and the left
  operand of a disjunction for being true. -/
  | test (p : NodePath) (child : Branch) (result : Bool)
deriving DecidableEq

/-- The node at which an event happens. -/
def Event.node : Event → NodePath
  | enter p | invoke p | test p _ _ => p

/-- The language with the word of one event. -/
def Event.once (x : Event) : Language Event := {[x]}

theorem Event.mem_once (x : Event) : [x] ∈ x.once := rfl

/-- The words of events of the two readings of a tree. -/
structure Orders where
  /-- The words of the reading for a value. -/
  value : Language Event
  /-- The words of the reading as a text. -/
  text : Language Event

/-- The words of a tree whose text is that of its value. -/
def Orders.same (value : Language Event) : Orders := ⟨value, value⟩

open Event

mutual

/-- The words of events that a tree allows, the tree standing at a node of a larger one. -/
def Expr.orders : Expr → NodePath → Orders
  | .int _, p | .float _, p | .string _, p | .name _, p => .same (enter p).once
  | .select object _, p => .same ((enter p).once * (object.orders (.object :: p)).value)
  | .index object key, p =>
    .same ((enter p).once *
      ((object.orders (.object :: p)).value * (key.orders (.key :: p)).value))
  | .call callee args, p =>
    .same ((enter p).once * ((callee.orders (.callee :: p)).value *
      (Expr.ordersOfArgs args p 0 * (invoke p).once)))
  | .unary _ operand, p => .same ((enter p).once * (operand.orders (.operand :: p)).value)
  | .binary .add left right, p => {
    value := (enter p).once * ((left.orders (.augend :: p)).value *
      ((test p .augend true).once * (right.orders (.addend :: p)).text +
        (test p .augend false).once * ((right.orders (.addend :: p)).value *
          ((test p .addend true).once * (left.orders (.augend :: p)).text +
            (test p .addend false).once))))
    text := (enter p).once *
      ((left.orders (.augend :: p)).text * (right.orders (.addend :: p)).text) }
  | .binary .or left right, p =>
    .same ((enter p).once * ((left.orders (.left :: p)).value *
      ((test p .left true).once +
        (test p .left false).once * (right.orders (.right :: p)).value)))
  | .binary _ left right, p =>
    .same ((enter p).once *
      ((left.orders (.left :: p)).value * (right.orders (.right :: p)).value))
  | .paren inner, p => .same ((enter p).once * (inner.orders (.inner :: p)).value)
termination_by structural e => e

/-- The words of the arguments of a call from the `i`-th one on. -/
def Expr.ordersOfArgs : List Expr → NodePath → Nat → Language Event
  | [], _, _ => 1
  | e :: es, p, i => (e.orders (.arg i :: p)).value * Expr.ordersOfArgs es p (i + 1)
termination_by structural es => es

end

/-- How many of the sums above a node have read their left operand, with the node in it, again. -/
def rereads (trace : List Event) : NodePath → Nat
  | [] => 0
  | b :: p => rereads trace p + if b = .augend ∧ test p .addend true ∈ trace then 1 else 0

/-! ### Counting events -/

/-- As long as only what is in a trace happens, an event happens at most so often in the words of a
language, and in what they begin with. -/
def AtMost (trace : List Event) (L : Language Event) (x : Event) (n : Nat) : Prop :=
  ∀ t u, t ++ u ∈ L → t ⊆ trace → t.count x ≤ n

namespace AtMost

variable {trace : List Event} {L L' : Language Event} {x y : Event} {n m : Nat}

theorem mono (h : AtMost trace L x n) (hle : n ≤ m) : AtMost trace L x m :=
  fun t u ht htrace => (h t u ht htrace).trans hle

theorem one : AtMost trace 1 x 0 := by
  intro t u ht _
  rw [(List.append_eq_nil_iff.mp ((Language.mem_one _).mp ht)).1, List.count_nil]

theorem once : AtMost trace y.once x ([y].count x) := by
  intro t u ht _
  have ht : t ++ u = [y] := ht
  rcases List.append_eq_singleton_iff.mp ht with ⟨rfl, -⟩ | ⟨rfl, -⟩
  · exact Nat.zero_le _
  · exact Nat.le_refl _

theorem mul (h : AtMost trace L x n) (h' : AtMost trace L' x m) :
    AtMost trace (L * L') x (n + m) := by
  intro t u ht htrace
  obtain ⟨a, ha, b, hb, heq⟩ := Language.mem_mul.mp ht
  rcases List.append_eq_append_iff.mp heq.symm with ⟨c, rfl, rfl⟩ | ⟨c, rfl, rfl⟩
  · exact (h t c ha htrace).trans (Nat.le_add_right _ _)
  · rw [List.count_append]
    refine Nat.add_le_add (h a [] (by rwa [List.append_nil]) ?_) (h' c u hb ?_)
    · exact fun z hz => htrace (List.mem_append_left _ hz)
    · exact fun z hz => htrace (List.mem_append_right _ hz)

theorem add (h : AtMost trace L x n) (h' : AtMost trace L' x n) :
    AtMost trace (L + L') x n := fun t u ht htrace =>
  ((Language.mem_add _ _ _).mp ht).elim (h t u · htrace) (h' t u · htrace)

/-- What begins with an event counts only if the event is in the trace. -/
theorem once_mul (h : y ∈ trace → AtMost trace (y.once * L) x n) :
    AtMost trace (y.once * L) x n := by
  intro t u ht htrace
  cases t with
  | nil => exact Nat.zero_le _
  | cons z t =>
    obtain ⟨a, ha, b, -, heq⟩ := Language.mem_mul.mp ht
    have ha : a = [y] := ha
    rw [ha] at heq
    obtain ⟨rfl, -⟩ := List.cons.inj heq
    exact h (htrace List.mem_cons_self) _ u ht htrace

end AtMost

/-! ### Events of a tree -/

section

variable (trace : List Event) (x : Event)

theorem rereads_le_of_suffix {p q : NodePath} (hp : p <:+ q) : rereads trace p ≤ rereads trace q := by
  induction q with
  | nil => rw [List.suffix_nil.mp hp]
  | cons b q ih =>
    rcases List.suffix_cons_iff.mp hp with rfl | hp
    · exact Nat.le_refl _
    · exact (ih hp).trans (Nat.le_add_right _ _)

/-- How often an event may happen in the evaluation of the tree at a node: not at all outside of the
tree, and otherwise twice as often for every sum in the tree that has read the node of the event
again. -/
def budget (p : NodePath) : Nat :=
  if p <:+ x.node then 2 ^ (rereads trace x.node - rereads trace p) else 0

theorem budget_of_suffix {p : NodePath} (hp : p <:+ x.node) :
    budget trace x p = 2 ^ (rereads trace x.node - rereads trace p) :=
  if_pos hp

theorem budget_of_not_suffix {p : NodePath} (hp : ¬p <:+ x.node) : budget trace x p = 0 :=
  if_neg hp

/-- What the children of a node may have of an event. -/
structure Shares (p : NodePath) (b : Branch) (c : Nat) : Prop where
  /-- Only the child `b` may have the event. -/
  child (b' : Branch) : budget trace x (b' :: p) = if b' = b then c else 0
  /-- No child has an event that happens at the node, and there it happens once. -/
  self : x.node = p → c = 0 ∧ budget trace x p = 1
  /-- The child may have the event as often as the node. -/
  le : c ≤ budget trace x p
  /-- A child that is read again may have the event half as often as the node. -/
  double : b = .augend → test p .addend true ∈ trace → c + c ≤ budget trace x p

/-- An event can happen in the tree of one child only. -/
theorem exists_shares (p : NodePath) : ∃ b c, Shares trace x p b c := by
  by_cases hbelow : ∃ b, (b :: p) <:+ x.node
  · obtain ⟨b, hb⟩ := hbelow
    have hp : p <:+ x.node := (List.suffix_cons b p).trans hb
    have hle := rereads_le_of_suffix trace hb
    refine ⟨b, budget trace x (b :: p), fun b' => ?_, fun heq => ?_, ?_, fun hb' htest => ?_⟩
    · split
      · next heq => rw [heq]
      · next hne =>
        refine budget_of_not_suffix trace x fun hb' => hne ?_
        have heq := (List.suffix_of_suffix_length_le hb' hb (Nat.le_refl _)).eq_of_length rfl
        exact (List.cons.inj heq).1
    · have hlength := hb.length_le
      rw [heq, List.length_cons] at hlength
      omega
    · rw [budget_of_suffix trace x hb, budget_of_suffix trace x hp]
      exact Nat.pow_le_pow_right (by decide) (Nat.sub_le_sub_left (Nat.le_add_right _ _) _)
    · have hrereads : rereads trace (b :: p) = rereads trace p + 1 := by
        rw [rereads, if_pos ⟨hb', htest⟩]
      rw [hrereads] at hle
      rw [budget_of_suffix trace x hb, budget_of_suffix trace x hp, hrereads, ← Nat.two_mul,
        ← Nat.pow_succ']
      exact Nat.pow_le_pow_right (by decide) (by omega)
  · refine ⟨.inner, 0, fun b' => ?_, fun heq => ⟨rfl, ?_⟩, Nat.zero_le _, fun _ _ => Nat.zero_le _⟩
    · rw [ite_self]
      exact budget_of_not_suffix trace x fun hb' => hbelow ⟨b', hb'⟩
    · rw [budget_of_suffix trace x (heq ▸ List.suffix_refl p), heq, Nat.sub_self, Nat.pow_zero]

variable {trace x}

/-- What happens at a node itself, without repetition, and what the child that has the event may
have of it, are no more than the node may have. -/
theorem Shares.count_add_le {p : NodePath} {b : Branch} {c n : Nat} (hp : Shares trace x p b c)
    (own : List Event) (hnodup : own.Nodup) (hown : ∀ y ∈ own, y.node = p)
    (hn : n ≤ c ∨ n ≤ c + c ∧ b = .augend ∧ test p .addend true ∈ trace) :
    own.count x + n ≤ budget trace x p := by
  by_cases hx : x.node = p
  · obtain ⟨rfl, hbudget⟩ := hp.self hx
    have hcount := List.nodup_iff_count_le_one.mp hnodup x
    omega
  · have hcount : own.count x = 0 := List.count_eq_zero_of_not_mem fun hmem => hx (hown x hmem)
    rcases hn with hn | ⟨hn, hb, htest⟩
    · have hle := hp.le
      omega
    · have hdouble := hp.double hb htest
      omega

theorem Shares.child_le {p : NodePath} {b : Branch} {c : Nat} (hp : Shares trace x p b c)
    (b₁ : Branch) : budget trace x (b₁ :: p) ≤ c := by
  rw [hp.child]
  split
  · exact Nat.le_refl _
  · exact Nat.zero_le _

/-- What a node has of an event with one of its children. -/
theorem Shares.count_child_le {p : NodePath} {b : Branch} {c : Nat} (hp : Shares trace x p b c)
    (b₁ : Branch) : [enter p].count x + budget trace x (b₁ :: p) ≤ budget trace x p :=
  hp.count_add_le [enter p] (List.nodup_singleton _) (by simp [Event.node]) (.inl (hp.child_le b₁))

/-- What two children have of an event. -/
theorem Shares.children_le {p : NodePath} {b b₁ b₂ : Branch} {c : Nat} (hp : Shares trace x p b c)
    (hne : b₁ ≠ b₂) : budget trace x (b₁ :: p) + budget trace x (b₂ :: p) ≤ c := by
  rw [hp.child, hp.child]
  split_ifs with h₁ h₂
  · exact absurd (h₁.trans h₂.symm) hne
  all_goals omega

/-- What a node has of an event with two of its children. -/
theorem Shares.count_children_le {p : NodePath} {b b₁ b₂ : Branch} {c : Nat}
    (hp : Shares trace x p b c) (hne : b₁ ≠ b₂) :
    [enter p].count x + (budget trace x (b₁ :: p) + budget trace x (b₂ :: p)) ≤ budget trace x p :=
  hp.count_add_le [enter p] (List.nodup_singleton _) (by simp [Event.node])
    (.inl (hp.children_le hne))

/-- A sum whose left operand is read again, which happens only if the trace says so. -/
theorem Shares.augend_again {p : NodePath} {b : Branch} {c : Nat} {left right text : Language Event}
    (hp : Shares trace x p b c) (hleft : AtMost trace left x (budget trace x (.augend :: p)))
    (hright : AtMost trace right x (budget trace x (.addend :: p)))
    (htext : AtMost trace text x (budget trace x (.augend :: p))) :
    AtMost trace ((enter p).once * (left * ((test p .augend false).once *
      (right * ((test p .addend true).once * text))))) x (budget trace x p) := by
  have hchildren : budget trace x (.augend :: p) + budget trace x (.addend :: p) ≤ c :=
    hp.children_le (by decide)
  by_cases htest : test p .addend true ∈ trace
  · refine (AtMost.once.mul (hleft.mul (AtMost.once.mul
      (hright.mul (AtMost.once.mul htext))))).mono ?_
    have hn : budget trace x (.augend :: p) + budget trace x (.addend :: p) +
        budget trace x (.augend :: p) ≤ c ∨
        budget trace x (.augend :: p) + budget trace x (.addend :: p) +
          budget trace x (.augend :: p) ≤ c + c ∧ b = .augend ∧ test p .addend true ∈ trace := by
      by_cases hb : b = .augend
      · exact .inr ⟨by omega, hb, htest⟩
      · have hzero := hp.child .augend
        rw [if_neg (Ne.symm hb)] at hzero
        exact .inl (by omega)
    have hle := hp.count_add_le ([enter p] ++ [test p .augend false] ++
      [test p .addend true]) (by simp) (by simp [Event.node]) hn
    rw [List.count_append, List.count_append] at hle
    omega
  · have hnone : AtMost trace ((test p .addend true).once * text) x 0 :=
      .once_mul fun hmem => absurd hmem htest
    refine (AtMost.once.mul (hleft.mul (AtMost.once.mul (hright.mul hnone)))).mono ?_
    have hle := hp.count_add_le ([enter p] ++ [test p .augend false]) (by simp)
      (by simp [Event.node]) (.inl hchildren)
    rw [List.count_append] at hle
    omega

end

/-- An argument of a call from the `i`-th one on. -/
def Branch.isArgFrom (i : Nat) : Branch → Bool
  | arg j => i ≤ j
  | _ => false

mutual

/-- An event happens at most twice as often for every sum that has read its node again. -/
theorem Expr.orders_atMost (trace : List Event) (x : Event) : (e : Expr) → (p : NodePath) →
    AtMost trace (e.orders p).value x (budget trace x p) ∧
      AtMost trace (e.orders p).text x (budget trace x p)
  | .int _, p | .float _, p | .string _, p | .name _, p => by
    obtain ⟨b, c, hp⟩ := exists_shares trace x p
    refine and_self_iff.mpr (AtMost.once.mono ?_)
    exact hp.count_add_le [enter p] (List.nodup_singleton _) (by simp [Event.node])
      (.inl (Nat.zero_le c))
  | .select object _, p => by
    obtain ⟨b, c, hp⟩ := exists_shares trace x p
    have hobject := (Expr.orders_atMost trace x object (.object :: p)).1
    refine and_self_iff.mpr ((AtMost.once.mul hobject).mono ?_)
    exact hp.count_child_le .object
  | .index object key, p => by
    obtain ⟨b, c, hp⟩ := exists_shares trace x p
    have hobject := (Expr.orders_atMost trace x object (.object :: p)).1
    have hkey := (Expr.orders_atMost trace x key (.key :: p)).1
    refine and_self_iff.mpr ((AtMost.once.mul (hobject.mul hkey)).mono ?_)
    exact hp.count_children_le (by decide)
  | .call callee args, p => by
    obtain ⟨b, c, hp⟩ := exists_shares trace x p
    have hcallee := (Expr.orders_atMost trace x callee (.callee :: p)).1
    have hargs := Expr.ordersOfArgs_atMost trace x hp args 0
    refine and_self_iff.mpr ((AtMost.once.mul (hcallee.mul (hargs.mul .once))).mono ?_)
    have hn : budget trace x (.callee :: p) + (if b.isArgFrom 0 then c else 0) ≤ c := by
      rw [hp.child]
      cases b <;> simp [Branch.isArgFrom]
    have hle := hp.count_add_le ([enter p] ++ [invoke p]) (by simp) (by simp [Event.node])
      (.inl hn)
    rw [List.count_append] at hle
    omega
  | .unary _ operand, p => by
    obtain ⟨b, c, hp⟩ := exists_shares trace x p
    have hoperand := (Expr.orders_atMost trace x operand (.operand :: p)).1
    refine and_self_iff.mpr ((AtMost.once.mul hoperand).mono ?_)
    exact hp.count_child_le .operand
  | .binary op left right, p => by
    obtain ⟨b, c, hp⟩ := exists_shares trace x p
    by_cases hadd : op = .add
    · subst hadd
      have hleft := Expr.orders_atMost trace x left (.augend :: p)
      have hright := Expr.orders_atMost trace x right (.addend :: p)
      refine ⟨?_, ?_⟩
      · rw [Expr.orders]
        simp only [mul_add]
        refine .add ?_ (.add ?_ ?_)
        · refine (AtMost.once.mul (hleft.1.mul (AtMost.once.mul hright.2))).mono ?_
          have hle := hp.count_add_le ([enter p] ++ [test p .augend true]) (by simp)
            (by simp [Event.node]) (.inl (hp.children_le (show Branch.augend ≠ .addend by decide)))
          rw [List.count_append] at hle
          omega
        · exact hp.augend_again hleft.1 hright.1 hleft.2
        · refine (AtMost.once.mul (hleft.1.mul (AtMost.once.mul (hright.1.mul .once)))).mono ?_
          have hle := hp.count_add_le ([enter p] ++ [test p .augend false] ++
            [test p .addend false]) (by simp) (by simp [Event.node])
            (.inl (hp.children_le (show Branch.augend ≠ .addend by decide)))
          rw [List.count_append, List.count_append] at hle
          omega
      · refine (AtMost.once.mul (hleft.2.mul hright.2)).mono ?_
        exact hp.count_children_le (by decide)
    · have hleft := (Expr.orders_atMost trace x left (.left :: p)).1
      have hright := (Expr.orders_atMost trace x right (.right :: p)).1
      by_cases hor : op = .or
      · subst hor
        rw [Expr.orders]
        simp only [mul_add]
        refine and_self_iff.mpr (.add ?_ ?_)
        · refine (AtMost.once.mul (hleft.mul .once)).mono ?_
          have hle := hp.count_add_le ([enter p] ++ [test p .left true]) (by simp)
            (by simp [Event.node]) (.inl (hp.child_le .left))
          rw [List.count_append] at hle
          omega
        · refine (AtMost.once.mul (hleft.mul (AtMost.once.mul hright))).mono ?_
          have hle := hp.count_add_le ([enter p] ++ [test p .left false]) (by simp)
            (by simp [Event.node]) (.inl (hp.children_le (show Branch.left ≠ .right by decide)))
          rw [List.count_append] at hle
          omega
      · have horders : (Expr.binary op left right).orders p = .same ((enter p).once *
            ((left.orders (.left :: p)).value * (right.orders (.right :: p)).value)) := by
          cases op <;> first | rfl | exact absurd rfl hadd | exact absurd rfl hor
        rw [horders]
        refine and_self_iff.mpr ((AtMost.once.mul (hleft.mul hright)).mono ?_)
        exact hp.count_children_le (by decide)
  | .paren inner, p => by
    obtain ⟨b, c, hp⟩ := exists_shares trace x p
    have hinner := (Expr.orders_atMost trace x inner (.inner :: p)).1
    refine and_self_iff.mpr ((AtMost.once.mul hinner).mono ?_)
    exact hp.count_child_le .inner
termination_by structural e => e

theorem Expr.ordersOfArgs_atMost (trace : List Event) (x : Event) {p : NodePath} {b : Branch}
    {c : Nat} (hp : Shares trace x p b c) : (es : List Expr) → (i : Nat) →
    AtMost trace (Expr.ordersOfArgs es p i) x (if b.isArgFrom i then c else 0)
  | [], i => AtMost.one.mono (Nat.zero_le _)
  | e :: es, i => by
    have hhead := (Expr.orders_atMost trace x e (.arg i :: p)).1
    have htail := Expr.ordersOfArgs_atMost trace x hp es (i + 1)
    refine (hhead.mul htail).mono ?_
    rw [hp.child]
    cases b with
    | arg j =>
      simp only [Branch.isArgFrom, Branch.arg.injEq, decide_eq_true_eq]
      split_ifs <;> omega
    | _ => simp [Branch.isArgFrom]
termination_by structural es => es

end

/-- In what the evaluation of a whole tree begins with, an event happens at most twice as often for
every sum that has read its node again. -/
theorem Expr.count_le_of_orders {e : Expr} {t u : List Event} (ht : t ++ u ∈ (e.orders []).value)
    (x : Event) : t.count x ≤ 2 ^ rereads t x.node := by
  have hle := (Expr.orders_atMost t x e []).1 t u ht (List.Subset.refl t)
  rwa [budget_of_suffix t x List.nil_suffix] at hle

theorem rereads_eq_zero {trace : List Event} (htrace : ∀ p, test p .addend true ∉ trace)
    (p : NodePath) : rereads trace p = 0 := by
  induction p with
  | nil => rfl
  | cons b p ih => rw [rereads, ih, if_neg fun hb => htrace p hb.2]

/-- Nothing happens twice if no sum reads its left operand again. -/
theorem Expr.nodup_of_orders {e : Expr} {t u : List Event} (ht : t ++ u ∈ (e.orders []).value)
    (htrace : ∀ p, test p .addend true ∉ t) : t.Nodup := by
  refine List.nodup_iff_count_le_one.mpr fun x => ?_
  have hle := e.count_le_of_orders ht x
  rwa [rereads_eq_zero htrace, Nat.pow_zero] at hle

/-! ### Nodes and their children -/

/-- In the words of a language, and in what they begin with, an event happens at most as often as
another one. -/
def Dominated (L : Language Event) (x y : Event) : Prop :=
  ∀ t u, t ++ u ∈ L → t.count x ≤ t.count y

namespace Dominated

variable {L L' : Language Event} {x y z : Event}

theorem one : Dominated 1 x y := by
  intro t u ht
  rw [(List.append_eq_nil_iff.mp ((Language.mem_one _).mp ht)).1, List.count_nil]
  exact Nat.zero_le _

theorem once (hne : z ≠ x) : Dominated z.once x y := by
  intro t u ht
  have ht : t ++ u = [z] := ht
  rcases List.append_eq_singleton_iff.mp ht with ⟨rfl, -⟩ | ⟨rfl, -⟩
  · exact Nat.zero_le _
  · rw [List.count_singleton, beq_false_of_ne hne]
    exact Nat.zero_le _

theorem mul (h : Dominated L x y) (h' : Dominated L' x y) : Dominated (L * L') x y := by
  intro t u ht
  obtain ⟨a, ha, b, hb, heq⟩ := Language.mem_mul.mp ht
  rcases List.append_eq_append_iff.mp heq.symm with ⟨c, rfl, rfl⟩ | ⟨c, rfl, rfl⟩
  · exact h t c ha
  · rw [List.count_append, List.count_append]
    exact Nat.add_le_add (h a [] (by rwa [List.append_nil])) (h' c u hb)

theorem add (h : Dominated L x y) (h' : Dominated L' x y) : Dominated (L + L') x y :=
  fun t u ht => ((Language.mem_add _ _ _).mp ht).elim (h t u) (h' t u)

end Dominated

/-- The words of a node begin with its being entered. -/
theorem Expr.orders_eq_enter_mul (e : Expr) (p : NodePath) :
    (∃ L, (e.orders p).value = (enter p).once * L) ∧ ∃ L, (e.orders p).text = (enter p).once * L := by
  cases e with
  | int _ | float _ | string _ | name _ => exact ⟨⟨1, (mul_one _).symm⟩, ⟨1, (mul_one _).symm⟩⟩
  | binary op _ _ => cases op <;> exact ⟨⟨_, rfl⟩, ⟨_, rfl⟩⟩
  | _ => exact ⟨⟨_, rfl⟩, ⟨_, rfl⟩⟩

/-- An event that happens at a node, or at a child of it that is not read again, happens at most as
often as the node is entered. -/
theorem Expr.orders_dominated_self {x : Event} {p : NodePath} (e : Expr)
    (hx : x.node = p ∨ ∃ b ≠ .augend, x.node = b :: p) :
    Dominated (e.orders p).value x (enter p) ∧ Dominated (e.orders p).text x (enter p) := by
  have hbudget (t : List Event) : budget t x p = 1 := by
    rcases hx with heq | ⟨b, hb, heq⟩
    · rw [budget_of_suffix t x (heq ▸ List.suffix_refl p), heq, Nat.sub_self, Nat.pow_zero]
    · rw [budget_of_suffix t x (heq ▸ List.suffix_cons b p), heq, rereads, if_neg fun h => hb h.1,
        Nat.add_zero, Nat.sub_self, Nat.pow_zero]
  have hdominated {L L' : Language Event} (hL : L = (enter p).once * L')
      (hatMost : ∀ t, AtMost t L x (budget t x p)) : Dominated L x (enter p) := by
    intro t u ht
    cases t with
    | nil => exact Nat.zero_le _
    | cons z t =>
      have hle := hatMost _ _ u ht (List.Subset.refl _)
      rw [hL] at ht
      obtain ⟨a, ha, b, -, heq⟩ := Language.mem_mul.mp ht
      have ha : a = [enter p] := ha
      rw [ha] at heq
      obtain ⟨rfl, -⟩ := List.cons.inj heq
      rw [hbudget] at hle
      exact hle.trans (List.count_pos_iff.mpr List.mem_cons_self)
  obtain ⟨⟨L, hL⟩, L', hL'⟩ := e.orders_eq_enter_mul p
  exact ⟨hdominated hL fun t => (Expr.orders_atMost t x e p).1,
    hdominated hL' fun t => (Expr.orders_atMost t x e p).2⟩

mutual

/-- The same in a tree that is not below the node. -/
theorem Expr.orders_dominated {x : Event} {q : NodePath}
    (hx : x.node = q ∨ ∃ b ≠ .augend, x.node = b :: q) : (e : Expr) → (p : NodePath) →
    (p = q ∨ ¬q <:+ p) →
    Dominated (e.orders p).value x (enter q) ∧ Dominated (e.orders p).text x (enter q)
  | e, p, hp => by
    by_cases heq : p = q
    · subst heq
      exact e.orders_dominated_self hx
    have hp : ¬q <:+ p := hp.resolve_left heq
    have hchild (b : Branch) : b :: p = q ∨ ¬q <:+ b :: p := by
      rw [List.suffix_cons_iff]
      by_cases hb : b :: p = q
      · exact .inl hb
      · exact .inr (not_or.mpr ⟨Ne.symm hb, hp⟩)
    have hown {y : Event} (hy : y.node = p) : Dominated y.once x (enter q) := by
      refine .once ?_
      rintro rfl
      rcases hx with hx | ⟨b, -, hx⟩
      · exact heq (hy.symm.trans hx)
      · exact hp (hy ▸ hx ▸ List.suffix_cons b q)
    match e with
    | .int _ | .float _ | .string _ | .name _ => exact and_self_iff.mpr (hown rfl)
    | .select object _ =>
      have hobject := Expr.orders_dominated hx object _ (hchild .object)
      exact and_self_iff.mpr ((hown rfl).mul hobject.1)
    | .index object key =>
      have hobject := Expr.orders_dominated hx object _ (hchild .object)
      have hkey := Expr.orders_dominated hx key _ (hchild .key)
      exact and_self_iff.mpr ((hown rfl).mul (hobject.1.mul hkey.1))
    | .call callee args =>
      have hcallee := Expr.orders_dominated hx callee _ (hchild .callee)
      have hargs := Expr.ordersOfArgs_dominated hx args p 0 fun i => hchild (.arg i)
      exact and_self_iff.mpr ((hown rfl).mul (hcallee.1.mul (hargs.mul (hown rfl))))
    | .unary _ operand =>
      have hoperand := Expr.orders_dominated hx operand _ (hchild .operand)
      exact and_self_iff.mpr ((hown rfl).mul hoperand.1)
    | .binary op left right =>
      have haugend := Expr.orders_dominated hx left _ (hchild .augend)
      have haddend := Expr.orders_dominated hx right _ (hchild .addend)
      have hleft := Expr.orders_dominated hx left _ (hchild .left)
      have hright := Expr.orders_dominated hx right _ (hchild .right)
      cases op with
      | add =>
        refine ⟨(hown rfl).mul (haugend.1.mul (.add ((hown rfl).mul haddend.2) ((hown rfl).mul
          (haddend.1.mul (.add ((hown rfl).mul haugend.2) (hown rfl)))))), ?_⟩
        exact (hown rfl).mul (haugend.2.mul haddend.2)
      | or =>
        exact and_self_iff.mpr ((hown rfl).mul (hleft.1.mul
          (.add (hown rfl) ((hown rfl).mul hright.1))))
      | _ => exact and_self_iff.mpr ((hown rfl).mul (hleft.1.mul hright.1))
    | .paren inner =>
      have hinner := Expr.orders_dominated hx inner _ (hchild .inner)
      exact and_self_iff.mpr ((hown rfl).mul hinner.1)
termination_by structural e => e

theorem Expr.ordersOfArgs_dominated {x : Event} {q : NodePath}
    (hx : x.node = q ∨ ∃ b ≠ .augend, x.node = b :: q) : (es : List Expr) → (p : NodePath) →
    (i : Nat) → (∀ j, .arg j :: p = q ∨ ¬q <:+ .arg j :: p) →
    Dominated (Expr.ordersOfArgs es p i) x (enter q)
  | [], _, _, _ => .one
  | e :: es, p, i, hp =>
    (Expr.orders_dominated hx e _ (hp i)).1.mul (Expr.ordersOfArgs_dominated hx es p (i + 1) hp)
termination_by structural es => es

end

/-- In what the evaluation of a whole tree begins with, what happens at a node, or at a child of it
that is not read again, happens at most as often as the node is entered. -/
theorem Expr.count_le_enter_of_orders {e : Expr} {t u : List Event}
    (ht : t ++ u ∈ (e.orders []).value) {x : Event} {q : NodePath}
    (hx : x.node = q ∨ ∃ b ≠ .augend, x.node = b :: q) : t.count x ≤ t.count (enter q) := by
  refine (Expr.orders_dominated hx e [] ?_).1 t u ht
  by_cases hq : q = []
  · exact .inl hq.symm
  · exact .inr fun h => hq (List.suffix_nil.mp h)

end DynamicEval
