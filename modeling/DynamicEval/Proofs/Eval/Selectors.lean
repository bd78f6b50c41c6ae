import DynamicEval.Proofs.Eval.Sums

/-!
# Chains of selectors

A path is resolved segment by segment, and the value that a part of it selects is all that the rest
depends on, in its slot or out of it. A chain of selectors evaluates its links one after the other,
each on the value of the chain before it, and so comes to what the path of all links selects in the
value that it starts from. A link that selects nothing gives the absent value, which has no members,
so a chain that leaves the path once comes to nothing.

## Main definitions

* `Value.member`: what a selector makes of a value.
* `Expr.Link`, `Expr.chain`: the links of a chain, and the tree that they make.
* `Expr.Link.Denotes`: a link selects by a segment.
* `Expr.parentOf`: what a link selects from.

## Main results

* `Value.walk?_append`, `Value.propAt?_append`: paths are resolved one behind the other.
* `Value.foldl_member`: member by member a value comes to what a path selects.
* `Value.fieldAt?_append`: a path in two parts, in one and as a chain.
-/

namespace DynamicEval

/-! ### Paths behind each other -/

namespace Value

variable {h : Heap} {v key : Value} {path p q : List Value}

/-- A path goes on from the value that its first part comes to. -/
theorem walk?_append (v : Value) (h : Heap) (p q : List Value) :
    v.walk? h (p ++ q) = (v.walk? h p).bind (·.walk? h q) := by
  induction p generalizing v with
  | nil => rfl
  | cons key p ih =>
    rw [List.cons_append, walk?, walk?, Option.bind_assoc]
    exact congrArg _ (funext ih)

/-- The value at a path is the one that its segments select. A value without parts has nothing to
select from, so it need not be told apart. -/
theorem fieldAt?_eq_walk? (hne : path ≠ []) : v.fieldAt? path h = v.walk? h path :=
  Option.ext fun _ => ⟨fun hw => (walk?_of_fieldAt? hw).2, fieldAt?_of_walk? hne⟩

/-- It makes no difference to a path whether it starts in a slot. -/
theorem walk?_peel (hne : path ≠ []) : v.peel.walk? h path = v.walk? h path := by
  obtain ⟨key, path, rfl⟩ := List.exists_cons_of_ne_nil hne
  rw [walk?, walk?, part?_eq_place?, part?_eq_place?, base_peel]

theorem fieldAt?_peel (hne : path ≠ []) : v.peel.fieldAt? path h = v.fieldAt? path h := by
  rw [fieldAt?_eq_walk? hne, fieldAt?_eq_walk? hne, walk?_peel hne]

theorem fieldAt?_append_eq_bind (hp : p ≠ []) (hq : q ≠ []) :
    v.fieldAt? (p ++ q) h = (v.fieldAt? p h).bind (·.fieldAt? q h) := by
  rw [fieldAt?_eq_walk? (List.append_ne_nil_of_left_ne_nil hp q), walk?_append,
    fieldAt?_eq_walk? hp]
  exact congrArg _ (funext fun w => (fieldAt?_eq_walk? hq).symm)

/-- A path goes on in the same way from the value at its first part when that is out of its slot. -/
theorem propAt?_bind_fieldAt? (hq : q ≠ []) :
    (v.propAt? p h).bind (·.fieldAt? q h) = (v.fieldAt? p h).bind (·.fieldAt? q h) := by
  rw [propAt?, Option.bind_map]
  exact congrArg _ (funext fun w => fieldAt?_peel hq)

theorem propAt?_append (hp : p ≠ []) (hq : q ≠ []) :
    v.propAt? (p ++ q) h = (v.propAt? p h).bind (·.propAt? q h) := by
  rw [propAt?, fieldAt?_append_eq_bind hp hq, ← propAt?_bind_fieldAt? hq, Option.map_bind]
  rfl

/-! ### Members -/

/-- What a selector makes of a value: the member that a segment selects, and the absent value where
there is none. -/
def member (h : Heap) (v key : Value) : Value := (v.propAt? [key] h).getD .invalid

theorem propAt?_invalid (path : List Value) (h : Heap) : invalid.propAt? path h = none := by
  rw [propAt?, fieldAt?, isNil, Bool.or_true, if_pos rfl, Option.map_none]

/-- Member by member a value comes to what a path selects, and to nothing if it selects nothing. -/
theorem foldl_member (hne : path ≠ []) :
    path.foldl (member h) v = (v.propAt? path h).getD .invalid := by
  induction path generalizing v with
  | nil => exact absurd rfl hne
  | cons key path ih =>
    cases path with
    | nil => rfl
    | cons next path =>
      have hrest : next :: path ≠ [] := List.cons_ne_nil _ _
      have happend : v.propAt? (key :: next :: path) h = _ :=
        propAt?_append (p := [key]) (List.cons_ne_nil _ _) hrest
      rw [List.foldl_cons, ih hrest, happend, member]
      cases v.propAt? [key] h with
      | none => rw [Option.getD_none, propAt?_invalid, Option.bind_none]
      | some w => rfl

end Value

/-! ### Links -/

/-- A link of a chain of selectors. -/
inductive Expr.Link where
  /-- The member of a name. -/
  | field (name : String)
  /-- The element at the value of a tree. -/
  | element (key : Expr)

namespace Expr

/-- A tree with a link behind it. -/
def follow (e : Expr) : Link → Expr
  | .field s => select e s
  | .element key => index e key

/-- A tree with the links of a chain behind it. -/
def chain (e : Expr) (links : List Link) : Expr := links.foldl follow e

/-- A link selects by a segment: by the text of its name, or by the value that its tree evaluates to
in every world of a set. -/
inductive Link.Denotes (host : Host) (ctx : Context) (S : World → Prop) : Link → Value → Prop where
  | field (s : String) : Denotes host ctx S (.field s) (.string s)
  | element {e : Expr} {key : Value} (hkey : (e.eval host ctx).Yields S key) :
      Denotes host ctx S (.element e) key

/-- What a link behind a tree selects from: the value of the tree. A name of which a member is
selected stands for what is bound to it, even if it is the name of a constant. -/
def parentOf (host : Host) (ctx : Context) : Link → Expr → Action Value
  | .field _, name s => nameFor ctx .property s true
  | _, e => e.eval host ctx

end Expr

section Chains

variable {host : Host} {ctx : Context} {S : World → Prop} {h : Heap} {e : Expr} {l : Expr.Link}
  {links : List Expr.Link} {v key : Value} {path : List Value}

theorem memberFor_yields (hS : ∀ w, S w → w.heap = h) (v key : Value) :
    (memberFor .property v key).Yields S (v.member h key) := by
  rw [memberFor]
  split
  · next hinvalid =>
    rw [Value.eq_invalid_of_ty (Value.isInvalid_iff.mp hinvalid), Value.member,
      Value.propAt?_invalid]
    exact .pure _
  · refine .heap_bind hS ?_
    have hfilter : ((v.propAt? [key] h).bind fun w => Target.property.filter w h) =
        v.propAt? [key] h := by
      cases v.propAt? [key] h <;> rfl
    show (Pure.pure _ : Action Value).Yields S _
    rw [hfilter]
    exact .pure _

theorem Expr.parentOf_element (host : Host) (ctx : Context) (k e : Expr) :
    e.parentOf host ctx (.element k) = e.eval host ctx := by
  cases e <;> rfl

/-- What a link is behind is no name. -/
theorem Expr.parentOf_follow (host : Host) (ctx : Context) (e : Expr) (l l' : Link) :
    (e.follow l).parentOf host ctx l' = (e.follow l).eval host ctx := by
  cases l <;> cases l' <;> rfl

/-- A link selects from the value of the tree before it. -/
theorem Expr.yields_follow (hS : ∀ w, S w → w.heap = h)
    (he : (e.parentOf host ctx l).Yields S v) (hl : l.Denotes host ctx S key) :
    ((e.follow l).eval host ctx).Yields S (v.member h key) := by
  rw [yields_eval_iff]
  cases hl with
  | field s =>
    have hmember {a : Action Value} (ha : a.Yields S v) :
        (a >>= fun parent => memberFor .property parent (.string s)).Yields S
          (v.member h (.string s)) :=
      ha.bind (memberFor_yields hS v (.string s))
    rw [follow, meaning]
    cases e with
    | name _ => exact hmember he
    | _ => exact hmember (yields_eval_iff.mp he)
  | @element k _ hkey =>
    have hmember : (((e.meaning host ctx).value .property >>= fun parent =>
        (k.meaning host ctx).value .property >>= memberFor .property parent)).Yields S
          (v.member h key) := by
      rw [parentOf_element, yields_eval_iff] at he
      exact he.bind ((yields_eval_iff.mp hkey).bind (memberFor_yields hS v key))
    exact hmember

/-- A chain selects member by member. -/
theorem Expr.yields_chain (hS : ∀ w, S w → w.heap = h)
    (he : (e.parentOf host ctx l).Yields S v) (hl : l.Denotes host ctx S key)
    (hlinks : List.Forall₂ (Link.Denotes host ctx S) links path) :
    ((e.chain (l :: links)).eval host ctx).Yields S ((key :: path).foldl (Value.member h) v) := by
  have hfollow := yields_follow hS he hl
  induction hlinks generalizing e l v key with
  | nil => exact hfollow
  | @cons next _ _ _ hnext _ ih =>
    have hparent := (parentOf_follow host ctx e l next).symm ▸ hfollow
    exact ih hparent hnext (yields_follow hS hparent hnext)

/-- A path in two parts selects what its second part selects in the value at its first part, whether
that value is in its slot or out of it, and nothing where one of the parts selects nothing. A chain
of selectors, its links those of a path, evaluates to what the path selects in the value that its
first link selects from, and to nothing where the path selects nothing. -/
theorem Value.fieldAt?_append {p q : List Value} (v : Value) (h : Heap) (hp : p ≠ [])
    (hq : q ≠ []) :
    v.fieldAt? (p ++ q) h = (v.fieldAt? p h).bind (·.fieldAt? q h) ∧
      v.fieldAt? (p ++ q) h = (v.propAt? p h).bind (·.fieldAt? q h) ∧
      v.propAt? (p ++ q) h = (v.propAt? p h).bind (·.propAt? q h) ∧
      ∀ {host : Host} {ctx : Context} {S : World → Prop} {root : Expr} {links : List Expr.Link},
        (∀ w, S w → w.heap = h) →
        (∀ l ∈ links.head?, (root.parentOf host ctx l).Yields S v) →
        List.Forall₂ (Expr.Link.Denotes host ctx S) links p →
          ((root.chain links).eval host ctx).Yields S ((v.propAt? p h).getD .invalid) := by
  have happend := fieldAt?_append_eq_bind (v := v) (h := h) hp hq
  refine ⟨happend, happend.trans (propAt?_bind_fieldAt? hq).symm, propAt?_append hp hq, ?_⟩
  intro host ctx S root links hS hroot hlinks
  cases hlinks with
  | nil => exact absurd rfl hp
  | @cons l key links p hl hlinks =>
    rw [← foldl_member hp]
    exact Expr.yields_chain hS (hroot l rfl) hl hlinks

end Chains

/-- A map whose entry holds a list in a slot, behind a pointer: an item of the list, and the place
behind its end, where the path and the chain for it select nothing. -/
theorem Value.fieldAt?_append_pointer :
    let items := Value.list (.int .word) [.int .word 5, .int .word 7]
    let m := Value.map .string .any [(.string "a", .slot items)]
    let h := (Heap.empty.alloc m).1
    let v := Value.pointer m.ty (some 0)
    let w : World := { World.empty with heap := h }
    let ctx := ((Scope.empty none).putPlain "x" v).context
    let host := Stock.host fun _ => none
    let path (i : Int64) := [Value.string "a"] ++ [Value.int .bits64 i]
    let chain (i : Int64) := Expr.chain (.name "x") [.field "a", .element (.int i)]
    (v.fieldAt? [.string "a"] h = some (.slot items) ∧
      v.fieldAt? (path 1) h = items.fieldAt? [.int .bits64 1] h ∧
      v.fieldAt? (path 2) h = items.fieldAt? [.int .bits64 2] h) ∧
      ((chain 1).eval host ctx).Yields (· = w) (.int .word 7) ∧
      ((chain 2).eval host ctx).Yields (· = w) .invalid := by
  intro items m h v w ctx host path chain
  have hslot : v.fieldAt? [.string "a"] h = some (.slot items) := rfl
  have hpath (i : Int64) : v.fieldAt? (path i) h = items.fieldAt? [.int .bits64 i] h := by
    obtain ⟨-, hprop, -⟩ := fieldAt?_append (p := [.string "a"]) (q := [.int .bits64 i]) v h
      (List.cons_ne_nil _ _) (List.cons_ne_nil _ _)
    rw [hprop, propAt?, hslot]
    rfl
  have hchain (i : Int64) : ((chain i).eval host ctx).Yields (· = w)
      ((v.propAt? (path i) h).getD .invalid) := by
    refine (fieldAt?_append (p := path i) (q := [.invalid]) v h (List.cons_ne_nil _ _)
      (List.cons_ne_nil _ _)).2.2.2 (fun u hu => by rw [hu]) ?_ ?_
    · rintro l ⟨rfl⟩ u hu
      exact ⟨w, by rw [hu]; rfl, rfl⟩
    · exact .cons (.field "a") (.cons (.element fun u hu => ⟨u, rfl, hu⟩) .nil)
  exact ⟨⟨hslot, hpath 1, hpath 2⟩, hchain 1, hchain 2⟩

end DynamicEval
