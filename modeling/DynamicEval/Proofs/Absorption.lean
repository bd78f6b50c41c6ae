import DynamicEval.Proofs.Merge
import DynamicEval.Proofs.Path.Identifier
import DynamicEval.Proofs.Shadowing

/-!
# Names after a scope was taken in

A scope that takes another one in gets the bindings of both and no others, and the linked objects of
the other one before its own. These are linked one after the other, each before those that are linked
already, so that they come in the opposite order: what was looked at last in the scope that is taken
in is looked at first afterwards.

## Main results

* `Scope.binding_mergeBinds`: a merge of bindings binds no name that neither side binds.
* `Scope.absorbScope_eq_ok`: what a scope is after it has taken another one in.
* `Scope.lookup_absorbScope`: the lookup of a name that neither scope binds itself.
-/

namespace DynamicEval

/-! ### Names without dots -/

/-- A name without dots that is not bound names nothing among the bindings. -/
theorem Scope.propById?_bindsMap_eq_none {s : Scope} {name : String} {h : Heap}
    (hdot : '.' ∉ name.toList) (hname : (s.binding name).plain = none) :
    s.bindsMap.propById? name h = none := by
  have hread : s.bindsMap.propAt? (pathOf name) h = none := by
    rw [pathOf, Text.segments_of_dotless hdot, Value.propAt?, Value.fieldAt?]
    split
    · rfl
    · rw [List.map_singleton, Value.walk?, part?_bindsMap, hname]
      simp
  have hlength : ¬1 < (pathOf name).length := by
    rw [pathOf, Text.segments_of_dotless hdot]
    split <;> simp
  rw [Value.propById?, hread, decide_eq_false hlength, Bool.and_false]
  exact ite_self none

/-! ### Bindings of both scopes -/

theorem Value.mergeEntriesStep_find?_eq_none {enter : Addr → Value → Heap → Edit Unit} {kt et : Ty}
    {place : BareKey} {es entries : List (Key × Value)} {h : Heap}
    (hkeys : ∀ entry ∈ es, kt.AcceptsKey entry.1) (hes : Entries.find? place es = none)
    (hentries : Entries.find? place entries = none) :
    Entries.find? place (mergeEntriesStep enter kt et es entries h).2.1 = none := by
  induction es generalizing entries h with
  | nil => exact hentries
  | cons entry es ih =>
    obtain ⟨k, v⟩ := entry
    obtain ⟨hk, hkeys⟩ := List.forall_mem_cons.mp hkeys
    rw [Entries.find?] at hes
    split at hes
    · cases hes
    next hne =>
    have hreplace (place' : BareKey) (w u : Value) (hw : Entries.find? place' entries = some w) :
        Entries.find? place (Entries.replace place' u entries) = none := by
      rw [Entries.find?_replace_of_ne, hentries]
      rintro rfl
      cases hw.symm.trans hentries
    rw [mergeEntriesStep]
    dsimp only
    split
    · next place' w hplace =>
      obtain ⟨_, -, hw⟩ := Option.bind_eq_some_iff.mp hplace
      obtain ⟨_, hw, heq⟩ := Option.map_eq_some_iff.mp hw
      cases heq
      split
      · split
        · exact hreplace _ _ _ hw
        · exact ih hkeys hes (hreplace _ _ _ hw)
      · split
        · exact ih hkeys hes hentries
        · split
          · exact hentries
          · exact ih hkeys hes (hreplace _ _ _ hw)
    · split
      · exact hentries
      · next hrun =>
        refine ih hkeys hes ?_
        obtain ⟨j, _, hj, hrun⟩ := HeapM.run_bind_eq_ok.mp hrun
        obtain ⟨w, _, -, hput⟩ := HeapM.run_bind_eq_ok.mp hrun
        cases (Key.coerceWith_value hk).symm.trans hj
        cases hput
        rw [Entries.find?_put_of_ne (Ne.symm hne), hentries]

/-- A merge of maps of one type merges the entries. -/
theorem Value.exists_merge_map (k e : Ty) (entries es : List (Key × Value)) (h : Heap) :
    ∃ enter, (map k e entries).merge (map k e es) h =
      ⟨(mergeEntriesStep enter k e es entries h).1,
        map k e (mergeEntriesStep enter k e es entries h).2.1,
        (mergeEntriesStep enter k e es entries h).2.2⟩ := by
  have hstep (enter : Addr → Value → Heap → Edit Unit) :
      (map k e es).mergeStep enter (map k e entries) h =
        ⟨(mergeEntriesStep enter k e es entries h).1,
          map k e (mergeEntriesStep enter k e es entries h).2.1,
          (mergeEntriesStep enter k e es entries h).2.2⟩ := by
    rw [mergeStep, intoBase_of_isStructured rfl]
    dsimp only [peel]
    rw [if_pos BEq.rfl]
    rfl
  rw [merge]
  cases h.size with
  | zero => exact ⟨_, hstep _⟩
  | succ n => exact ⟨_, hstep _⟩

namespace Scope

variable {s s' other : Scope} {h h' : Heap} {n : String}

/-- What is merged into bindings binds no name that neither side binds, and changes nothing but the
bindings. -/
theorem binding_mergeBinds (hother : other.WellFormed h)
    (hrun : s.mergeBinds other.bindsMap h = (h', s', .ok ())) :
    ((s.binding n).plain = none → (other.binding n).plain = none →
      (s'.binding n).plain = none) ∧
      s'.callers = s.callers ∧ s'.vars = s.vars ∧ s'.root = s.root := by
  obtain ⟨enter, hmerge⟩ := Value.exists_merge_map .string .any s.binds other.binds h
  rw [mergeBinds, bindsMap, bindsMap, hmerge] at hrun
  dsimp only at hrun
  split at hrun
  · next heq =>
    cases heq
    cases hrun
    refine ⟨fun hs hother' => ?_, rfl, rfl, rfl⟩
    exact Value.mergeEntriesStep_find?_eq_none hother.binds.keyTypes hother' hs
  · next hne =>
    have hok := congrArg (fun r => r.2.2) hrun
    exact absurd rfl (hne _ _ _ hok)

/-- Linking objects one after the other turns their order round. -/
theorem foldl_link (s : Scope) (objects : List Value) :
    objects.foldl (fun s v => s.link [v]) s = s.link objects.reverse := by
  induction objects generalizing s with
  | nil => rfl
  | cons v objects ih =>
    rw [List.foldl_cons, ih, List.reverse_cons]
    simp [link]

/-- A scope that has taken another one in: it binds no names that neither scope bound, and its
linked objects are those of the other one, in the opposite order, and its own. -/
theorem absorbScope_eq_ok (hother : other.WellFormed h)
    (hrun : s.absorbScope other h = (h', s', .ok ())) :
    ((s.binding n).plain = none → (other.binding n).plain = none →
      (s'.binding n).plain = none) ∧
      s'.vars = other.vars.reverse ++ s.vars ∧ s'.root = s.root := by
  rw [absorbScope] at hrun
  split at hrun
  · cases hrun
  · next s₁ hmerge =>
    obtain ⟨hbinds, -, hvars, hroot⟩ := binding_mergeBinds (n := n) hother hmerge
    dsimp only at hrun
    rw [foldl_link] at hrun
    cases hrun
    exact ⟨hbinds, congrArg (other.vars.reverse ++ ·) hvars, hroot⟩

/-- The value of a name in the top scope behind a scope. -/
def topValue? (w : World) (s : Scope) (name : String) : Option Value :=
  (s.root.bind w.top?).bind fun top => top.ownValue? name w.heap

/-- The method of a name in the top scope behind a scope. -/
def topMethod? (w : World) (s : Scope) (name : String) : Option FoundMethod :=
  (s.root.bind w.top?).bind fun top => top.ownMethod? name w.heap

/-- **A name after a scope was taken in.** If neither scope binds a name without dots itself, its
value is looked for in the linked objects of the scope that was taken in, the last one first, then in
those that were linked before, and then in the top scope. Methods are looked for in the same objects
in the same order, then among the callables, and then in the top scope. -/
theorem lookup_absorbScope {w : World} (hother : other.WellFormed w.heap)
    (hrun : s.absorbScope other w.heap = (h', s', .ok ())) (hdot : '.' ∉ n.toList)
    (hs : (s.binding n).plain = none) (hname : (other.binding n).plain = none) :
    let w' : World := { w with heap := h' }
    w'.value? s' n =
      (((other.vars.reverse.findSome? fun v => v.propById? n h').or
        (s.vars.findSome? fun v => v.propById? n h')).or (topValue? w' s n)) ∧
    w'.method? s' n =
      ((((other.vars.reverse.findSome? fun v => v.methodById? n h').or
        (s.vars.findSome? fun v => v.methodById? n h')).map
          fun (name, body, receiver) => .ofRecord name body receiver).or
        ((Assoc.find? n s'.callers).map .held)).or (topMethod? w' s n) := by
  intro w'
  obtain ⟨hbinds, hvars, hroot⟩ := absorbScope_eq_ok (n := n) hother hrun
  have hbind : s'.bindsMap.propById? n w'.heap = none :=
    propById?_bindsMap_eq_none hdot (hbinds hs hname)
  constructor
  · rw [World.value?, ownValue?, hbind, hvars, hroot, List.findSome?_append]
    cases other.vars.reverse.findSome? fun v => v.propById? n w'.heap with
    | some v => rfl
    | none => cases s.vars.findSome? fun v => v.propById? n w'.heap <;> rfl
  · rw [World.method?, ownMethod?, hvars, hroot, List.findSome?_append]
    cases (other.vars.reverse.findSome? fun v => v.methodById? n w'.heap).or
        (s.vars.findSome? fun v => v.methodById? n w'.heap) with
    | some m => rfl
    | none => cases Assoc.find? n s'.callers <;> rfl

/-- A map with one entry, a number under the key `k`. -/
def numbered (n : Int64) : Value := .map .string (.int .word) [(.string "k", .int .word n)]

theorem numbered_wellFormed (n : Int64) : (numbered n).WellFormed h := by
  have hkey := Ty.acceptsKey_string "k"
  exact Value.wellFormed_map.mpr (Entries.WellFormed.nil.put hkey (.string "k") ⟨.int rfl, BEq.rfl⟩)

/-- A scope to which two such maps are linked. -/
def twoLinked (n m : Int64) : Scope := (Scope.empty (some 0)).link [numbered n, numbered m]

theorem twoLinked_wellFormed (n m : Int64) : (twoLinked n m).WellFormed h := by
  refine (WellFormed.empty (some 0)).link ?_
  simp only [List.forall_mem_cons]
  exact ⟨numbered_wellFormed n, numbered_wellFormed m, nofun⟩

/-- A world with one root. -/
def oneRoot : World := (World.empty.newRoot {}).2

/-- The last of two linked maps comes first. -/
theorem lookup_absorbScope_twoLinked :
    (Scope.empty (some 0)).absorbScope (twoLinked 1 2) oneRoot.heap =
      (oneRoot.heap, twoLinked 2 1, .ok ()) ∧
    oneRoot.value? (twoLinked 1 2) "k" = some (.int .word 1) ∧
    oneRoot.value? (twoLinked 2 1) "k" = some (.int .word 2) := by
  have hrun : (Scope.empty (some 0)).absorbScope (twoLinked 1 2) oneRoot.heap =
      (oneRoot.heap, twoLinked 2 1, .ok ()) := rfl
  obtain ⟨hvalue, -⟩ := lookup_absorbScope (w := oneRoot) (n := "k") (twoLinked_wellFormed 1 2)
    hrun (by decide) rfl rfl
  exact ⟨hrun, rfl, hvalue⟩

/-- Linked objects that are taken in do not keep their order. -/
theorem not_forall_keepsOrder :
    ¬∀ (w : World) (s other s' : Scope) (h' : Heap) (name : String), w.heap.WellFormed →
      s.WellFormed w.heap → other.WellFormed w.heap → s.root = other.root →
      '.' ∉ name.toList → (s.binding name).plain = none → (other.binding name).plain = none →
      s.absorbScope other w.heap = (h', s', .ok ()) →
      ({ w with heap := h' } : World).value? s' name =
        (((other.vars.findSome? fun v => v.propById? name h').or
          (s.vars.findSome? fun v => v.propById? name h')).or
            (topValue? { w with heap := h' } s name)) := by
  intro hall
  have hkept := hall oneRoot (.empty (some 0)) (twoLinked 1 2) (twoLinked 2 1) oneRoot.heap "k"
    (fun a ha => absurd ha (Nat.not_lt_zero a)) (.empty _) (twoLinked_wellFormed 1 2) rfl
    (by decide) rfl rfl rfl
  cases hkept

end Scope

end DynamicEval
