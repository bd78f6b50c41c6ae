import DynamicEval.Json.Document
import DynamicEval.Proofs.Assoc
import DynamicEval.Proofs.WellFormed.Merge
import DynamicEval.Scope

/-!
# Scopes keep what is well-formed

The bindings of a scope are the entries of a map from texts to slots, and stay so when names are
bound, saved and put back, and when objects and other scopes are taken in. Documents become
well-formed values.

## Main definitions

* `Scope.WellFormed`: bindings that are entries, and well-formed values everywhere else.
* `Scope.Absorbed`: what taking something in leaves behind.

## Main results

* `Value.ofDocument_wellFormed`: values of documents.
* `Scope.WellFormed.bind`, `Scope.WellFormed.backup`, `Scope.WellFormed.restore`: bindings.
* `Scope.absorb_absorbed`, `Scope.absorbScope_absorbed`: what is taken in.
* `Scope.ownValue?_wellFormed`, `Scope.ownMethod?_wellFormed`: lookup.
-/

namespace DynamicEval

/-! ### Documents -/

section

variable {h : Heap}

theorem Ty.acceptsKey_string (s : String) : Ty.string.AcceptsKey (.string s) :=
  ⟨.string s, Ty.accepts_self _, rfl⟩

/-- Storing a slot under a text keeps the entries of a map from texts to slots. -/
theorem Entries.WellFormed.putText {entries : List (Key × Value)} {v : Value}
    (he : Entries.WellFormed .string .any h entries) (name : String) (hv : v.WellFormed h) :
    Entries.WellFormed .string .any h (Entries.put (.string name) v.boxed entries) :=
  he.put (Ty.acceptsKey_string name) (.string name) hv.boxed_fits

mutual

theorem Value.ofDocument_wellFormed (d : Document) : (Value.ofDocument d).WellFormed h := by
  match d with
  | .null => exact .invalid
  | .bool b => exact .bool b
  | .integer n =>
    rw [Value.ofDocument, Value.ofInteger]
    split
    · exact .int rfl
    · exact .uint rfl
  | .float x => exact .float trivial
  | .string s => exact .string s
  | .list items => exact Value.wellFormed_list.mpr (Value.ofDocuments_fit items)
  | .object members => exact Value.wellFormed_map.mpr (Value.ofMembers_wellFormed members .nil)

theorem Value.ofDocuments_fit (ds : List Document) :
    ∀ v ∈ Value.ofDocuments ds, v.Fits .any h := by
  match ds with
  | [] => exact List.forall_mem_nil _
  | d :: ds =>
    intro v hv
    rcases List.mem_cons.mp hv with rfl | hv
    · exact (Value.ofDocument_wellFormed d).boxed_fits
    · exact Value.ofDocuments_fit ds v hv

theorem Value.ofMembers_wellFormed (ms : List (String × Document)) {entries : List (Key × Value)}
    (he : Entries.WellFormed .string .any h entries) :
    Entries.WellFormed .string .any h (Value.ofMembers ms entries) := by
  match ms with
  | [] => exact he
  | (name, d) :: ms =>
    exact Value.ofMembers_wellFormed ms (he.putText name (Value.ofDocument_wellFormed d))

end

end

/-! ### The invariant of scopes -/

/-- A scope with well-formed values in it. -/
structure Scope.WellFormed (s : Scope) (h : Heap) : Prop where
  /-- The plain bindings are entries of a map from texts to slots. -/
  binds : Entries.WellFormed .string .any h s.binds
  /-- The saved bindings are well-formed. -/
  saved : ∀ b ∈ s.saved, b.2.WellFormed h
  /-- The bound callables are well-formed. -/
  callers : ∀ b ∈ s.callers, b.2.WellFormed h
  /-- The linked objects are well-formed. -/
  vars : ∀ v ∈ s.vars, v.WellFormed h

namespace Scope

variable {s : Scope} {h h' : Heap} {v : Value} {name : String}

theorem WellFormed.mono (hs : s.WellFormed h) (hh : h.Extends h') : s.WellFormed h' where
  binds := hs.binds.mono hh
  saved b hb := (hs.saved b hb).mono hh
  callers b hb := (hs.callers b hb).mono hh
  vars v hv := (hs.vars v hv).mono hh

theorem WellFormed.bindsMap (hs : s.WellFormed h) : s.bindsMap.WellFormed h :=
  Value.wellFormed_map.mpr hs.binds

theorem WellFormed.empty (root : Option RootId) : (Scope.empty root).WellFormed h :=
  ⟨.nil, List.forall_mem_nil _, List.forall_mem_nil _, List.forall_mem_nil _⟩

/-! ### Bindings -/

theorem WellFormed.putPlain (hs : s.WellFormed h) (name : String) (hv : v.WellFormed h) :
    (s.putPlain name v).WellFormed h :=
  { hs with binds := hs.binds.putText name hv }

theorem WellFormed.bind (hs : s.WellFormed h) (name : String) (hv : v.WellFormed h) (h₀ : Heap) :
    (s.bind name v h₀).WellFormed h := by
  rw [Scope.bind]
  split
  · refine { hs with callers := fun b hb => ?_ }
    rcases Assoc.mem_put hb with rfl | hb
    · exact hv.peel
    · exact hs.callers b hb
  · exact hs.putPlain name hv

theorem WellFormed.unbind (hs : s.WellFormed h) (name : String) : (s.unbind name).WellFormed h :=
  { hs with
    binds := hs.binds.erase _
    callers := fun b hb => hs.callers b (List.mem_of_mem_filter hb) }

theorem WellFormed.backup (hs : s.WellFormed h) (name : String) : (s.backup name).WellFormed h := by
  rw [Scope.backup]
  split
  · next v hv =>
    obtain ⟨entry, hentry, rfl⟩ := Entries.mem_of_find?_eq_some hv
    refine { hs with saved := fun b hb => ?_ }
    rcases Assoc.mem_put hb with rfl | hb
    · exact (hs.binds.values entry hentry).wellFormed.peel
    · exact hs.saved b hb
  · exact hs

theorem WellFormed.restore (hs : s.WellFormed h) (name : String) :
    (s.restore name).WellFormed h := by
  rw [Scope.restore]
  split
  · next v hv =>
    refine WellFormed.putPlain ?_ name (hs.saved _ (Assoc.mem_of_find?_eq_some hv))
    exact { hs with saved := fun b hb => hs.saved b (List.mem_of_mem_filter hb) }
  · exact hs

/-! ### Linked objects -/

theorem WellFormed.link (hs : s.WellFormed h) {objects : List Value}
    (hobjects : ∀ v ∈ objects, v.WellFormed h) : (s.link objects).WellFormed h := by
  refine { hs with vars := fun v hv => ?_ }
  rcases List.mem_append.mp hv with hv | hv
  · exact hobjects v hv
  · exact hs.vars v hv

theorem WellFormed.unlink (hs : s.WellFormed h) (object : Value) (h₀ : Heap) :
    (s.unlink object h₀).WellFormed h :=
  { hs with vars := fun v hv => hs.vars v (List.mem_of_mem_eraseP hv) }

/-- A later heap and a well-formed scope. -/
structure Absorbed (h : Heap) (r : Heap × Scope × Except Error Unit) : Prop where
  /-- The heap is a later one. -/
  grows : h.Grows r.1
  /-- The scope is well-formed. -/
  wellFormed : r.2.1.WellFormed r.1

theorem mergeBinds_absorbed (hh : h.WellFormed) (hs : s.WellFormed h) (hv : v.WellFormed h) :
    Absorbed h (s.mergeBinds v h) := by
  have hr := Value.merge_keeps hh hs.bindsMap hv
  have hs' := hs.mono hr.grows.toExtends
  rw [mergeBinds]
  split
  · next k e binds _ hvalue =>
    have hwf := hr.wellFormed
    have hty := hr.ty_beq
    rw [hvalue] at hwf hty
    obtain ⟨hk, he⟩ := Bool.and_eq_true_iff.mp (Ty.map_beq ▸ hty)
    cases Ty.eq_string_of_beq hk
    cases Ty.eq_any_of_beq he
    exact ⟨hr.grows, { hs' with binds := Value.wellFormed_map.mp hwf }⟩
  · exact ⟨hr.grows, hs'⟩

/-- Taking a value in leaves a well-formed scope. -/
theorem absorb_absorbed (hh : h.WellFormed) (hs : s.WellFormed h) (hv : v.WellFormed h) :
    Absorbed h (s.absorb v h) := by
  rw [absorb]
  split
  · exact ⟨hh.grows, hs⟩
  · split
    · exact mergeBinds_absorbed hh hs hv
    · exact ⟨hh.grows, hs.link fun w hw => List.mem_singleton.mp hw ▸ hv⟩

theorem mem_foldl_put {callers others : List (String × Value)} {b : String × Value}
    (hb : b ∈ others.foldl (fun cs c => Assoc.put c.1 c.2 cs) callers) :
    b ∈ callers ∨ b ∈ others := by
  induction others generalizing callers with
  | nil => exact .inl hb
  | cons c others ih =>
    rcases ih hb with hb | hb
    · rcases Assoc.mem_put hb with rfl | hb
      · exact .inr List.mem_cons_self
      · exact .inl hb
    · exact .inr (List.mem_cons_of_mem _ hb)

theorem WellFormed.linkAll (hs : s.WellFormed h) {objects : List Value}
    (hobjects : ∀ v ∈ objects, v.WellFormed h) :
    (objects.foldl (fun s v => s.link [v]) s).WellFormed h := by
  induction objects generalizing s with
  | nil => exact hs
  | cons v objects ih =>
    refine ih (hs.link fun w hw => ?_) fun w hw => hobjects w (List.mem_cons_of_mem _ hw)
    rw [List.mem_singleton.mp hw]
    exact hobjects v List.mem_cons_self

/-- Taking another scope in leaves a well-formed scope. -/
theorem absorbScope_absorbed {other : Scope} (hh : h.WellFormed) (hs : s.WellFormed h)
    (hother : other.WellFormed h) : Absorbed h (s.absorbScope other h) := by
  have hr := mergeBinds_absorbed hh hs hother.bindsMap
  rw [absorbScope]
  split
  · next hmerge =>
    rw [hmerge] at hr
    exact hr
  · next h' s' hmerge =>
    rw [hmerge] at hr
    have hother' := hother.mono hr.grows.toExtends
    refine ⟨hr.grows, WellFormed.linkAll ?_ hother'.vars⟩
    refine { hr.wellFormed with callers := fun b hb => ?_ }
    rcases mem_foldl_put hb with hb | hb
    · exact hr.wellFormed.callers b hb
    · exact hother'.callers b hb

/-! ### Lookup -/

theorem ownValue?_wellFormed (hh : h.WellFormed) (hs : s.WellFormed h)
    (hv : s.ownValue? name h = some v) : v.WellFormed h := by
  rw [ownValue?] at hv
  split at hv
  · next hfound =>
    cases hv
    exact Value.propById?_wellFormed hh hs.bindsMap hfound
  · obtain ⟨w, hw, hfound⟩ := List.exists_of_findSome?_eq_some hv
    exact Value.propById?_wellFormed hh (hs.vars w hw) hfound

end Scope

/-- The values in a method that was found are well-formed. -/
def FoundMethod.WellFormed : FoundMethod → Heap → Prop
  | .ofRecord _ _ receiver, h => receiver.WellFormed h
  | .held f, h => f.WellFormed h

theorem Scope.ownMethod?_wellFormed {s : Scope} {h : Heap} {name : String} {m : FoundMethod}
    (hh : h.WellFormed) (hs : s.WellFormed h) (hm : s.ownMethod? name h = some m) :
    m.WellFormed h := by
  rw [ownMethod?] at hm
  split at hm
  · next hfound =>
    cases hm
    obtain ⟨w, hw, hfound⟩ := List.exists_of_findSome?_eq_some hfound
    exact Value.methodAt?_wellFormed hh (hs.vars w hw) hfound
  · obtain ⟨f, hf, rfl⟩ := Option.map_eq_some_iff.mp hm
    exact hs.callers _ (Assoc.mem_of_find?_eq_some hf)

end DynamicEval
