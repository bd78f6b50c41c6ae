import DynamicEval.Json.Document
import DynamicEval.Proofs.Assoc
import DynamicEval.Proofs.Path.Slot

/-!
# The values of documents

The value of a document is rendered as that document: slots are rendered by their content, an
integer has its value at the width and the sign that hold it, and the members of an object become
the entries of a map and members again, in the order in which the map was filled.

## Main definitions

* `Document.Valid`: a document whose numbers 64 bits hold and in whose objects no name stands twice.

## Main results

* `Value.documentStep_boxed`: a slot is rendered as its content.
* `Value.ofMembers_eq`, `Value.entryMembersStep_eq`: members and entries of different names are as
  many entries and members.
* `Value.documentStep_ofDocument`: the value of a valid document is rendered as that document.
-/

namespace DynamicEval

/-- A document whose numbers 64 bits hold and in whose objects no name stands twice. -/
inductive Document.Valid : Document → Prop where
  | null : Valid .null
  | bool (b : Bool) : Valid (.bool b)
  | integer {n : Int} (hlow : Int64.minValue.toInt ≤ n) (hhigh : n < UInt64.size) :
      Valid (.integer n)
  | float {x : Binary64} (hx : x.isFinite = true) : Valid (.float x)
  | string (s : String) : Valid (.string s)
  | list {items : List Document} (hitems : ∀ d ∈ items, Valid d) : Valid (.list items)
  | object {members : List (String × Document)} (hnodup : (members.map Prod.fst).Nodup)
      (hmembers : ∀ m ∈ members, Valid m.2) : Valid (.object members)

namespace Value

variable {deref : Addr → Document}

/-- A slot is rendered as its content. -/
@[simp]
theorem documentStep_boxed (v : Value) : v.boxed.documentStep deref = v.documentStep deref := by
  cases v <;> rfl

/-- Whatever its sign, an integer of 64 bits is rendered as it is. -/
theorem documentStep_ofInteger {n : Int} (hlow : Int64.minValue.toInt ≤ n)
    (hhigh : n < UInt64.size) : (ofInteger n).documentStep deref = .integer n := by
  have hmax : Int64.maxValue.toInt = 9223372036854775807 := by decide
  rw [ofInteger]
  split
  · next hle =>
    have hlt : n < Int64.maxValue.toInt + 1 := Int.lt_add_one_of_le hle
    rw [documentStep, Int64.toInt_ofInt_of_le hlow hlt]
  · next hgt =>
    have hnonneg : 0 ≤ n := by omega
    have hsize : n.toNat < UInt64.size := (Int.toNat_lt hnonneg).mpr hhigh
    rw [documentStep, UInt64.toNat_ofNat_of_lt' hsize, Int.toNat_of_nonneg hnonneg]

/-- Members of different names become as many entries. -/
theorem ofMembers_eq {ms : List (String × Document)} {entries : List (Key × Value)}
    (hnodup : (ms.map Prod.fst).Nodup)
    (hnew : ∀ m ∈ ms, Entries.find? (.string m.1) entries = none) :
    ofMembers ms entries =
      entries ++ ms.map fun m => (.string m.1, (ofDocument m.2).boxed) := by
  induction ms generalizing entries with
  | nil => rw [ofMembers, List.map_nil, List.append_nil]
  | cons m ms ih =>
    obtain ⟨name, d⟩ := m
    obtain ⟨hname, hnodup⟩ := List.nodup_cons.mp hnodup
    have hput := Entries.put_of_find?_eq_none (k := .string name) (a := (ofDocument d).boxed)
      (hnew (name, d) List.mem_cons_self)
    rw [ofMembers, ih hnodup, hput, List.append_assoc, List.map_cons, List.singleton_append]
    intro m hm
    rw [Entries.find?_put_of_ne]
    · exact hnew m (List.mem_cons_of_mem _ hm)
    · intro heq
      exact hname (List.mem_map.mpr ⟨m, hm, BareKey.string.inj heq⟩)

/-- Entries that are shown under different names become as many members. -/
theorem entryMembersStep_eq {es : List (Key × Value)} {members : List (String × Document)}
    (hnodup : (es.map fun e => e.1.text).Nodup)
    (hnew : ∀ e ∈ es, Assoc.find? e.1.text members = none) :
    entryMembersStep deref es members =
      members ++ es.map fun e => (e.1.text, e.2.documentStep deref) := by
  induction es generalizing members with
  | nil => rw [entryMembersStep, List.map_nil, List.append_nil]
  | cons e es ih =>
    obtain ⟨k, v⟩ := e
    obtain ⟨hname, hnodup⟩ := List.nodup_cons.mp hnodup
    have hput := Assoc.put_of_find?_eq_none (hnew (k, v) List.mem_cons_self)
      (v.documentStep deref)
    rw [entryMembersStep, ih hnodup, hput, List.append_assoc, List.map_cons, List.singleton_append]
    intro e he
    rw [Assoc.find?_put, if_neg]
    · exact hnew e (List.mem_cons_of_mem _ he)
    · intro heq
      exact hname (List.mem_map.mpr ⟨e, he, heq⟩)

theorem ofDocuments_eq_map (ds : List Document) :
    ofDocuments ds = ds.map fun d => (ofDocument d).boxed := by
  induction ds with
  | nil => rfl
  | cons d ds ih => rw [ofDocuments, ih, List.map_cons]

theorem documentsStep_ofDocuments {ds : List Document}
    (hds : ∀ d ∈ ds, (ofDocument d).documentStep deref = d) :
    documentsStep deref (ofDocuments ds) = ds := by
  induction ds with
  | nil => rfl
  | cons d ds ih =>
    obtain ⟨hd, hds⟩ := List.forall_mem_cons.mp hds
    rw [ofDocuments, documentsStep, documentStep_boxed, hd, ih hds]

theorem entryMembersStep_ofMembers {ms : List (String × Document)}
    (hnodup : (ms.map Prod.fst).Nodup)
    (hms : ∀ m ∈ ms, (ofDocument m.2).documentStep deref = m.2) :
    entryMembersStep deref (ofMembers ms []) [] = ms := by
  rw [ofMembers_eq hnodup fun _ _ => rfl, List.nil_append, entryMembersStep_eq _ fun _ _ => rfl]
  · rw [List.nil_append, List.map_map]
    refine (List.map_congr_left fun m hm => ?_).trans (List.map_id ms)
    exact Prod.ext rfl ((documentStep_boxed _).trans (hms m hm))
  · rwa [List.map_map]

/-- The value of a valid document is rendered as that document. No cell is read for it. -/
theorem documentStep_ofDocument {d : Document} (hd : d.Valid) :
    (ofDocument d).documentStep deref = d := by
  induction hd with
  | null | bool b | string s => rfl
  | integer hlow hhigh => exact documentStep_ofInteger hlow hhigh
  | float hx => exact if_pos hx
  | list _ ih => exact congrArg Document.list (documentsStep_ofDocuments ih)
  | object hnodup _ ih => exact congrArg Document.object (entryMembersStep_ofMembers hnodup ih)

end Value

end DynamicEval
