import DynamicEval.Proofs.Alike.Document
import DynamicEval.Proofs.Reordered
import DynamicEval.Proofs.WellFormed.Scope

/-!
# Documents come back

A valid document comes back from its value. The value has maps for the objects, and a map keeps its
entries in some order; whichever this is, what comes back has the same members under the same names
at every depth. This needs no more of a value than that no two keys of a map in it are shown under
one name, which is so for values of valid documents.

## Main results

* `Value.Reordered.toDocument`: reordered values are rendered as the same document.
* `Document.Valid.distinctNames`: no two keys in the value of a valid document have one name.
* `Value.toDocument_ofDocument`: a valid document comes back.
-/

namespace DynamicEval

variable {h : Heap}

namespace Value

/-! ### Rendering in every order -/

/-- One step renders reordered values as the same document, whatever is in the cells. -/
theorem Reordered.documentStep {deref : Addr → Document} {v w : Value} (hvw : v.Reordered w)
    (hnames : v.DistinctNames h) : (v.documentStep deref).Same (w.documentStep deref) := by
  induction hvw with
  | atom | pointer => exact .refl _
  | list hlength _ ih =>
    rw [Value.documentStep, Value.documentStep, documentsStep_eq_map, documentsStep_eq_map]
    exact .list_map hlength fun x hx => ih x hx fun k e es hes =>
      hnames k e es (.list (List.of_mem_zip hx).1 hes)
  | array hlength _ ih =>
    rw [Value.documentStep, Value.documentStep, documentsStep_eq_map, documentsStep_eq_map]
    exact .list_map hlength fun x hx => ih x hx fun k e es hes =>
      hnames k e es (.array (List.of_mem_zip hx).1 hes)
  | @map kt et es fs hkeys _ ih =>
    have hnodup := hnames kt et es (.refl _)
    have hnodup' : (fs.map fun entry => entry.1.text).Nodup := by
      have hperm := hkeys.map Key.text
      rw [List.map_map, List.map_map] at hperm
      exact hperm.nodup hnodup
    rw [Value.documentStep, Value.documentStep, entryMembersStep_eq hnodup fun _ _ => rfl,
      entryMembersStep_eq hnodup' fun _ _ => rfl]
    refine .of_find? (Assoc.rel_find? Key.text hkeys (fun x hx y hy hxy => ?_) hnodup)
    exact ih x hx y hy hxy fun k e es hes => hnames k e es (.map hx hes)
  | record hlength _ ih =>
    refine .of_find? (rel_find?_fieldMembersStep hlength (fun x hx hexported => ?_) fun _ => .none)
    exact ih x.2 (List.of_mem_zip hx).2 fun k e es hes =>
      hnames k e es (.record (mem_zip_of_mem_zip_zip hx) hexported hes)
  | slot _ ih => exact ih fun k e es hes => hnames k e es (.slot hes)

/-- Reordered values are rendered as the same document. -/
theorem Reordered.toDocument {v w : Value} (hvw : v.Reordered w) (hnames : v.DistinctNames h) :
    (v.toDocument h).Same (w.toDocument h) := by
  rw [Value.toDocument, Value.toDocument, Heap.follow, Heap.follow]
  cases h.size <;> exact hvw.documentStep hnames

/-! ### Names in the value of a document -/

/-- The maps that are rendered with a slot are rendered with its content. -/
theorem Renders.of_boxed {v : Value} {k e : Ty} {entries : List (Key × Value)}
    (hmap : v.boxed.Renders h (.map k e entries)) : v.Renders h (.map k e entries) := by
  cases v with
  | invalid => cases hmap
  | emptySlot | slot => exact hmap
  | _ =>
    cases hmap with
    | slot hmap => exact hmap

end Value

/-- No two keys of a map in the value of a valid document are shown under one name. -/
theorem Document.Valid.distinctNames {d : Document} (hd : d.Valid) :
    (Value.ofDocument d).DistinctNames h := by
  intro k e entries hmap
  induction hd with
  | null | bool | string | float => cases hmap
  | integer =>
    rw [Value.ofDocument, Value.ofInteger] at hmap
    split at hmap <;> cases hmap
  | list _ ih => 
    rw [Value.ofDocument, Value.ofDocuments_eq_map] at hmap
    cases hmap with
    | list hmem hu =>
      obtain ⟨d, hd, rfl⟩ := List.mem_map.mp hmem
      exact ih d hd (hu.of_boxed)
  | @object members hnodup _ ih =>
    rw [Value.ofDocument, Value.ofMembers_eq hnodup fun _ _ => rfl, List.nil_append] at hmap
    cases hmap with
    | refl => rwa [List.map_map]
    | map hmem hu =>
      obtain ⟨m, hm, rfl⟩ := List.mem_map.mp hmem
      exact ih m hm (hu.of_boxed)

namespace Value

/-! ### Documents come back -/

/-- **Documents come back.** A valid document comes back from its value on every heap. In whichever
order the maps of this value keep their entries, what comes back is the same up to the order of
members. -/
theorem toDocument_ofDocument {d : Document} (hd : d.Valid) (h : Heap) :
    (ofDocument d).toDocument h = d ∧
      ∀ w, (ofDocument d).Reordered w → d.Same (w.toDocument h) := by
  have hback : (ofDocument d).toDocument h = d :=
    Heap.follow_eq_of_step fun _ => documentStep_ofDocument hd
  refine ⟨hback, fun w hw => ?_⟩
  have hsame : ((ofDocument d).toDocument h).Same (w.toDocument h) :=
    hw.toDocument hd.distinctNames
  rwa [hback] at hsame

/-- Null, an integer beyond the signed ones, an integral float and empty containers come back, also
where the map has its entries in the other order. -/
theorem toDocument_ofDocument_nested :
    let items : List Document :=
      [.null, .integer 9223372036854775808, .float ⟨0x3ff0000000000000⟩, .list [], .object []]
    let d : Document := .object [("", .list items), ("a.b", .null)]
    let w : Value := map .string .any (ofMembers [("a.b", .null), ("", .list items)] [])
    d.Valid ∧ (ofDocument d).toDocument .empty = d ∧ (ofDocument d).Reordered w ∧
      d.Same (w.toDocument .empty) := by
  intro items d w
  have hitems : ∀ d ∈ items, d.Valid := by
    simp only [items, List.forall_mem_cons]
    exact ⟨.null, .integer (by decide) (by decide), .float (by decide),
      .list (List.forall_mem_nil _), .object List.nodup_nil (List.forall_mem_nil _),
      List.forall_mem_nil _⟩
  have hd : d.Valid := by
    refine .object (by decide) ?_
    simp only [List.forall_mem_cons]
    exact ⟨.list hitems, .null, List.forall_mem_nil _⟩
  have hw : (ofDocument d).Reordered w :=
    .of_perm (ofDocument_wellFormed (h := .empty) d) (.swap ..)
  obtain ⟨hback, hsame⟩ := toDocument_ofDocument hd .empty
  exact ⟨hd, hback, hw, hsame w hw⟩

end Value

end DynamicEval
