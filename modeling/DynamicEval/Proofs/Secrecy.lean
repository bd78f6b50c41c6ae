import DynamicEval.Proofs.Alike.Copy
import DynamicEval.Proofs.Alike.Document
import DynamicEval.Proofs.Alike.Redaction

/-!
# Fields that are not exported do not show

Two values that are the same to the public cannot be told apart by reading along paths, by listing
their parts, by their documents or by their deep copies: whatever is reached in one of them is
reached in the other and is the same to the public again, and documents and copies are the same.

## Main definitions

* `Value.Indistinguishable`: values that give the same wherever they are read from outside.

## Main results

* `Value.PublicEq.indistinguishable`: values that are the same to the public are indistinguishable.
-/

namespace DynamicEval

/-- What is read of two values from outside does not tell them apart. The segments of a path are
values themselves: they have the same cells behind them on both heaps. -/
structure Value.Indistinguishable (cells : Addr → Addr → Prop) (h h' : Heap) (v w : Value) :
    Prop where
  /-- A path leads nowhere in both or to slots that are the same to the public. -/
  fieldAt? (path : List Value) (hpath : ∀ key ∈ path, h.Shares h' key) :
    Option.Rel (PublicEq cells h h') (v.fieldAt? path h) (w.fieldAt? path h')
  /-- A path leads nowhere in both or to values that are the same to the public. -/
  propAt? (path : List Value) (hpath : ∀ key ∈ path, h.Shares h' key) :
    Option.Rel (PublicEq cells h h') (v.propAt? path h) (w.propAt? path h')
  /-- An identifier names nothing in both or values that are the same to the public. -/
  propById? (ident : String) :
    Option.Rel (PublicEq cells h h') (v.propById? ident h) (w.propById? ident h')
  /-- The parts are listed under the same keys and are the same to the public. -/
  pairs : List.Forall₂ (fun x y => x.1 = y.1 ∧ x.2.PublicEq cells h h' y.2) (v.pairs h) (w.pairs h')
  /-- The documents are the same. -/
  toDocument (hnames : v.DistinctNames h) : (v.toDocument h).Same (w.toDocument h')
  /-- The deep copies are the same, with new cells that stand for each other one-to-one. -/
  deepCopy : ∃ new, Pairing new h.size (v.deepCopy h).1.size h'.size (w.deepCopy h').1.size ∧
    (v.deepCopy h).2.Same new (v.deepCopy h).1 (w.deepCopy h').1 (w.deepCopy h').2

namespace Value

variable {cells : Addr → Addr → Prop} {h h' : Heap} {v w : Value}

/-- Values that are the same to the public are indistinguishable. -/
theorem PublicEq.indistinguishable (hh : h.Orderly) (hh' : h'.Orderly) (hv : v.WellFormed h)
    (hw : w.WellFormed h') (hvw : v.PublicEq cells h h' w) : v.Indistinguishable cells h h' w := by
  have hvw := (publicEq_iff_alike hh.wellFormed hh'.wellFormed hv hw).mp hvw
  have hpublic {a b : Option Value} (hab : Option.Rel (Alike (·.exported) cells h h') a b) :
      Option.Rel (PublicEq cells h h') a b := by
    cases hab with
    | none => exact .none
    | some hab => exact .some hab.publicEq
  exact {
    fieldAt? path hpath := hpublic (hvw.fieldAt? (fun _ => id) hh hh' hv hw hpath)
    propAt? path hpath := hpublic (hvw.propAt? (fun _ => id) hh hh' hv hw hpath)
    propById? ident := hpublic (hvw.propById? (fun _ => id) hh hh' hv hw ident)
    pairs := (hvw.pairs (fun _ => id) hh hh' hv hw).imp fun _ _ hxy => ⟨hxy.1, hxy.2.publicEq⟩
    toDocument := hvw.toDocument (fun _ => id) hh hh' hv.bounded hw.bounded
    deepCopy := hvw.deepCopy hh hh' hv hw }

/-- Two accounts of one name with different codes that are not exported, behind pointers to cells of
two heaps. -/
theorem PublicEq.indistinguishable_code :
    let r : RecordType := ⟨"Account", [⟨"Name", .string, true⟩, ⟨"code", .int .word, false⟩], []⟩
    let h : Heap := ⟨#[record r [string "a", int .word 1]]⟩
    let h' : Heap := ⟨#[bool true, record r [string "a", int .word 2]]⟩
    let v := slot (pointer (.record r) (some 0))
    let w := slot (pointer (.record r) (some 1))
    h.Orderly ∧ h'.Orderly ∧ v.WellFormed h ∧ w.WellFormed h' ∧
      v.PublicEq (fun a b => a + 1 = b) h h' w ∧
        v.Indistinguishable (fun a b => a + 1 = b) h h' w := by
  intro r h h' v w
  have haccount (n : Int64) (k : Heap) : (record r [string "a", int .word n]).WellFormed k := by
    refine wellFormed_record.mpr (.cons ⟨.string _, Ty.accepts_self _⟩ ?_)
    exact .cons ⟨.int rfl, Ty.accepts_self _⟩ .nil
  have hpoints (n : Int64) (a : Addr) : ¬(record r [string "a", int .word n]).Points a := by
    rintro (_ | _ | _ | _ | _ | ⟨hmem, hp⟩)
    rcases List.mem_pair.mp hmem with rfl | rfl <;> cases hp
  have hh : h.Orderly := by
    refine ⟨fun a ha => ?_, fun a hr => ?_⟩
    · match a, ha with
      | 0, _ => exact haccount 1 h
    · match a with
      | 0 => rcases hr with hp | ⟨hp, -⟩ <;> exact hpoints 1 _ hp
      | _ + 1 => exact Heap.not_reaches_invalid hr
  have hh' : h'.Orderly := by
    refine ⟨fun a ha => ?_, fun a hr => ?_⟩
    · match a, ha with
      | 0, _ => exact .bool true
      | 1, _ => exact haccount 2 h'
    · match a with
      | 0 => rcases hr with hp | ⟨hp, -⟩ <;> cases hp
      | 1 => rcases hr with hp | ⟨hp, -⟩ <;> exact hpoints 2 _ hp
      | _ + 2 => exact Heap.not_reaches_invalid hr
  have hv : v.WellFormed h := .slot nofun nofun (.pointer (by decide) (Ty.accepts_self _))
  have hw : w.WellFormed h' := .slot nofun nofun (.pointer (by decide) (Ty.accepts_self _))
  have haccounts : (record r [string "a", int .word 1]).Alike (·.exported) (fun a b => a + 1 = b)
      h h' (record r [string "a", int .word 2]) := by
    refine .record rfl (List.forall_mem_cons.mpr ⟨fun _ => .atom rfl, ?_⟩)
    exact List.forall_mem_singleton.mpr nofun
  have hvw : v.PublicEq (fun a b => a + 1 = b) h h' w :=
    Alike.publicEq (.slot (.pointer rfl haccounts))
  exact ⟨hh, hh', hv, hw, hvw, hvw.indistinguishable hh hh' hv hw⟩

end Value

end DynamicEval
