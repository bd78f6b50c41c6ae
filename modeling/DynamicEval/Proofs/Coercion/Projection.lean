import DynamicEval.Proofs.Coercion
import DynamicEval.Proofs.WellFormed.Path
import DynamicEval.Proofs.WellFormed.Scope

/-!
# Coercion is a projection

What came out of a coercion is coerced into itself, and so is every value that a destination of the
type may hold: nothing is converted a second time, and no new cell is made for a pointer that has
one. So parts of a value can be stored once more without a change.

Nothing is the one value that coercion rebuilds. A pointer to nothing is given the declared type of
its destination, which is its own one where record types that are equal are one declaration.

## Main definitions

* `Ty.recordTypes`, `Ty.SharesDeclarations`: the record types that a type is made of, and types in
  which equal record types are one declaration.
* `Value.TakesBack`: a value whose parts are stored once more without a change.

## Main results

* `Ty.coerce_of_fits`: a value that fits a type is coerced into itself.
* `Ty.coerce_coerce`: coercion of what was coerced changes nothing.
* `Value.WellFormed.takesBack`: parts are stored once more without a change.
* `Ty.coerce_projection`: all of this.
-/

namespace DynamicEval

/-! ### Declarations of record types -/

namespace Ty

/-- The record types that a type is made of. -/
def recordTypes : Ty → List RecordType
  | list e | array e _ | pointer e => e.recordTypes
  | map k e => k.recordTypes ++ e.recordTypes
  | record r => [r]
  | _ => []

/-- Record types of `t` and of `u` that are equal are one declaration, with the same methods. -/
def SharesDeclarations (t u : Ty) : Prop :=
  ∀ r ∈ t.recordTypes, ∀ s ∈ u.recordTypes, (record r == record s) = true → r = s

/-- Equal types are the same where equal record types are one declaration. -/
theorem eq_of_beq {t u : Ty} (hdecl : t.SharesDeclarations u) (h : (t == u) = true) : t = u := by
  match t, u with
  | list e, list e' => exact congrArg list (eq_of_beq (t := e) (u := e') hdecl h)
  | pointer e, pointer e' => exact congrArg pointer (eq_of_beq (t := e) (u := e') hdecl h)
  | array e n, array e' n' =>
    obtain ⟨hsize, he⟩ := Bool.and_eq_true_iff.mp h
    rw [of_decide_eq_true hsize, eq_of_beq (t := e) (u := e') hdecl he]
  | map k e, map k' e' =>
    obtain ⟨hk, he⟩ := Bool.and_eq_true_iff.mp (map_beq ▸ h)
    rw [eq_of_beq (t := k) (u := k') (fun r hr s hs =>
        hdecl r (List.mem_append_left _ hr) s (List.mem_append_left _ hs)) hk,
      eq_of_beq (t := e) (u := e') (fun r hr s hs =>
        hdecl r (List.mem_append_right _ hr) s (List.mem_append_right _ hs)) he]
  | record r, record s => rw [hdecl r (List.mem_singleton_self r) s (List.mem_singleton_self s) h]
  | invalid, u | bool, u | int _, u | uint _, u | float _, u | string, u | func, u | any, u =>
    cases u <;> simp_all [beq_iff, core]

end Ty

/-! ### Coercion of what fits -/

section

variable {h h' : Heap} {t : Ty} {u v w : Value}

/-- A value that fits a type is coerced into itself, unless it is a pointer to nothing of another
declared type. -/
theorem Ty.coerce_of_fits (hu : u.Fits t h)
    (hnil : ∀ e e', t = .pointer e → u = .pointer e' none → e = e') :
    (t.coerce u).run h = .ok (u, h) := by
  by_cases hempty : u.isNil = true
  · have haccepts := hu.accepts
    cases u with
    | invalid =>
      cases t with
      | invalid | func => rfl
      | _ => cases haccepts
    | emptySlot =>
      cases t with
      | invalid | any => rfl
      | func => rcases haccepts with hty | hty <;> cases hty
      | _ => cases haccepts
    | pointer e' cell =>
      cases cell with
      | some a => cases hempty
      | none =>
        cases t with
        | invalid => rfl
        | pointer e =>
          cases hnil e e' rfl rfl
          rfl
        | func => rcases haccepts with hty | hty <;> cases hty
        | _ => cases haccepts
    | _ => cases hempty
  · refine Ty.coerce_self hu.accepts (by simpa using hempty) fun hty => ?_
    cases u with
    | slot x =>
      obtain ⟨hfilled, hsingle, -⟩ := Value.wellFormed_slot.mp hu.wellFormed
      exact ⟨hfilled, hsingle⟩
    | emptySlot => exact absurd rfl hempty
    | _ => cases hty

/-- Where equal record types are one declaration, a value that fits a type is coerced into
itself. -/
theorem Ty.coerce_of_sharesDeclarations (hu : u.Fits t h) (hdecl : t.SharesDeclarations u.ty) :
    (t.coerce u).run h = .ok (u, h) := by
  refine Ty.coerce_of_fits hu ?_
  rintro e e' rfl rfl
  exact Ty.eq_of_beq hdecl (BEq.symm hu.accepts)

/-- A pointer to nothing that came out of a coercion has the type that was asked for. -/
theorem Ty.eq_of_coerce_eq_nil {e e' : Ty}
    (hrun : ((Ty.pointer e).coerce v).run h = .ok (.pointer e' none, h')) : e = e' := by
  have hnew (x : Value) :
      (e.coerce x >>= Ty.coerce.newCell e).run h ≠ .ok (.pointer e' none, h') := by
    intro hrun
    obtain ⟨y, h₁, -, hcell⟩ := HeapM.run_bind_eq_ok.mp hrun
    cases hcell
  rw [Ty.coerce] at hrun
  split at hrun
  · cases hrun
    rfl
  · cases hrun
    rfl
  · cases hrun
    rfl
  · split at hrun
    · cases hrun
    · exact absurd hrun (hnew _)
  · exact absurd hrun (hnew _)

/-- What came out of a coercion is coerced into itself. -/
theorem Ty.coerce_coerce (hh : h.WellFormed) (hv : v.WellFormed h)
    (hrun : (t.coerce v).run h = .ok (w, h')) : (t.coerce w).run h' = .ok (w, h') := by
  refine Ty.coerce_of_fits (t.coerce_keeps hh hv w h' hrun).2 ?_
  rintro e e' rfl rfl
  exact Ty.eq_of_coerce_eq_nil hrun

end

/-! ### Parts that are stored once more -/

/-- The parts of a value are stored once more without a change and without a new cell: the items of
a list, an entry of a map under its key, and a field of a record. -/
structure Value.TakesBack (v : Value) (h : Heap) : Prop where
  /-- A list of the same items is the same list. -/
  items : ∀ {e : Ty} {items : List Value}, v.items? = some items → v.ty.elem? = some e →
    (∀ w ∈ items, e.SharesDeclarations w.ty) →
    (Value.coerceItems e.coerce items).run h = .ok (items, h)
  /-- An entry is found at the place of its key, and stays as it is. -/
  entry : ∀ {k e : Ty} {entries : List (Key × Value)} {entry : Key × Value},
    v = .map k e entries → entry ∈ entries → e.SharesDeclarations entry.2.ty →
    v.insert entry.1.value entry.2 h = ⟨h, v, .ok ()⟩
  /-- A field is found by its name, and stays as it is. -/
  field : ∀ {r : RecordType} {fields : List Value} {name : String} {f : Field} {w : Value},
    v = .record r fields → r.field? name = some f → v.getField? name = some w →
    f.ty.SharesDeclarations w.ty → v.setField name w h = ⟨h, v, .ok ()⟩

/-- Storing an entry that is there changes nothing. -/
theorem Entries.put_of_mem {α : Type} {key : Key} {a : α} {es : List (Key × α)}
    (hnodup : (es.map fun entry => entry.1.bare).Nodup) (hmem : (key, a) ∈ es) :
    put key a es = es := by
  induction es with
  | nil => cases hmem
  | cons entry es ih =>
    obtain ⟨j, b⟩ := entry
    obtain ⟨hj, hnodup⟩ := List.nodup_cons.mp hnodup
    rcases List.mem_cons.mp hmem with heq | hmem
    · cases heq
      rw [put, if_pos rfl]
    · have hne : j.bare ≠ key.bare := fun heq => hj (List.mem_map.mpr ⟨_, hmem, heq.symm⟩)
      rw [put, if_neg hne, ih hnodup hmem]

namespace Value

variable {h : Heap} {v x segment : Value} {t : Ty} {path : List Value}

/-- The parts of a well-formed value are stored once more without a change. -/
theorem WellFormed.takesBack (hv : v.WellFormed h) : v.TakesBack h where
  items := by
    intro e items hitems he hdecl
    have hfits : ∀ w ∈ items, w.Fits e h := by
      cases v with
      | list e' vs =>
        cases hitems
        cases he
        exact wellFormed_list.mp hv
      | array e' vs =>
        cases hitems
        cases he
        exact wellFormed_array.mp hv
      | _ => cases hitems
    clear hitems
    induction items with
    | nil => rfl
    | cons w ws ih =>
      obtain ⟨hw, hws⟩ := List.forall_mem_cons.mp hfits
      obtain ⟨hdeclw, hdeclws⟩ := List.forall_mem_cons.mp hdecl
      have hfirst := Ty.coerce_of_sharesDeclarations hw hdeclw
      rw [coerceItems]
      exact HeapM.run_bind_eq_ok.mpr
        ⟨w, h, hfirst, HeapM.run_bind_eq_ok.mpr ⟨ws, h, ih hdeclws hws, rfl⟩⟩
  entry := by
    rintro k e entries ⟨key, w⟩ rfl hentry hdecl
    have hentries := wellFormed_map.mp hv
    have hkey := Key.coerceWith_value (h := h) (hentries.keyTypes _ hentry)
    have hw := Ty.coerce_of_sharesDeclarations (hentries.values _ hentry) hdecl
    have hinsert : (Entries.insert k e entries key.value w).run h = .ok (entries, h) := by
      refine HeapM.run_bind_eq_ok.mpr ⟨key, h, hkey, HeapM.run_bind_eq_ok.mpr ⟨w, h, hw, ?_⟩⟩
      rw [Entries.put_of_mem hentries.places hentry]
      rfl
    have hmap : (return Value.map k e (← Entries.insert k e entries key.value w) :
        HeapM Value).run h = .ok (Value.map k e entries, h) :=
      HeapM.run_bind_eq_ok.mpr ⟨entries, h, hinsert, rfl⟩
    rw [insert, Edit.replace, hmap]
  field := by
    rintro r fields name f w rfl hf hw hdecl
    obtain ⟨i, hi, hw⟩ := Option.bind_eq_some_iff.mp hw
    have hfits := forall₂_getElem? (wellFormed_record.mp hv) (r.getElem?_of_fieldIndex? hf hi) hw
    have hcoerce := Ty.coerce_of_sharesDeclarations hfits hdecl
    have hset : fields.set i w = fields := by
      obtain ⟨hlt, rfl⟩ := List.getElem?_eq_some_iff.mp hw
      exact List.set_getElem_self hlt
    have hrecord : (return Value.record r (fields.set i (← f.ty.coerce w)) : HeapM Value).run h =
        .ok (Value.record r fields, h) := by
      refine HeapM.run_bind_eq_ok.mpr ⟨w, h, hcoerce, ?_⟩
      rw [hset]
      rfl
    rw [setField, hf, hi]
    dsimp only
    rw [Edit.replace, hrecord]

/-- A pointer to a cell stays one when something is written below it. -/
theorem setIn_pointer (segment : Value) (path : List Value) (t e : Ty) (a : Addr) (h : Heap) :
    (setIn x (segment :: path) t (.pointer e (some a)) h).value = .pointer e (some a) := by
  rw [setIn_cons (by simp), change]
  cases h.size <;> rfl

/-- The value that a write made for a missing key is stored as the write left it. -/
theorem coerce_vivified (hh : h.WellFormed) (hx : x.WellFormed h)
    (hpath : ∀ key ∈ segment :: path, key.WellFormed h) {made : Edit Bool}
    (hmade : made = setIn x (segment :: path) t (t.vivify segment h).1 (t.vivify segment h).2) :
    (t.coerce made.value).run made.heap = .ok (made.value, made.heap) := by
  obtain ⟨hgrows, hnew⟩ := t.vivify_fits hh segment
  have hfits := setIn_fits hgrows.wellFormed hnew (hx.mono hgrows.toExtends)
    fun key hkey => (hpath key hkey).mono hgrows.toExtends
  rw [← hmade] at hfits
  refine Ty.coerce_of_fits hfits.value_fits ?_
  rintro e e' rfl hvalue
  rw [hmade] at hvalue
  nomatch (setIn_pointer segment path _ e h.size _).symm.trans hvalue

end Value

/-! ### The main result -/

/-- **Coercion is a projection.** What came out of a coercion is coerced into itself. A value that a
destination of the type may hold is coerced into itself where equal record types are one
declaration. So stored items, entries and fields are stored once more without a change, and so is
what a write made for a missing key. -/
theorem Ty.coerce_projection {h : Heap} (hh : h.WellFormed) (t : Ty) {v : Value}
    (hv : v.WellFormed h) :
    (∀ w h', (t.coerce v).run h = .ok (w, h') → (t.coerce w).run h' = .ok (w, h')) ∧
      (t.Accepts v.ty → t.SharesDeclarations v.ty → (t.coerce v).run h = .ok (v, h)) ∧
      v.TakesBack h ∧
      ∀ segment path, (∀ key ∈ segment :: path, key.WellFormed h) →
        ∀ made, made = Value.setIn v (segment :: path) t (t.vivify segment h).1
            (t.vivify segment h).2 →
          (t.coerce made.value).run made.heap = .ok (made.value, made.heap) :=
  ⟨fun _ _ hrun => Ty.coerce_coerce hh hv hrun,
    fun haccepts hdecl => Ty.coerce_of_sharesDeclarations ⟨hv, haccepts⟩ hdecl, hv.takesBack,
    fun _ _ hpath _ hmade => Value.coerce_vivified hh hv hpath hmade⟩

/-- A map of texts stays as it is as one of texts. It becomes one of pointers to numbers with a cell
for each; coerced again, that is the same map with the same cells. -/
theorem Ty.coerce_projection_cells :
    let t := Ty.map .string (.pointer (.int .word))
    let v := Value.map .string .string [(.string "a", .string "7"), (.string "b", .string "0x10")]
    let w := Value.map .string (.pointer (.int .word))
      [(.string "a", .pointer (.int .word) (some 0)), (.string "b", .pointer (.int .word) (some 1))]
    (v.ty.coerce v).run .empty = .ok (v, .empty) ∧
      (t.coerce v).run .empty = .ok (w, ⟨#[.int .word 7, .int .word 16]⟩) ∧
      (t.coerce w).run ⟨#[.int .word 7, .int .word 16]⟩ =
        .ok (w, ⟨#[.int .word 7, .int .word 16]⟩) := by
  intro t v w
  have hfits (text : String) : (Value.string text).Fits .string .empty :=
    ⟨.string text, Ty.accepts_self _⟩
  have hv : v.WellFormed .empty :=
    Value.wellFormed_map.mpr ((Entries.WellFormed.nil.put (Ty.acceptsKey_string "a") (.string "a")
      (hfits "7")).put (Ty.acceptsKey_string "b") (.string "b") (hfits "0x10"))
  have hrun : (t.coerce v).run .empty = .ok (w, ⟨#[.int .word 7, .int .word 16]⟩) := by
    rfl
  exact ⟨(Ty.coerce_projection Heap.empty_wellFormed _ hv).2.1 (Ty.accepts_self _) nofun, hrun,
    (Ty.coerce_projection Heap.empty_wellFormed t hv).1 _ _ hrun⟩

end DynamicEval
