import DynamicEval.Proofs.Reordered.Coercion
import DynamicEval.Proofs.Reordered.Merge

/-!
# The order of entries cannot be observed

What is computed from values does not depend on the order in which the maps in them keep their
entries, as long as no two entries meet in one place. Entries meet where a merge changes a cell that
two of them point to, and where the keys of a map become one in another type. Then the later entry
counts, so that the order shows.

## Main results

* `Value.reordered_unobservable`: reordered values are shown, compared, copied, merged and coerced
  alike.
* `Value.reordered_observed`: the order shows where entries meet.
-/

namespace DynamicEval

namespace Value

variable {h h' : Heap} {v v' w w' : Value}

/-- A map with two keys. -/
def labels (x y : Value) : Value :=
  map .string .any [(.string "x", x.boxed), (.string "y", y.boxed)]

/-- A map with two keys, the other one first. -/
def labelsBack (x y : Value) : Value :=
  map .string .any [(.string "y", y.boxed), (.string "x", x.boxed)]

theorem Reordered.labels (hvv : v.Reordered v') (hww : w.Reordered w') :
    (labels v w).Reordered (labels v' w') := by
  have hxy : Key.string "x" ≠ .string "y" := by decide
  refine .map (.refl _) (List.forall_mem_cons.mpr ⟨?_, List.forall_mem_singleton.mpr ?_⟩)
  · exact List.forall_mem_cons.mpr
      ⟨fun _ => hvv.boxed, List.forall_mem_singleton.mpr fun heq => absurd heq hxy⟩
  · exact List.forall_mem_cons.mpr
      ⟨fun heq => absurd heq hxy.symm, List.forall_mem_singleton.mpr fun _ => hww.boxed⟩

theorem labels_wellFormed (hv : v.WellFormed h) (hw : w.WellFormed h) :
    (labels v w).WellFormed h :=
  wellFormed_map.mpr ((Entries.WellFormed.nil.putText "x" hv).putText "y" hw)

theorem labels_reordered (hv : v.WellFormed h) (hw : w.WellFormed h) :
    (labels v w).Reordered (labelsBack v w) :=
  .of_perm (labels_wellFormed hv hw) (.swap ..)

/-- **The order of entries cannot be observed.** Values that are the same but for the order of the
entries of maps in them and in their cells have the same text, are equal to the same values and
compare with them alike, and are both zero or not. If no cell behind them is behind itself, their
deep copies are the same up to the order of entries and the identity of new cells. Merges of values
of one type that point to no cells succeed and leave values that are the same but for the order. A
map of which every key and every value is coerced becomes a map of another type with the same
contents, up to the identity of new cells, if neither its keys nor those of a map that is coerced as
a part of it become one. -/
theorem reordered_unobservable (hh : h.Reordered h') (hwf : h.WellFormed) (hvv : v.Reordered v')
    (hww : w.Reordered w') (hv : v.WellFormed h) (hw : w.WellFormed h) :
    v.text h = v'.text h' ∧
    v.eq w h = v'.eq w' h' ∧
    v.compare? w h = v'.compare? w' h' ∧
    v.isZero = v'.isZero ∧
    (h.AcyclicBehind v →
      ∃ cells, Pairing cells h.size (v.deepCopy h).1.size h'.size (v'.deepCopy h').1.size ∧
        (v.deepCopy h).2.Same cells (v.deepCopy h).1 (v'.deepCopy h').1 (v'.deepCopy h').2) ∧
    (v.CellFree → w.CellFree → (v.peel.ty == w.peel.ty) = true →
      ∃ u u', v.merge w h = ⟨h, u, .ok ()⟩ ∧ v'.merge w' h' = ⟨h', u', .ok ()⟩ ∧
        u.Reordered u') ∧
    ∀ k e es, h.AcyclicBehind v → (v.base h).entries? = some es → (Ty.map k e).KeepsApart h v →
      (∀ x ∈ es, ∃ r, (Key.coerceWith k.coerce x.1.value).run h = .ok r) →
      (∀ x ∈ es, ∃ r, (e.coerce x.2).run h = .ok r) →
      ∃ u l u' l' new, ((Ty.map k e).coerce v).run h = .ok (u, l) ∧
        ((Ty.map k e).coerce v').run h' = .ok (u', l') ∧
        Pairing new h.size l.size h'.size l'.size ∧ u.Same (h.WithNew new) l l' u' :=
  ⟨hvv.text_eq hh hwf hv, hvv.eq_eq hh hwf hww hv hw, hvv.compare?_eq hh hwf hww hv hw,
    hvv.isZero_eq, hvv.deepCopy hh hwf hv,
    fun hvfree hwfree hty => hvv.merge hh hv hvfree hww hw hwfree hty,
    fun _ _ _ hacyclic hes hapart hkeys hvalues =>
      Ty.coerce_map_givesSame hh hwf ⟨hvv, hv, hacyclic⟩ hes hapart hkeys hvalues h h' (.refl h)
        (.refl h')⟩

/-- Maps with a number and a text are shown, merged and coerced alike. -/
theorem reordered_unobservable_labels :
    (labels (int .word 1) (string "b")).text .empty =
      (labelsBack (int .word 1) (string "b")).text .empty ∧
    (∃ u u',
      (labels (int .word 1) (string "b")).merge (labels (int .word 2) (string "")) .empty =
        ⟨.empty, u, .ok ()⟩ ∧
      (labelsBack (int .word 1) (string "b")).merge (labelsBack (int .word 2) (string "")) .empty =
        ⟨.empty, u', .ok ()⟩ ∧ u.Reordered u') ∧
    ∃ u l u' l' new,
      ((Ty.map .string .string).coerce (labels (int .word 1) (string "b"))).run .empty =
        .ok (u, l) ∧
      ((Ty.map .string .string).coerce (labelsBack (int .word 1) (string "b"))).run .empty =
        .ok (u', l') ∧
      Pairing new 0 l.size 0 l'.size ∧ u.Same (Heap.empty.WithNew new) l l' u' := by
  have hone : (int .word 1).WellFormed .empty := .int rfl
  have htwo : (int .word 2).WellFormed .empty := .int rfl
  have hv := labels_wellFormed hone (.string "b")
  have hw := labels_wellFormed htwo (.string "")
  have hempty : Heap.empty.Reordered .empty := ⟨rfl, nofun⟩
  obtain ⟨htext, -, -, -, -, hmerge, hcoerce⟩ := reordered_unobservable hempty Heap.empty_wellFormed
    (labels_reordered hone (.string "b")) (labels_reordered htwo (.string "")) hv hw
  refine ⟨htext, hmerge (fun a ha => ?_) (fun a ha => ?_) rfl, hcoerce .string .string _
    (Heap.empty_acyclic.behind _) rfl ?_ ?_ ?_⟩
  · exact Nat.not_lt_zero a (hv.bounded a ha)
  · exact Nat.not_lt_zero a (hw.bounded a ha)
  · rintro - es ⟨⟩
    exact ⟨by decide, fun _ _ => trivial⟩
  · exact fun x hx => ⟨_, Key.coerceWith_value ((wellFormed_map.mp hv).keyTypes x hx)⟩
  · exact List.forall_mem_cons.mpr ⟨⟨_, rfl⟩, List.forall_mem_cons.mpr ⟨⟨_, rfl⟩, nofun⟩⟩

/-! ### Where entries meet -/

/-- Whether merges of two values of a type leave the same in every order of entries. -/
def MergedInEveryOrder (t : Ty) : Prop :=
  ∀ (h h' : Heap) (v v' w w' : Value), h.Reordered h' → h.WellFormed → v.Reordered v' →
    w.Reordered w' → v.WellFormed h → w.WellFormed h → v.ty = t → w.ty = t →
      (v.merge w h).value.Reordered (v'.merge w' h').value ∧
        (v.merge w h).heap.Reordered (v'.merge w' h').heap

/-- Whether maps of which every key and every value is coerced, and no two keys become one, are
coerced into the same in every order of entries. -/
def CoercedInEveryOrder (k e : Ty) : Prop :=
  ∀ (h h' : Heap) (v v' : Value) (es : List (Key × Value)), h.Reordered h' → h.WellFormed →
    v.Reordered v' → v.WellFormed h → v.entries? = some es →
      (es.map fun x => Key.place? k x.1.value h).Nodup →
      (∀ x ∈ es, ∃ r, (Key.coerceWith k.coerce x.1.value).run h = .ok r) →
      (∀ x ∈ es, ∃ r, (e.coerce x.2).run h = .ok r) →
        ∃ u l u' l' cells, ((Ty.map k e).coerce v).run h = .ok (u, l) ∧
          ((Ty.map k e).coerce v').run h' = .ok (u', l') ∧ u.Same cells l l' u'

theorem not_one_reordered_two : ¬(int .word 1).Reordered (int .word 2) :=
  fun hvw => absurd hvw.asInt64?_eq (by decide)

/-- Three lists of numbers in cells. -/
def threeLists : Heap :=
  ⟨#[list (.int .word) [], list (.int .word) [int .word 1], list (.int .word) [int .word 2]]⟩

theorem threeLists_wellFormed : threeLists.WellFormed := by
  have hnumbers (ns : List Int64) :
      (list (.int .word) (ns.map (int .word))).WellFormed threeLists :=
    wellFormed_list.mpr fun v hv => by
      obtain ⟨n, -, rfl⟩ := List.mem_map.mp hv
      exact ⟨.int rfl, Ty.accepts_self _⟩
  intro a ha
  match a, ha with
  | 0, _ => exact hnumbers []
  | 1, _ => exact hnumbers [1]
  | 2, _ => exact hnumbers [2]

/-- Two entries of a destination point to one list, to which those of the source are appended. -/
theorem not_mergedInEveryOrder_map : ¬MergedInEveryOrder (.map .string .any) := by
  have hpointer (a : Addr) (ha : a < 3) :
      (pointer (.list (.int .word)) (some a)).WellFormed threeLists := by
    refine wellFormed_pointer.mpr ⟨ha, ?_⟩
    match a, ha with
    | 0, _ | 1, _ | 2, _ => rfl
  have hv := labels_wellFormed (hpointer 0 (by decide)) (hpointer 0 (by decide))
  have hw := labels_wellFormed (hpointer 1 (by decide)) (hpointer 2 (by decide))
  intro hall
  obtain ⟨-, hheaps⟩ := hall threeLists threeLists _ _ _ _
    ⟨rfl, fun a ha => (threeLists_wellFormed a ha).reordered⟩ threeLists_wellFormed
    hv.reordered (labels_reordered (hpointer 1 (by decide)) (hpointer 2 (by decide))) hv hw rfl rfl
  have hcell : (list (.int .word) [int .word 1, int .word 2]).Reordered
      (list (.int .word) [int .word 2, int .word 1]) := hheaps.cells 0 (by decide)
  cases hcell with
  | list _ hitems => exact not_one_reordered_two (hitems _ List.mem_cons_self)

/-- Maps with other keys are appended to a list of maps, where two keys become one. -/
theorem not_mergedInEveryOrder_any : ¬MergedInEveryOrder .any := by
  have hone : (int .word 1).WellFormed .empty := .int rfl
  have htwo : (int .word 2).WellFormed .empty := .int rfl
  have hv : (slot (list (.map .bool .any) [])).WellFormed .empty :=
    wellFormed_slot.mpr ⟨nofun, nofun, wellFormed_list.mpr nofun⟩
  have hw : (slot (list (.map .string .any) [labels (int .word 2) (int .word 1)])).WellFormed
      .empty :=
    wellFormed_slot.mpr ⟨nofun, nofun, wellFormed_list.mpr
      (List.forall_mem_singleton.mpr ⟨labels_wellFormed htwo hone, rfl⟩)⟩
  have hww : (slot (list (.map .string .any) [labels (int .word 2) (int .word 1)])).Reordered
      (slot (list (.map .string .any) [labelsBack (int .word 2) (int .word 1)])) :=
    .slot (.list rfl (List.forall_mem_singleton.mpr (labels_reordered htwo hone)))
  intro hall
  obtain ⟨hslots, -⟩ := hall .empty .empty _ _ _ _ ⟨rfl, nofun⟩ Heap.empty_wellFormed hv.reordered
    hww hv hw rfl rfl
  have hlists : (list (.map .bool .any)
        [map .bool .any [(.bool true, slot (int .word 1))]]).Reordered
      (list (.map .bool .any) [map .bool .any [(.bool true, slot (int .word 2))]]) := hslots.peel
  cases hlists with
  | list _ hitems =>
    have hvalue := (hitems _ List.mem_cons_self).entries.2 _ List.mem_cons_self _
      List.mem_cons_self rfl
    exact not_one_reordered_two hvalue.peel

/-- The keys of a map that is a part of another become one. -/
theorem not_coercedInEveryOrder : ¬CoercedInEveryOrder .string (.map .bool .any) := by
  have hone : (int .word 1).WellFormed .empty := .int rfl
  have htwo : (int .word 2).WellFormed .empty := .int rfl
  have hv := labels_wellFormed (labels_wellFormed htwo hone) .invalid
  have hvv : (labels (labels (int .word 2) (int .word 1)) .invalid).Reordered
      (labels (labelsBack (int .word 2) (int .word 1)) .invalid) :=
    (labels_reordered htwo hone).labels (.atom rfl)
  intro hall
  obtain ⟨u, l, u', l', cells, hu, hu', hsame⟩ := hall .empty .empty _ _ _ ⟨rfl, nofun⟩
    Heap.empty_wellFormed hvv hv rfl (by decide)
    (List.forall_mem_cons.mpr ⟨⟨_, rfl⟩, List.forall_mem_cons.mpr ⟨⟨_, rfl⟩, nofun⟩⟩)
    (List.forall_mem_cons.mpr ⟨⟨_, rfl⟩, List.forall_mem_cons.mpr ⟨⟨_, rfl⟩, nofun⟩⟩)
  cases hu
  cases hu'
  cases hsame with | map _ hparts =>
  cases hparts _ List.mem_cons_self _ List.mem_cons_self rfl with | map _ hvalues =>
  cases (hvalues _ List.mem_cons_self _ List.mem_cons_self rfl).peel

/-- The order of entries shows where entries of a merge point to one cell, where slots that are
merged hold lists of different types, and where the keys of a map that is coerced as a part become
one. -/
theorem reordered_observed :
    ¬MergedInEveryOrder (.map .string .any) ∧ ¬MergedInEveryOrder .any ∧
      ¬CoercedInEveryOrder .string (.map .bool .any) :=
  ⟨not_mergedInEveryOrder_map, not_mergedInEveryOrder_any, not_coercedInEveryOrder⟩

end Value

end DynamicEval
