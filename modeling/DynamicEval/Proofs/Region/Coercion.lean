import DynamicEval.Proofs.Heap.Region

/-!
# Coercion stays inside a region

What a value is coerced into has no pointers but to cells of the region that the value is inside of,
and new cells are cells of the region. A key brings nothing along: it is stored as a scalar.

## Main definitions

* `HeapM.StaysIn`: a computation that changes a heap inside a region only.

## Main results

* `Ty.coerce_staysIn`, `Ty.assign_staysIn`: a value inside a region is coerced inside it.
* `Entries.insert_staysIn`: so is an entry with a value inside a region, whatever its key is.
-/

namespace DynamicEval

namespace HeapM

variable {α β : Type} {P : Addr → Prop} {Q : α → Prop} {R : β → Prop}

/-- If the computation succeeds, it has changed the heap inside the region `P` only, and `Q` holds of
what it gives. -/
def StaysIn (m : HeapM α) (P : Addr → Prop) (Q : α → Prop) : Prop :=
  ∀ h a h', h.Region P → m.run h = .ok (a, h') → h.StaysIn P h' ∧ Q a

theorem StaysIn.pure {a : α} (ha : Q a) : (pure a : HeapM α).StaysIn P Q := by
  rintro h _ _ hP ⟨⟩
  exact ⟨hP.staysIn, ha⟩

theorem StaysIn.throw (e : Error) : (throw e : HeapM α).StaysIn P Q := fun _ _ _ _ => nofun

theorem StaysIn.bind {m : HeapM α} {f : α → HeapM β} (hm : m.StaysIn P Q)
    (hf : ∀ a, Q a → (f a).StaysIn P R) : (m >>= f).StaysIn P R := by
  intro h b h'' hP hrun
  obtain ⟨a, h', ha, hb⟩ := run_bind_eq_ok.mp hrun
  obtain ⟨hs, hQ⟩ := hm h a h' hP ha
  obtain ⟨hs', hR⟩ := hf a hQ h' b h'' hs.region hb
  exact ⟨hs.trans hs', hR⟩

theorem StaysIn.get_bind {f : Heap → HeapM α} (hf : ∀ h, h.Region P → (f h).StaysIn P Q) :
    (get >>= f : HeapM α).StaysIn P Q :=
  fun h a h' hP hrun => hf h hP h a h' hP hrun

end HeapM

section

variable {P : Addr → Prop} {t k e : Ty} {v : Value} {vs : List Value}
  {es entries : List (Key × Value)}

theorem Key.coerceWith_staysIn (t : Ty) (v : Value) :
    (Key.coerceWith t.coerce v).StaysIn P fun _ => True := by
  intro h k h' hP hk
  rw [Key.coerceWith_heap hk]
  exact ⟨hP.staysIn, trivial⟩

theorem Entries.within_put {key : Key} (hes : ∀ entry ∈ es, entry.2.Within P) (hv : v.Within P) :
    ∀ entry ∈ Entries.put key v es, entry.2.Within P := by
  intro entry hentry
  rcases Entries.mem_put hentry with rfl | hentry
  · exact hv
  · exact hes entry hentry

theorem Value.coerceItems_staysIn
    (he : ∀ v, v.Within P → (e.coerce v).StaysIn P fun w => w.Within P)
    (hvs : ∀ v ∈ vs, v.Within P) :
    (Value.coerceItems e.coerce vs).StaysIn P fun ws => ∀ w ∈ ws, w.Within P := by
  induction vs with
  | nil => exact .pure (List.forall_mem_nil _)
  | cons v vs ih =>
    refine (he v (hvs v List.mem_cons_self)).bind fun w hw => ?_
    refine (ih fun u hu => hvs u (List.mem_cons_of_mem _ hu)).bind fun ws hws => .pure ?_
    exact List.forall_mem_cons.mpr ⟨hw, hws⟩

theorem Entries.insertAll_staysIn
    (he : ∀ v, v.Within P → (e.coerce v).StaysIn P fun w => w.Within P)
    (hes : ∀ entry ∈ es, entry.2.Within P) (hentries : ∀ entry ∈ entries, entry.2.Within P) :
    (Entries.insertAll k.coerce e.coerce es entries).StaysIn P
      fun es => ∀ entry ∈ es, entry.2.Within P := by
  induction entries generalizing es with
  | nil => exact .pure hes
  | cons entry entries ih =>
    refine (Key.coerceWith_staysIn k _).bind fun key _ => ?_
    refine (he entry.2 (hentries entry List.mem_cons_self)).bind fun w hw => ?_
    exact ih (Entries.within_put hes hw) fun u hu => hentries u (List.mem_cons_of_mem _ hu)

theorem Ty.coerceBase_staysIn {convert : Value → Option (HeapM Value)} (hv : v.Within P)
    (hconvert : ∀ b m, b.Within P → convert b = some m → m.StaysIn P fun w => w.Within P) :
    (t.coerceBase v convert).StaysIn P fun w => w.Within P := by
  refine .get_bind fun h hP => ?_
  have hb := hP.base hv.peel
  split
  · exact .pure (t.within_zero P)
  dsimp only
  split
  · exact .pure hb
  · split
    · next m hm => exact hconvert _ m hb hm
    · exact .throw _

theorem Ty.newCell_staysIn (hv : v.Within P) :
    (Ty.coerce.newCell e v).StaysIn P fun w => w.Within P := by
  rintro h _ _ hP ⟨⟩
  exact ⟨.alloc hP hv, Value.within_pointer.mpr (hP.free _ (Nat.le_refl _))⟩

theorem Value.Within.of_items? (hv : v.Within P) (hvs : v.items? = some vs) :
    ∀ w ∈ vs, w.Within P := by
  cases v with
  | list e items =>
    cases hvs
    exact Value.within_list.mp hv
  | array e items =>
    cases hvs
    exact Value.within_array.mp hv
  | _ => cases hvs

theorem Value.Within.of_entries? (hv : v.Within P) (hes : v.entries? = some es) :
    ∀ entry ∈ es, entry.2.Within P := by
  cases v with
  | map k e entries =>
    cases hes
    exact Value.within_map.mp hv
  | _ => cases hes

end

section

variable {P : Addr → Prop}

/-- A value inside a region is coerced into a value inside it. -/
theorem Ty.coerce_staysIn (t : Ty) (v : Value) (hv : v.Within P) :
    (t.coerce v).StaysIn P fun w => w.Within P := by
  match t with
  | .invalid => exact .pure hv
  | .any => exact .pure hv.peel.boxed
  | .pointer e =>
    have hnew {u : Value} (hu : u.Within P) :
        (e.coerce u >>= Ty.coerce.newCell e).StaysIn P fun w => w.Within P :=
      (Ty.coerce_staysIn e u hu).bind fun w hw => Ty.newCell_staysIn hw
    have hu := hv.peel
    rw [Ty.coerce]
    generalize v.peel = u at hu ⊢
    split
    · exact .pure Value.within_nil
    · exact .pure Value.within_nil
    · exact .pure Value.within_nil
    · split
      · exact .pure hu
      · exact hnew hu
    · exact hnew hu
  | .bool =>
    refine Ty.coerceBase_staysIn hv fun b m hb hm => ?_
    cases hm
    exact .pure (Value.within_of_key? rfl)
  | .string =>
    refine Ty.coerceBase_staysIn hv fun b m hb hm => ?_
    cases hm
    exact .get_bind fun h hP => .pure (Value.within_of_key? rfl)
  | .int _ | .uint _ | .float _ =>
    refine Ty.coerceBase_staysIn hv fun b m hb hm => ?_
    obtain ⟨n, -, rfl⟩ := Option.map_eq_some_iff.mp hm
    exact .pure (Value.within_of_key? rfl)
  | .list e =>
    refine Ty.coerceBase_staysIn hv fun b m hb hm => ?_
    obtain ⟨items, hitems, rfl⟩ := Option.map_eq_some_iff.mp hm
    exact (Value.coerceItems_staysIn (Ty.coerce_staysIn e) (hb.of_items? hitems)).bind
      fun ws hws => .pure (Value.within_list.mpr hws)
  | .array e n =>
    refine Ty.coerceBase_staysIn hv fun b m hb hm => ?_
    obtain ⟨items, hitems, rfl⟩ := Option.map_eq_some_iff.mp hm
    have hresized : ∀ w ∈ Value.resize e.zero n items, w.Within P := by
      intro w hw
      rcases Value.mem_resize hw with hw | rfl
      · exact hb.of_items? hitems w hw
      · exact e.within_zero P
    exact (Value.coerceItems_staysIn (Ty.coerce_staysIn e) hresized).bind
      fun ws hws => .pure (Value.within_array.mpr hws)
  | .map k e =>
    refine Ty.coerceBase_staysIn hv fun b m hb hm => ?_
    obtain ⟨entries, hentries, rfl⟩ := Option.map_eq_some_iff.mp hm
    exact (Entries.insertAll_staysIn (Ty.coerce_staysIn e) (List.forall_mem_nil _)
      (hb.of_entries? hentries)).bind fun es hes => .pure (Value.within_map.mpr hes)
  | .record _ | .func =>
    refine Ty.coerceBase_staysIn hv fun b m hb hm => ?_
    cases hm

theorem Ty.assign_staysIn (t : Ty) {v : Value} (hv : v.Within P) :
    (t.assign v).StaysIn P fun w => w.Within P := by
  unfold Ty.assign
  split
  · exact .pure (t.within_zero P)
  · split
    · exact .throw _
    · exact Ty.coerce_staysIn _ v hv

/-- An entry with a value inside a region is stored inside it, whatever its key is. -/
theorem Entries.insert_staysIn {k e : Ty} {es : List (Key × Value)} {v : Value}
    (hes : ∀ entry ∈ es, entry.2.Within P) (hv : v.Within P) (key : Value) :
    (Entries.insert k e es key v).StaysIn P fun es => ∀ entry ∈ es, entry.2.Within P :=
  (Key.coerceWith_staysIn k key).bind fun _ _ =>
    (e.coerce_staysIn v hv).bind fun _ hw => .pure (Entries.within_put hes hw)

end

end DynamicEval
