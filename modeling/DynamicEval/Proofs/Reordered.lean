import DynamicEval.Proofs.Alike.Path
import DynamicEval.Proofs.Order
import DynamicEval.Proofs.Zero
import Mathlib.Data.List.Zip

/-!
# Values up to the order of entries

A map keeps the order in which its places were first filled. Values that differ in nothing but this
order, in themselves and in the cells of their heaps, cannot be told apart by reading them: they
have the same text, they are equal to the same values and compare with them alike, and both are zero
or neither is.

## Main definitions

* `Value.Reordered`: values that differ in the order of the entries of the maps in them.
* `Heap.Reordered`: heaps whose cells differ so.

## Main results

* `Value.Reordered.wellFormed`: the order of entries does not matter to the invariant.
* `Value.Reordered.text_eq`, `Value.Reordered.isZero_eq`: nor to texts and to being zero.
* `Value.Reordered.eq_eq`, `Value.Reordered.compare?_eq`: nor to comparisons of two values.
-/

namespace DynamicEval

/-- Two values are the same but for the order of the entries of the maps in them. Cells are not
looked at. -/
inductive Value.Reordered : Value → Value → Prop where
  | atom {v : Value} (hv : v.isAtom = true) : Reordered v v
  | pointer (e : Ty) (a : Addr) : Reordered (.pointer e (some a)) (.pointer e (some a))
  | list {e : Ty} {vs ws : List Value} (hlength : vs.length = ws.length)
      (hitems : ∀ x ∈ vs.zip ws, Reordered x.1 x.2) : Reordered (.list e vs) (.list e ws)
  | array {e : Ty} {vs ws : List Value} (hlength : vs.length = ws.length)
      (hitems : ∀ x ∈ vs.zip ws, Reordered x.1 x.2) : Reordered (.array e vs) (.array e ws)
  /-- The same keys stand in some order, with values that are the same but for the order in them. -/
  | map {k e : Ty} {es fs : List (Key × Value)}
      (hkeys : (es.map Prod.fst).Perm (fs.map Prod.fst))
      (hvalues : ∀ x ∈ es, ∀ y ∈ fs, x.1 = y.1 → Reordered x.2 y.2) :
      Reordered (.map k e es) (.map k e fs)
  | record {r : RecordType} {vs ws : List Value} (hlength : vs.length = ws.length)
      (hfields : ∀ x ∈ vs.zip ws, Reordered x.1 x.2) : Reordered (.record r vs) (.record r ws)
  | slot {v w : Value} (hv : Reordered v w) : Reordered (.slot v) (.slot w)

/-- Two heaps are the same but for the order of the entries of the maps in their cells. -/
structure Heap.Reordered (h h' : Heap) : Prop where
  /-- The heaps have the same cells. -/
  size_eq : h.size = h'.size
  /-- Cells differ in the order of entries at most. -/
  cells : ∀ a < h.size, (h.get a).Reordered (h'.get a)

namespace Value

variable {h h' : Heap} {v v' w w' : Value} {a : Addr}

namespace Reordered

/-- Items are the same in turn. -/
theorem forall₂ {vs ws : List Value} (hlength : vs.length = ws.length)
    (hitems : ∀ x ∈ vs.zip ws, x.1.Reordered x.2) : List.Forall₂ Reordered vs ws :=
  List.forall₂_iff_zip.mpr ⟨hlength, fun hx => hitems _ hx⟩

/-- Every item on the right stands for one on the left. -/
theorem exists_mem_zip {α β : Type} {vs : List α} {ws : List β} {w : β}
    (hlength : vs.length = ws.length) (hw : w ∈ ws) : ∃ v, (v, w) ∈ vs.zip ws := by
  obtain ⟨i, hi, rfl⟩ := List.mem_iff_getElem.mp hw
  have hleft : i < vs.length := hlength ▸ hi
  refine ⟨vs[i], List.mem_iff_getElem.mpr ⟨i, ?_, List.getElem_zip⟩⟩
  rw [List.length_zip]
  omega

/-- Every entry on the right has the key of one on the left. -/
theorem exists_mem_entries {α β : Type} {es : List (Key × α)} {fs : List (Key × β)} {y : Key × β}
    (hkeys : (es.map Prod.fst).Perm (fs.map Prod.fst)) (hy : y ∈ fs) : ∃ x ∈ es, x.1 = y.1 :=
  List.mem_map.mp (hkeys.symm.subset (List.mem_map_of_mem hy))

theorem symm (hvw : v.Reordered w) : w.Reordered v := by
  have hzip {vs ws : List Value} (hitems : ∀ x ∈ vs.zip ws, x.2.Reordered x.1) :
      ∀ x ∈ ws.zip vs, x.1.Reordered x.2 := by
    intro x hx
    rw [← List.zip_swap] at hx
    obtain ⟨y, hy, rfl⟩ := List.mem_map.mp hx
    exact hitems y hy
  induction hvw with
  | atom hv => exact .atom hv
  | pointer e a => exact .pointer e a
  | list hlength _ ih => exact .list hlength.symm (hzip ih)
  | array hlength _ ih => exact .array hlength.symm (hzip ih)
  | map hkeys _ ih => exact .map hkeys.symm fun y hy x hx hyx => ih x hx y hy hyx.symm
  | record hlength _ ih => exact .record hlength.symm (hzip ih)
  | slot _ ih => exact .slot ih

theorem ty_eq (hvw : v.Reordered w) : v.ty = w.ty := by
  cases hvw with
  | array hlength => exact congrArg (Ty.array _) hlength
  | _ => rfl

theorem peel (hvw : v.Reordered w) : v.peel.Reordered w.peel := by
  cases hvw with
  | @atom v hv =>
    cases v with
    | emptySlot => exact .atom rfl
    | slot => cases hv
    | _ => exact .atom hv
  | pointer e a => exact .pointer e a
  | list hlength hitems => exact .list hlength hitems
  | array hlength hitems => exact .array hlength hitems
  | map hkeys hvalues => exact .map hkeys hvalues
  | record hlength hfields => exact .record hlength hfields
  | slot hv => exact hv

theorem unslot (hvw : v.Reordered w) : v.unslot.Reordered w.unslot := by
  induction hvw with
  | @atom v hv =>
    cases v with
    | slot => cases hv
    | _ => exact .atom hv
  | pointer e a => exact .pointer e a
  | list hlength hitems => exact .list hlength hitems
  | array hlength hitems => exact .array hlength hitems
  | map hkeys hvalues => exact .map hkeys hvalues
  | record hlength hfields => exact .record hlength hfields
  | slot _ ih => exact ih

theorem boxed (hvw : v.Reordered w) : v.boxed.Reordered w.boxed := by
  cases hvw with
  | @atom v hv =>
    cases v with
    | invalid | emptySlot => exact .atom rfl
    | slot => cases hv
    | _ => exact .slot (.atom hv)
  | pointer e a => exact .slot (.pointer e a)
  | list hlength hitems => exact .slot (.list hlength hitems)
  | array hlength hitems => exact .slot (.array hlength hitems)
  | map hkeys hvalues => exact .slot (.map hkeys hvalues)
  | record hlength hfields => exact .slot (.record hlength hfields)
  | slot hv => exact .slot hv

theorem isNil_eq (hvw : v.Reordered w) : v.isNil = w.isNil := by
  cases hvw <;> rfl

/-- The pointers in a value stand in every order. -/
theorem points (hvw : v.Reordered w) (hw : w.Points a) : v.Points a := by
  induction hvw with
  | atom => exact hw
  | pointer => exact hw
  | list hlength _ ih =>
    cases hw with
    | list hmem hw =>
      obtain ⟨v, hz⟩ := exists_mem_zip hlength hmem
      exact .list (List.of_mem_zip hz).1 (ih _ hz hw)
  | array hlength _ ih =>
    cases hw with
    | array hmem hw =>
      obtain ⟨v, hz⟩ := exists_mem_zip hlength hmem
      exact .array (List.of_mem_zip hz).1 (ih _ hz hw)
  | map hkeys _ ih =>
    cases hw with
    | map hmem hw =>
      obtain ⟨x, hx, hxy⟩ := exists_mem_entries hkeys hmem
      exact .map hx (ih x hx _ hmem hxy hw)
  | record hlength _ ih =>
    cases hw with
    | record hmem hw =>
      obtain ⟨v, hz⟩ := exists_mem_zip hlength hmem
      exact .record (List.of_mem_zip hz).1 (ih _ hz hw)
  | slot _ ih =>
    cases hw with
    | slot hw => exact .slot (ih hw)

/-- The places of a map are filled in every order. -/
theorem nodup_places {α β : Type} {es : List (Key × α)} {fs : List (Key × β)}
    (hkeys : (es.map Prod.fst).Perm (fs.map Prod.fst))
    (hnodup : (es.map fun entry => entry.1.bare).Nodup) :
    (fs.map fun entry => entry.1.bare).Nodup := by
  have hplaces := hkeys.map Key.bare
  rw [List.map_map, List.map_map] at hplaces
  exact hplaces.nodup hnodup

/-! Values that are related to one with parts have the same shape. -/

section

variable {k e : Ty} {r : RecordType} {vs : List Value} {es fs : List (Key × Value)}

theorem exists_list (hvw : (Value.list e vs).Reordered w) :
    ∃ ws, w = .list e ws ∧ List.Forall₂ Reordered vs ws := by
  cases hvw with
  | atom hatom => cases hatom
  | list hlength hitems => exact ⟨_, rfl, forall₂ hlength hitems⟩

theorem exists_array (hvw : (Value.array e vs).Reordered w) :
    ∃ ws, w = .array e ws ∧ List.Forall₂ Reordered vs ws := by
  cases hvw with
  | atom hatom => cases hatom
  | array hlength hitems => exact ⟨_, rfl, forall₂ hlength hitems⟩

theorem exists_record (hvw : (Value.record r vs).Reordered w) :
    ∃ ws, w = .record r ws ∧ List.Forall₂ Reordered vs ws := by
  cases hvw with
  | atom hatom => cases hatom
  | record hlength hfields => exact ⟨_, rfl, forall₂ hlength hfields⟩

theorem exists_map (hvw : (Value.map k e es).Reordered w) :
    ∃ fs, w = .map k e fs ∧ (Value.map k e es).Reordered (.map k e fs) := by
  cases hvw with
  | atom hatom => cases hatom
  | map hkeys hvalues => exact ⟨_, rfl, .map hkeys hvalues⟩

theorem entries (hmaps : (Value.map k e es).Reordered (.map k e fs)) :
    (es.map Prod.fst).Perm (fs.map Prod.fst) ∧
      ∀ x ∈ es, ∀ y ∈ fs, x.1 = y.1 → x.2.Reordered y.2 := by
  cases hmaps with
  | atom hatom => cases hatom
  | map hkeys hvalues => exact ⟨hkeys, hvalues⟩

end

end Reordered

/-- A well-formed value is the same as itself. -/
theorem WellFormed.reordered (hv : v.WellFormed h) : v.Reordered v := by
  have hitems {vs : List Value} (hself : ∀ v ∈ vs, v.Reordered v) :
      ∀ x ∈ vs.zip vs, x.1.Reordered x.2 := by
    intro x hx
    obtain ⟨heq, hmem⟩ := Alike.eq_of_mem_zip_self hx
    exact heq ▸ hself x.1 hmem
  induction hv with
  | list _ _ ih => exact .list rfl (hitems ih)
  | array _ _ ih => exact .array rfl (hitems ih)
  | map places _ _ _ _ _ ih =>
    refine .map (.refl _) fun x hx y hy hxy => ?_
    obtain rfl := List.inj_on_of_nodup_map places hx hy (congrArg Key.bare hxy)
    exact ih x hx
  | record _ _ ih => exact .record rfl (hitems ih)
  | pointer => exact .pointer _ _
  | slot _ _ _ ih => exact .slot ih
  | _ => exact .atom rfl

/-- Entries in another order. -/
theorem Reordered.of_perm {k e : Ty} {es fs : List (Key × Value)}
    (hv : (Value.map k e es).WellFormed h) (hperm : es.Perm fs) :
    (Value.map k e es).Reordered (Value.map k e fs) := by
  have hes := wellFormed_map.mp hv
  refine .map (hperm.map Prod.fst) fun x hx y hy hxy => ?_
  obtain rfl := List.inj_on_of_nodup_map hes.places hx (hperm.symm.subset hy)
    (congrArg Key.bare hxy)
  exact (hes.values x hx).wellFormed.reordered

end Value

/-! ### Heaps -/

namespace Heap.Reordered

variable {h h' : Heap} {v w : Value} {a : Addr}

theorem get (hh : h.Reordered h') (a : Addr) : (h.get a).Reordered (h'.get a) := by
  rcases Nat.lt_or_ge a h.size with hlt | hge
  · exact hh.cells a hlt
  · rw [get_of_size_le hge, get_of_size_le (hh.size_eq ▸ hge)]
    exact .atom rfl

theorem symm (hh : h.Reordered h') : h'.Reordered h :=
  ⟨hh.size_eq.symm, fun a _ => (hh.get a).symm⟩

theorem extend (hh : h.Reordered h') : h.Extends h' where
  size_le := Nat.le_of_eq hh.size_eq
  ty_beq a _ := by
    rw [(hh.get a).ty_eq]
    exact BEq.rfl

/-- The same cells are behind a value. -/
theorem reaches (hh : h.Reordered h') (hvw : v.Reordered w) (hr : h'.Reaches w a) :
    h.Reaches v a := by
  induction hr generalizing v with
  | direct hp => exact .direct (hvw.points hp)
  | behind hp _ ih => exact .behind (hvw.points hp) (ih (hh.get _))

theorem acyclicBehind (hh : h.Reordered h') (hvw : v.Reordered w) (hv : h.AcyclicBehind v) :
    h'.AcyclicBehind w :=
  fun a ha hself => hv a (hh.reaches hvw ha) (hh.reaches (hh.get a) hself)

end Heap.Reordered

namespace Value.Reordered

variable {h h' : Heap} {v v' w w' : Value} {a : Addr}

theorem wellFormed (hh : h.Reordered h') (hvw : v.Reordered w) (hv : v.WellFormed h) :
    w.WellFormed h' := by
  induction hvw with
  | atom => exact hv.mono hh.extend
  | pointer => exact hv.mono hh.extend
  | list hlength hitems ih =>
    have hvs := wellFormed_list.mp hv
    refine wellFormed_list.mpr fun w hw => ?_
    obtain ⟨v, hz⟩ := exists_mem_zip hlength hw
    have hfits := hvs v (List.of_mem_zip hz).1
    exact ⟨ih _ hz hfits.wellFormed, (hitems _ hz).ty_eq ▸ hfits.accepts⟩
  | array hlength hitems ih =>
    have hvs := wellFormed_array.mp hv
    refine wellFormed_array.mpr fun w hw => ?_
    obtain ⟨v, hz⟩ := exists_mem_zip hlength hw
    have hfits := hvs v (List.of_mem_zip hz).1
    exact ⟨ih _ hz hfits.wellFormed, (hitems _ hz).ty_eq ▸ hfits.accepts⟩
  | map hkeys hvalues ih =>
    have hes := wellFormed_map.mp hv
    refine wellFormed_map.mpr ⟨nodup_places hkeys hes.places, ?_, ?_, ?_⟩
    all_goals
      intro y hy
      obtain ⟨x, hx, hxy⟩ := exists_mem_entries hkeys hy
    · exact hxy ▸ hes.keyTypes x hx
    · exact hxy ▸ (hes.keys x hx).mono hh.extend
    · have hfits := hes.values x hx
      exact ⟨ih x hx y hy hxy hfits.wellFormed, (hvalues x hx y hy hxy).ty_eq ▸ hfits.accepts⟩
  | @record r vs ws hlength hfields ih =>
    have hvs := wellFormed_record.mp hv
    refine wellFormed_record.mpr (List.forall₂_iff_get.mpr ⟨hvs.length_eq.trans hlength, ?_⟩)
    intro i hi hi'
    have hleft : i < vs.length := hlength ▸ hi'
    have hfits := (List.forall₂_iff_get.mp hvs).2 i hi hleft
    have hmem : (vs[i], ws[i]) ∈ vs.zip ws :=
      List.mem_of_getElem? (List.getElem?_zip_eq_some.mpr
        ⟨List.getElem?_eq_getElem _, List.getElem?_eq_getElem _⟩)
    exact ⟨ih _ hmem hfits.wellFormed, (hfields _ hmem).ty_eq ▸ hfits.accepts⟩
  | slot hvw ih =>
    obtain ⟨hfilled, hsingle, hv⟩ := wellFormed_slot.mp hv
    rw [hvw.ty_eq] at hfilled hsingle
    exact wellFormed_slot.mpr ⟨hfilled, hsingle, ih hv⟩

end Value.Reordered

theorem Heap.Reordered.wellFormed {h h' : Heap} (hh : h.Reordered h') (hwf : h.WellFormed) :
    h'.WellFormed :=
  fun a ha => (hh.get a).wellFormed hh (hwf a (hh.size_eq ▸ ha))

namespace Value.Reordered

variable {h h' : Heap} {v v' w w' : Value} {a : Addr}

/-! ### Zeros and bases -/

theorem isZero_of_isZero (hvw : v.Reordered w) (hv : v.isZero = true) : w.isZero = true := by
  induction hvw with
  | atom | pointer => exact hv
  | list hlength =>
    rw [isZero, List.isEmpty_iff_length_eq_zero] at hv ⊢
    rw [← hlength, hv]
  | array hlength _ ih =>
    refine allZero_iff.mpr fun w hw => ?_
    obtain ⟨v, hz⟩ := exists_mem_zip hlength hw
    exact ih _ hz (allZero_iff.mp hv v (List.of_mem_zip hz).1)
  | record hlength _ ih =>
    refine allZero_iff.mpr fun w hw => ?_
    obtain ⟨v, hz⟩ := exists_mem_zip hlength hw
    exact ih _ hz (allZero_iff.mp hv v (List.of_mem_zip hz).1)
  | map hkeys =>
    rw [isZero, List.isEmpty_iff_length_eq_zero] at hv ⊢
    rw [← List.length_map (f := Prod.fst), ← hkeys.length_eq, List.length_map, hv]
  | slot => cases hv

/-- A value is zero in every order. -/
theorem isZero_eq (hvw : v.Reordered w) : v.isZero = w.isZero :=
  Bool.eq_iff_iff.mpr ⟨hvw.isZero_of_isZero, hvw.symm.isZero_of_isZero⟩

theorem baseStep {deref deref' : Addr → Value} (hderef : ∀ a, (deref a).Reordered (deref' a))
    (hvw : v.Reordered w) : (v.baseStep deref).Reordered (w.baseStep deref') := by
  induction hvw with
  | @atom v hv =>
    cases v with
    | pointer e cell =>
      cases cell with
      | none => exact .atom rfl
      | some a => cases hv
    | emptySlot => exact .atom rfl
    | slot => cases hv
    | _ => exact .atom hv
  | pointer e a => exact hderef a
  | list hlength hitems => exact .list hlength hitems
  | array hlength hitems => exact .array hlength hitems
  | map hkeys hvalues => exact .map hkeys hvalues
  | record hlength hfields => exact .record hlength hfields
  | slot _ ih => exact ih

/-- The base of a value is the same but for the order of entries. -/
theorem base (hh : h.Reordered h') (hvw : v.Reordered w) :
    (v.base h).Reordered (w.base h') := by
  rw [Value.base, Value.base, Heap.follow, Heap.follow, ← hh.size_eq]
  generalize h.size = n
  induction n generalizing v w with
  | zero => exact hvw.baseStep fun _ => .atom rfl
  | succ n ih => exact hvw.baseStep fun a => ih (hh.get a)

theorem baseTyStep_eq {deref deref' : Addr → Ty} (hderef : ∀ a, deref a = deref' a)
    (hvw : v.Reordered w) : v.baseTyStep deref = w.baseTyStep deref' := by
  induction hvw with
  | @atom v hv =>
    cases v with
    | pointer e cell =>
      cases cell with
      | none => rfl
      | some a => cases hv
    | slot => cases hv
    | _ => rfl
  | pointer e a => exact hderef a
  | array hlength => exact congrArg (Ty.array _) hlength
  | list | map | record => rfl
  | slot _ ih => exact ih

theorem baseTy_eq (hh : h.Reordered h') (hvw : v.Reordered w) : v.baseTy h = w.baseTy h' := by
  rw [baseTy, baseTy, Heap.follow, Heap.follow, ← hh.size_eq]
  generalize h.size = n
  induction n generalizing v w with
  | zero => exact hvw.baseTyStep_eq fun _ => rfl
  | succ n ih => exact hvw.baseTyStep_eq fun a => ih (hh.get a)

theorem isBasic_eq (hh : h.Reordered h') (hvw : v.Reordered w) : v.isBasic h = w.isBasic h' := by
  rw [isBasic, isBasic, baseKind, baseKind, hvw.baseTy_eq hh]

/-! ### Texts -/

theorem textsStep_eq_map (deref : Addr → String) (vs : List Value) :
    textsStep deref vs = vs.map (textStep deref) := by
  induction vs with
  | nil => rfl
  | cons v vs ih => rw [textsStep, ih, List.map_cons]

theorem entryTextsStep_eq_map (deref : Addr → String) (es : List (Key × Value)) :
    entryTextsStep deref es = es.map fun x => x.1.text ++ ":" ++ x.2.textStep deref := by
  induction es with
  | nil => rfl
  | cons x es ih => rw [entryTextsStep, ih, List.map_cons]

/-- Texts are put into one order. -/
theorem sortedTexts_eq_of_perm {ss ts : List String} (hperm : ss.Perm ts) :
    sortedTexts ss = sortedTexts ts := by
  have hsorted (us : List String) : (sortedTexts us).Pairwise fun s t => decide (s ≤ t) = true :=
    @List.pairwise_mergeSort _ (fun s t : String => decide (s ≤ t))
      (fun _ _ _ hst htu => decide_eq_true
        (String.le_trans (of_decide_eq_true hst) (of_decide_eq_true htu)))
      (fun s t => by simpa using String.le_total s t) us
  refine List.Perm.eq_of_pairwise (fun s t _ _ hst hts => ?_) (hsorted ss) (hsorted ts)
    ((List.mergeSort_perm ss _).trans (hperm.trans (List.mergeSort_perm ts _).symm))
  exact String.le_antisymm (of_decide_eq_true hst) (of_decide_eq_true hts)

theorem textStep_eq {deref deref' : Addr → String} (hvw : v.Reordered w) (hv : v.WellFormed h)
    (hderef : ∀ a, v.Points a → deref a = deref' a) : v.textStep deref = w.textStep deref' := by
  have hitems {vs ws : List Value} (hlength : vs.length = ws.length)
      (hitems : ∀ x ∈ vs.zip ws, x.1.textStep deref = x.2.textStep deref') :
      textsStep deref vs = textsStep deref' ws := by
    rw [textsStep_eq_map, textsStep_eq_map, ← List.forall₂_eq_eq_eq, List.forall₂_map_left_iff,
      List.forall₂_map_right_iff]
    exact List.forall₂_iff_zip.mpr ⟨hlength, fun hx => hitems _ hx⟩
  induction hvw with
  | @atom v hatom =>
    cases v with
    | pointer e cell =>
      cases cell with
      | none => rfl
      | some a => cases hatom
    | list | array | map | record | slot => cases hatom
    | _ => rfl
  | pointer e a => exact congrArg ("&" ++ ·) (hderef a (.pointer e a))
  | list hlength _ ih =>
    have hvs := wellFormed_list.mp hv
    rw [textStep, textStep, hitems hlength fun x hx => ih x hx
      (hvs _ (List.of_mem_zip hx).1).wellFormed
      fun a ha => hderef a (.list (List.of_mem_zip hx).1 ha)]
  | array hlength _ ih =>
    have hvs := wellFormed_array.mp hv
    rw [textStep, textStep, hitems hlength fun x hx => ih x hx
      (hvs _ (List.of_mem_zip hx).1).wellFormed
      fun a ha => hderef a (.array (List.of_mem_zip hx).1 ha)]
  | record hlength _ ih =>
    rw [textStep, textStep, hitems hlength fun x hx => by
      have hmem := (List.of_mem_zip hx).1
      obtain ⟨_, _, hfits⟩ := exists_fits_of_mem (wellFormed_record.mp hv) hmem
      exact ih x hx hfits.wellFormed fun a ha => hderef a (.record hmem ha)]
  | @map k e es fs hkeys _ ih =>
    have hes := wellFormed_map.mp hv
    rw [textStep, textStep, entryTextsStep_eq_map, entryTextsStep_eq_map]
    refine congrArg (fun ts => "map[" ++ " ".intercalate ts ++ "]") (sortedTexts_eq_of_perm ?_)
    -- The entries of either side are listed in the order of their places, where they are in turn.
    have hsorted := Entries.forall₂_sorted (R := fun v w => v.textStep deref = w.textStep deref')
      hkeys (fun x hx y hy hxy => ih x hx y hy hxy (hes.values x hx).wellFormed
        fun a ha => hderef a (.map hx ha)) hes.places
    have heq : (Entries.sorted es).map (fun x => x.1.text ++ ":" ++ x.2.textStep deref) =
        (Entries.sorted fs).map fun y => y.1.text ++ ":" ++ y.2.textStep deref' := by
      rw [← List.forall₂_eq_eq_eq, List.forall₂_map_left_iff, List.forall₂_map_right_iff]
      exact hsorted.imp fun x y hxy => by rw [hxy.1, hxy.2]
    exact ((List.mergeSort_perm es _).symm.map _).trans
      (heq ▸ (List.mergeSort_perm fs _).map _)
  | slot _ ih =>
    exact ih (wellFormed_slot.mp hv).2.2 fun a ha => hderef a (.slot ha)

/-- A value is shown alike in every order. -/
theorem text_eq (hh : h.Reordered h') (hwf : h.WellFormed) (hvw : v.Reordered w)
    (hv : v.WellFormed h) : v.text h = w.text h' := by
  rw [text, text, Heap.follow, Heap.follow, ← hh.size_eq]
  generalize h.size = n
  induction n generalizing v w with
  | zero => exact hvw.textStep_eq hv fun _ _ => rfl
  | succ n ih => exact hvw.textStep_eq hv fun a ha => ih (hh.get a) (hwf a (hv.bounded a ha))

end Value.Reordered

/-! ### Comparisons -/

/-- What is found at a place of maps with the same keys is related if the values of these are. -/
theorem Entries.rel_find? {R : Value → Value → Prop} {es fs : List (Key × Value)}
    (hkeys : (es.map Prod.fst).Perm (fs.map Prod.fst))
    (hvalues : ∀ x ∈ es, ∀ y ∈ fs, x.1 = y.1 → R x.2 y.2)
    (hnodup : (es.map fun entry => entry.1.bare).Nodup) (place : BareKey) :
    Option.Rel R (find? place es) (find? place fs) := by
  rw [find?_eq_assoc, find?_eq_assoc]
  exact Assoc.rel_find? (f := id) (g := id) Key.bare hkeys hvalues hnodup place

namespace Value

variable {h h' : Heap} {v v' w w' : Value}

/-- A part of either of two values of which `parts` is asked, in another order. -/
def RelatesParts (parts : Value → Value → Prop) (v w x' y' : Value) : Prop :=
  ∃ x y, (∃ i, v.partAt? i = some x) ∧ (∃ i, w.partAt? i = some y) ∧
    x.Reordered x' ∧ y.Reordered y' ∧ parts x y

section

variable {P : Value → Value → Prop}

/-- Related items in turn are parts that are related. -/
theorem forall₂_relatesParts {vs vs' ws ws' : List Value} (hparts : List.Forall₂ P vs ws)
    (hvs : List.Forall₂ Reordered vs vs') (hws : List.Forall₂ Reordered ws ws')
    (hleft : ∀ i, v.partAt? i = vs[i]?) (hright : ∀ i, w.partAt? i = ws[i]?) :
    List.Forall₂ (RelatesParts P v w) vs' ws' := by
  have hboth := hparts.length_eq
  have hvs_length := hvs.length_eq
  have hws_length := hws.length_eq
  refine List.forall₂_iff_get.mpr ⟨by omega, fun i hi hi' => ?_⟩
  have hi₁ : i < vs.length := by omega
  have hi₂ : i < ws.length := by omega
  refine ⟨vs[i], ws[i], ⟨i, ?_⟩, ⟨i, ?_⟩, (List.forall₂_iff_get.mp hvs).2 i hi₁ hi,
    (List.forall₂_iff_get.mp hws).2 i hi₂ hi', (List.forall₂_iff_get.mp hparts).2 i hi₁ hi₂⟩
  · rw [hleft, List.getElem?_eq_getElem hi₁]
  · rw [hright, List.getElem?_eq_getElem hi₂]

/-- If each entry has its related counterpart, each has it in every order. -/
theorem exists_relatesParts {k k' e e' : Ty} {es es' fs fs' : List (Key × Value)} {x' : Key × Value}
    (hentries : ∀ x ∈ es, ∃ y, Entries.find? x.1.bare fs = some y ∧ P x.2 y)
    (hes : (Value.map k e es).Reordered (.map k e es'))
    (hfs : (Value.map k' e' fs).Reordered (.map k' e' fs'))
    (hnodup : (fs.map fun entry => entry.1.bare).Nodup) (hx' : x' ∈ es') :
    ∃ y', Entries.find? x'.1.bare fs' = some y' ∧
      RelatesParts P (.map k e es) (.map k' e' fs) x'.2 y' := by
  -- The entry with the same key on the left has its counterpart, and so has that one.
  obtain ⟨x, hx, hxx⟩ := Reordered.exists_mem_entries hes.entries.1 hx'
  obtain ⟨y, hy, hxy⟩ := hentries x hx
  have hrel := Entries.rel_find? hfs.entries.1 hfs.entries.2 hnodup x.1.bare
  rw [hy] at hrel
  obtain ⟨y', hfind, hyy⟩ : ∃ y', Entries.find? x.1.bare fs' = some y' ∧ y.Reordered y' := by
    generalize Entries.find? x.1.bare fs' = found at hrel
    cases hrel with
    | some hyy => exact ⟨_, rfl, hyy⟩
  obtain ⟨i, hi⟩ := List.mem_iff_getElem?.mp hx
  obtain ⟨j, key, hj, -⟩ := Entries.exists_getElem?_of_find? hy
  exact ⟨y', hxx ▸ hfind, x.2, y, ⟨i, congrArg (Option.map Prod.snd) hi⟩,
    ⟨j, congrArg (Option.map Prod.snd) hj⟩, hes.entries.2 x hx x' hx' hxx, hyy, hxy⟩

/-- A step of the comparison does not look at the order of entries. -/
theorem Matches.reordered {C : Addr → Addr → Prop} (hm : Matches P C v w) (hvv : v.Reordered v')
    (hww : w.Reordered w') (hw : w.WellFormed h) : Matches (RelatesParts P v w) C v' w' := by
  cases hm with
  | nothing hv hw =>
    refine .nothing ?_ ?_
    · rcases hv with rfl | rfl <;> cases hvv <;> simp
    · rcases hw with rfl | rfl <;> cases hww <;> simp
  | bool b =>
    cases hvv
    cases hww
    exact .bool b
  | int width n =>
    cases hvv
    cases hww
    exact .int width n
  | uint width n =>
    cases hvv
    cases hww
    exact .uint width n
  | float width hxy =>
    cases hvv
    cases hww
    exact .float width hxy
  | string s =>
    cases hvv
    cases hww
    exact .string s
  | list he hparts =>
    obtain ⟨_, rfl, hvs⟩ := hvv.exists_list
    obtain ⟨_, rfl, hws⟩ := hww.exists_list
    exact .list he (forall₂_relatesParts hparts hvs hws (fun _ => rfl) fun _ => rfl)
  | array he hparts =>
    obtain ⟨_, rfl, hvs⟩ := hvv.exists_array
    obtain ⟨_, rfl, hws⟩ := hww.exists_array
    exact .array he (forall₂_relatesParts hparts hvs hws (fun _ => rfl) fun _ => rfl)
  | record hr hparts =>
    obtain ⟨_, rfl, hvs⟩ := hvv.exists_record
    obtain ⟨_, rfl, hws⟩ := hww.exists_record
    exact .record hr (forall₂_relatesParts hparts hvs hws (fun _ => rfl) fun _ => rfl)
  | @map _ _ _ _ es fs hk he hlength hentries =>
    obtain ⟨es', rfl, hes⟩ := hvv.exists_map
    obtain ⟨fs', rfl, hfs⟩ := hww.exists_map
    have hlength' : es'.length = fs'.length := by
      have hes_length := hes.entries.1.length_eq
      have hfs_length := hfs.entries.1.length_eq
      simp only [List.length_map] at hes_length hfs_length
      omega
    exact .map hk he hlength' fun x' hx' =>
      exists_relatesParts hentries hes hfs (wellFormed_map.mp hw).places hx'
  | func hfg =>
    cases hvv
    cases hww
    exact .func hfg
  | nil he =>
    cases hvv
    cases hww
    exact .nil he
  | pointer hab =>
    cases hvv with
    | atom hatom => cases hatom
    | pointer =>
      cases hww with
      | atom hatom => cases hatom
      | pointer => exact .pointer hab

end

theorem Reordered.eqWithin {n : Nat} {v v' w w' : Value} (hh : h.Reordered h') (hwf : h.WellFormed)
    (hvv : v.Reordered v') (hww : w.Reordered w') (hv : v.WellFormed h) (hw : w.WellFormed h)
    (heq : eqWithin h n v w = true) : Value.eqWithin h' n v' w' = true := by
  have hstep := (eqWithin_iff.mp heq).reordered hvv.unslot hww.unslot hw.unslot
  refine eqWithin_iff.mpr (hstep.mono ?_ ?_)
  · rintro x' y' - - ⟨x, y, ⟨i, hx⟩, ⟨j, hy⟩, hxx, hyy, hxy⟩
    have hlt := Nat.lt_of_lt_of_le (sizeOf_of_partAt? hx) v.sizeOf_unslot_le
    exact Reordered.eqWithin hh hwf hxx hyy (wellFormed_of_partAt? hv.unslot hx)
      (wellFormed_of_partAt? hw.unslot hy) hxy
  · rintro a b ha hb ⟨m, rfl, hab⟩
    exact ⟨m, rfl, Reordered.eqWithin hh hwf (hh.get a) (hh.get b)
      (hwf a (hv.unslot.bounded a (hvv.unslot.points ha)))
      (hwf b (hw.unslot.bounded b (hww.unslot.points hb))) hab⟩
termination_by (n, sizeOf v)

/-- Values are equal in every order. -/
theorem Reordered.eq_eq (hh : h.Reordered h') (hwf : h.WellFormed) (hvv : v.Reordered v')
    (hww : w.Reordered w') (hv : v.WellFormed h) (hw : w.WellFormed h) :
    v.eq w h = v'.eq w' h' := by
  refine Bool.eq_iff_iff.mpr ⟨fun heq => ?_, fun heq => ?_⟩
  · rw [Value.eq, Heap.follow, ← hh.size_eq]
    exact Reordered.eqWithin hh hwf hvv hww hv hw heq
  · rw [Value.eq, Heap.follow, ← hh.symm.size_eq]
    exact Reordered.eqWithin hh.symm (hh.wellFormed hwf) hvv.symm hww.symm (hvv.wellFormed hh hv)
      (hww.wellFormed hh hw) heq

theorem Reordered.toInt?_eq (hvw : v.Reordered w) : v.toInt? = w.toInt? := by
  cases hvw <;> rfl

theorem Reordered.toFloat?_eq (hvw : v.Reordered w) : v.toFloat? = w.toFloat? := by
  cases hvw <;> rfl

theorem Reordered.eq_string {s : String} (hvw : v.Reordered w) (hv : v = string s) :
    w = string s := by
  subst hv
  cases hvw
  rfl

/-- Values compare alike in every order. -/
theorem Reordered.compare?_eq (hh : h.Reordered h') (hwf : h.WellFormed) (hvv : v.Reordered v')
    (hww : w.Reordered w') (hv : v.WellFormed h) (hw : w.WellFormed h) :
    v.compare? w h = v'.compare? w' h' := by
  have hbase := hvv.base hh
  have hbase' := hww.base hh
  by_cases hstrings : ∃ s t, v.base h = string s ∧ w.base h = string t
  · obtain ⟨s, t, hs, ht⟩ := hstrings
    rw [compare?_of_string hs ht,
      compare?_of_string (hbase.eq_string hs) (hbase'.eq_string ht)]
  · rw [compare?_of_not_string fun s t hs ht => hstrings ⟨s, t, hs, ht⟩,
      compare?_of_not_string fun s t hs ht =>
        hstrings ⟨s, t, hbase.symm.eq_string hs, hbase'.symm.eq_string ht⟩,
      compareNumbers?, compareNumbers?, hbase.toInt?_eq, hbase'.toInt?_eq, hbase.toFloat?_eq,
      hbase'.toFloat?_eq, hvv.eq_eq hh hwf hww hv hw]

end Value

end DynamicEval
