import DynamicEval.Proofs.Path.Miss
import DynamicEval.Proofs.WellFormed.Scope

/-!
# Writes at dotted identifiers are read back

A write at a dotted identifier first goes along the path that the identifier spells. If it finds no
place there, it stores its value in a map under the whole identifier. A read does the same, so that
it comes to the slot that was written: where the write found no place on the path, there is none
after the second attempt, since that fills another entry than the first segment names.

A write answers false as well when there was nothing to assign. It falls back to the whole
identifier then although it has found a place, and a read does not.

## Main results

* `Text.dotless_of_mem_splitDots`: there are no dots in the pieces of an identifier.
* `Value.setIn_whole`: what a write under a text leaves in a map.
* `Value.propById?_of_setById`: a write at a dotted identifier is read back.
-/

namespace DynamicEval

/-! ### Pieces of identifiers -/

namespace Text

theorem splitDots_of_dotless {cs : List Char} (hdot : '.' ∉ cs) : splitDots cs = [cs] := by
  induction cs with
  | nil => rfl
  | cons c cs ih =>
    obtain ⟨hc, hcs⟩ := not_or.mp (mt List.mem_cons.mpr hdot)
    have hne : (c == '.') = false := beq_eq_false_iff_ne.mpr (Ne.symm hc)
    rw [splitDots, ih hcs, hne]
    rfl

/-- A name without dots is one segment, if it is not empty. -/
theorem segments_of_dotless {name : String} (hdot : '.' ∉ name.toList) :
    segments name = if name.isEmpty then [] else [name] := by
  rw [segments, splitDots_of_dotless hdot, List.map_singleton, String.ofList_toList]

theorem dotless_of_mem_splitDots {cs piece : List Char} (hpiece : piece ∈ splitDots cs) :
    '.' ∉ piece := by
  induction cs generalizing piece with
  | nil =>
    rw [List.mem_singleton.mp hpiece]
    exact List.not_mem_nil
  | cons c cs ih =>
    rw [splitDots] at hpiece
    split at hpiece
    · rcases List.mem_cons.mp hpiece with rfl | hpiece
      · exact List.not_mem_nil
      · exact ih hpiece
    · next hc =>
      have hc : '.' ≠ c := fun heq => hc (beq_iff_eq.mpr heq.symm)
      split at hpiece
      · rw [List.mem_singleton.mp hpiece, List.mem_singleton]
        exact hc
      · next head pieces heq =>
        rw [heq] at ih
        rcases List.mem_cons.mp hpiece with rfl | hpiece
        · exact List.not_mem_cons_of_ne_of_not_mem hc (ih List.mem_cons_self)
        · exact ih (List.mem_cons_of_mem _ hpiece)

/-- An identifier with several segments is none of them. -/
theorem ne_of_mem_segments {ident s : String} (hs : s ∈ segments ident)
    (hlength : 1 < (segments ident).length) : s ≠ ident := by
  rintro rfl
  have hdot : '.' ∉ s.toList := by
    rw [segments] at hs
    split at hs
    · cases hs
    · obtain ⟨piece, hpiece, rfl⟩ := List.mem_map.mp hs
      rw [String.toList_ofList]
      exact dotless_of_mem_splitDots hpiece
  rw [segments_of_dotless hdot] at hlength
  split at hlength
  · cases hlength
  · exact Nat.lt_irrefl 1 hlength

theorem segments_ne_nil {ident : String} (hident : ident ≠ "") : segments ident ≠ [] := by
  have hsplit (cs : List Char) : splitDots cs ≠ [] := by
    cases cs with
    | nil => exact List.cons_ne_nil _ _
    | cons c cs =>
      rw [splitDots]
      split
      · exact List.cons_ne_nil _ _
      · split <;> exact List.cons_ne_nil _ _
  have hempty : ident.isEmpty = false := by simpa using hident
  rw [segments, hempty]
  exact mt List.map_eq_nil_iff.mp (hsplit _)

end Text

namespace Value

/-! ### The type of the base -/

section

variable {h : Heap} {v : Value}

theorem ty_baseOrNewStep {deref : Addr → Value} {derefTy : Addr → Ty}
    (hderef : ∀ a, (derefTy a).kind.isStructured = true → (deref a).ty = derefTy a) {v : Value}
    (hv : (v.baseTyStep derefTy).kind.isStructured = true) :
    (v.baseOrNewStep deref).ty = v.baseTyStep derefTy := by
  match v with
  | .slot v => exact ty_baseOrNewStep hderef (v := v) hv
  | .pointer e none =>
    refine ty_zero fun hty => ?_
    have hv : e.stripPointers.kind.isStructured = true := hv
    generalize e.stripPointers = t at hv hty
    cases t <;> cases hty <;> cases hv
  | .pointer e (some a) => exact hderef a hv
  | .emptySlot => cases hv
  | .invalid | .bool _ | .int _ _ | .uint _ _ | .float _ _ | .string _ | .list _ _ | .array _ _
  | .map _ _ _ | .record _ _ | .func _ => rfl

/-- What a change sees in a value with parts is of the type of its base. -/
theorem ty_baseOrNew (hv : v.isBasic h = false) : (v.baseOrNew h).ty = v.baseTy h := by
  have hstructured : (v.baseTy h).kind.isStructured = true := by
    rwa [isBasic, Bool.not_eq_false'] at hv
  suffices ∀ n v, (h.unroll .invalid baseTyStep n v).kind.isStructured = true →
      (h.unroll .invalid baseOrNewStep n v).ty = h.unroll .invalid baseTyStep n v from
    this h.size v hstructured
  intro n
  induction n with
  | zero =>
    intro v
    refine ty_baseOrNewStep fun a hstop => ?_
    cases hstop
  | succ n ih => exact fun v => ty_baseOrNewStep fun a => ih (h.get a)

end

/-! ### Entries under texts -/

section

variable {h : Heap} {v w c : Value} {e : Ty} {es : List (Key × Value)} {path : List Value}
  {s ident : String}

theorem place?_string (e : Ty) (es : List (Key × Value)) (s : String) (h : Heap) :
    (map .string e es).place? (string s) h = (Entries.find? (.string s) es).map fun w =>
      ⟨e, w, fun w => map .string e (Entries.replace (.string s) w es)⟩ := by
  have hplace : Key.place? .string (string s) h = some (.string s) :=
    Key.place?_value (Ty.acceptsKey_string s)
  rw [place?, entryPlace?, hplace, Option.bind_some]

theorem walk?_string (hv : v.base h = map .string e es) (s : String) (path : List Value) :
    v.walk? h (string s :: path) = (Entries.find? (.string s) es).bind (·.walk? h path) := by
  rw [walk?, part?_eq_place?, hv, place?_string, Option.map_map, Option.bind_map]
  rfl

/-- A write under a text stores an entry in the map behind a value, and leaves what is behind the
map. -/
theorem setIn_whole {as : List Addr} {t : Ty} (hh : h.Bounded) (hv : v.Bounded h)
    (hacyclic : h.AcyclicBehind v) (hmap : h.Leads v as (map .string e es))
    (hx : (setIn w [string ident] t v h).result = .ok true) :
    ∃ c h₁, (e.coerce w).run h = .ok (c, h₁) ∧
      h₁.SameOn (setIn w [string ident] t v h).heap (h.size ≤ ·) ∧
      h.Agrees (setIn w [string ident] t v h).heap (map .string e es) ∧
      (setIn w [string ident] t v h).value.base (setIn w [string ident] t v h).heap =
        map .string e (Entries.put (.string ident) c es) := by
  have hempty : v ≠ emptySlot := by
    rintro rfl
    cases hmap
  rw [setIn_cons hempty] at hx ⊢
  have hr := change_carries_of_leads hmap hacyclic (size_le_setPart w (string ident) [] h _)
  obtain ⟨-, _, h₁, hrun, heq⟩ := Edit.replace_eq_of_ok (hr.result_eq ▸ hx)
  obtain ⟨es', _, hinsert, hput⟩ := HeapM.run_bind_eq_ok.mp hrun
  cases hput
  obtain ⟨j, _, hj, hinsert⟩ := HeapM.run_bind_eq_ok.mp hinsert
  cases (Key.coerceWith_value (Ty.acceptsKey_string ident)).symm.trans hj
  obtain ⟨c, _, hc, hput⟩ := HeapM.run_bind_eq_ok.mp hinsert
  cases hput
  have heq : setPart w (string ident) [] h (map .string e es) =
    ⟨h₁, map .string e (Entries.put (.string ident) c es), .ok true⟩ := heq
  rw [heq] at hr
  have happends := (e.coerce_appends w h c h₁ hc).1
  obtain ⟨bs, hbs⟩ := hr.leads ⟨rfl, rfl⟩ (.refl _ _)
  refine ⟨c, h₁, hc, hr.sameOn.mono fun a ha => .inl ha, ?_, hbs.base_eq⟩
  refine ⟨hr.size_le, fun a ha => ?_⟩
  have hlt := (hmap.reaches ha).lt hh hv
  rw [hr.sameOn.get_eq a (Nat.lt_of_lt_of_le hlt happends.size_le) (.inr ha),
    happends.get_eq a hlt]

end

/-! ### Reads at identifiers -/

section

variable {h h₀ h₁ h' : Heap} {v w dest : Value} {t T : Ty} {path : List Value} {ident : String}

theorem propAt?_of_slotAt? (hne : path ≠ []) (hs : v.slotAt? t h path = some (T, w)) :
    v.propAt? path h = some w.peel := by
  obtain ⟨hbasic, hnil⟩ := isBasic_of_slotAt? hne hs
  rw [propAt?, fieldAt?, hbasic, hnil, List.isEmpty_eq_false_iff.mpr hne]
  show (v.walk? h path).map peel = _
  rw [walk?_eq_slotAt? (t := t), hs]
  rfl

theorem propById?_of_slotAt? (hident : pathOf ident ≠ [])
    (hs : v.slotAt? t h (pathOf ident) = some (T, w)) : v.propById? ident h = some w.peel := by
  obtain ⟨hbasic, hnil⟩ := isBasic_of_slotAt? hident hs
  rw [propById?, hbasic, hnil, propAt?_of_slotAt? hident hs]
  rfl

/-- Where the path leads nowhere in a map, the whole identifier is looked up. -/
theorem propById?_of_walk?_eq_none (hmap : v.isMap h = true) (hlength : 1 < (pathOf ident).length)
    (hnone : v.walk? h (pathOf ident) = none)
    (hs : v.slotAt? t h [string ident] = some (T, w)) : v.propById? ident h = some w.peel := by
  have hwhole : [string ident] ≠ [] := List.cons_ne_nil _ _
  obtain ⟨hbasic, hnil⟩ := isBasic_of_slotAt? hwhole hs
  have hmiss : v.propAt? (pathOf ident) h = none := by
    rw [propAt?, fieldAt?, hnone, ite_self]
    rfl
  rw [propById?, hbasic, hnil, hmiss, hmap, decide_eq_true hlength]
  exact propAt?_of_slotAt? hwhole hs

/-- Coercion changes no cell that was there, so that a later heap which has the cells that it made
and those behind its value has them as coercion left them. -/
theorem sameOn_of_coerce (hh : h.Bounded) (hv : v.Bounded h) (hagrees : h.Agrees h' v)
    (hagrees₀ : h.Agrees h₀ v) (hrun : (T.coerce v).run h₀ = .ok (w, h₁))
    (hsame : h₁.SameOn h' fun a => h₀.size ≤ a) :
    h₁.SameOn h' fun a => h₀.size ≤ a ∨ h.Reaches v a := by
  refine ⟨hsame.size_le, fun a ha hold => ?_⟩
  rcases hold with hle | hr
  · exact hsame.get_eq a ha hle
  · have hlt := Nat.lt_of_lt_of_le (hr.lt hh hv) hagrees₀.size_le
    rw [hagrees.get_eq a hr, (T.coerce_appends v h₀ w h₁ hrun).1.get_eq a hlt,
      hagrees₀.get_eq a hr]

theorem not_points_of_mem_pathOf : ∀ s ∈ pathOf ident, ∀ a, ¬s.Points a :=
  List.forall_mem_map.mpr fun _ _ _ => nofun

/-- A write leaves alone what is behind a value that shares no cell with its destination. -/
theorem agrees_of_setIn (hh : h.Bounded) (hv : v.Bounded h) (hapart : h.Apart dest v) :
    h.Agrees (setIn w path t dest h).heap v := by
  have hconfined : h.Confined dest (setIn w path t dest h).heap := setIn_confined
  exact ⟨hconfined.size_le, fun a ha =>
    hconfined.get_eq a (ha.lt hh hv) fun hd => hapart a hd ha⟩

/-- A write of `v` to `dest` on the heap `h` has filled the slot at a path, which holds the value
coerced into the type of the slot, and which is what is read at the identifier. The cells that
coercion made and those behind the value are as coercion left them. -/
def ReadsBack (r : Edit Bool) (h : Heap) (dest v : Value) (ident : String) (path : List Value) :
    Prop :=
  ∃ T w h₀ h₁, r.value.slotAt? dest.ty r.heap path = some (T, w) ∧
    r.value.propById? ident r.heap = some w.peel ∧
    h.Agrees h₀ v ∧ (T.coerce v).run h₀ = .ok (w, h₁) ∧
    h₁.SameOn r.heap fun a => h₀.size ≤ a ∨ h.Reaches v a

/-- A write along the path that an identifier spells is read back at the identifier. -/
theorem readsBack_of_found (hh : h.WellFormed) (hacyclic : h.Acyclic) (hdest : dest.WellFormed h)
    (hident : pathOf ident ≠ []) (hbounded : v.Bounded h) (hapart : h.Apart dest v)
    (hx : (setIn v (pathOf ident) dest.ty dest h).result = .ok true) :
    ReadsBack (setIn v (pathOf ident) dest.ty dest h) h dest v ident (pathOf ident) := by
  obtain ⟨T, w, ⟨h₀, h₁, happends, hrun, hsame⟩, hlook⟩ :=
    setIn_leaves v (pathOf ident) hh hacyclic hdest
      (fun s hs a ha => absurd ha (not_points_of_mem_pathOf s hs a)) hx
  have hconfined : h.Confined dest (setIn v (pathOf ident) dest.ty dest h).heap := setIn_confined
  have hslot := hlook _ (.refl _ _) fun s hs =>
    (Heap.Steady.of_not_points (not_points_of_mem_pathOf s hs) hconfined.size_le).agrees
  have hagrees₀ := happends.agrees hh.bounded hbounded
  exact ⟨T, w, h₀, h₁, hslot, propById?_of_slotAt? hident hslot, hagrees₀, hrun,
    sameOn_of_coerce hh.bounded hbounded (agrees_of_setIn hh.bounded hbounded hapart) hagrees₀ hrun
      hsame⟩

theorem exists_base_eq_map (hv : v.base h ≠ .invalid) (hmap : v.isMap h = true) :
    ∃ k e es, v.base h = map k e es := by
  rw [isMap, baseKind, baseTy_eq hv] at hmap
  cases hbase : v.base h with
  | map k e es => exact ⟨k, e, es, rfl⟩
  | int w n | uint w n | float w n =>
    rw [hbase] at hmap
    cases w <;> cases hmap
  | _ =>
    rw [hbase] at hmap
    cases hmap

/-- After a write below a destination whose keys are texts, it leads to a map with such keys if to
any. -/
theorem exists_leads_map {done : Bool} (hh : h.WellFormed) (hacyclic : h.Acyclic)
    (hdest : dest.WellFormed h) (hbasic : dest.isBasic h = false)
    (hkeys : ∀ k e, dest.baseTy h = .map k e → k = .string) (hne : path ≠ [])
    (hx : (setIn v path t dest h).result = .ok done)
    (hmap : (setIn v path t dest h).value.isMap (setIn v path t dest h).heap = true) :
    ∃ as e es, (setIn v path t dest h).heap.Leads (setIn v path t dest h).value as
      (map .string e es) := by
  obtain ⟨key, path, rfl⟩ := List.exists_cons_of_ne_nil hne
  have hempty : dest ≠ emptySlot := by
    rintro rfl
    have hty : emptySlot.baseTy h = .invalid := Heap.follow_eq_of_step fun _ => rfl
    rw [isBasic, baseKind, hty] at hbasic
    cases hbasic
  have hr := setIn_leadsOnly hh hacyclic hdest hempty hx
  generalize setIn v (key :: path) t dest h = r at *
  -- The changed base is of the type of the old one, which has parts.
  have hty := (setPart_sameShape v key path h (dest.baseOrNew h)).1.trans (ty_baseOrNew hbasic)
  generalize setPart v key path h (dest.baseOrNew h) = r₀ at *
  rw [isBasic, baseKind, ← hty] at hbasic
  have hbase : r₀.value.IsBase := by
    refine isBase_iff_ty.mpr ⟨fun e heq => ?_, fun heq => ?_⟩
    all_goals
      rw [heq] at hbasic
      cases hbasic
  obtain ⟨as, has⟩ := hr.leads hbase (.refl _ _)
  have hvalid : r.value.base r.heap ≠ .invalid := by
    intro heq
    rw [← has.base_eq, heq] at hbasic
    cases hbasic
  obtain ⟨k, e, es, heq⟩ := exists_base_eq_map hvalid hmap
  rw [has.base_eq] at heq
  rw [heq] at has hty
  cases hkeys k e hty.symm
  exact ⟨as, e, es, has⟩

/-- The first segment of several is not the whole identifier. -/
theorem exists_pathOf_eq_cons (hlength : 1 < (pathOf ident).length) :
    ∃ s rest, pathOf ident = string s :: rest ∧ s ≠ ident := by
  have hlength' : 1 < (Text.segments ident).length := by rwa [pathOf, List.length_map] at hlength
  cases hs : Text.segments ident with
  | nil =>
    rw [hs] at hlength'
    cases hlength'
  | cons s rest =>
    refine ⟨s, rest.map string, by rw [pathOf, hs, List.map_cons], ?_⟩
    exact Text.ne_of_mem_segments (hs ▸ List.mem_cons_self) hlength'

/-- What is stored under the whole identifier does not make the path lead anywhere. -/
theorem walk?_of_whole {h₂ : Heap} {u c : Value} {e : Ty} {es : List (Key × Value)}
    (hh : h.Bounded) (hv : v.Bounded h) (hacyclic : h.AcyclicBehind v)
    (hbase : v.base h = map .string e es) (hagrees : h.Agrees h₂ (map .string e es))
    (hbase' : u.base h₂ = map .string e (Entries.put (.string ident) c es))
    (hlength : 1 < (pathOf ident).length) (hmiss : v.walk? h (pathOf ident) = none) :
    u.walk? h₂ (pathOf ident) = none := by
  have hsegments : ∀ s ∈ pathOf ident, h.Steady h₂ s := fun s hs =>
    .of_not_points (not_points_of_mem_pathOf s hs) hagrees.size_le
  obtain ⟨s, rest, hpath, hne⟩ := exists_pathOf_eq_cons hlength
  rw [hpath] at hsegments hmiss ⊢
  have hother : BareKey.string s ≠ (Key.string ident).bare :=
    fun heq => hne (BareKey.string.inj heq)
  rw [walk?_string hbase] at hmiss
  rw [walk?_string hbase', Entries.find?_put_of_ne hother]
  cases hfind : Entries.find? (.string s) es with
  | none => rfl
  | some part =>
    rw [hfind] at hmiss
    obtain ⟨entry, hentry, rfl⟩ := Entries.mem_of_find?_eq_some hfind
    -- What is behind the entry is behind the map, and so it reads as it did.
    have hpoints (a : Addr) (ha : entry.2.Points a) : (v.base h).Points a :=
      hbase ▸ .map hentry ha
    have hreaches (a : Addr) (ha : h.Reaches entry.2 a) : h.Reaches (v.base h) a :=
      ha.of_points hpoints
    have hsteady : h.Steady h₂ entry.2 := by
      refine ⟨hagrees.of_reaches fun a ha => hbase ▸ hreaches a ha, ?_, ?_⟩
      · exact hacyclic.of_reaches fun a ha => (hreaches a ha).of_base
      · exact fun a ha => hv.base hh a (hpoints a ha)
    exact (hsteady.walk?_eq (List.forall_mem_cons.mp hsegments).2 hh).trans hmiss

/-- A write under the whole identifier, after one along the path that has found no place, is read
back at the identifier. -/
theorem readsBack_of_not_found {r : Edit Bool} (hr : setIn v (pathOf ident) dest.ty dest h = r)
    (hh : h.WellFormed) (hacyclic : h.Acyclic) (hdest : dest.WellFormed h)
    (hbasic : dest.isBasic h = false) (hkeys : ∀ k e, dest.baseTy h = .map k e → k = .string)
    (hv : v.peel.isNil = false) (hbounded : v.Bounded h) (hapart : h.Apart dest v)
    (hlength : 1 < (pathOf ident).length) (hx : r.result = .ok false)
    (hmap : r.value.isMap r.heap = true)
    (hx' : (setIn v [string ident] t r.value r.heap).result = .ok true) :
    ReadsBack (setIn v [string ident] t r.value r.heap) h dest v ident [string ident] := by
  have hident : pathOf ident ≠ [] := List.ne_nil_of_length_pos (Nat.lt_of_succ_lt hlength)
  have hsegments : ∀ s ∈ pathOf ident, h.Steady h s := fun s hs =>
    .of_not_points (not_points_of_mem_pathOf s hs) (Nat.le_refl _)
  have hagrees : h.Agrees r.heap v := hr ▸ agrees_of_setIn hh.bounded hbounded hapart
  -- The first write is the same for a truth value, so that it leaves what is well-formed.
  have hfits : r.Fits h dest.ty := by
    rw [← hr] at hx ⊢
    rw [← setIn_of_not_found hv (bool true) hx]
    exact setIn_fits hh hdest.fits_ty (.bool true) (List.forall_mem_map.mpr fun s _ => .string s)
  have hgrows : r.Grows h dest := by
    rw [← hr] at hx ⊢
    refine setIn_grows hv _ hh hdest (fun s hs => ?_) fun hdone => ?_
    · exact ⟨(hsegments s hs).bounded, (hsegments s hs).acyclic⟩
    · cases hx.symm.trans hdone
  have hmiss : r.value.walk? r.heap (pathOf ident) = none := by
    rw [← hr] at hx ⊢
    exact setIn_misses hv not_points_of_mem_pathOf hh hacyclic hdest hx (.refl _ _)
  obtain ⟨as, e, es, hleads⟩ : ∃ as e es, r.heap.Leads r.value as (map .string e es) := by
    rw [← hr] at hx hmap ⊢
    exact exists_leads_map hh hacyclic hdest hbasic hkeys hident hx hmap
  have hbehind := hgrows.acyclicBehind hh.bounded hacyclic hdest.bounded
  have hapart' := hgrows.apart hh.bounded hdest.bounded hbounded hapart hagrees
  have hheap := hfits.grows.wellFormed.bounded
  have hvalue := hfits.wellFormed.bounded
  obtain ⟨c, h₁, hrun, hsame, hkept, hbase⟩ := setIn_whole hheap hvalue hbehind hleads hx'
  have hagrees' : h.Agrees (setIn v [string ident] t r.value r.heap).heap v :=
    hagrees.trans (agrees_of_setIn hheap (hbounded.mono hagrees.size_le) hapart')
  generalize setIn v [string ident] t r.value r.heap = r' at *
  have hslot : r'.value.slotAt? dest.ty r'.heap [string ident] = some (e, c) := by
    have hput := Entries.find?_put (.string ident) c es
    rw [Key.bare] at hput
    rw [slotAt?, hbase, place?_string, hput]
    rfl
  have hvalid : r'.value.base r'.heap ≠ .invalid := by
    intro hinvalid
    cases hbase.symm.trans hinvalid
  have hmap' : r'.value.isMap r'.heap = true := by
    rw [isMap, baseKind, baseTy_eq hvalid, hbase]
    rfl
  have hmiss' := walk?_of_whole hheap hvalue hbehind hleads.base_eq hkept hbase hlength hmiss
  exact ⟨e, c, r.heap, h₁, hslot, propById?_of_walk?_eq_none hmap' hlength hmiss' hslot, hagrees,
    hrun, sameOn_of_coerce hh.bounded hbounded hagrees' hagrees hrun hsame⟩

/-- **A write at a dotted identifier is read back at the identifier.** Let a value that is there
share no cell with a destination that has parts, and whose keys are texts if it is a map. If a write
at an identifier is done, the value coerced into the type of the slot that was written is what is
read at the identifier, be the slot at the path that the identifier spells or, where that leads
nowhere in a map, under the whole identifier. -/
theorem propById?_of_setById (hh : h.WellFormed) (hacyclic : h.Acyclic) (hdest : dest.WellFormed h)
    (hbasic : dest.isBasic h = false) (hkeys : ∀ k e, dest.baseTy h = .map k e → k = .string)
    (hident : ident ≠ "") (hv : v.peel.isNil = false) (hbounded : v.Bounded h)
    (hapart : h.Apart dest v) (hx : (dest.setById v ident h).result = .ok true) :
    ((dest.set v (pathOf ident) h).result = .ok true ∧
        ReadsBack (dest.setById v ident h) h dest v ident (pathOf ident)) ∨
      ((dest.set v (pathOf ident) h).result = .ok false ∧
        ReadsBack (dest.setById v ident h) h dest v ident [string ident]) := by
  have hne : pathOf ident ≠ [] := mt List.map_eq_nil_iff.mp (Text.segments_ne_nil hident)
  have hset := set_eq_setIn (v := v) hne hbasic
  cases hfirst : (dest.set v (pathOf ident) h).result with
  | error e =>
    rw [setById, hfirst] at hx
    cases hfirst.symm.trans hx
  | ok done =>
    cases done with
    | true =>
      rw [setById, hfirst]
      rw [hset] at hfirst ⊢
      exact .inl ⟨rfl, readsBack_of_found hh hacyclic hdest hne hbounded hapart hfirst⟩
    | false =>
      rw [setById, hfirst] at hx ⊢
      dsimp only at hx ⊢
      split at hx
      · next hwhole =>
        obtain ⟨hmap, hlength⟩ := Bool.and_eq_true_iff.mp hwhole
        have hlength := of_decide_eq_true hlength
        have hbasic' : (dest.set v (pathOf ident) h).value.isBasic
            (dest.set v (pathOf ident) h).heap = false := by
          rw [isBasic, eq_of_beq hmap]
          rfl
        rw [if_pos hwhole]
        rw [set_eq_setIn (List.cons_ne_nil _ _) hbasic'] at hx ⊢
        exact .inr ⟨rfl, readsBack_of_not_found hset.symm hh hacyclic hdest hbasic hkeys hv
          hbounded hapart hlength hfirst hmap hx⟩
      · cases hfirst.symm.trans hx

/-- There is no place for `b` in a number, so that the number is stored under the whole identifier,
and read there. -/
theorem propById?_noCounts :
    (noCounts.setById (int .word 1) "a.b" .empty).result = .ok true ∧
      (((noCounts.set (int .word 1) (pathOf "a.b") .empty).result = .ok true ∧
          ReadsBack (noCounts.setById (int .word 1) "a.b" .empty) .empty noCounts (int .word 1)
            "a.b" (pathOf "a.b")) ∨
        ((noCounts.set (int .word 1) (pathOf "a.b") .empty).result = .ok false ∧
          ReadsBack (noCounts.setById (int .word 1) "a.b" .empty) .empty noCounts (int .word 1)
            "a.b" [string "a.b"])) := by
  have hdone : (noCounts.setById (int .word 1) "a.b" .empty).result = .ok true := by rfl
  have hkeys : ∀ k e, noCounts.baseTy .empty = .map k e → k = .string := by
    intro k e heq
    cases heq
    rfl
  have hapart : Heap.empty.Apart noCounts (int .word 1) := by
    rintro a - (hp | ⟨hp, -⟩) <;> cases hp
  exact ⟨hdone, propById?_of_setById Heap.empty_wellFormed Heap.empty_acyclic
    (wellFormed_map.mpr .nil) rfl hkeys (by decide) rfl nofun hapart hdone⟩

/-- A map from a text to a list with a number. -/
def listed : Value := map .string (.list .any) [(.string "a", list .any [slot (int .word 5)])]

/-- A slot with a pointer to nothing. -/
def nilInSlot : Value := slot (pointer (.int .word) none)

theorem listed_wellFormed : listed.WellFormed .empty := by
  have hitem : (slot (int .word 5)).Fits .any .empty := ⟨.slot nofun nofun (.int rfl), rfl⟩
  have hlist : (list .any [slot (int .word 5)]).Fits (.list .any) .empty :=
    ⟨wellFormed_list.mpr (List.forall_mem_singleton.mpr hitem), BEq.rfl⟩
  exact wellFormed_map.mpr
    (Entries.WellFormed.nil.put (Ty.acceptsKey_string "a") (.string "a") hlist)

/-- What is nothing only out of its slot empties the slot that the path selects, and is stored under
the whole identifier as well. What is read at the identifier afterwards is neither. -/
theorem not_forall_readsBack :
    ¬∀ (h : Heap) (dest v : Value) (ident : String), h.WellFormed → h.Acyclic → dest.WellFormed h →
      dest.isBasic h = false → (∀ k e, dest.baseTy h = .map k e → k = .string) → ident ≠ "" →
      v.WellFormed h → v.isNil = false → h.Apart dest v →
      (dest.setById v ident h).result = .ok true →
      ReadsBack (dest.setById v ident h) h dest v ident (pathOf ident) ∨
        ReadsBack (dest.setById v ident h) h dest v ident [string ident] := by
  intro hall
  have hkeys : ∀ k e, listed.baseTy .empty = .map k e → k = .string := by
    intro k e heq
    cases heq
    rfl
  have hapart : Heap.empty.Apart listed nilInSlot := by
    rintro a - (hp | ⟨hp, -⟩) <;> cases hp with | slot hp => cases hp
  rcases hall .empty listed nilInSlot "a.0" Heap.empty_wellFormed Heap.empty_acyclic
    listed_wellFormed rfl hkeys (by decide) (.slot nofun nofun (.nil _)) rfl hapart rfl with
    ⟨T, w, h₀, h₁, hslot, -, -, hrun, -⟩ | ⟨T, w, h₀, h₁, hslot, hread, -⟩
  · -- The slot on the path is empty, and coercion keeps the pointer to nothing.
    cases hslot
    cases hrun
  · -- The list under the whole identifier is not read.
    cases hslot
    cases hread

end

end Value

end DynamicEval
