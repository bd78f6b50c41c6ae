import DynamicEval.Proofs.Heap.Unshared
import DynamicEval.Proofs.Key
import DynamicEval.Proofs.Path.Read
import DynamicEval.Proofs.Path.ReadBack

/-!
# What a write along a path leaves at other paths

Two paths may go through the same places of a value up to some container, and name different parts
there. If the value is a tree as far as its cells go, then a write along one of them leaves what is
at the other as it is, and every cell behind that. It does not matter whether the write succeeds,
nor what it makes, coerces and writes back on its way.

## Main definitions

* `PartName`, `Value.partName?`: what a segment names in a container.
* `Value.Diverge`: two paths that come to a container and name different parts of it.
* `Edit.Spares`: a change of a value that leaves what is at a path as it is.

## Main results

* `Value.setPart_other`: a write at one segment leaves the other parts of a container as they are.
* `Value.setIn_spares`: a write along a path leaves what is at a diverging one.
* `Value.fieldAt?_set_of_diverge`: what is read at a diverging path is the same after the write.
-/

namespace DynamicEval

/-- The name of a part of a container: the place of an entry in a map, or the index of a field or of
an item. -/
inductive PartName where
  | entry (place : BareKey)
  | field (i : Nat)
  | item (i : Nat)
deriving DecidableEq

namespace Value

/-- What a segment names in a base, be it there or not. -/
def partName? (base key : Value) (h : Heap) : Option PartName :=
  match base with
  | map k _ _ => (Key.place? k key h).map .entry
  | record r _ => (r.exportedIndex? (key.toText h)).map .field
  | list _ _ | array _ _ => (key.index? h).map .item
  | _ => none

/-- Two paths select the same places in a value up to some container, and there their next segments
do not name the same part. -/
inductive Diverge (h : Heap) : Value → List Value → List Value → Prop where
  | here {v key key' : Value} {p q : List Value}
      (hne : (v.base h).partName? key h ≠ (v.base h).partName? key' h) :
      Diverge h v (key :: p) (key' :: q)
  | inside {v key key' : Value} {p q : List Value} {place : Place}
      (hkey : key.Selects h (v.base h) place) (hkey' : key'.Selects h (v.base h) place)
      (hrest : Diverge h place.content p q) : Diverge h v (key :: p) (key' :: q)

end Value

/-- A change of the value `dest` on the heap `h` leaves `w` at a path, with all that is behind it:
it is there on later heaps that keep what is new and what is behind the destination, where the
segments read as they did. -/
def Edit.Spares (r : Edit Bool) (h : Heap) (dest : Value) (path : List Value) (w : Value) : Prop :=
  ∀ h', r.heap.SameOn h' (h.IsNewOrBehind dest) → (∀ key ∈ path, h.Steady h' key) →
    r.value.walk? h' path = some w ∧ h.Agrees h' w

namespace Heap.Steady

variable {h h' : Heap} {v w key : Value} {path : List Value}

/-- What a segment names in a base. -/
theorem partName?_eq (hkey : h.Steady h' key) (hh : h.Bounded) (base : Value) :
    base.partName? key h' = base.partName? key h := by
  obtain ⟨ha, hacyclic, hbounded⟩ := hkey
  cases base with
  | map k e entries =>
    exact congrArg (Option.map _) (Key.place?_eq_of_agrees hh hacyclic hbounded ha)
  | record r fields =>
    rw [Value.partName?, Value.partName?, ha.toText_eq hacyclic hh hbounded]
  | list e items | array e items =>
    exact congrArg (Option.map _) (ha.index?_eq hacyclic hh hbounded)
  | _ => rfl

/-- What a path selects reads alike if the whole does. -/
theorem walk (hv : h.Steady h' v) (hh : h.Bounded) (hw : v.walk? h path = some w) :
    h.Steady h' w := by
  induction path generalizing v with
  | nil =>
    cases hw
    exact hv
  | cons key path ih =>
    obtain ⟨u, hu, hw⟩ := Option.bind_eq_some_iff.mp hw
    exact ih (hv.part hh hu) hw

end Heap.Steady

namespace Value

variable {h h' h₀ h₁ : Heap} {v w key key' base dest u : Value} {t k e : Ty} {p q : List Value}
  {es es' : List (Key × Value)} {a b : Place}

/-! ### Parts of a container -/

theorem Selects.exists_partAt? (ha : key.Selects h base a) :
    ∃ i, base.partAt? i = some a.content := by
  cases ha with
  | entry _ hw =>
    obtain ⟨i, k, hi, -⟩ := Entries.exists_getElem?_of_find? hw
    exact ⟨i, congrArg (Option.map Prod.snd) hi⟩
  | field _ _ hw | listItem _ hw | arrayItem _ hw => exact ⟨_, hw⟩

/-- Segments that name different parts select parts at different positions. -/
theorem Selects.exists_partAt?_ne (ha : key.Selects h base a) (hb : key'.Selects h base b)
    (hne : base.partName? key h ≠ base.partName? key' h) :
    ∃ i j, i ≠ j ∧ base.partAt? i = some a.content ∧ base.partAt? j = some b.content := by
  cases ha with
  | entry hplace hw =>
    cases hb with
    | entry hplace' hw' =>
      obtain ⟨i, k, hi, rfl⟩ := Entries.exists_getElem?_of_find? hw
      obtain ⟨j, k', hj, rfl⟩ := Entries.exists_getElem?_of_find? hw'
      refine ⟨i, j, ?_, congrArg (Option.map Prod.snd) hi, congrArg (Option.map Prod.snd) hj⟩
      rintro rfl
      cases hi.symm.trans hj
      exact hne (by rw [partName?, partName?, hplace, hplace'])
  | field hi _ hw =>
    cases hb with
    | field hj _ hw' =>
      refine ⟨_, _, ?_, hw, hw'⟩
      rintro rfl
      exact hne (by rw [partName?, partName?, hi, hj])
  | listItem hi hw =>
    cases hb with
    | listItem hj hw' =>
      refine ⟨_, _, ?_, hw, hw'⟩
      rintro rfl
      exact hne (by rw [partName?, partName?, hi, hj])
  | arrayItem hi hw =>
    cases hb with
    | arrayItem hj hw' =>
      refine ⟨_, _, ?_, hw, hw'⟩
      rintro rfl
      exact hne (by rw [partName?, partName?, hi, hj])

/-- What is put at a place leaves the other parts as they are. -/
theorem Selects.put_other (ha : key.Selects h base a) (hb : key'.Selects h' base b)
    (hne : base.partName? key h ≠ base.partName? key' h') (w : Value) :
    ∃ c, key'.Selects h' (a.put w) c ∧ c.content = b.content := by
  cases ha with
  | entry hplace hu =>
    cases hb with
    | entry hplace' hu' =>
      refine ⟨_, .entry hplace' ((Entries.find?_replace_of_ne ?_).trans hu'), rfl⟩
      rintro rfl
      exact hne (by rw [partName?, partName?, hplace, hplace'])
  | field hi _ _ =>
    cases hb with
    | field hj hf hu' =>
      refine ⟨_, .field hj hf ((List.getElem?_set_ne ?_).trans hu'), rfl⟩
      rintro rfl
      exact hne (by rw [partName?, partName?, hi, hj])
  | listItem hi _ =>
    cases hb with
    | listItem hj hu' =>
      refine ⟨_, .listItem hj ((List.getElem?_set_ne ?_).trans hu'), rfl⟩
      rintro rfl
      exact hne (by rw [partName?, partName?, hi, hj])
  | arrayItem hi _ =>
    cases hb with
    | arrayItem hj hu' =>
      refine ⟨_, .arrayItem hj ((List.getElem?_set_ne ?_).trans hu'), rfl⟩
      rintro rfl
      exact hne (by rw [partName?, partName?, hi, hj])

/-- An entry that is stored leaves the others as they are. -/
theorem insert_other (hh : h.Bounded) (hacyclic : h.AcyclicBehind key) (hkey : key.Bounded h)
    (ha : h.Agrees h₀ key) (hrun : (Entries.insert k e es key v).run h₀ = .ok (es', h₁))
    (hb : key'.Selects h' (map k e es) b)
    (hne : (map k e es).partName? key h ≠ (map k e es).partName? key' h') :
    ∃ c, key'.Selects h' (map k e es') c ∧ c.content = b.content := by
  obtain ⟨j, h₂, hj, hrun⟩ := HeapM.run_bind_eq_ok.mp hrun
  obtain ⟨w, h₃, hw, hrun⟩ := HeapM.run_bind_eq_ok.mp hrun
  cases hrun
  have hplace : Key.place? k key h = some j.bare := by
    rw [Key.place?, (Key.coerceWith_of_agrees hh hacyclic hkey ha (.refl h key) hj).2]
  cases hb with
  | entry hplace' hu =>
    refine ⟨_, .entry hplace' ((Entries.find?_put_of_ne ?_).trans hu), rfl⟩
    rintro rfl
    exact hne (by rw [partName?, partName?, hplace, hplace'])

/-- A value that is stored for a missing key leaves the other entries as they are. -/
theorem insertMade_other {made : Edit Bool} (hh : h.Bounded) (hacyclic : h.AcyclicBehind key)
    (hkey : key.Bounded h) (ha : h.Agrees made.heap key)
    (hb : key'.Selects h' (map k e es) b)
    (hne : (map k e es).partName? key h ≠ (map k e es).partName? key' h') :
    ∃ c, key'.Selects h' (insertMade k e es key made).value c ∧ c.content = b.content := by
  unfold insertMade Edit.replace
  split
  · exact ⟨b, hb, rfl⟩
  · split
    · next hrun =>
      obtain ⟨es', _, hinsert, hmap⟩ := HeapM.run_bind_eq_ok.mp hrun
      cases hmap
      exact insert_other hh hacyclic hkey ha hinsert hb hne
    · exact ⟨b, hb, rfl⟩

/-- A write at a segment leaves the other parts of a container as they are. -/
theorem setPart_other (hh : h.Bounded) (hacyclic : h.AcyclicBehind key) (hkey : key.Bounded h)
    (hb : key'.Selects h' base b)
    (hne : base.partName? key h ≠ base.partName? key' h') :
    ∃ c, key'.Selects h' (setPart v key p h base).value c ∧ c.content = b.content := by
  unfold setPart
  split
  · rw [Edit.replace]
    split
    · next hrun =>
      obtain ⟨es', _, hinsert, hmap⟩ := HeapM.run_bind_eq_ok.mp hrun
      cases hmap
      exact insert_other hh hacyclic hkey (.refl h key) hinsert hb hne
    · exact ⟨b, hb, rfl⟩
  · split
    · next ha => exact (place?_eq_some.mp ha).put_other hb hne _
    · unfold setMissing
      split
      · next segment path _ _ =>
        refine insertMade_other hh hacyclic hkey (Heap.Appends.agrees ?_ hh hkey) hb hne
        exact setIn_confined.appends (Ty.vivify_appends _ segment h) fun a => Ty.vivify_reaches
      · exact ⟨b, hb, rfl⟩

/-- Neither does it change a cell behind them, if the container shares no cells. -/
theorem setPart_agrees (hh : h.Bounded) (hbase : base.Bounded h) (hshare : h.Unshared base)
    (hb : key'.Selects h base b) (hne : base.partName? key h ≠ base.partName? key' h) :
    h.Agrees (setPart v key p h base).heap b.content := by
  have hbounded : b.content.Bounded h := fun c hc => hbase c (hb.points hc)
  unfold setPart
  split
  · exact (Edit.replace_appends (insertEntry_appends _ _ _ key v) _ _ _).agrees hh hbounded
  · split
    · next a ha =>
      obtain ⟨i, j, hij, hi, hj⟩ := (place?_eq_some.mp ha).exists_partAt?_ne hb hne
      have hconfined : h.Confined a.content (setIn v p a.ty a.content h).heap := setIn_confined
      refine ⟨hconfined.size_le, fun c hc => ?_⟩
      exact hconfined.get_eq c (hc.lt hh hbounded) fun hca => hshare.apart hij hi hj c hca hc
    · exact (setMissing_appends fun _ _ _ => setIn_confined).agrees hh hbounded

/-! ### Paths that diverge -/

theorem Diverge.ne_nil (hpq : dest.Diverge h p q) : p ≠ [] := by
  cases hpq <;> exact List.cons_ne_nil _ _

/-- A write along a path leaves what is at another one if the write at the base does. -/
theorem setIn_spares_of_setPart (hshare : h.Unshared dest) (hu : dest.base h ≠ .invalid)
    (hpart : ∀ h', (setPart v key p h (dest.base h)).heap.SameOn h'
        (h.IsNewOrBehind (dest.base h)) → (∀ s ∈ key' :: q, h.Steady h' s) →
      ∃ c, key'.Selects h' (setPart v key p h (dest.base h)).value c ∧
        c.content.walk? h' q = some w ∧ h.Agrees h' w) :
    (setIn v (key :: p) t dest h).Spares h dest (key' :: q) w := by
  have hempty : dest ≠ emptySlot := by
    rintro rfl
    exact hu (Heap.follow_eq_of_step fun _ => rfl)
  obtain ⟨as, has⟩ := Heap.exists_leads hu
  have hcarries :=
    change_carries_of_leads has hshare.acyclicBehind (size_le_setPart v key p h (dest.base h))
  rw [setIn_cons hempty]
  intro h' hs hsteady
  have hs₀ := hcarries.sameOn.trans (hs.mono fun a ha => ha.of_reaches hcarries.reaches)
  obtain ⟨c, hc, hwalk, hagrees⟩ := hpart h' hs₀ hsteady
  obtain ⟨bs, hbs⟩ := hcarries.leads hc.isBase hs
  refine ⟨?_, hagrees⟩
  rw [walk?, part?_eq_place?, hbs.base_eq, place?_eq_some.mpr hc]
  exact hwalk

/-- A write along a path leaves what is at one that diverges from it. -/
theorem setIn_spares (hh : h.Bounded) (hdest : dest.Bounded h) (hshare : h.Unshared dest)
    (hp : ∀ s ∈ p, s.Bounded h ∧ h.AcyclicBehind s) (hpq : dest.Diverge h p q)
    (hw : dest.walk? h q = some w) : (setIn v p t dest h).Spares h dest q w := by
  induction hpq generalizing t with
  | @here dest key key' p q hne =>
    obtain ⟨⟨hkey, hacyclic⟩, -⟩ := List.forall_mem_cons.mp hp
    obtain ⟨b, hb, hw⟩ := exists_selects_of_walk? hw
    have hbase := hdest.base hh
    have hshare₀ := hshare.base hb.base_ne
    refine setIn_spares_of_setPart hshare hb.base_ne fun h' hs hsteady => ?_
    obtain ⟨hkey', hq⟩ := List.forall_mem_cons.mp hsteady
    have hb' : key'.Selects h' (dest.base h) b := by
      rw [← place?_eq_some, hkey'.place?_eq hh]
      exact place?_eq_some.mpr hb
    obtain ⟨c, hc, hcontent⟩ := setPart_other (v := v) (p := p) hh hacyclic hkey hb'
      (by rwa [hkey'.partName?_eq hh])
    have hkept := setPart_agrees (v := v) (p := p) hh hbase hshare₀ hb hne
    have hcell (a : Addr) (ha : h.Reaches b.content a) : h.Reaches (dest.base h) a :=
      ha.of_points fun _ => hb.points
    have hsteady' : h.Steady h' b.content := by
      refine ⟨⟨Nat.le_trans hkept.size_le hs.size_le, fun a ha => ?_⟩, ?_, ?_⟩
      · rw [hs.get_eq a ?_ (.inr (hcell a ha)), hkept.get_eq a ha]
        exact Nat.lt_of_lt_of_le ((hcell a ha).lt hh hbase) hkept.size_le
      · exact hshare₀.acyclicBehind.of_reaches hcell
      · exact fun a ha => hbase a (hb.points ha)
    refine ⟨c, hc, ?_, (hsteady'.walk hh hw).agrees⟩
    rw [hcontent, hsteady'.walk?_eq hq hh, hw]
  | @inside dest key key' p q a ha ha' hrest ih =>
    obtain ⟨-, hp⟩ := List.forall_mem_cons.mp hp
    obtain ⟨b, hb, hw⟩ := exists_selects_of_walk? hw
    cases (place?_eq_some.mpr ha').symm.trans (place?_eq_some.mpr hb)
    have hshare₀ := hshare.base hb.base_ne
    obtain ⟨i, hi⟩ := ha.exists_partAt?
    have hspares := ih (t := a.ty) (fun c hc => hdest.base hh c (ha.points hc)) (hshare₀.part hi) hp hw
    refine setIn_spares_of_setPart hshare hb.base_ne fun h' hs hsteady => ?_
    obtain ⟨hkey', hq⟩ := List.forall_mem_cons.mp hsteady
    rw [setPart_of_selects ha hrest.ne_nil] at hs ⊢
    obtain ⟨hwalk, hagrees⟩ := hspares h' (hs.mono fun c hc => hc.of_reaches fun d hd =>
      hd.of_points fun _ => ha.points) hq
    obtain ⟨c, hc, -, hcontent⟩ := ha'.put hh hkey'.acyclic hkey'.bounded hkey'.agrees
      (setIn v p a.ty a.content h).value
    exact ⟨c, hc, hcontent ▸ hwalk, hagrees⟩

/-- **A write along a path touches its own slot only.** Let no cell behind a destination be reached
along two routes, and let two paths select the same places in it up to some container and name
different parts there. What is read at one of them is the same after a write at the other, with all
that is behind it, whatever the write gives. -/
theorem fieldAt?_set_of_diverge (hh : h.Bounded) (hdest : dest.Bounded h)
    (hshare : h.Unshared dest) (hsegments : ∀ s ∈ p ++ q, s.Bounded h ∧ h.AcyclicBehind s)
    (hapart : ∀ s ∈ q, h.Apart dest s) (hpq : dest.Diverge h p q)
    (hw : dest.fieldAt? q h = some w) :
    (dest.set v p h).value.fieldAt? q (dest.set v p h).heap = some w ∧
      h.Agrees (dest.set v p h).heap w := by
  obtain ⟨hp, hq⟩ := List.forall_mem_append.mp hsegments
  obtain ⟨hne, hw⟩ := walk?_of_fieldAt? hw
  rw [set_eq_setIn hpq.ne_nil (isBasic_of_walk? hne hw).1]
  have hconfined : h.Confined dest (setIn v p dest.ty dest h).heap := setIn_confined
  have hsteady (s : Value) (hs : s ∈ q) : h.Steady (setIn v p dest.ty dest h).heap s := by
    obtain ⟨hbounded, hacyclic⟩ := hq s hs
    refine ⟨⟨hconfined.size_le, fun a ha => ?_⟩, hacyclic, hbounded⟩
    exact hconfined.get_eq a (ha.lt hh hbounded) fun hd => hapart s hs a hd ha
  obtain ⟨hwalk, hagrees⟩ := setIn_spares hh hdest hshare hp hpq hw _ (.refl _ _) hsteady
  exact ⟨fieldAt?_of_walk? hne hwalk, hagrees⟩

end Value

/-- A heap with a number, and a map with a pointer to the number and another map. -/
def Heap.ofFiveInMap : Heap :=
  ⟨#[.int .word 5, .map .string .any
    [(.string "a", .slot (.pointer (.int .word) (some 0))), (.string "m", .slot (.map .string .any []))]]⟩

namespace Value

/-- A pointer to the map of `Heap.ofFiveInMap`. -/
def toFiveInMap : Value := pointer (.map .string .any) (some 1)

theorem ofFiveInMap_bounded : Heap.ofFiveInMap.Bounded := by
  have hcells : ∀ a < 2, (Heap.ofFiveInMap.get a).Within (· < 2)
    | 0, _ => within_of_not_points nofun
    | 1, _ => by
      refine within_map.mpr ?_
      simp only [List.forall_mem_cons]
      refine ⟨within_slot.mpr (within_pointer.mpr (by decide)), within_slot.mpr ?_, nofun⟩
      exact within_map.mpr nofun
  exact hcells

/-- There is one route to the map and one to the number. -/
theorem unshared_toFiveInMap : Heap.ofFiveInMap.Unshared toFiveInMap := by
  have hnumber {is : List Nat} {a : Addr} : ¬(Heap.ofFiveInMap.get 0).PointsAt is a := by
    rintro (_ | _ | ⟨hi, _⟩)
    cases hi
  have hmap {is : List Nat} {a : Addr} (hp : (Heap.ofFiveInMap.get 1).PointsAt is a) :
      is = [0] ∧ a = 0 := by
    rcases hp with _ | _ | @⟨_, _, i, _, _, hi, hp⟩
    match i with
    | 0 =>
      cases hi
      obtain ⟨rfl, rfl⟩ := pointsAt_pointer.mp (pointsAt_slot.mp hp)
      exact ⟨rfl, rfl⟩
    | 1 =>
      cases hi
      rcases pointsAt_slot.mp hp with _ | _ | ⟨hi, _⟩
      cases hi
    | i + 2 => cases hi
  have hroute {a : Addr} {route : List (List Nat)}
      (hr : Heap.ofFiveInMap.Route toFiveInMap route a) :
      a = 1 ∧ route = [[]] ∨ a = 0 ∧ route = [[], [0]] := by
    cases hr with
    | direct hp =>
      obtain ⟨rfl, rfl⟩ := pointsAt_pointer.mp hp
      exact .inl ⟨rfl, rfl⟩
    | behind hp hr =>
      obtain ⟨rfl, rfl⟩ := pointsAt_pointer.mp hp
      cases hr with
      | direct hp =>
        obtain ⟨rfl, rfl⟩ := hmap hp
        exact .inr ⟨rfl, rfl⟩
      | behind hp hr =>
        obtain ⟨-, rfl⟩ := hmap hp
        cases hr with
        | direct hp | behind hp _ => exact absurd hp hnumber
  intro a route route' hr hr'
  rcases hroute hr with ⟨rfl, rfl⟩ | ⟨rfl, rfl⟩
  · rcases hroute hr' with ⟨-, rfl⟩ | ⟨h0, -⟩
    · rfl
    · cases h0
  · rcases hroute hr' with ⟨h0, -⟩ | ⟨-, rfl⟩
    · cases h0
    · rfl

/-- A number that is written into the inner map leaves the pointer next to it. -/
theorem fieldAt?_set_toFiveInMap :
    toFiveInMap.fieldAt? [string "a"] .ofFiveInMap = some (slot (pointer (.int .word) (some 0))) ∧
    (toFiveInMap.set (int .word 7) [string "m", string "c"] .ofFiveInMap).value.fieldAt? [string "a"]
        (toFiveInMap.set (int .word 7) [string "m", string "c"] .ofFiveInMap).heap =
      some (slot (pointer (.int .word) (some 0))) ∧
    Heap.ofFiveInMap.Agrees
      (toFiveInMap.set (int .word 7) [string "m", string "c"] .ofFiveInMap).heap
      (slot (pointer (.int .word) (some 0))) := by
  have hread : toFiveInMap.fieldAt? [string "a"] .ofFiveInMap =
      some (slot (pointer (.int .word) (some 0))) := rfl
  have htext (s : String) (a : Addr) : ¬Heap.ofFiveInMap.Reaches (string s) a := by
    rintro (hp | ⟨hp, -⟩) <;> cases hp
  refine ⟨hread, fieldAt?_set_of_diverge ofFiveInMap_bounded (within_pointer.mpr (by decide))
    unshared_toFiveInMap ?_ ?_ (.here (by decide)) hread⟩
  · simp only [List.cons_append, List.nil_append, List.forall_mem_cons]
    exact ⟨⟨nofun, fun a ha => absurd ha (htext _ a)⟩, ⟨nofun, fun a ha => absurd ha (htext _ a)⟩,
      ⟨nofun, fun a ha => absurd ha (htext _ a)⟩, nofun⟩
  · exact List.forall_mem_singleton.mpr fun a _ => htext _ a

end Value

end DynamicEval
