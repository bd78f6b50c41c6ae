import DynamicEval.Proofs.Path.Write

/-!
# Writes along paths are read back

If a write along a path succeeds, the same path selects a slot afterwards, and the slot holds the
value coerced into the declared type of the slot. That is so on any later heap that keeps what the
write made and what is behind its destination and the segments, so that a write below one level of a
path is still there when the levels above it are written back.

## Main definitions

* `Ty.Stores`: a value coerced into a type, on a heap to which a write has only added cells.
* `Edit.Leaves`: what a write leaves for reads on later heaps.
* `Value.PathLeaves`: every write along a path leaves the slot that the path selects.

## Main results

* `Value.setIn_leaves`: a successful write leaves the slot that the path selects.
* `Value.fieldAt?_of_set`: a successful write is read back.
-/

namespace DynamicEval

/-! ### What a write leaves -/

/-- A value is coerced into a type on a heap to which cells may have been added since `h`, and the
cells that coercion made are on a later heap as it left them. -/
def Ty.Stores (t : Ty) (v w : Value) (h h' : Heap) : Prop :=
  ∃ h₀ h₁, h.Appends h₀ ∧ (t.coerce v).run h₀ = .ok (w, h₁) ∧ h₁.SameOn h' fun a => h₀.size ≤ a

theorem Ty.Stores.after {t : Ty} {v w : Value} {h h' h'' : Heap} (hs : t.Stores v w h' h'')
    (hh : h.Appends h') : t.Stores v w h h'' := by
  obtain ⟨h₀, h₁, happends, hrun, hsame⟩ := hs
  exact ⟨h₀, h₁, hh.trans happends, hrun, hsame⟩

theorem Ty.Stores.keep {t : Ty} {v w : Value} {h h' h'' : Heap} {P : Addr → Prop}
    (hs : t.Stores v w h h') (hsame : h'.SameOn h'' P) (hP : ∀ a, h.size ≤ a → P a) :
    t.Stores v w h h'' := by
  obtain ⟨h₀, h₁, happends, hrun, hsame'⟩ := hs
  refine ⟨h₀, h₁, happends, hrun, hsame'.trans (hsame.mono fun a ha => hP a ?_)⟩
  exact Nat.le_trans happends.size_le ha

/-- A write of `v` at a path of a value `dest` on the heap `h` leaves a slot with what it stored: it
is what `look` finds, on later heaps that keep what is new, what is behind the destination and what
is behind the segments. -/
def Edit.Leaves (r : Edit Bool) (h : Heap) (dest v : Value) (path : List Value)
    (look : Value → Heap → Option (Ty × Value)) : Prop :=
  ∃ t w, t.Stores v w h r.heap ∧ ∀ h', r.heap.SameOn h' (h.IsNewOrBehind dest) →
    (∀ key ∈ path, h.Agrees h' key) → look r.value h' = some (t, w)

theorem Edit.replace_eq_of_ok {α : Type} {h : Heap} {v : Value} {new : HeapM Value} {x y : α}
    (hr : (replace h v new x).result = .ok y) :
    x = y ∧ ∃ w h', new.run h = .ok (w, h') ∧ replace h v new x = ⟨h', w, .ok y⟩ := by
  rw [replace] at hr ⊢
  split at hr
  · next w h' hrun =>
    cases hr
    exact ⟨rfl, w, h', hrun, rfl⟩
  · cases hr

namespace Value

variable {h h₀ h₁ : Heap} {v dest key base : Value} {t k e : Ty} {path : List Value}
  {es es' : List (Key × Value)}

/-- An entry that is stored is found by the key, on every heap with the same cells behind the key. -/
theorem selects_of_insert (hh : h.Bounded) (hacyclic : h.AcyclicBehind key) (hkey : key.Bounded h)
    (ha : h.Agrees h₀ key) (hrun : (Entries.insert k e es key v).run h₀ = .ok (es', h₁)) :
    ∃ w, (e.coerce v).run h₀ = .ok (w, h₁) ∧ ∀ h', h.Agrees h' key →
      ∃ p, key.Selects h' (map k e es') p ∧ p.ty = e ∧ p.content = w := by
  obtain ⟨j, h₂, hj, hrun⟩ := HeapM.run_bind_eq_ok.mp hrun
  obtain ⟨w, h₃, hw, hrun⟩ := HeapM.run_bind_eq_ok.mp hrun
  cases hrun
  obtain ⟨rfl, -⟩ := Key.coerceWith_of_agrees hh hacyclic hkey ha (.refl h key) hj
  refine ⟨w, hw, fun h' ha' => ?_⟩
  have hplace : Key.place? k key h' = some j.bare := by
    rw [Key.place?, (Key.coerceWith_of_agrees hh hacyclic hkey ha ha' hj).2]
  exact ⟨_, .entry hplace (Entries.find?_put j w es), rfl, rfl⟩

/-- A value that was made for a missing key is stored as it is, if coercion keeps it. -/
theorem insertMade_of_ok {made : Edit Bool} {done : Bool} (hh : h.Bounded)
    (hacyclic : h.AcyclicBehind key) (hkey : key.Bounded h) (ha : h.Agrees made.heap key)
    (hself : made.result = .ok done →
      (e.coerce made.value).run made.heap = .ok (made.value, made.heap))
    (hx : (insertMade k e es key made).result = .ok done) :
    made.result = .ok done ∧ ∃ es', insertMade k e es key made = ⟨made.heap, map k e es', .ok done⟩ ∧
      ∀ h', h.Agrees h' key →
        ∃ p, key.Selects h' (map k e es') p ∧ p.ty = e ∧ p.content = made.value := by
  unfold insertMade at hx ⊢
  split at hx
  · cases hx
  · next done' hdone =>
    obtain ⟨rfl, _, h₁, hrun, heq⟩ := Edit.replace_eq_of_ok hx
    obtain ⟨es', _, hinsert, hmap⟩ := HeapM.run_bind_eq_ok.mp hrun
    cases hmap
    obtain ⟨w, hw, hplace⟩ := selects_of_insert hh hacyclic hkey ha hinsert
    rw [hself hdone] at hw
    cases hw
    exact ⟨hdone, es', heq, hplace⟩

/-- Every write of `v` along a path leaves the slot that the path selects. -/
def PathLeaves (v : Value) (path : List Value) : Prop :=
  ∀ {h : Heap} {t : Ty} {dest : Value}, h.WellFormed → h.Acyclic → dest.WellFormed h →
    (∀ segment ∈ path, segment.Bounded h) → (setIn v path t dest h).result = .ok true →
    (setIn v path t dest h).Leaves h dest v path fun u h' => u.slotAt? t h' path

/-- A value that was made for a missing key leaves the slot that the write left in it. -/
theorem insertMade_leaves {new : Value} (hrest : PathLeaves v path) (hh : h.Bounded)
    (hacyclic : h.Acyclic) (hpath : ∀ segment ∈ key :: path, segment.Bounded h) (hne : path ≠ [])
    (happends : h.Appends h₀) (hh₀ : h₀.WellFormed) (hacyclic₀ : h₀.Acyclic)
    (hnew : new.Fits e h₀) (hshape : new.ty = .any → new.peel.ty ≠ .invalid ∧ new.peel.ty ≠ .any)
    (hreaches : ∀ a, h₀.Reaches new a → h.size ≤ a)
    (hx : (insertMade k e es key (setIn v path e new h₀)).result = .ok true) :
    (insertMade k e es key (setIn v path e new h₀)).Leaves h (map k e es) v (key :: path)
      fun u h' => (u.place? key h').bind fun p => p.content.slotAt? p.ty h' path := by
  have hkey := hpath key List.mem_cons_self
  have htail : ∀ s ∈ path, s.Bounded h := fun s hs => hpath s (List.mem_cons_of_mem _ hs)
  have hleaves := hrest (t := e) hh₀ hacyclic₀ hnew.wellFormed
    fun s hs => (htail s hs).mono happends.size_le
  have hconfined : h₀.Confined new (setIn v path e new h₀).heap := setIn_confined
  obtain ⟨hty, hpeel⟩ : (setIn v path e new h₀).value.SameShape new := setIn_sameShape hne
  generalize setIn v path e new h₀ = made at *
  -- The write leaves a slot in what was made, which is no basic value then: coercion keeps it.
  have hold := hconfined.appends happends hreaches
  have hself : made.result = .ok true →
      (e.coerce made.value).run made.heap = .ok (made.value, made.heap) := by
    intro hdone
    obtain ⟨T, w, -, hlook⟩ := hleaves hdone
    have hslot := hlook made.heap (.refl _ _) fun s hs =>
      (hold.agrees hh (htail s hs)).of_appends happends hh (htail s hs) hconfined.size_le
    refine Ty.coerce_self (hty ▸ hnew.accepts) (isBasic_of_slotAt? hne hslot).2 ?_
    rw [hty, hpeel]
    exact hshape
  obtain ⟨hdone, es', heq, hplace⟩ :=
    insertMade_of_ok hh (hacyclic.behind key) hkey (hold.agrees hh hkey) hself hx
  obtain ⟨T, w, hstores, hlook⟩ := hleaves hdone
  rw [heq]
  refine ⟨T, w, hstores.after happends, fun h' hs hagrees => ?_⟩
  obtain ⟨p, hp, hpty, hcontent⟩ := hplace h' (hagrees key List.mem_cons_self)
  dsimp only
  rw [place?_eq_some.mpr hp, Option.bind_some, hpty, hcontent]
  refine hlook h' (hs.mono fun a ha => .inl ?_) fun s hs' => ?_
  · rcases ha with hle | hr
    · exact Nat.le_trans happends.size_le hle
    · exact hreaches a hr
  · have ha := hagrees s (List.mem_cons_of_mem _ hs')
    exact ha.of_appends happends hh (htail s hs') (Nat.le_trans hconfined.size_le hs.size_le)

/-- A write at a segment leaves a slot if writes along the rest of the path do. -/
theorem setPart_leaves (hrest : PathLeaves v path) (hh : h.WellFormed) (hacyclic : h.Acyclic)
    (hbase : base.WellFormed h) (hpath : ∀ segment ∈ key :: path, segment.Bounded h)
    (hx : (setPart v key path h base).result = .ok true) :
    (setPart v key path h base).Leaves h base v (key :: path) fun u h' =>
      (u.place? key h').bind fun p => p.content.slotAt? p.ty h' path := by
  have hkey := hpath key List.mem_cons_self
  unfold setPart at hx ⊢
  split at hx
  · next k e es =>
    obtain ⟨-, _, h₁, hrun, heq⟩ := Edit.replace_eq_of_ok hx
    obtain ⟨es', _, hinsert, hmap⟩ := HeapM.run_bind_eq_ok.mp hrun
    cases hmap
    obtain ⟨w, hw, hplace⟩ :=
      selects_of_insert hh.bounded (hacyclic.behind key) hkey (.refl h key) hinsert
    rw [heq]
    refine ⟨e, w, ⟨h, h₁, .refl h, hw, .refl _ _⟩, fun h' _ hagrees => ?_⟩
    obtain ⟨p, hp, rfl, rfl⟩ := hplace h' (hagrees key List.mem_cons_self)
    dsimp only
    rw [place?_eq_some.mpr hp, Option.bind_some]
    rfl
  · split at hx
    · next p hp =>
      have hp := place?_eq_some.mp hp
      have hcontent := (hp.fits hbase).content.wellFormed
      have htail : ∀ s ∈ path, s.Bounded h := fun s hs => hpath s (List.mem_cons_of_mem _ hs)
      obtain ⟨T, w, hstores, hlook⟩ := hrest hh hacyclic hcontent htail hx
      refine ⟨T, w, hstores, fun h' hs hagrees => ?_⟩
      obtain ⟨q, hq, hty, hq'⟩ := hp.put hh.bounded (hacyclic.behind key) hkey
        (hagrees key List.mem_cons_self) (setIn v path p.ty p.content h).value
      simp only [Edit.within, place?_eq_some.mpr hq, Option.bind_some, hty, hq']
      refine hlook h' (hs.mono fun a ha => ?_) fun s hs => hagrees s (List.mem_cons_of_mem _ hs)
      exact ha.of_reaches fun b hb => hb.of_points fun c => hp.points
    · unfold setMissing at hx ⊢
      split at hx
      · next k e es segment path _ _ =>
        obtain ⟨hgrows, hnew⟩ := e.vivify_fits hh segment
        exact insertMade_leaves hrest hh.bounded hacyclic hpath (List.cons_ne_nil _ _)
          (e.vivify_appends segment h) hgrows.wellFormed
          (Ty.vivify_acyclic hh.bounded hacyclic e segment) hnew Ty.vivify_shape
          (fun a => Ty.vivify_reaches) hx
      · cases hx

/-- A write along a path that succeeds leaves the slot that the path selects. -/
theorem setIn_leaves (v : Value) (path : List Value) : PathLeaves v path := by
  intro h t dest hh hacyclic hdest hpath hx
  induction path generalizing t dest h with
  | nil =>
    obtain ⟨hnil, w, h₁, hrun, heq⟩ := Edit.replace_eq_of_ok hx
    unfold Ty.assign at hrun
    rw [Bool.not_eq_true'] at hnil
    rw [hnil, if_neg nofun] at hrun
    have heq : setIn v [] t dest h = ⟨h₁, w, .ok true⟩ := heq
    rw [heq]
    refine ⟨t, w, ⟨h, h₁, .refl h, ?_, .refl _ _⟩, fun _ _ _ => rfl⟩
    split at hrun
    · cases hrun
    · exact hrun
  | cons key path ih =>
    have hempty : dest ≠ emptySlot := by
      rintro rfl
      cases hx
    -- The cells on the way to the base are written back after the base, and keep what it left.
    rw [setIn_cons hempty] at hx ⊢
    obtain ⟨u, hu, hcarries⟩ := change_carries hh hacyclic hdest
      (fun u _ => size_le_setPart v key path h u) hx
    obtain ⟨T, w, hstores, hlook⟩ :=
      setPart_leaves ih hh hacyclic hu hpath (hcarries.result_eq ▸ hx)
    refine ⟨T, w, hstores.keep hcarries.sameOn fun a ha => .inl ha, fun h' hs hagrees => ?_⟩
    have hslot := hlook h' (hcarries.sameOn.trans (hs.mono fun a ha => ?_)) hagrees
    · obtain ⟨p, hp, -⟩ := Option.bind_eq_some_iff.mp hslot
      obtain ⟨as, has⟩ := hcarries.leads (place?_eq_some.mp hp).isBase hs
      dsimp only
      rw [slotAt?, has.base_eq]
      exact hslot
    · exact ha.of_reaches hcarries.reaches

/-- A write at a path that succeeds is read back: the path selects a slot, and the slot holds the
value coerced into its declared type. The cells that coercion made and those behind the value are as
coercion left them. -/
theorem fieldAt?_of_set (hh : h.WellFormed) (hacyclic : h.Acyclic) (hdest : dest.WellFormed h)
    (hbasic : dest.isBasic h = false) (hne : path ≠ []) (hbounded : ∀ u ∈ v :: path, u.Bounded h)
    (hapart : ∀ u ∈ v :: path, ∀ a, h.Reaches dest a → ¬h.Reaches u a)
    (hx : (dest.set v path h).result = .ok true) :
    ∃ T w h₀ h₁,
      (dest.set v path h).value.slotAt? dest.ty (dest.set v path h).heap path = some (T, w) ∧
      (dest.set v path h).value.fieldAt? path (dest.set v path h).heap = some w ∧
      h.Appends h₀ ∧ (T.coerce v).run h₀ = .ok (w, h₁) ∧
      h₁.SameOn (dest.set v path h).heap fun a => h₀.size ≤ a ∨ h.Reaches v a := by
  have hset : dest.set v path h = setIn v path dest.ty dest h := by
    rw [set] at hx ⊢
    split at hx
    · cases hx
    · next hinvalid =>
      rw [if_neg hinvalid, hbasic, Bool.or_false, if_neg]
      exact fun hempty => hne (List.isEmpty_iff.mp hempty)
  rw [hset] at hx ⊢
  have hconfined : h.Confined dest (setIn v path dest.ty dest h).heap := setIn_confined
  have hagrees : ∀ u ∈ v :: path, h.Agrees (setIn v path dest.ty dest h).heap u := by
    refine fun u hu => ⟨hconfined.size_le, fun a ha => ?_⟩
    exact hconfined.get_eq a (ha.lt hh.bounded (hbounded u hu)) fun hr => hapart u hu a hr ha
  obtain ⟨T, w, ⟨h₀, h₁, happends, hrun, hsame⟩, hlook⟩ :=
    setIn_leaves v path hh hacyclic hdest (fun s hs => hbounded s (List.mem_cons_of_mem _ hs)) hx
  have hslot : slotAt? dest.ty _ _ path = some (T, w) :=
    hlook _ (.refl _ _) fun s hs => hagrees s (List.mem_cons_of_mem _ hs)
  obtain ⟨hbasic', hnil⟩ := isBasic_of_slotAt? hne hslot
  refine ⟨T, w, h₀, h₁, hslot, ?_, happends, hrun, hsame.size_le, fun a ha hold => ?_⟩
  · rw [fieldAt?, List.isEmpty_eq_false_iff.mpr hne, hbasic', hnil]
    exact walk?_eq_slotAt?.trans (congrArg (Option.map Prod.snd) hslot)
  · rcases hold with hle | hr
    · exact hsame.get_eq a ha hle
    · have hlt := hr.lt hh.bounded (hbounded v List.mem_cons_self)
      have hcoerced := (T.coerce_appends v h₀ w h₁ hrun).1
      rw [(hagrees v List.mem_cons_self).get_eq a hr, (happends.trans hcoerced).get_eq a hlt]

end Value

/-- A heap with one cell, which holds a number. -/
def Heap.ofFive : Heap := ⟨#[.int .word 5]⟩

theorem Heap.ofFive_wellFormed : ofFive.WellFormed
  | 0, _ => .int rfl

theorem Heap.ofFive_acyclic : ofFive.Acyclic
  | 0 => by rintro (hp | ⟨hp, -⟩) <;> cases hp
  | _ + 1 => not_reaches_invalid

namespace Value

/-- A pointer to the cell of `Heap.ofFive`. -/
def five : Value := pointer (.int .word) (some 0)

/-- A pointer to nothing, instead of a map. -/
def nilMap : Value := pointer (.map .string .any) none

/-- A path through two maps, the second of which has numbers for keys. -/
def nestedPath : List Value := [string "a", slot (int .word 7)]

theorem bounded_of_mem_nestedPath : ∀ u ∈ five :: nestedPath, u.Bounded .ofFive := by
  intro u hu
  rcases List.mem_cons.mp hu with rfl | hu
  · have htype : (Ty.int .word).Accepts (Heap.ofFive.get 0).ty := BEq.rfl
    exact (WellFormed.pointer (by decide) htype).bounded
  rcases List.mem_cons.mp hu with rfl | hu
  · exact nofun
  · rw [List.mem_singleton.mp hu]
    rintro a (_ | ⟨hp⟩)
    cases hp

/-- A pointer that is written into two maps which the write makes is read back. -/
theorem fieldAt?_of_set_nilMap :
    (nilMap.set five nestedPath .ofFive).result = .ok true ∧ ∃ T w h₀ h₁,
      (nilMap.set five nestedPath .ofFive).value.slotAt? nilMap.ty
        (nilMap.set five nestedPath .ofFive).heap nestedPath = some (T, w) ∧
      (nilMap.set five nestedPath .ofFive).value.fieldAt? nestedPath
        (nilMap.set five nestedPath .ofFive).heap = some w ∧
      Heap.ofFive.Appends h₀ ∧ (T.coerce five).run h₀ = .ok (w, h₁) ∧
      h₁.SameOn (nilMap.set five nestedPath .ofFive).heap
        fun a => h₀.size ≤ a ∨ Heap.ofFive.Reaches five a :=
  ⟨rfl, fieldAt?_of_set Heap.ofFive_wellFormed Heap.ofFive_acyclic (.nil _) rfl nofun
    bounded_of_mem_nestedPath (fun _ _ a ha => absurd ha (Ty.not_reaches_zero _ nilMap.ty a)) rfl⟩

end Value

end DynamicEval
