import DynamicEval.Proofs.Path.Place
import DynamicEval.Proofs.WellFormed.Edit

/-!
# Paths keep what is well-formed

The content of a place fits the declared type of the place, and a value stays well-formed when other
content that fits is put there. So what a path selects in a well-formed value is well-formed, and a
write along a path leaves content that the destination may hold, on every level of the walk.

## Main definitions

* `Place.Fits`: a place in a well-formed value.

## Main results

* `Value.place?_fits`: places of well-formed values.
* `Value.fieldAt?_wellFormed`, `Value.propById?_wellFormed`, `Value.methodAt?_wellFormed`: reads.
* `Value.setIn_fits`, `Value.set_fits`, `Value.setById_fits`: writes.
-/

namespace DynamicEval

/-! ### Places -/

namespace Entries

theorem map_fst_replace {α : Type} (place : BareKey) (a : α) (es : List (Key × α)) :
    (replace place a es).map Prod.fst = es.map Prod.fst := by
  induction es with
  | nil => rfl
  | cons entry es ih =>
    rw [replace]
    split
    · rfl
    · exact congrArg (_ :: ·) ih

theorem mem_replace {α : Type} {place : BareKey} {a : α} {es : List (Key × α)} {x : Key × α}
    (hx : x ∈ replace place a es) : x.2 = a ∨ x ∈ es := by
  induction es with
  | nil => cases hx
  | cons entry es ih =>
    rw [replace] at hx
    split at hx
    · rcases List.mem_cons.mp hx with rfl | hx
      · exact .inl rfl
      · exact .inr (List.mem_cons_of_mem _ hx)
    · rcases List.mem_cons.mp hx with rfl | hx
      · exact .inr List.mem_cons_self
      · exact (ih hx).imp_right (List.mem_cons_of_mem _)

/-- Entries stay well-formed when a value is replaced by one that fits. -/
theorem WellFormed.replace {k e : Ty} {h : Heap} {entries : List (Key × Value)} {w : Value}
    (he : WellFormed k e h entries) (hw : w.Fits e h) (place : BareKey) :
    WellFormed k e h (Entries.replace place w entries) := by
  refine he.of_keys (.refl h) (map_fst_replace place w entries) fun entry hentry => ?_
  rcases mem_replace hentry with heq | hentry
  · rw [heq]
    exact hw
  · exact he.values entry hentry

end Entries

/-- A place in a well-formed value: its content fits, and so may other content. -/
structure Place.Fits (p : Place) (base : Value) (h : Heap) : Prop where
  /-- The content fits the type of the place. -/
  content : p.content.Fits p.ty h
  /-- Content that fits the type keeps the value well-formed, and of its type. -/
  put {h' : Heap} {w : Value} (hh : h.Extends h') (hw : w.Fits p.ty h') :
    (p.put w).WellFormed h' ∧ ((p.put w).ty == base.ty) = true

namespace Value

variable {h : Heap} {v w key base : Value} {path : List Value} {p : Place}

/-- A change of an item keeps items that fit. -/
theorem fits_set {e : Ty} {items : List Value} (hitems : ∀ u ∈ items, u.Fits e h)
    (hw : w.Fits e h) (i : Nat) : ∀ u ∈ items.set i w, u.Fits e h := by
  intro u hu
  rcases List.mem_or_eq_of_mem_set hu with hu | rfl
  · exact hitems u hu
  · exact hw

/-- A place that a segment selects in a well-formed value. -/
theorem Selects.fits (hp : key.Selects h base p) (hbase : base.WellFormed h) : p.Fits base h := by
  cases hp with
  | @entry k e entries place w hplace hw =>
    have hentries := wellFormed_map.mp hbase
    obtain ⟨entry, hentry, rfl⟩ := Entries.mem_of_find?_eq_some hw
    refine ⟨hentries.values entry hentry, fun hh hu => ⟨?_, BEq.rfl⟩⟩
    exact wellFormed_map.mpr ((hentries.mono hh).replace hu place)
  | @field r fields i f w hi hf hw =>
    have hget := r.getElem?_of_fieldIndex? hf (r.fieldIndex?_of_exportedIndex? hi)
    refine ⟨?_, fun hh hu => ⟨?_, BEq.rfl⟩⟩
    · exact forall₂_getElem? (R := fun f v => Fits v f.ty h) (wellFormed_record.mp hbase) hget hw
    · exact wellFormed_record.mpr (forall₂_set (wellFormed_record.mp (hbase.mono hh)) hget hu)
  | @listItem e items i w hi hw =>
    have hitems := wellFormed_list.mp hbase
    refine ⟨hitems w (List.mem_of_getElem? hw), fun hh hu => ⟨?_, BEq.rfl⟩⟩
    exact wellFormed_list.mpr (fits_set (fun u hu => (hitems u hu).mono hh) hu i)
  | @arrayItem e items i w hi hw =>
    have hitems := wellFormed_array.mp hbase
    refine ⟨hitems w (List.mem_of_getElem? hw), fun hh hu => ⟨?_, ?_⟩⟩
    · exact wellFormed_array.mpr (fits_set (fun u hu => (hitems u hu).mono hh) hu i)
    · rw [ty, ty, List.length_set]
      exact BEq.rfl

theorem place?_fits (hbase : base.WellFormed h) (hp : base.place? key h = some p) :
    p.Fits base h :=
  (place?_eq_some.mp hp).fits hbase

/-! ### Reads -/

/-- The part that a segment selects is well-formed. -/
theorem part?_wellFormed (hh : h.WellFormed) (hv : v.WellFormed h) (hw : v.part? key h = some w) :
    w.WellFormed h := by
  rw [part?_eq_place?] at hw
  obtain ⟨p, hp, rfl⟩ := Option.map_eq_some_iff.mp hw
  exact (place?_fits (hv.base hh) hp).content.wellFormed

theorem walk?_wellFormed (hh : h.WellFormed) (hv : v.WellFormed h)
    (hw : v.walk? h path = some w) : w.WellFormed h := by
  induction path generalizing v with
  | nil =>
    cases hw
    exact hv
  | cons key path ih =>
    obtain ⟨u, hu, hw⟩ := Option.bind_eq_some_iff.mp hw
    exact ih (part?_wellFormed hh hv hu) hw

theorem fieldAt?_wellFormed (hh : h.WellFormed) (hv : v.WellFormed h)
    (hw : v.fieldAt? path h = some w) : w.WellFormed h := by
  rw [fieldAt?] at hw
  split at hw
  · cases hw
  · exact walk?_wellFormed hh hv hw

theorem propAt?_wellFormed (hh : h.WellFormed) (hv : v.WellFormed h)
    (hw : v.propAt? path h = some w) : w.WellFormed h := by
  obtain ⟨u, hu, rfl⟩ := Option.map_eq_some_iff.mp hw
  exact (fieldAt?_wellFormed hh hv hu).peel

theorem propById?_wellFormed {ident : String} (hh : h.WellFormed) (hv : v.WellFormed h)
    (hw : v.propById? ident h = some w) : w.WellFormed h := by
  rw [propById?] at hw
  split at hw
  · cases hw
  · split at hw
    · next hprop =>
      cases hw
      exact propAt?_wellFormed hh hv hprop
    · split at hw
      · exact propAt?_wellFormed hh hv hw
      · cases hw

/-- The receiver of a method that a path names is well-formed. -/
theorem methodAt?_wellFormed {name body : String} {receiver : Value} (hh : h.WellFormed)
    (hv : v.WellFormed h) (hm : v.methodAt? path h = some (name, body, receiver)) :
    receiver.WellFormed h := by
  rw [methodAt?] at hm
  split at hm
  · cases hm
  · split at hm
    · cases hm
    · dsimp only at hm
      split at hm
      all_goals
        obtain ⟨owner, howner, hm⟩ := Option.bind_eq_some_iff.mp hm
        have howner : owner.WellFormed h := by
          first
          | exact Option.some.inj howner ▸ hv
          | exact fieldAt?_wellFormed hh hv howner
        split at hm
        · obtain ⟨body, -, hm⟩ := Option.bind_eq_some_iff.mp hm
          cases hm
          exact howner.peel
        · cases hm

/-! ### Writes -/

end Value

/-- What is made for a missing key fits the declared type of its place. -/
theorem Ty.vivify_fits {h : Heap} (hh : h.WellFormed) (e : Ty) (segment : Value) :
    h.Grows (e.vivify segment h).2 ∧ (e.vivify segment h).1.Fits e (e.vivify segment h).2 := by
  cases e with
  | any => exact ⟨hh.grows, .slot nofun nofun (Value.wellFormed_map.mpr .nil), rfl⟩
  | _ => exact Ty.fresh_fits hh _

namespace Value

variable {h : Heap} {v dest base key : Value} {t : Ty} {path : List Value}

theorem insertMade_keeps {k e : Ty} {entries : List (Key × Value)} {key : Value} {made : Edit Bool}
    (hentries : Entries.WellFormed k e h entries) (hkey : key.WellFormed h)
    (hmade : made.Fits h e) : (insertMade k e entries key made).Keeps h (.map k e) := by
  have hext := hmade.grows.toExtends
  have hmap := wellFormed_map.mpr (hentries.mono hext)
  rw [insertMade]
  split
  · exact ⟨⟨hmade.grows, hmap⟩, BEq.rfl⟩
  · refine (Edit.replace_keeps hmade.grows.wellFormed hmap ?_ _).after hmade.grows
    refine (Entries.insert_keeps hmade.grows.wellFormed (hentries.mono hext) (hkey.mono hext)
      hmade.wellFormed).bind fun es h' hgrows hes => ?_
    exact .pure hgrows.wellFormed ⟨wellFormed_map.mpr hes, BEq.rfl⟩

/-- A write at a segment keeps the type of the base if writes along the rest of the path leave what
fits. -/
theorem setPart_keeps (hh : h.WellFormed) (hbase : base.WellFormed h) (hkey : key.WellFormed h)
    (hv : v.WellFormed h)
    (hrest : ∀ h' t dest, h.Grows h' → Fits dest t h' → (setIn v path t dest h').Fits h' t) :
    (setPart v key path h base).Keeps h base.ty := by
  have hplace : ∀ p, base.place? key h = some p →
      ((setIn v path p.ty p.content h).within p.put).Keeps h base.ty := by
    intro p hp
    have hfits := place?_fits hbase hp
    have hr := hrest h p.ty p.content hh.grows hfits.content
    obtain ⟨hwf, hty⟩ := hfits.put hr.grows.toExtends hr.value_fits
    exact ⟨⟨hr.grows, hwf⟩, hty⟩
  have hmissing : (setMissing v key path h base).Keeps h base.ty := by
    unfold setMissing
    split
    · next k e entries segment path =>
      obtain ⟨hgrows, hnew⟩ := e.vivify_fits hh segment
      exact insertMade_keeps (wellFormed_map.mp hbase) hkey
        ((hrest _ _ _ hgrows hnew).after hgrows)
    · exact Edit.keep_keeps hh hbase _
  unfold setPart
  split
  · refine Edit.replace_keeps hh hbase ?_ _
    refine (Entries.insert_keeps hh (wellFormed_map.mp hbase) hkey hv).bind
      fun es h' hgrows hes => ?_
    exact .pure hgrows.wellFormed ⟨wellFormed_map.mpr hes, BEq.rfl⟩
  · split
    · next p hp => exact hplace p hp
    · exact hmissing

/-- A write along a path leaves content that a destination of the declared type may hold. -/
theorem setIn_fits (hh : h.WellFormed) (hdest : dest.Fits t h) (hv : v.WellFormed h)
    (hpath : ∀ key ∈ path, key.WellFormed h) : (setIn v path t dest h).Fits h t := by
  induction path generalizing t dest h with
  | nil => exact assignAs_fits hh hdest hv
  | cons key path ih =>
    -- The declared type is that of the place: below it, the write keeps the type that is there.
    refine Edit.Keeps.fits ?_ hdest
    by_cases hempty : dest = emptySlot
    · cases hempty
      exact Edit.keep_keeps hh .emptySlot _
    rw [setIn_cons hempty]
    refine change_keeps hh hdest.wellFormed fun u hu => ?_
    refine setPart_keeps hh hu (hpath key List.mem_cons_self) hv fun h' t dest hgrows hdest => ?_
    refine ih hgrows.wellFormed hdest (hv.mono hgrows.toExtends) fun u hu => ?_
    exact (hpath u (List.mem_cons_of_mem _ hu)).mono hgrows.toExtends

/-- A write at a path leaves content that a destination of the same type may hold. -/
theorem set_fits (hh : h.WellFormed) (hdest : dest.WellFormed h) (hv : v.WellFormed h)
    (hpath : ∀ key ∈ path, key.WellFormed h) : (dest.set v path h).Fits h dest.ty := by
  rw [set]
  split
  · exact (Edit.keep_keeps hh hdest _).fits hdest.fits_ty
  · split
    · exact assign_fits hh hdest hv
    · exact setIn_fits hh hdest.fits_ty hv hpath

theorem ty_ne_invalid_of_isMap (hv : v.isMap h = true) : v.ty ≠ .invalid := by
  intro hty
  cases eq_invalid_of_ty hty
  rw [isMap, baseKind, baseTy, Heap.follow] at hv
  cases hsize : h.size <;> rw [hsize] at hv <;> cases hv

/-- A write at a dotted identifier leaves content that a destination of the same type may hold. -/
theorem setById_fits {ident : String} (hh : h.WellFormed) (hdest : dest.WellFormed h)
    (hv : v.WellFormed h) : (dest.setById v ident h).Fits h dest.ty := by
  have hpath : ∀ key ∈ pathOf ident, key.WellFormed h := by
    intro key hkey
    obtain ⟨s, -, rfl⟩ := List.mem_map.mp hkey
    exact .string s
  have hr := set_fits hh hdest hv hpath
  rw [setById]
  split
  · split
    · next hmap =>
      have hwhole : ∀ key ∈ [string ident], key.WellFormed (dest.set v (pathOf ident) h).heap := by
        intro key hkey
        rw [List.mem_singleton.mp hkey]
        exact .string ident
      have hr' := set_fits hr.grows.wellFormed hr.wellFormed (hv.mono hr.grows.toExtends) hwhole
      have hne := ty_ne_invalid_of_isMap (Bool.and_eq_true_iff.mp hmap).1
      exact ⟨(hr'.after hr.grows).toSound, hr.accepts.trans hr'.accepts hne⟩
    · exact hr
  · exact hr

end Value

end DynamicEval
