import DynamicEval.Proofs.Path.Identifier

/-!
# Writes that change one slot

A write along a path that leads to a slot changes nothing but the slot. Its destination differs in
that slot only, and so does every cell that the path enters, in what is left of the path from there;
all other cells are as they were.

## Main definitions

* `Value.DiffersAt`: values that differ in nothing but the slot at a path.
* `Value.Enters`: the cells that a path enters.
* `Edit.ChangesOnly`: a change of nothing but the slot at a path.

## Main results

* `Value.setIn_changesOnly`: a write along a path that leads to a slot changes nothing else.
-/

namespace DynamicEval

/-- Two values differ in nothing but the slot that a path selects. A pointer keeps its cell, whose
content may differ. -/
inductive Value.DiffersAt (h : Heap) : Value → List Value → Value → Prop where
  | refl (v : Value) (path : List Value) : DiffersAt h v path v
  | last (v w : Value) : DiffersAt h v [] w
  | slot {v w : Value} {path : List Value} (hv : DiffersAt h v path w) :
      DiffersAt h (.slot v) path (.slot w)
  | part {base key w : Value} {path : List Value} {p : Place} (hp : key.Selects h base p)
      (hw : DiffersAt h p.content path w) : DiffersAt h base (key :: path) (p.put w)

/-- A path enters a cell, with the rest of the path before it. -/
inductive Value.Enters (h : Heap) : Value → List Value → Addr → List Value → Prop where
  | cell (e : Ty) (a : Addr) {path : List Value} (hne : path ≠ []) :
      Enters h (.pointer e (some a)) path a path
  | behind (e : Ty) {a b : Addr} {path rest : List Value} (hcell : Enters h (h.get a) path b rest) :
      Enters h (.pointer e (some a)) path b rest
  | slot {v : Value} {path rest : List Value} {a : Addr} (hv : Enters h v path a rest) :
      Enters h (.slot v) path a rest
  | part {base key : Value} {path rest : List Value} {p : Place} {a : Addr}
      (hp : key.Selects h base p) (hcontent : Enters h p.content path a rest) :
      Enters h base (key :: path) a rest

/-- A change of nothing but the slot that a path selects. -/
structure Edit.ChangesOnly {α : Type} (r : Edit α) (h : Heap) (v : Value) (path : List Value) :
    Prop where
  /-- No cell is lost. -/
  size_le : h.size ≤ r.heap.size
  /-- The destination differs in the slot. -/
  value : v.DiffersAt h path r.value
  /-- A cell differs if the path enters it, in what is left of the path from there. -/
  cell : ∀ a < h.size, r.heap.get a = h.get a ∨
    ∃ rest, v.Enters h path a rest ∧ (h.get a).DiffersAt h rest (r.heap.get a)

/-! ### Changes of one slot -/

namespace Edit

variable {α : Type} {r : Edit α} {h : Heap} {v base key : Value} {path : List Value} {p : Place}
  {a : Addr}

theorem ChangesOnly.keep (h : Heap) (v : Value) (path : List Value) (result : Except Error α) :
    (keep h v result).ChangesOnly h v path :=
  ⟨Nat.le_refl _, .refl v path, fun _ _ => .inl rfl⟩

namespace ChangesOnly

theorem of_appends (hr : h.Appends r.heap) (hvalue : v.DiffersAt h path r.value) :
    r.ChangesOnly h v path :=
  ⟨hr.size_le, hvalue, fun a ha => .inl (hr.get_eq a ha)⟩

theorem slot (hr : r.ChangesOnly h v path) : (r.within .slot).ChangesOnly h (.slot v) path :=
  ⟨hr.size_le, hr.value.slot, fun a ha => (hr.cell a ha).imp_right fun ⟨rest, henters, hdiffers⟩ =>
    ⟨rest, henters.slot, hdiffers⟩⟩

theorem part (hp : key.Selects h base p) (hr : r.ChangesOnly h p.content path) :
    (r.within p.put).ChangesOnly h base (key :: path) :=
  ⟨hr.size_le, .part hp hr.value, fun a ha =>
    (hr.cell a ha).imp_right fun ⟨rest, henters, hdiffers⟩ => ⟨rest, .part hp henters, hdiffers⟩⟩

/-- The cell behind a pointer is written last, with what the change made of its content. -/
theorem pointer (hr : r.ChangesOnly h (h.get a) path) (hne : path ≠ []) (ha : a < h.size) (e : Ty) :
    (⟨r.heap.set a r.value, .pointer e (some a), r.result⟩ : Edit α).ChangesOnly h
      (.pointer e (some a)) path := by
  refine ⟨Nat.le_trans hr.size_le (Nat.le_of_eq Heap.size_set.symm), .refl _ _, fun b hb => ?_⟩
  by_cases hab : a = b
  · subst hab
    refine .inr ⟨path, .cell e a hne, ?_⟩
    rw [Heap.get_set_self (Nat.lt_of_lt_of_le ha hr.size_le)]
    exact hr.value
  · rw [Heap.get_set_of_ne hab]
    exact (hr.cell b hb).imp_right fun ⟨rest, henters, hdiffers⟩ =>
      ⟨rest, henters.behind e, hdiffers⟩

end ChangesOnly

end Edit

/-! ### Keys of filled places -/

/-- A map has room for one key only at each place, unless it takes keys of any type. -/
theorem Key.eq_of_bare {t : Ty} {j k : Key} (hj : t.AcceptsKey j) (hk : t.AcceptsKey k)
    (hany : t ≠ .any) (hinvalid : t ≠ .invalid) (hbare : k.bare = j.bare) : k = j := by
  have hfits {k : Key} (hk : t.AcceptsKey k) : t.Accepts k.value.ty := by
    obtain ⟨v, hv, hkey⟩ := hk
    rwa [← hkey, Value.peel_eq_self fun hty => hany ((hty ▸ hv).eq_any hinvalid)]
  have hty : (k.value.ty == j.value.ty) = true := by
    have hj := hfits hj
    have hk := hfits hk
    cases t with
    | any => exact absurd rfl hany
    | invalid => exact absurd rfl hinvalid
    | func => cases j <;> rcases hj with hj | hj <;> cases hj
    | _ => exact BEq.trans hk (BEq.symm hj)
  have hcore := Ty.beq_iff.mp hty
  cases k with
  | float w x =>
    cases j <;> cases hcore
    obtain ⟨bits⟩ := x
    cases hbare
    rfl
  | _ =>
    cases j <;> cases hcore
    cases hbare
    rfl

/-- A text names the stored key of the place that it selects. -/
theorem Key.eq_of_coerceWith {t : Ty} {h h' : Heap} {s : String} {j k : Key}
    (hj : (Key.coerceWith t.coerce (.string s)).run h = .ok (j, h')) (hk : t.AcceptsKey k)
    (hbare : k.bare = j.bare) : k = j := by
  have hstring (htext : t.AcceptsKey (.string s)) : k = j := by
    cases (Key.coerceWith_value htext).symm.trans hj
    cases k <;> cases hbare
    rfl
  by_cases hany : t = .any
  · subst hany
    exact hstring ⟨.slot (.string s), rfl, rfl⟩
  by_cases hinvalid : t = .invalid
  · subst hinvalid
    exact hstring ⟨.string s, trivial, rfl⟩
  have hj := (Key.coerceWith_appends (fun v => t.coerce_appends v) (.string s) h j h' hj).2
  exact Key.eq_of_bare hj hk hany hinvalid hbare

theorem Entries.put_eq_replace {α : Type} {k : Key} {a b : α} {es : List (Key × α)}
    (hkey : ∀ entry ∈ es, entry.1.bare = k.bare → entry.1 = k) (hb : find? k.bare es = some b) :
    put k a es = replace k.bare a es := by
  induction es with
  | nil => cases hb
  | cons entry es ih =>
    obtain ⟨j, c⟩ := entry
    obtain ⟨hj, hkey⟩ := List.forall_mem_cons.mp hkey
    rw [find?] at hb
    rw [put, replace]
    split
    · next heq =>
      cases (hj heq : j = k)
      rfl
    · next hne =>
      rw [if_neg hne] at hb
      rw [ih hkey hb]

/-! ### Writes -/

namespace Value

variable {α : Type} {h : Heap} {v u dest : Value} {as : List Addr} {path : List Value}
  {f : Heap → Value → Edit α}

theorem change_changesOnly (hv : h.Leads v as u) (hne : path ≠ [])
    (hr : (f h u).ChangesOnly h u path) : (v.change h f).ChangesOnly h v path :=
  change_induction (motive := fun v _ r => r.ChangesOnly h v path) hv hr (fun hr => hr.slot)
    fun e _ _ _ ha _ hr => hr.pointer hne ha e

/-- A write at the last segment stores an entry with the key that is there. -/
theorem setPart_entry_changesOnly {k e : Ty} {es : List (Key × Value)} {s : String} {p : Place}
    (hbase : (map k e es).WellFormed h) (hp : (string s).Selects h (map k e es) p) (v : Value) :
    (setPart v (string s) [] h (map k e es)).ChangesOnly h (map k e es) [string s] := by
  show (Edit.replace h (map k e es)
    (do return map k e (← Entries.insert k e es (string s) v) : HeapM Value) true).ChangesOnly _ _ _
  rw [Edit.replace]
  split
  · next w h₂ hrun =>
    refine .of_appends (insertEntry_appends k e es (string s) v h w h₂ hrun).1 ?_
    obtain ⟨es', _, hinsert, hput⟩ := HeapM.run_bind_eq_ok.mp hrun
    cases hput
    obtain ⟨j, h₁, hj, hinsert⟩ := HeapM.run_bind_eq_ok.mp hinsert
    obtain ⟨c, _, -, hput⟩ := HeapM.run_bind_eq_ok.mp hinsert
    cases hput
    cases hp with
    | @entry _ _ _ place u hplace hu =>
      have hbare : place = j.bare := by
        rw [Key.place?, hj] at hplace
        exact (Option.some.inj hplace).symm
      subst hbare
      rw [Entries.put_eq_replace (fun entry hentry =>
        Key.eq_of_coerceWith hj ((wellFormed_map.mp hbase).keyTypes entry hentry)) hu]
      exact .part (.entry hplace hu) (.last u c)
  · exact .keep h _ _ _

/-- A write at a segment that selects a place goes on in its content, but for the last segment in a
map. -/
theorem setPart_of_selects_of_not_map {key base : Value} {p : Place} (hp : key.Selects h base p)
    (hmap : ∀ k e es, path = [] → base ≠ map k e es) :
    setPart v key path h base = (setIn v path p.ty p.content h).within p.put := by
  unfold setPart
  split
  · exact absurd rfl (hmap _ _ _ rfl)
  · rw [place?_eq_some.mpr hp]

theorem setPart_changesOnly {base : Value} {s : String} {p : Place} (hbase : base.WellFormed h)
    (hp : (string s).Selects h base p)
    (hrest : (setIn v path p.ty p.content h).ChangesOnly h p.content path) :
    (setPart v (string s) path h base).ChangesOnly h base (string s :: path) := by
  by_cases hmap : ∃ k e es, path = [] ∧ base = map k e es
  · obtain ⟨k, e, es, rfl, rfl⟩ := hmap
    exact setPart_entry_changesOnly hbase hp v
  · rw [setPart_of_selects_of_not_map hp fun k e es hnil heq => hmap ⟨k, e, es, hnil, heq⟩]
    exact hrest.part hp

/-- A write along a path that leads to a slot changes nothing else. -/
theorem setIn_changesOnly {t : Ty} {w : Value} (hh : h.WellFormed) (hdest : dest.WellFormed h)
    (hpath : ∀ s ∈ path, ∃ name, s = string name) (hw : dest.walk? h path = some w) (v : Value) :
    (setIn v path t dest h).ChangesOnly h dest path := by
  induction path generalizing t dest with
  | nil =>
    have happends := Edit.replace_appends (t.assign_appends v) h dest (!v.peel.isNil)
    exact .of_appends happends (.last dest _)
  | cons key path ih =>
    obtain ⟨⟨s, rfl⟩, hrest⟩ := List.forall_mem_cons.mp hpath
    obtain ⟨p, hp, hw⟩ := exists_selects_of_walk? hw
    obtain ⟨as, has⟩ := Heap.exists_leads hp.base_ne
    have hempty : dest ≠ emptySlot := by
      rintro rfl
      exact hp.base_ne (base_of_isNil rfl)
    have hbase := hdest.base hh
    rw [setIn_cons hempty]
    refine change_changesOnly has (List.cons_ne_nil _ _) (setPart_changesOnly hbase hp ?_)
    exact ih (hp.fits hbase).content.wellFormed hrest hw

/-- What differs from a map in one slot has the same keys and differs in the entry that the first
segment selects. -/
theorem DiffersAt.exists_replace {k e : Ty} {es : List (Key × Value)} {key w : Value} {p : Place}
    (hw : (map k e es).DiffersAt h (key :: path) w) (hp : key.Selects h (map k e es) p) :
    ∃ place c, Key.place? k key h = some place ∧ w = map k e (Entries.replace place c es) := by
  cases hp with
  | @entry _ _ _ place u hplace hu =>
    cases hw with
    | refl => exact ⟨place, u, hplace, by rw [Entries.replace_find? hu]⟩
    | part hp' _ =>
      cases hp'.unique (.entry hplace hu)
      exact ⟨place, _, hplace, rfl⟩

/-- A write along a path that leads to a slot below a map leaves a map with the same keys, which
differs in the entry that the first segment selects. -/
theorem base_setIn {k e t : Ty} {es : List (Key × Value)} {s : String} {w : Value}
    (hh : h.WellFormed) (hdest : dest.WellFormed h)
    (hpath : ∀ s ∈ path, ∃ name, s = string name) (hmap : dest.base h = map k e es)
    (hw : dest.walk? h (string s :: path) = some w) (v : Value) :
    ∃ place c, Key.place? k (string s) h = some place ∧
      (setIn v (string s :: path) t dest h).value.base (setIn v (string s :: path) t dest h).heap =
        map k e (Entries.replace place c es) := by
  obtain ⟨p, hp, hw⟩ := exists_selects_of_walk? hw
  obtain ⟨as, has⟩ := Heap.exists_leads hp.base_ne
  have hempty : dest ≠ emptySlot := by
    rintro rfl
    exact hp.base_ne (base_of_isNil rfl)
  have hbase := hdest.base hh
  have hcontent := (hp.fits hbase).content.wellFormed
  have hpart := setPart_changesOnly hbase hp (setIn_changesOnly hh hcontent hpath hw v)
  rw [hmap] at hp has hpart
  obtain ⟨place, c, hplace, hvalue⟩ := hpart.value.exists_replace hp
  have hleads := change_leads has hpart.size_le (hvalue ▸ ⟨rfl, rfl⟩)
  rw [setIn_cons hempty, hleads.base_eq]
  exact ⟨place, c, hplace, hvalue⟩

/-! ### Identifiers that lead to a slot -/

/-- The last container that a path comes to is a map. -/
def EndsInMap (v : Value) (path : List Value) (h : Heap) : Prop :=
  ∃ c k e es, v.walk? h path.dropLast = some c ∧ c.base h = map k e es

/-- A write along a path that leads to a slot does not answer false, unless there was nothing to
assign and the slot is not in a map. -/
theorem result_setIn_ne {t : Ty} {w : Value} (hne : path ≠ []) (hw : dest.walk? h path = some w)
    (hv : v.peel.isNil = false ∨ dest.EndsInMap path h) :
    (setIn v path t dest h).result ≠ .ok false := by
  induction path generalizing t dest with
  | nil => exact absurd rfl hne
  | cons key path ih =>
    obtain ⟨p, hp, hw⟩ := exists_selects_of_walk? hw
    have hempty : dest ≠ emptySlot := by
      rintro rfl
      exact hp.base_ne (base_of_isNil rfl)
    suffices (setPart v key path h (dest.base h)).result ≠ .ok false by
      obtain ⟨wrap, hwrap, heq⟩ := exists_change_eq (α := Bool) dest h
      rw [setIn_cons hempty, heq, baseOrNew_eq_base hp.base_ne]
      rcases hwrap (setPart v key path h (dest.base h)) with hr | ⟨e, hr⟩ <;> rw [hr]
      · exact this
      · rintro ⟨⟩
    by_cases hmap : ∃ k e es, path = [] ∧ dest.base h = map k e es
    · obtain ⟨k, e, es, rfl, hmap⟩ := hmap
      rw [hmap]
      show (Edit.replace h _ _ true).result ≠ _
      rw [Edit.replace]
      split <;> rintro ⟨⟩
    · have hmap (k e es) (hnil : path = []) (heq : dest.base h = map k e es) : False :=
        hmap ⟨k, e, es, hnil, heq⟩
      rw [setPart_of_selects_of_not_map hp hmap]
      show (setIn v path p.ty p.content h).result ≠ .ok false
      by_cases hnil : path = []
      · subst hnil
        have hv : v.peel.isNil = false := by
          refine hv.resolve_right ?_
          rintro ⟨c, k, e, es, hc, heq⟩
          cases hc
          exact hmap k e es rfl heq
        show (Edit.replace h p.content (p.ty.assign v) !v.peel.isNil).result ≠ .ok false
        rw [Edit.replace, hv]
        split <;> rintro ⟨⟩
      · refine ih hnil hw (hv.imp_right ?_)
        rintro ⟨c, k, e, es, hc, heq⟩
        refine ⟨c, k, e, es, ?_, heq⟩
        rw [List.dropLast_cons_of_ne_nil hnil] at hc
        obtain ⟨q, hq, hc⟩ := exists_selects_of_walk? hc
        rwa [hp.unique hq]

/-- **A write at a dotted identifier that leads to a slot changes nothing else.** Unless there is
nothing to assign and the slot is in a list or a record, the whole identifier is not tried. So a map
keeps its keys, and of its entries only the one changes that the first segment selects. -/
theorem setById_changesOnly {w : Value} {ident : String} (hh : h.WellFormed)
    (hdest : dest.WellFormed h) (hw : dest.fieldAt? (pathOf ident) h = some w)
    (hv : v.peel.isNil = false ∨ dest.EndsInMap (pathOf ident) h) :
    dest.setById v ident h = dest.set v (pathOf ident) h ∧
    (dest.setById v ident h).ChangesOnly h dest (pathOf ident) ∧
    ∀ k e es, dest.base h = map k e es → 1 < (pathOf ident).length →
      ∃ s rest place c, pathOf ident = string s :: rest ∧ s ≠ ident ∧
        Key.place? k (string s) h = some place ∧
        (dest.setById v ident h).value.base (dest.setById v ident h).heap =
          map k e (Entries.replace place c es) := by
  obtain ⟨hne, hwalk⟩ := walk?_of_fieldAt? hw
  have hstrings : ∀ s ∈ pathOf ident, ∃ name, s = string name :=
    List.forall_mem_map.mpr fun name _ => ⟨name, rfl⟩
  have hset := set_eq_setIn (v := v) hne (isBasic_of_walk? hne hwalk).1
  have hbyId : dest.setById v ident h = dest.set v (pathOf ident) h := by
    have hfound : (dest.set v (pathOf ident) h).result ≠ .ok false :=
      hset ▸ result_setIn_ne hne hwalk hv
    rw [setById]
    split
    · next hfalse => exact absurd hfalse hfound
    · rfl
  rw [hbyId, hset]
  refine ⟨rfl, setIn_changesOnly hh hdest hstrings hwalk v, fun k e es hmap hlength => ?_⟩
  obtain ⟨s, rest, hpath, hwhole⟩ := exists_pathOf_eq_cons hlength
  rw [hpath] at hwalk hstrings ⊢
  obtain ⟨place, c, hplace, hbase⟩ :=
    base_setIn hh hdest (List.forall_mem_cons.mp hstrings).2 hmap hwalk v
  exact ⟨s, rest, place, c, rfl, hwhole, hplace, hbase⟩

/-- A number in a list below a map is replaced. -/
theorem setById_listed :
    listed.setById (int .word 7) "a.0" .empty = listed.set (int .word 7) (pathOf "a.0") .empty ∧
    (listed.setById (int .word 7) "a.0" .empty).ChangesOnly .empty listed (pathOf "a.0") ∧
    ∀ k e es, listed.base .empty = map k e es → 1 < (pathOf "a.0").length →
      ∃ s rest place c, pathOf "a.0" = string s :: rest ∧ s ≠ "a.0" ∧
        Key.place? k (string s) .empty = some place ∧
        (listed.setById (int .word 7) "a.0" .empty).value.base
            (listed.setById (int .word 7) "a.0" .empty).heap =
          map k e (Entries.replace place c es) :=
  setById_changesOnly Heap.empty_wellFormed listed_wellFormed rfl (.inl rfl)

/-- Nothing stored in a list empties the slot that the path selects, and an entry is added under the
whole identifier as well. -/
theorem not_forall_find?_setById :
    ¬∀ (h : Heap) (dest v : Value) (ident : String), h.WellFormed → dest.WellFormed h →
      1 < (pathOf ident).length → (dest.fieldAt? (pathOf ident) h).isSome = true →
      ∀ k e es, dest.base h = map k e es → ∃ es',
        (dest.setById v ident h).value.base (dest.setById v ident h).heap = map k e es' ∧
        ∀ place, Key.place? k (string ident) h = some place →
          Entries.find? place es' = Entries.find? place es := by
  intro hall
  obtain ⟨es', hbase, hfind⟩ := hall .empty listed .invalid "a.0" Heap.empty_wellFormed
    listed_wellFormed (by decide) rfl _ _ _ rfl
  cases hbase
  nomatch hfind (.string "a.0") rfl

end Value

end DynamicEval
