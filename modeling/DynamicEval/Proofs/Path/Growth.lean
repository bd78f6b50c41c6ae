import DynamicEval.Proofs.Path.Write

/-!
# What a write that stores nothing leaves

A write along a path may find no place for its value, or no way to coerce the value, once it has put
cells behind pointers to nothing and has made entries of maps on its way. These stay, and they are
all that stays: along the path a pointer to nothing may point to a new cell now, and a map may have
a new entry, and what is new holds what a destination starts with. Nothing else is changed, in the
destination or in a cell, and the value is nowhere.

## Main definitions

* `Value.Grown`: a value that has gained new cells and entries at one place.
* `Edit.Grows`: a change after which its destination and every old cell have at most grown.

## Main results

* `Value.change_grows`: a change of the base that makes the base grow makes the value grow.
* `Value.setIn_grows`: so does a write along a path that is not done.
* `Value.set_not_done`: a write that is not done stores nothing.
-/

namespace DynamicEval

/-! ### Growth -/

/-- The value `w` is `v`, or `v` with new storage in one of its parts: a new cell, from the `n`th
on, behind a pointer to nothing, or a new entry of a map. What is new holds the zero of its type or,
in a slot, a map without entries, or has grown from there. Cells have their content on the heap
`h'`. -/
inductive Value.Grown (n : Nat) (h' : Heap) : Value → Value → Prop where
  | refl (v : Value) : Grown n h' v v
  | slot {v w : Value} (hw : Grown n h' v w) : Grown n h' (.slot v) (.slot w)
  | cell {e : Ty} {a : Addr} (hnew : n ≤ a) (ha : a < h'.size) (hw : Grown n h' e.zero (h'.get a)) :
      Grown n h' (.pointer e none) (.pointer e (some a))
  | listItem {e : Ty} {items : List Value} {i : Nat} {v w : Value} (hv : items[i]? = some v)
      (hw : Grown n h' v w) : Grown n h' (.list e items) (.list e (items.set i w))
  | arrayItem {e : Ty} {items : List Value} {i : Nat} {v w : Value} (hv : items[i]? = some v)
      (hw : Grown n h' v w) : Grown n h' (.array e items) (.array e (items.set i w))
  | field {r : RecordType} {fields : List Value} {i : Nat} {v w : Value} (hv : fields[i]? = some v)
      (hw : Grown n h' v w) : Grown n h' (.record r fields) (.record r (fields.set i w))
  | entry {k e : Ty} {entries : List (Key × Value)} {place : BareKey} {v w : Value}
      (hv : Entries.find? place entries = some v) (hw : Grown n h' v w) :
      Grown n h' (.map k e entries) (.map k e (Entries.replace place w entries))
  | newEntry {k e : Ty} {entries : List (Key × Value)} {key : Key} {w : Value}
      (hkey : k.AcceptsKey key) (hfree : Entries.find? key.bare entries = none)
      (hw : Grown n h' e.zero w) : Grown n h' (.map k e entries) (.map k e (entries ++ [(key, w)]))
  | newMap {k kt : Ty} {entries : List (Key × Value)} {key : Key} {w : Value}
      (hkey : k.AcceptsKey key) (hfree : Entries.find? key.bare entries = none)
      (hw : Grown n h' (.slot (.map kt .any [])) w) :
      Grown n h' (.map k .any entries) (.map k .any (entries ++ [(key, w)]))

/-- A change after which the destination `v` and every cell of the heap `h` have at most grown. -/
structure Edit.Grows {α : Type} (r : Edit α) (h : Heap) (v : Value) : Prop where
  /-- No cell is lost. -/
  size_le : h.size ≤ r.heap.size
  /-- The destination has at most grown. -/
  value : v.Grown h.size r.heap r.value
  /-- So has every cell. -/
  cells : ∀ a < h.size, (h.get a).Grown h.size r.heap (r.heap.get a)

/-- A change that changes nothing but, maybe, adds cells. -/
structure Edit.Unchanged {α : Type} (r : Edit α) (h : Heap) (v : Value) : Prop where
  /-- The destination is the same. -/
  value : r.value = v
  /-- Every cell is the same. -/
  appends : h.Appends r.heap

theorem Edit.Unchanged.keep {α : Type} (h : Heap) (v : Value) (result : Except Error α) :
    (Edit.keep h v result).Unchanged h v := ⟨rfl, .refl h⟩

/-- The content of an old cell put there again changes nothing. -/
theorem Heap.Appends.set_get {h h' : Heap} (hh : h.Appends h') (a : Addr) :
    h.Appends (h'.set a (h.get a)) where
  size_le := by
    rw [size_set]
    exact hh.size_le
  get_eq b hb := by
    by_cases hab : a = b
    · subst hab
      exact get_set_self (Nat.lt_of_lt_of_le hb hh.size_le)
    · rw [get_set_of_ne hab, hh.get_eq b hb]

/-- What has grown has grown also on a later heap, and from fewer cells. -/
theorem Value.Grown.mono {n n' : Nat} {h' h'' : Heap} {v w : Value} (hw : v.Grown n h' w)
    (hn : n' ≤ n) (hs : h'.SameOn h'' (n ≤ ·)) : v.Grown n' h'' w := by
  induction hw with
  | refl v => exact .refl v
  | slot _ ih => exact .slot ih
  | @cell e a hnew ha _ ih =>
    rw [← hs.get_eq a ha hnew] at ih
    exact .cell (Nat.le_trans hn hnew) (Nat.lt_of_lt_of_le ha hs.size_le) ih
  | listItem hv _ ih => exact .listItem hv ih
  | arrayItem hv _ ih => exact .arrayItem hv ih
  | field hv _ ih => exact .field hv ih
  | entry hv _ ih => exact .entry hv ih
  | newEntry hkey hfree _ ih => exact .newEntry hkey hfree ih
  | newMap hkey hfree _ ih => exact .newMap hkey hfree ih

namespace Edit.Grows

variable {α : Type} {r : Edit α} {h h' : Heap} {v : Value} {e : Ty}

/-- The destination is left as it is, and only cells are added. -/
theorem of_appends (hh : h.Appends h') (v : Value) (result : Except Error α) :
    (⟨h', v, result⟩ : Edit α).Grows h v where
  size_le := hh.size_le
  value := .refl v
  cells a ha := by
    dsimp only
    rw [hh.get_eq a ha]
    exact .refl _

theorem keep (h : Heap) (v : Value) (result : Except Error α) : (Edit.keep h v result).Grows h v :=
  of_appends (.refl h) v result

theorem within {whole : Value → Value} {u : Value} (hr : r.Grows h v)
    (hwhole : ∀ {w}, v.Grown h.size r.heap w → u.Grown h.size r.heap (whole w)) :
    (r.within whole).Grows h u :=
  ⟨hr.size_le, hwhole hr.value, hr.cells⟩

/-- A change behind a pointer. -/
theorem pointer {a : Addr} (hr : r.Grows h (h.get a)) (ha : a < h.size) (e : Ty) :
    (⟨r.heap.set a r.value, .pointer e (some a), r.result⟩ : Edit α).Grows h
      (.pointer e (some a)) := by
  -- An old cell is written back, so that new ones are as they were.
  have hs : r.heap.SameOn (r.heap.set a r.value) (h.size ≤ ·) :=
    .set r.heap (Nat.not_le.mpr ha) r.value
  refine ⟨Nat.le_trans hr.size_le hs.size_le, .refl _, fun b hb => ?_⟩
  by_cases hab : a = b
  · subst hab
    dsimp only
    rw [Heap.get_set_self (Nat.lt_of_lt_of_le ha hr.size_le)]
    exact hr.value.mono (Nat.le_refl _) hs
  · dsimp only
    rw [Heap.get_set_of_ne hab]
    exact (hr.cells b hb).mono (Nat.le_refl _) hs

/-- A change behind a new cell. -/
theorem store (hr : r.Grows h e.zero) : (Value.changeNew.store e r).Grows h (.pointer e none) := by
  have halloc := Heap.Appends.alloc r.heap r.value
  have hs := halloc.sameOn (h.size ≤ ·)
  refine ⟨Nat.le_trans hr.size_le halloc.size_le, .cell hr.size_le ?_ ?_, fun b hb => ?_⟩
  · show r.heap.size < (r.heap.alloc r.value).1.size
    rw [Heap.size_alloc]
    exact Nat.lt_succ_self _
  · show e.zero.Grown h.size (r.heap.alloc r.value).1 ((r.heap.alloc r.value).1.get r.heap.size)
    rw [Heap.get_alloc_size]
    exact hr.value.mono (Nat.le_refl _) hs
  · show (h.get b).Grown h.size (r.heap.alloc r.value).1 ((r.heap.alloc r.value).1.get b)
    rw [halloc.get_eq b (Nat.lt_of_lt_of_le hb hr.size_le)]
    exact (hr.cells b hb).mono (Nat.le_refl _) hs

end Edit.Grows

theorem Edit.Unchanged.grows {α : Type} {r : Edit α} {h : Heap} {v : Value}
    (hr : r.Unchanged h v) : r.Grows h v := by
  obtain ⟨h', w, result⟩ := r
  obtain ⟨rfl, happends⟩ := hr
  exact .of_appends happends _ _

/-! ### Changes of the base -/

namespace Value

section

variable {α : Type} {h : Heap} {f : Heap → Value → Edit α} {x : α}

theorem changeNew_grows (hf : ∀ u, u.WellFormed h → (f h u).result ≠ .ok x → (f h u).Grows h u)
    (e : Ty) (hx : (changeNew f e h).result ≠ .ok x) :
    (changeNew f e h).Grows h (.pointer e none) := by
  match e with
  | .pointer e => exact (changeNew_grows hf e hx).store
  | .invalid | .bool | .int _ | .uint _ | .float _ | .string | .list _ | .array _ _ | .map _ _
  | .record _ | .func | .any => exact (hf _ (Ty.zero_fits h _).wellFormed hx).store

/-- A step of a change makes a value grow at most if the changes of the base and of cells do. -/
theorem changeStep_grows (hf : ∀ u, u.WellFormed h → (f h u).result ≠ .ok x → (f h u).Grows h u)
    {enter : Addr → Heap → Heap × Except Error α}
    (henter : ∀ e, ∀ a < h.size, (enter a h).2 ≠ .ok x →
      (⟨(enter a h).1, pointer e (some a), (enter a h).2⟩ : Edit α).Grows h (pointer e (some a)))
    {v : Value} (hv : v.WellFormed h) (hx : (v.changeStep f enter h).result ≠ .ok x) :
    (v.changeStep f enter h).Grows h v := by
  match v with
  | .slot v => exact (changeStep_grows hf henter (wellFormed_slot.mp hv).2.2 hx).within .slot
  | .pointer e none => exact changeNew_grows hf e hx
  | .pointer e (some a) => exact henter e a (wellFormed_pointer.mp hv).1 hx
  | .invalid | .bool _ | .int _ _ | .uint _ _ | .float _ _ | .string _ | .list _ _ | .array _ _
  | .map _ _ _ | .record _ _ | .func _ | .emptySlot => exact hf _ hv hx

/-- A change of the base that makes it grow at most unless it gives `x` does so to the value. -/
theorem change_grows (hh : h.WellFormed) {v : Value} (hv : v.WellFormed h)
    (hf : ∀ u, u.WellFormed h → (f h u).result ≠ .ok x → (f h u).Grows h u)
    (hx : (v.change h f).result ≠ .ok x) : (v.change h f).Grows h v := by
  suffices ∀ n, (changeWithin f n v h).result ≠ .ok x → (changeWithin f n v h).Grows h v from
    this h.size hx
  clear hx
  intro n
  induction n generalizing v with
  | zero => exact changeStep_grows hf (fun e a _ _ => .keep h _ _) hv
  | succ n ih => exact changeStep_grows hf (fun e a ha hx => (ih (hh a ha) hx).pointer ha e) hv

end

/-! ### Writes along paths -/

section

variable {h h' : Heap} {v dest key base : Value} {t k e : Ty} {path : List Value}
  {es : List (Key × Value)}

/-- What has grown at a place has grown in the value. -/
theorem Selects.grown {p : Place} {n : Nat} {w : Value} (hp : key.Selects h base p)
    (hw : p.content.Grown n h' w) : base.Grown n h' (p.put w) := by
  cases hp with
  | entry _ hv => exact .entry hv hw
  | field _ _ hv => exact .field hv hw
  | listItem _ hv => exact .listItem hv hw
  | arrayItem _ hv => exact .arrayItem hv hw

/-- What is made for a missing key is coerced into itself, also once a write has changed it. -/
theorem coerce_of_sameShape_vivify {segment w : Value}
    (hw : w.SameShape (e.vivify segment h).1) : (e.coerce w).run h' = .ok (w, h') := by
  obtain ⟨hty, hpeel⟩ := hw
  cases e with
  | invalid => rfl
  | any =>
    have hty : w.ty = .any := hty
    have hpeel : w.peel.ty = .map (keyTypeFor segment) .any := hpeel
    cases w with
    | slot u =>
      have hpeel : u.ty = .map (keyTypeFor segment) .any := hpeel
      refine Ty.coerce_self rfl rfl fun _ => ?_
      rw [show (Value.slot u).peel.ty = _ from hpeel]
      exact ⟨nofun, nofun⟩
    | emptySlot => cases hpeel
    | _ => cases hty
  | pointer e =>
    have hty : w.ty = .pointer e := hty
    cases w with
    | pointer e' cell =>
      cases hty
      cases cell with
      | none => rfl
      | some a => exact Ty.coerce_self BEq.rfl rfl nofun
    | _ => cases hty
  | func =>
    obtain rfl := eq_invalid_of_ty hty
    rfl
  | _ =>
    have haccepts : Ty.Accepts _ w.ty := hty ▸ (Ty.zero_fits h _).accepts
    have hany : w.ty ≠ .any := by
      rw [hty]
      nofun
    refine Ty.coerce_self haccepts ?_ fun h => absurd h hany
    cases w <;> first | rfl | cases hty

/-- A value that was made for a missing key, and has grown at most, makes a map grow. -/
def Makes (e : Ty) (n : Nat) (h' : Heap) (w : Value) : Prop :=
  e.zero.Grown n h' w ∨ e = .any ∧ ∃ kt, (slot (map kt .any [])).Grown n h' w

theorem insertMade_grows {made : Edit Bool} (hh : h.Bounded) (hacyclic : h.AcyclicBehind key)
    (hkey : key.Bounded h) (hold : h.Appends made.heap)
    (hfree : (map k e es).place? key h = none)
    (hself : (e.coerce made.value).run made.heap = .ok (made.value, made.heap))
    (hmade : made.result ≠ .ok true → Makes e h.size made.heap made.value)
    (hx : (insertMade k e es key made).result ≠ .ok true) :
    (insertMade k e es key made).Grows h (map k e es) := by
  unfold insertMade at hx ⊢
  split
  · exact .of_appends hold _ _
  · next done hdone =>
    rw [hdone] at hx
    dsimp only at hx
    rw [Edit.replace] at hx ⊢
    split
    · next w h₁ hrun =>
      obtain ⟨es', _, hinsert, hmap⟩ := HeapM.run_bind_eq_ok.mp hrun
      cases hmap
      obtain ⟨j, h₂, hj, hinsert⟩ := HeapM.run_bind_eq_ok.mp hinsert
      obtain ⟨w, h₃, hw, hput⟩ := HeapM.run_bind_eq_ok.mp hinsert
      cases hput
      -- The key is what it was before the value was made, and so its place is still free.
      have hagrees := hold.agrees hh hkey
      obtain ⟨rfl, hj'⟩ :=
        Key.coerceWith_of_agrees hh hacyclic hkey hagrees (.refl h key) hj
      rw [hself] at hw
      cases hw
      have hplace : Key.place? k key h = some j.bare := by rw [Key.place?, hj']
      have hnone : Entries.find? j.bare es = none := by
        simpa [place?, entryPlace?, hplace] using hfree
      have haccepts := (Key.coerceWith_appends k.coerce_appends key _ _ _ hj).2
      rw [Entries.put_of_find?_eq_none hnone]
      refine ⟨hold.size_le, ?_, (Edit.Grows.of_appends hold (map k e es) (.ok done)).cells⟩
      have hdone : made.result ≠ .ok true := by
        intro htrue
        rw [htrue] at hdone
        cases hdone
        rw [hrun] at hx
        exact hx rfl
      rcases hmade hdone with hw | ⟨rfl, kt, hw⟩
      · exact .newEntry haccepts hnone hw
      · exact .newMap haccepts hnone hw
    · exact .of_appends hold _ _

/-- An assignment of a value that is there changes nothing if it is not done. -/
theorem assignAs_unchanged (hv : v.peel.isNil = false)
    (hx : (dest.assignAs t v h).result ≠ .ok true) : (dest.assignAs t v h).Unchanged h dest := by
  unfold assignAs Edit.replace at hx ⊢
  split at hx
  · rw [hv] at hx
    exact absurd rfl hx
  · exact .keep h _ _

/-- Writes of `v` along a path make their destinations grow at most if they are not done. -/
def PathGrows (v : Value) (path : List Value) : Prop :=
  ∀ {h : Heap} {t : Ty} {dest : Value}, h.WellFormed → dest.WellFormed h →
    (∀ s ∈ path, s.Bounded h ∧ h.AcyclicBehind s) → (setIn v path t dest h).result ≠ .ok true →
    (setIn v path t dest h).Grows h dest

/-- What a write makes for a missing key has grown at most when the write is not done. -/
theorem makes_of_pathGrows (hrest : PathGrows v path) (hh : h.WellFormed) (segment : Value)
    (hpath : ∀ s ∈ path, s.Bounded h ∧ h.AcyclicBehind s)
    (hx : (setIn v path e (e.vivify segment h).1 (e.vivify segment h).2).result ≠ .ok true) :
    Makes e h.size (setIn v path e (e.vivify segment h).1 (e.vivify segment h).2).heap
      (setIn v path e (e.vivify segment h).1 (e.vivify segment h).2).value := by
  obtain ⟨hgrows, hnew⟩ := e.vivify_fits hh segment
  have happends := e.vivify_appends segment h
  have hr := hrest (t := e) hgrows.wellFormed hnew.wellFormed (fun s hs =>
    ⟨(hpath s hs).1.mono happends.size_le,
      (hpath s hs).2.appends happends hh.bounded (hpath s hs).1⟩) hx
  have hvalue := hr.value.mono happends.size_le (.refl _ _)
  cases e with
  | any => exact .inr ⟨rfl, _, hvalue⟩
  | pointer e =>
    -- The pointer stays, and its cell may have grown from the zero of what it points to.
    have hlt : h.size < (h.alloc e.zero).1.size := by
      rw [Heap.size_alloc]
      exact Nat.lt_succ_self _
    have hcell := hr.cells h.size hlt
    rw [show ((Ty.pointer e).vivify segment h).2.get h.size = e.zero from Heap.get_alloc_size]
      at hcell
    generalize setIn v path (.pointer e) _ _ = made at *
    have hpointer : (Value.pointer e (some h.size)).Grown h.size made.heap made.value := hvalue
    generalize made.value = w at hpointer ⊢
    cases hpointer with
    | refl =>
      exact .inl (.cell (Nat.le_refl _) (Nat.lt_of_lt_of_le hlt hr.size_le)
        (hcell.mono happends.size_le (.refl _ _)))
  | _ => exact .inl hvalue

/-- A write at a segment makes the base grow at most if it is not done. -/
theorem setPart_grows (hrest : PathGrows v path) (hh : h.WellFormed) (hbase : base.WellFormed h)
    (hpath : ∀ s ∈ key :: path, s.Bounded h ∧ h.AcyclicBehind s)
    (hx : (setPart v key path h base).result ≠ .ok true) :
    (setPart v key path h base).Grows h base := by
  obtain ⟨⟨hkey, hacyclic⟩, hpath⟩ := List.forall_mem_cons.mp hpath
  unfold setPart at hx ⊢
  split at hx
  · rw [Edit.replace] at hx ⊢
    split at hx
    · exact absurd rfl hx
    · exact .keep h _ _
  · split at hx
    · next p hp =>
      have hp := place?_eq_some.mp hp
      exact (hrest hh (hp.fits hbase).content.wellFormed hpath hx).within hp.grown
    · next hfree =>
      unfold setMissing at hx ⊢
      split at hx
      · next k e es segment path _ _ =>
        have happends := e.vivify_appends segment h
        have hconfined : (e.vivify segment h).2.Confined (e.vivify segment h).1
            (setIn v (segment :: path) e (e.vivify segment h).1 (e.vivify segment h).2).heap :=
          setIn_confined
        have hold := hconfined.appends happends fun a => Ty.vivify_reaches
        exact insertMade_grows hh.bounded hacyclic hkey hold hfree
          (coerce_of_sameShape_vivify (setIn_sameShape (List.cons_ne_nil _ _)))
          (makes_of_pathGrows hrest hh segment hpath) hx
      · exact .keep h _ _

/-- A write along a path makes its destination grow at most if it is not done. -/
theorem setIn_grows (hv : v.peel.isNil = false) (path : List Value) : PathGrows v path := by
  intro h t dest hh hdest hpath hx
  induction path generalizing t dest h with
  | nil => exact (assignAs_unchanged hv hx).grows
  | cons key path ih =>
    by_cases hempty : dest = emptySlot
    · subst hempty
      exact .keep h _ _
    · rw [setIn_cons hempty] at hx ⊢
      exact change_grows hh hdest (fun u hu hx => setPart_grows ih hh hu hpath hx) hx

end

/-! ### Writes where all is there -/

section

variable {h : Heap} {v u w dest key base : Value} {t : Ty} {path : List Value}

/-- A step of a change of a value whose base is there is a change of the base. -/
theorem changeStep_unchanged {α : Type} {f : Heap → Value → Edit α} {deref : Addr → Value}
    {enter : Addr → Heap → Heap × Except Error α} (hu : u ≠ .invalid)
    (henter : ∀ a, deref a = u → (enter a h).2 = (f h u).result ∧
      ((f h u).Unchanged h u → h.Appends (enter a h).1)) {v : Value} (hv : v.baseStep deref = u) :
    (v.changeStep f enter h).result = (f h u).result ∧
      ((f h u).Unchanged h u → (v.changeStep f enter h).Unchanged h v) := by
  match v with
  | .slot v =>
    obtain ⟨hresult, hsame⟩ := changeStep_unchanged hu henter (v := v) hv
    exact ⟨hresult, fun hf => ⟨congrArg slot (hsame hf).value, (hsame hf).appends⟩⟩
  | .pointer e none | .emptySlot | .invalid => exact absurd hv.symm hu
  | .pointer e (some a) =>
    obtain ⟨hresult, hsame⟩ := henter a hv
    exact ⟨hresult, fun hf => ⟨rfl, hsame hf⟩⟩
  | .bool _ | .int _ _ | .uint _ _ | .float _ _ | .string _ | .list _ _ | .array _ _ | .map _ _ _
  | .record _ _ | .func _ =>
    subst hv
    exact ⟨rfl, id⟩

/-- A change of a value whose base is there has the result of the change of the base, and changes
nothing if that does not. -/
theorem change_unchanged {α : Type} {f : Heap → Value → Edit α} (hu : u ≠ .invalid)
    (hv : v.base h = u) : (v.change h f).result = (f h u).result ∧
      ((f h u).Unchanged h u → (v.change h f).Unchanged h v) := by
  suffices ∀ n v, h.unroll .invalid baseStep n v = u →
      (changeWithin f n v h).result = (f h u).result ∧
        ((f h u).Unchanged h u → (changeWithin f n v h).Unchanged h v) from this h.size v hv
  intro n
  induction n with
  | zero => exact fun v hv => changeStep_unchanged hu (fun a ha => absurd ha.symm hu) hv
  | succ n ih =>
    refine fun v hv => changeStep_unchanged hu (fun a ha => ?_) hv
    obtain ⟨hresult, hsame⟩ := ih (h.get a) ha
    refine ⟨hresult, fun hf => ?_⟩
    obtain ⟨hvalue, happends⟩ := hsame hf
    dsimp only
    rw [hvalue]
    exact happends.set_get a

/-- A write at a segment changes nothing if it is not done, if writes to the place of the segment do
not, and if there is a place unless the segment is the last one. -/
theorem setPart_unchanged
    (hrest : ∀ p, key.Selects h base p → (setIn v path p.ty p.content h).result ≠ .ok true →
      (setIn v path p.ty p.content h).Unchanged h p.content)
    (hplace : path ≠ [] → ∃ p, key.Selects h base p)
    (hx : (setPart v key path h base).result ≠ .ok true) :
    (setPart v key path h base).Unchanged h base := by
  unfold setPart at hx ⊢
  split at hx
  · rw [Edit.replace] at hx ⊢
    split at hx
    · exact absurd rfl hx
    · exact .keep h _ _
  · split at hx
    · next p hp =>
      have hp := place?_eq_some.mp hp
      have hr := hrest p hp hx
      exact ⟨(congrArg p.put hr.value).trans hp.put_content, hr.appends⟩
    · next hnone =>
      unfold setMissing
      split
      · obtain ⟨p, hp⟩ := hplace (List.cons_ne_nil _ _)
        rw [place?_eq_some.mpr hp] at hnone
        cases hnone
      · exact .keep h _ _

/-- A write along a path whose segments before the last select what is there changes nothing if it
is not done. -/
theorem setIn_unchanged (hv : v.peel.isNil = false) (hw : dest.walk? h path.dropLast = some w)
    (hbase : w.base h ≠ .invalid) (hx : (setIn v path t dest h).result ≠ .ok true) :
    (setIn v path t dest h).Unchanged h dest := by
  induction path generalizing t dest with
  | nil => exact assignAs_unchanged hv hx
  | cons key path ih =>
    -- The first segment selects a place, or it is the last one and the base is there.
    have hdest : dest.base h ≠ .invalid ∧ (path ≠ [] →
        ∃ p, key.Selects h (dest.base h) p ∧ p.content.walk? h path.dropLast = some w) := by
      cases path with
      | nil =>
        cases hw
        exact ⟨hbase, fun hne => absurd rfl hne⟩
      | cons segment path =>
        obtain ⟨u, hu, hw⟩ := Option.bind_eq_some_iff.mp hw
        rw [part?_eq_place?] at hu
        obtain ⟨p, hp, rfl⟩ := Option.map_eq_some_iff.mp hu
        refine ⟨fun hinvalid => ?_, fun _ => ⟨p, place?_eq_some.mp hp, hw⟩⟩
        rw [hinvalid] at hp
        cases hp
    have hempty : dest ≠ emptySlot := by
      rintro rfl
      exact hdest.1 (Heap.follow_eq_of_step fun _ => rfl)
    rw [setIn_cons hempty] at hx ⊢
    obtain ⟨hresult, hsame⟩ :=
      change_unchanged (f := setPart v key path) hdest.1 (h := h) (v := dest) rfl
    rw [hresult] at hx
    refine hsame ?_
    refine setPart_unchanged (fun p hp hx => ?_) (fun hne => ?_) hx
    · cases path with
      | nil => exact assignAs_unchanged hv hx
      | cons segment path =>
        obtain ⟨q, hq, hw⟩ := hdest.2 (List.cons_ne_nil _ _)
        cases (place?_eq_some.mpr hp).symm.trans (place?_eq_some.mpr hq)
        exact ih hw hx
    · obtain ⟨p, hp, -⟩ := hdest.2 hne
      exact ⟨p, hp⟩

theorem set_cases (dest v : Value) (path : List Value) (h : Heap) :
    (∃ e, dest.set v path h = Edit.keep h dest (throw e)) ∨
      dest.set v path h = dest.assignAs dest.ty v h ∨
      dest.set v path h = setIn v path dest.ty dest h := by
  unfold set
  split
  · exact .inl ⟨_, rfl⟩
  · next hinvalid =>
    split
    · rw [assign, if_neg hinvalid]
      exact .inr (.inl rfl)
    · exact .inr (.inr rfl)

/-- **A write that is not done stores nothing.** If a write of a value that is there does not
succeed, its destination and all cells have at most grown, those that are not behind the destination
are the same, and if the segments of the path before the last lead to something, nothing at all is
changed. -/
theorem set_not_done (hh : h.WellFormed) (hdest : dest.WellFormed h) (hv : v.peel.isNil = false)
    (hpath : ∀ s ∈ path, s.Bounded h ∧ h.AcyclicBehind s)
    (hx : (dest.set v path h).result ≠ .ok true) :
    (dest.set v path h).Grows h dest ∧ h.Confined dest (dest.set v path h).heap ∧
      ∀ w, dest.walk? h path.dropLast = some w → w.base h ≠ .invalid →
        (dest.set v path h).Unchanged h dest := by
  have hunchanged {r : Edit Bool} (hr : r.Unchanged h dest) :
      r.Grows h dest ∧ h.Confined dest r.heap ∧
        ∀ w, dest.walk? h path.dropLast = some w → w.base h ≠ .invalid → r.Unchanged h dest :=
    ⟨hr.grows, hr.appends.sameOn _, fun _ _ _ => hr⟩
  rcases set_cases dest v path h with ⟨e, heq⟩ | heq | heq <;> rw [heq] at hx ⊢
  · exact hunchanged (.keep h dest _)
  · exact hunchanged (assignAs_unchanged hv hx)
  · exact ⟨setIn_grows hv path hh hdest hpath hx, setIn_confined,
      fun w hw hbase => setIn_unchanged hv hw hbase hx⟩

/-- A map from texts to numbers without entries. -/
def noCounts : Value := map .string (.int .word) []

/-- A number has no parts, and the entry that is made for the first segment stays. -/
theorem set_noCounts :
    (noCounts.set (int .word 1) [string "a", string "b"] .empty).result = .ok false ∧
      (noCounts.set (int .word 1) [string "a", string "b"] .empty).value =
        map .string (.int .word) [(.string "a", int .word 0)] ∧
      (noCounts.set (int .word 1) [string "a", string "b"] .empty).Grows .empty noCounts ∧
      Heap.empty.Confined noCounts
        (noCounts.set (int .word 1) [string "a", string "b"] .empty).heap ∧
      ∀ w, noCounts.walk? .empty [string "a"] = some w → w.base .empty ≠ .invalid →
        (noCounts.set (int .word 1) [string "a", string "b"] .empty).Unchanged .empty noCounts := by
  refine ⟨rfl, rfl, set_not_done Heap.empty_wellFormed (wellFormed_map.mpr .nil) rfl ?_ nofun⟩
  simp only [List.forall_mem_cons]
  exact ⟨⟨nofun, Heap.empty_acyclic.behind _⟩, ⟨nofun, Heap.empty_acyclic.behind _⟩, nofun⟩

/-- A write that finds no place may add entries to its destination. -/
theorem not_forall_set_unchanged :
    ¬∀ (h : Heap) (dest v : Value) (path : List Value), h.WellFormed → h.Acyclic →
      dest.WellFormed h → v.WellFormed h → (∀ s ∈ path, s.WellFormed h) → v.isNil = false →
      (dest.set v path h).result ≠ .ok true →
      (dest.set v path h).value = dest ∧
        ∀ a, h.Reaches dest a → (dest.set v path h).heap.get a = h.get a := by
  intro hall
  have hpath : ∀ s ∈ [string "a", string "b"], s.WellFormed .empty := by
    simp only [List.forall_mem_cons]
    exact ⟨.string "a", .string "b", nofun⟩
  obtain ⟨hvalue, -⟩ := hall .empty noCounts (int .word 1) [string "a", string "b"]
    Heap.empty_wellFormed Heap.empty_acyclic (wellFormed_map.mpr .nil) (.int rfl)
    hpath rfl nofun
  cases hvalue

end

end Value

end DynamicEval
