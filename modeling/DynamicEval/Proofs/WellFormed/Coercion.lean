import DynamicEval.Proofs.Run
import DynamicEval.Proofs.WellFormed

/-!
# Coercion gives what fits

A value that is coerced into a type fits that type, and coercion only adds cells to the heap.

## Main definitions

* `HeapM.Keeps`: what holds after a computation on a well-formed heap, which stays so.

## Main results

* `Binary64.single_isSingle`: what is rounded to 32 bits is a number of that format.
* `Entries.WellFormed.put`: entries stay well-formed when another one is stored.
* `Ty.coerce_keeps`, `Ty.assign_keeps`: a coerced value fits the type it is coerced into.
* `Entries.insert_keeps`: an inserted entry fits the types of the map.
-/

namespace DynamicEval

/-! ### Numbers -/

theorem FloatFormat.nearest_le_infinity (f : FloatFormat) (n d : Nat) :
    f.nearest n d ≤ f.infinity := by
  rw [nearest]
  split
  · exact Nat.zero_le _
  · exact Nat.min_le_right _ _

namespace Binary64

theorem pattern_ofPattern {negative : Bool} {p : Nat} (hp : p < signBit) :
    (ofPattern negative p).pattern = p := by
  rw [signBit] at hp
  cases negative
  · simp only [ofPattern, pattern, signBit, UInt64.toNat_ofNat', Bool.false_eq_true, if_false]
    omega
  · simp only [ofPattern, pattern, signBit, UInt64.toNat_ofNat', if_true]
    omega

/-- A pattern that is not a number, made quiet, is not below the first quiet pattern. -/
theorem quiet_le {p : Nat} (hp : FloatFormat.double.infinity < p) (hlt : p < signBit) :
    FloatFormat.double.infinity + quietBit ≤ p ||| quietBit := by
  have hdiv : (p ||| quietBit) / 2 ^ 51 = p / 2 ^ 51 ||| 1 := Nat.or_div_two_pow
  have htop : p / 2 ^ 51 = 0xffe ∨ p / 2 ^ 51 = 0xfff := by
    simp only [FloatFormat.double, signBit] at hp hlt
    omega
  have hquiet : (p ||| quietBit) / 2 ^ 51 = 0xfff := by
    rcases htop with htop | htop <;> rw [hdiv, htop] <;> rfl
  simp only [FloatFormat.double, quietBit] at hquiet ⊢
  omega

theorem single_isSingle (x : Binary64) : x.single.IsSingle := by
  rw [single]
  split
  · next hx =>
    have hinf : FloatFormat.double.infinity < x.pattern := by simpa [isNaN] using hx
    have hlt : x.pattern < signBit := Nat.mod_lt _ (by decide)
    have hquiet := quiet_le hinf hlt
    have hor : x.pattern ||| quietBit < 2 ^ 63 := Nat.or_lt_two_pow hlt (by decide)
    have hpattern := @pattern_ofPattern x.negative _
      (Nat.lt_of_le_of_lt (Nat.div_mul_le_self (x.pattern ||| quietBit) singleUnit) hor)
    refine .inl ⟨?_, ?_⟩
    · simp only [isNaN, hpattern, decide_eq_true_eq]
      simp only [FloatFormat.double, quietBit, singleUnit] at hquiet ⊢
      omega
    · rw [hpattern, Nat.mul_mod_left]
  · refine .inr ⟨x.negative, x.singlePattern, ?_, rfl⟩
    rw [singlePattern]
    split
    · exact FloatFormat.nearest_le_infinity _ _ _
    · exact Nat.le_refl _

end Binary64

theorem FloatWidth.holds_round (w : FloatWidth) (x : Binary64) : w.Holds (w.round x) := by
  cases w with
  | single => exact x.single_isSingle
  | double => exact trivial

theorem IntWidth.wrapSigned_wrapSigned (w : IntWidth) (n : Int64) :
    w.wrapSigned (w.wrapSigned n) = w.wrapSigned n := by
  cases w <;> simp [wrapSigned]

theorem IntWidth.wrapUnsigned_wrapUnsigned (w : IntWidth) (n : UInt64) :
    w.wrapUnsigned (w.wrapUnsigned n) = w.wrapUnsigned n := by
  cases w <;> simp only [wrapUnsigned, UInt8.toUInt8_toUInt64, UInt16.toUInt16_toUInt64,
    UInt32.toUInt32_toUInt64]

/-! ### Computations -/

namespace HeapM

variable {α β : Type} {h : Heap} {P Q : Heap → α → Prop}

/-- If the computation succeeds on `h`, the heap that it leaves is later than `h` and well-formed,
and `Q` holds of that heap and the result. -/
def Keeps (m : HeapM α) (h : Heap) (Q : Heap → α → Prop) : Prop :=
  ∀ a h', m.run h = .ok (a, h') → h.Grows h' ∧ Q h' a

theorem Keeps.pure {a : α} (hh : h.WellFormed) (ha : Q h a) : (pure a : HeapM α).Keeps h Q := by
  rintro _ _ ⟨⟩
  exact ⟨hh.grows, ha⟩

theorem Keeps.throw (e : Error) : (throw e : HeapM α).Keeps h Q := nofun

theorem Keeps.bind {m : HeapM α} {f : α → HeapM β} {Q : Heap → β → Prop} (hm : m.Keeps h P)
    (hf : ∀ a h', h.Grows h' → P h' a → (f a).Keeps h' Q) : (m >>= f).Keeps h Q := by
  intro b h'' hrun
  obtain ⟨a, h', ha, hb⟩ := run_bind_eq_ok.mp hrun
  obtain ⟨hgrows, hP⟩ := hm a h' ha
  obtain ⟨hgrows', hQ⟩ := hf a h' hgrows hP b h'' hb
  exact ⟨hgrows.trans hgrows', hQ⟩

theorem Keeps.get_bind {f : Heap → HeapM α} (hf : (f h).Keeps h Q) :
    (get >>= f : HeapM α).Keeps h Q := hf

theorem Keeps.imp {m : HeapM α} (hm : m.Keeps h P)
    (himp : ∀ h' a, h.Grows h' → P h' a → Q h' a) : m.Keeps h Q := by
  intro a h' hrun
  obtain ⟨hgrows, hP⟩ := hm a h' hrun
  exact ⟨hgrows, himp h' a hgrows hP⟩

end HeapM

/-! ### Entries -/

namespace Key

theorem value_of_key? {v : Value} {k : Key} (hk : v.key? = some k) : k.value = v := by
  cases v <;> simp_all [Value.key?] <;> subst hk <;> rfl

theorem coerceWith_keeps {coerce : Value → HeapM Value} {t : Ty} {h : Heap} {v : Value}
    (hcoerce : (coerce v).Keeps h fun h' w => w.Fits t h') :
    (Key.coerceWith coerce v).Keeps h fun h' k => t.AcceptsKey k ∧ k.value.WellFormed h' := by
  refine hcoerce.bind fun w h' hgrows hw => ?_
  cases hk : w.peel.key? with
  | none => exact .throw _
  | some k =>
    refine .pure hgrows.wellFormed ⟨⟨w, hw.accepts, (value_of_key? hk).symm⟩, ?_⟩
    rw [value_of_key? hk]
    exact hw.wellFormed.peel

end Key

namespace Entries

variable {k e : Ty} {h : Heap} {entries : List (Key × Value)} {key : Key} {v : Value}

theorem mem_put {α : Type} {es : List (Key × α)} {a : α} {x : Key × α}
    (hx : x ∈ put key a es) : x = (key, a) ∨ x ∈ es := by
  induction es with
  | nil => exact .inl (List.mem_singleton.mp hx)
  | cons y es ih =>
    rw [put] at hx
    split at hx
    · exact (List.mem_cons.mp hx).imp_right (List.mem_cons_of_mem _)
    · rcases List.mem_cons.mp hx with rfl | hx
      · exact .inr List.mem_cons_self
      · exact (ih hx).imp_right (List.mem_cons_of_mem _)

/-- The places that are filled after a key was stored. -/
theorem mem_places_put {α : Type} {es : List (Key × α)} {a : α} {place : BareKey}
    (hplace : place ∈ (put key a es).map fun entry => entry.1.bare) :
    place = key.bare ∨ place ∈ es.map fun entry => entry.1.bare := by
  obtain ⟨x, hx, rfl⟩ := List.mem_map.mp hplace
  rcases mem_put hx with rfl | hx
  · exact .inl rfl
  · exact .inr (List.mem_map.mpr ⟨x, hx, rfl⟩)

theorem nodup_places_put {α : Type} {es : List (Key × α)} {a : α}
    (hes : (es.map fun entry => entry.1.bare).Nodup) :
    ((put key a es).map fun entry => entry.1.bare).Nodup := by
  induction es with
  | nil => simp [put]
  | cons y es ih =>
    obtain ⟨hy, hes⟩ := List.nodup_cons.mp hes
    rw [put]
    split
    · next heq =>
      refine List.nodup_cons.mpr ⟨?_, hes⟩
      show key.bare ∉ _
      rw [← heq]
      exact hy
    · next hne =>
      refine List.nodup_cons.mpr ⟨fun hmem => ?_, ih hes⟩
      rcases mem_places_put hmem with heq | hmem
      · exact hne heq
      · exact hy hmem

/-- Entries stay well-formed when a key that is accepted is stored with a value that fits. -/
theorem WellFormed.put (he : WellFormed k e h entries) (hkey : k.AcceptsKey key)
    (hkeyWf : key.value.WellFormed h) (hv : v.Fits e h) :
    WellFormed k e h (Entries.put key v entries) where
  places := nodup_places_put he.places
  keyTypes entry hentry := by
    rcases mem_put hentry with rfl | hentry
    · exact hkey
    · exact he.keyTypes entry hentry
  keys entry hentry := by
    rcases mem_put hentry with rfl | hentry
    · exact hkeyWf
    · exact he.keys entry hentry
  values entry hentry := by
    rcases mem_put hentry with rfl | hentry
    · exact hv
    · exact he.values entry hentry

end Entries

/-! ### Coercion -/

/-- A computation that coerces every well-formed value into a type. -/
def Ty.CoercedBy (t : Ty) (coerce : Value → HeapM Value) : Prop :=
  ∀ {h : Heap} {v : Value}, h.WellFormed → v.WellFormed h →
    (coerce v).Keeps h fun h' w => w.Fits t h'

section

variable {h : Heap} {t k e : Ty} {coerce key value : Value → HeapM Value}

theorem Value.coerceItems_keeps (hcoerce : t.CoercedBy coerce) (hh : h.WellFormed)
    {vs : List Value} (hvs : ∀ v ∈ vs, v.WellFormed h) :
    (Value.coerceItems coerce vs).Keeps h fun h' ws =>
      (∀ w ∈ ws, w.Fits t h') ∧ ws.length = vs.length := by
  induction vs generalizing h with
  | nil => exact .pure hh ⟨List.forall_mem_nil _, rfl⟩
  | cons v vs ih =>
    refine (hcoerce hh (hvs v List.mem_cons_self)).bind fun w h₁ hgrows hw => ?_
    refine (ih hgrows.wellFormed fun u hu =>
      (hvs u (List.mem_cons_of_mem _ hu)).mono hgrows.toExtends).bind fun ws h₂ hgrows' hws => ?_
    refine .pure hgrows'.wellFormed ⟨fun u hu => ?_, congrArg (· + 1) hws.2⟩
    rcases List.mem_cons.mp hu with rfl | hu
    · exact hw.mono hgrows'.toExtends
    · exact hws.1 u hu

theorem Entries.insertAll_keeps (hkey : k.CoercedBy key) (hvalue : e.CoercedBy value)
    (hh : h.WellFormed) {es rest : List (Key × Value)} (hes : Entries.WellFormed k e h es)
    (hkeys : ∀ entry ∈ rest, entry.1.value.WellFormed h)
    (hvalues : ∀ entry ∈ rest, entry.2.WellFormed h) :
    (Entries.insertAll key value es rest).Keeps h fun h' es => Entries.WellFormed k e h' es := by
  induction rest generalizing h es with
  | nil => exact .pure hh hes
  | cons entry rest ih =>
    obtain ⟨j, v⟩ := entry
    refine (Key.coerceWith_keeps (hkey hh (hkeys _ List.mem_cons_self))).bind
      fun j h₁ hgrows hj => ?_
    have hv := (hvalues _ List.mem_cons_self).mono hgrows.toExtends
    refine (hvalue hgrows.wellFormed hv).bind fun w h₂ hgrows' hw => ?_
    have hext := (hgrows.trans hgrows').toExtends
    refine ih hgrows'.wellFormed ?_ (fun entry hentry => ?_) fun entry hentry => ?_
    · exact (hes.mono hext).put hj.1 (hj.2.mono hgrows'.toExtends) hw
    · exact (hkeys entry (List.mem_cons_of_mem _ hentry)).mono hext
    · exact (hvalues entry (List.mem_cons_of_mem _ hentry)).mono hext

/-- Coercion by the base gives what fits if every conversion does. -/
theorem Ty.coerceBase_keeps (hh : h.WellFormed) {v : Value} (hv : v.WellFormed h)
    {convert : Value → Option (HeapM Value)}
    (hconvert : ∀ b m, b.WellFormed h → convert b = some m → m.Keeps h fun h' w => w.Fits t h') :
    (t.coerceBase v convert).Keeps h fun h' w => w.Fits t h' := by
  refine .get_bind ?_
  split
  · exact .pure hh (t.zero_fits h)
  have hb : (v.peel.base h).WellFormed h := hv.peel.base hh
  dsimp only
  split
  · next hty => exact .pure hh (hb.fits hty)
  · split
    · next m hm => exact hconvert _ m hb hm
    · exact .throw _

theorem Ty.newCell_keeps (hh : h.WellFormed) {v : Value} (hv : v.Fits e h) :
    (Ty.coerce.newCell e v).Keeps h fun h' w => w.Fits (.pointer e) h' := by
  rintro w h' ⟨⟩
  exact ⟨hh.alloc hv.wellFormed, hv.pointer_alloc, Ty.accepts_self _⟩

end

namespace Value

variable {h : Heap} {v : Value} {items : List Value} {entries : List (Key × Value)}

theorem WellFormed.of_items? (hv : v.WellFormed h) (hitems : v.items? = some items) :
    ∀ w ∈ items, w.WellFormed h := by
  cases v with
  | list e vs =>
    cases hitems
    exact fun w hw => (wellFormed_list.mp hv w hw).wellFormed
  | array e vs =>
    cases hitems
    exact fun w hw => (wellFormed_array.mp hv w hw).wellFormed
  | _ => cases hitems

theorem WellFormed.of_entries? (hv : v.WellFormed h) (hentries : v.entries? = some entries) :
    ∃ k e, Entries.WellFormed k e h entries := by
  cases v with
  | map k e es =>
    cases hentries
    exact ⟨k, e, wellFormed_map.mp hv⟩
  | _ => cases hentries

theorem length_resize (fill : Value) (n : Nat) (vs : List Value) :
    (resize fill n vs).length = n := by
  simp only [resize, List.length_append, List.length_take, List.length_replicate]
  omega

theorem mem_resize {fill w : Value} {n : Nat} {vs : List Value} (hw : w ∈ resize fill n vs) :
    w ∈ vs ∨ w = fill := by
  rcases List.mem_append.mp hw with hw | hw
  · exact .inl (List.mem_of_mem_take hw)
  · exact .inr (List.eq_of_mem_replicate hw)

end Value

/-- A value that is coerced into a type fits it. -/
theorem Ty.coerce_keeps (t : Ty) : t.CoercedBy t.coerce := by
  intro h v hh hv
  match t with
  | .invalid => exact .pure hh ⟨hv, trivial⟩
  | .any => exact .pure hh hv.peel.boxed_fits
  | .pointer e =>
    have hnew {u : Value} (hu : u.WellFormed h) :
        (e.coerce u >>= Ty.coerce.newCell e).Keeps h fun h' w => w.Fits (.pointer e) h' :=
      (Ty.coerce_keeps e hh hu).bind fun w h' hgrows hw => Ty.newCell_keeps hgrows.wellFormed hw
    have hu := hv.peel
    rw [Ty.coerce]
    generalize v.peel = u at hu ⊢
    match u with
    | .invalid | .emptySlot | .pointer _ none => exact .pure hh ⟨.nil e, Ty.accepts_self _⟩
    | .pointer e' (some a) =>
      dsimp only
      split
      · next heq => exact .pure hh (hu.fits heq)
      · exact hnew hu
    | .bool _ | .int _ _ | .uint _ _ | .float _ _ | .string _ | .list _ _ | .array _ _ | .map _ _ _
    | .record _ _ | .func _ | .slot _ => exact hnew hu
  | .bool =>
    refine Ty.coerceBase_keeps hh hv fun b m hb hm => ?_
    cases hm
    exact .pure hh ⟨.bool _, Ty.accepts_self _⟩
  | .string =>
    refine Ty.coerceBase_keeps hh hv fun b m hb hm => ?_
    cases hm
    exact .get_bind (.pure hh ⟨.string _, Ty.accepts_self _⟩)
  | .int w =>
    refine Ty.coerceBase_keeps hh hv fun b m hb hm => ?_
    obtain ⟨n, -, rfl⟩ := Option.map_eq_some_iff.mp hm
    exact .pure hh ⟨.int (w.wrapSigned_wrapSigned n), Ty.accepts_self _⟩
  | .uint w =>
    refine Ty.coerceBase_keeps hh hv fun b m hb hm => ?_
    obtain ⟨n, -, rfl⟩ := Option.map_eq_some_iff.mp hm
    exact .pure hh ⟨.uint (w.wrapUnsigned_wrapUnsigned n), Ty.accepts_self _⟩
  | .float w =>
    refine Ty.coerceBase_keeps hh hv fun b m hb hm => ?_
    obtain ⟨x, -, rfl⟩ := Option.map_eq_some_iff.mp hm
    exact .pure hh ⟨.float (w.holds_round x), Ty.accepts_self _⟩
  | .list e =>
    refine Ty.coerceBase_keeps hh hv fun b m hb hm => ?_
    obtain ⟨items, hitems, rfl⟩ := Option.map_eq_some_iff.mp hm
    refine (Value.coerceItems_keeps (Ty.coerce_keeps e) hh (hb.of_items? hitems)).bind
      fun ws h' hgrows hws => ?_
    exact .pure hgrows.wellFormed ⟨Value.wellFormed_list.mpr hws.1, Ty.accepts_self _⟩
  | .array e n =>
    refine Ty.coerceBase_keeps hh hv fun b m hb hm => ?_
    obtain ⟨items, hitems, rfl⟩ := Option.map_eq_some_iff.mp hm
    have hresized : ∀ w ∈ Value.resize e.zero n items, w.WellFormed h := by
      intro w hw
      rcases Value.mem_resize hw with hw | rfl
      · exact hb.of_items? hitems w hw
      · exact (e.zero_fits h).wellFormed
    refine (Value.coerceItems_keeps (Ty.coerce_keeps e) hh hresized).bind
      fun ws h' hgrows hws => ?_
    refine .pure hgrows.wellFormed ⟨Value.wellFormed_array.mpr hws.1, ?_⟩
    rw [Value.ty, hws.2, Value.length_resize]
    exact Ty.accepts_self _
  | .map k e =>
    refine Ty.coerceBase_keeps hh hv fun b m hb hm => ?_
    obtain ⟨entries, hentries, rfl⟩ := Option.map_eq_some_iff.mp hm
    obtain ⟨k', e', hes⟩ := hb.of_entries? hentries
    refine (Entries.insertAll_keeps (Ty.coerce_keeps k) (Ty.coerce_keeps e) hh .nil hes.keys
      fun entry hentry => (hes.values entry hentry).wellFormed).bind fun es h' hgrows hes => ?_
    exact .pure hgrows.wellFormed ⟨Value.wellFormed_map.mpr hes, Ty.accepts_self _⟩
  | .record r => exact Ty.coerceBase_keeps hh hv nofun
  | .func => exact Ty.coerceBase_keeps hh hv nofun

/-- The new content of a destination of a type fits the type. -/
theorem Ty.assign_keeps (t : Ty) : t.CoercedBy t.assign := by
  intro h v hh hv
  unfold Ty.assign
  split
  · exact .pure hh (t.zero_fits h)
  · split
    · exact .throw _
    · exact Ty.coerce_keeps _ hh hv

/-- A coerced entry is one that the map may hold. -/
theorem Entries.insert_keeps {h : Heap} {k e : Ty} {es : List (Key × Value)} {key v : Value}
    (hh : h.WellFormed) (hes : Entries.WellFormed k e h es) (hkey : key.WellFormed h)
    (hv : v.WellFormed h) :
    (Entries.insert k e es key v).Keeps h fun h' es => Entries.WellFormed k e h' es := by
  refine (Key.coerceWith_keeps (k.coerce_keeps hh hkey)).bind fun j h₁ hgrows hj => ?_
  refine (e.coerce_keeps hgrows.wellFormed (hv.mono hgrows.toExtends)).bind
    fun w h₂ hgrows' hw => ?_
  have hext := hgrows'.toExtends
  exact .pure hgrows'.wellFormed
    ((hes.mono (hgrows.toExtends.trans hext)).put hj.1 (hj.2.mono hext) hw)

end DynamicEval
