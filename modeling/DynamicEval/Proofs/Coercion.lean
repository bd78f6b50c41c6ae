import DynamicEval.Path.Read
import DynamicEval.Proofs.Heap.Reach
import DynamicEval.Proofs.WellFormed.Coercion

/-!
# What coercion reads and what it leaves alone

Coercion adds cells to a heap and changes none. A value that fits its destination is given as it is.
Into a key it adds no cells either, and it reads none but those behind the value that it is given,
so a segment of a path selects the same wherever these are the same.

## Main definitions

* `HeapM.Appends`: a computation that only adds cells.
* `HeapM.ReadsAlike`: a computation that changes no heap and gives the same on two of them.

## Main results

* `Ty.coerce_appends`, `Entries.insert_appends`: coercion only adds cells.
* `Ty.coerce_self`, `Ty.coerce_peel`, `Key.coerceWith_value`: what a destination may hold is coerced
  into itself.
* `Key.coerceWith_heap`: coercion into a key changes no heap.
* `Key.coerceWith_of_agrees`, `Key.place?_eq_of_agrees`, `Heap.Agrees.toText_eq`,
  `Heap.Agrees.index?_eq`: keys, the entries they select, names and indices are read alike where the
  cells behind them are the same.
-/

namespace DynamicEval

/-! ### Adding cells -/

namespace HeapM

variable {α β : Type} {P : α → Prop} {Q : β → Prop}

/-- If the computation succeeds, it has only added cells to the heap, and `P` holds of what it
gives. -/
def Appends (m : HeapM α) (P : α → Prop) : Prop :=
  ∀ h a h', m.run h = .ok (a, h') → h.Appends h' ∧ P a

theorem Appends.pure {a : α} (ha : P a) : (pure a : HeapM α).Appends P := by
  rintro h _ _ ⟨⟩
  exact ⟨.refl h, ha⟩

theorem Appends.throw (e : Error) : (throw e : HeapM α).Appends P := nofun

theorem Appends.bind {m : HeapM α} {f : α → HeapM β} (hm : m.Appends P)
    (hf : ∀ a, P a → (f a).Appends Q) : (m >>= f).Appends Q := by
  intro h b h'' hrun
  obtain ⟨a, h', ha, hb⟩ := run_bind_eq_ok.mp hrun
  obtain ⟨hh, hP⟩ := hm h a h' ha
  obtain ⟨hh', hQ⟩ := hf a hP h' b h'' hb
  exact ⟨hh.trans hh', hQ⟩

theorem Appends.get_bind {f : Heap → HeapM α} (hf : ∀ h, (f h).Appends P) :
    (get >>= f : HeapM α).Appends P :=
  fun h a h' hrun => hf h h a h' hrun

end HeapM

section

variable {coerce key value : Value → HeapM Value} {t k e : Ty}

theorem Key.coerceWith_appends (hcoerce : ∀ v, (coerce v).Appends fun w => t.Accepts w.ty)
    (v : Value) : (Key.coerceWith coerce v).Appends t.AcceptsKey := by
  refine (hcoerce v).bind fun w hw => ?_
  cases hk : w.peel.key? with
  | none => exact .throw _
  | some k => exact .pure ⟨w, hw, (value_of_key? hk).symm⟩

theorem Value.coerceItems_appends (hcoerce : ∀ v, (coerce v).Appends fun w => t.Accepts w.ty)
    (vs : List Value) :
    (Value.coerceItems coerce vs).Appends fun ws => ws.length = vs.length := by
  induction vs with
  | nil => exact .pure rfl
  | cons v vs ih =>
    exact (hcoerce v).bind fun w _ => ih.bind fun ws hws => .pure (congrArg (· + 1) hws)

theorem Entries.insertAll_appends (hkey : ∀ v, (key v).Appends fun w => k.Accepts w.ty)
    (hvalue : ∀ v, (value v).Appends fun w => e.Accepts w.ty) (es rest : List (Key × Value)) :
    (Entries.insertAll key value es rest).Appends fun _ => True := by
  induction rest generalizing es with
  | nil => exact .pure trivial
  | cons entry rest ih =>
    exact (Key.coerceWith_appends hkey _).bind fun _ _ => (hvalue _).bind fun _ _ => ih _

theorem Ty.coerceBase_appends {convert : Value → Option (HeapM Value)}
    (hconvert : ∀ b m, convert b = some m → m.Appends fun w => t.Accepts w.ty) (v : Value) :
    (t.coerceBase v convert).Appends fun w => t.Accepts w.ty := by
  refine .get_bind fun h => ?_
  split
  · exact .pure (t.zero_fits h).accepts
  dsimp only
  split
  · next hty => exact .pure (.of_beq hty)
  · split
    · next m hm => exact hconvert _ m hm
    · exact .throw _

theorem Ty.newCell_appends (e : Ty) (v : Value) :
    (Ty.coerce.newCell e v).Appends fun w => (Ty.pointer e).Accepts w.ty := by
  rintro h _ _ ⟨⟩
  exact ⟨.alloc h v, Ty.accepts_self _⟩

end

/-- Coercion only adds cells, and gives a value of the type. -/
theorem Ty.coerce_appends (t : Ty) (v : Value) :
    (t.coerce v).Appends fun w => t.Accepts w.ty := by
  match t with
  | .invalid => exact .pure trivial
  | .any => exact .pure v.peel.ty_boxed
  | .pointer e =>
    have hnew (u : Value) :
        (e.coerce u >>= Ty.coerce.newCell e).Appends fun w => (Ty.pointer e).Accepts w.ty :=
      (Ty.coerce_appends e u).bind fun w _ => Ty.newCell_appends e w
    rw [Ty.coerce]
    split
    · exact .pure (Ty.accepts_self _)
    · exact .pure (Ty.accepts_self _)
    · exact .pure (Ty.accepts_self _)
    · split
      · next hty => exact .pure hty
      · exact hnew _
    · exact hnew _
  | .bool =>
    refine Ty.coerceBase_appends (fun b m hm => ?_) v
    cases hm
    exact .pure (Ty.accepts_self _)
  | .string =>
    refine Ty.coerceBase_appends (fun b m hm => ?_) v
    cases hm
    exact .get_bind fun h => .pure (Ty.accepts_self _)
  | .int _ | .uint _ | .float _ =>
    refine Ty.coerceBase_appends (fun b m hm => ?_) v
    obtain ⟨n, -, rfl⟩ := Option.map_eq_some_iff.mp hm
    exact .pure (Ty.accepts_self _)
  | .list e =>
    refine Ty.coerceBase_appends (fun b m hm => ?_) v
    obtain ⟨items, -, rfl⟩ := Option.map_eq_some_iff.mp hm
    exact (Value.coerceItems_appends (Ty.coerce_appends e) _).bind
      fun ws _ => .pure (Ty.accepts_self _)
  | .array e n =>
    refine Ty.coerceBase_appends (fun b m hm => ?_) v
    obtain ⟨items, -, rfl⟩ := Option.map_eq_some_iff.mp hm
    refine (Value.coerceItems_appends (Ty.coerce_appends e) _).bind fun ws hws => .pure ?_
    rw [Value.ty, hws, Value.length_resize]
    exact Ty.accepts_self _
  | .map k e =>
    refine Ty.coerceBase_appends (fun b m hm => ?_) v
    obtain ⟨entries, -, rfl⟩ := Option.map_eq_some_iff.mp hm
    exact (Entries.insertAll_appends (Ty.coerce_appends k) (Ty.coerce_appends e) [] entries).bind
      fun es _ => .pure (Ty.accepts_self _)
  | .record _ | .func =>
    refine Ty.coerceBase_appends (fun b m hm => ?_) v
    cases hm

theorem Ty.assign_appends (t : Ty) (v : Value) :
    (t.assign v).Appends fun w => t.Accepts w.ty := by
  unfold Ty.assign
  split
  · exact .pure (t.zero_fits .empty).accepts
  · split
    · exact .throw _
    · exact Ty.coerce_appends _ v

/-- Storing an entry only adds cells. -/
theorem Entries.insert_appends (k e : Ty) (es : List (Key × Value)) (key v : Value) :
    (Entries.insert k e es key v).Appends fun _ => True :=
  (Key.coerceWith_appends k.coerce_appends key).bind fun _ _ =>
    (e.coerce_appends v).bind fun _ _ => .pure trivial

/-! ### What fits -/

theorem Value.peel_eq_self {v : Value} (hv : v.ty ≠ .any) : v.peel = v := by
  cases v <;> first | rfl | exact absurd rfl hv

/-- A value that a destination of a type may hold is coerced into itself, if it is not nothing and
no slot in a slot. -/
theorem Ty.coerce_self {h : Heap} {v : Value} {t : Ty} (hv : t.Accepts v.ty)
    (hnil : v.isNil = false)
    (hslot : v.ty = .any → v.peel.ty ≠ .invalid ∧ v.peel.ty ≠ .any) :
    (t.coerce v).run h = .ok (v, h) := by
  have hbase {convert : Value → Option (HeapM Value)} (hpeel : v.peel = v) (hb : v.base h = v)
      (hty : (v.ty == t) = true) : (t.coerceBase v convert).run h = .ok (v, h) := by
    unfold Ty.coerceBase
    show (if v.peel.isNil = true then (_ : HeapM Value) else _).run h = _
    rw [hpeel, hnil, hb, if_pos hty]
    rfl
  cases t with
  | invalid => rfl
  | any =>
    cases v with
    | slot v =>
      obtain ⟨hfilled, hsingle⟩ := hslot rfl
      cases v <;> first | rfl | exact absurd rfl hfilled | exact absurd rfl hsingle
    | emptySlot => cases hnil
    | _ => cases hv
  | pointer e =>
    cases v with
    | pointer e' cell =>
      cases cell with
      | none => cases hnil
      | some a =>
        have hty : (e' == e) = true := hv
        show (if (e' == e) = true then (_ : HeapM Value) else _).run h = _
        rw [if_pos hty]
        rfl
    | _ => cases hv
  | func =>
    cases v with
    | invalid => cases hnil
    | func f => exact hbase rfl (Heap.follow_eq_of_step fun _ => rfl) BEq.rfl
    | _ => rcases hv with hty | hty <;> cases hty
  | _ =>
    cases v <;> first
      | exact hbase rfl (Heap.follow_eq_of_step fun _ => rfl) hv
      | cases hv

/-- What fits a destination is given back when it is taken out of its slot and coerced again.
Pointers are left out: one to nothing loses the type of what it points to. -/
theorem Ty.coerce_peel {h : Heap} {v : Value} {t : Ty} (hv : v.Fits t h) (ht : t ≠ .invalid)
    (hpointer : v.isPointer = false) : (t.coerce v.peel).run h = .ok (v, h) := by
  by_cases hany : v.ty = .any
  · obtain rfl : t = .any := (hany ▸ hv.accepts).eq_any ht
    cases v with
    | slot w =>
      obtain ⟨hfilled, hsingle, -⟩ := Value.wellFormed_slot.mp hv.wellFormed
      cases w <;> first | rfl | exact absurd rfl hfilled | exact absurd rfl hsingle
    | emptySlot => rfl
    | _ => cases hany
  · rw [Value.peel_eq_self hany]
    by_cases hnil : v.isNil = true
    · cases v with
      | invalid =>
        cases t with
        | func => rfl
        | invalid => exact absurd rfl ht
        | _ => cases hv.accepts
      | emptySlot => exact absurd rfl hany
      | pointer => cases hpointer
      | _ => cases hnil
    · exact Ty.coerce_self hv.accepts (by simpa using hnil) fun hty => absurd hty hany

theorem Key.key?_value (k : Key) : k.value.key? = some k := by
  cases k <;> rfl

/-- A key that a map may store is stored as it is. -/
theorem Key.coerceWith_value {h : Heap} {t : Ty} {k : Key} (hk : t.AcceptsKey k) :
    (Key.coerceWith t.coerce k.value).run h = .ok (k, h) := by
  have hcoerce : ∃ w, (t.coerce k.value).run h = .ok (w, h) ∧ w.peel = k.value := by
    by_cases ht : t = .any
    · subst ht
      exact ⟨_, rfl, by cases k <;> rfl⟩
    · obtain ⟨v, hv, hkey⟩ := hk
      have haccepts : t.Accepts k.value.ty := by
        by_cases hinvalid : t = .invalid
        · subst hinvalid
          trivial
        · rwa [← hkey, Value.peel_eq_self fun hany => ht ((hany ▸ hv).eq_any hinvalid)]
      refine ⟨_, Ty.coerce_self haccepts (by cases k <;> rfl) fun hty => ?_, by cases k <;> rfl⟩
      cases k <;> cases hty
  obtain ⟨w, hrun, hpeel⟩ := hcoerce
  rw [Key.coerceWith]
  refine HeapM.run_bind_eq_ok.mpr ⟨w, h, hrun, ?_⟩
  rw [hpeel, Key.key?_value]
  rfl

theorem Key.place?_value {h : Heap} {t : Ty} {k : Key} (hk : t.AcceptsKey k) :
    Key.place? t k.value h = some k.bare := by
  rw [Key.place?, Key.coerceWith_value hk]

/-- An entry that a map may hold is inserted as it is. -/
theorem Entries.insert_value {h : Heap} {k e : Ty} {key : Key} {v : Value}
    (es : List (Key × Value)) (hkey : k.AcceptsKey key) (hv : v.Fits e h) (he : e ≠ .invalid)
    (hpointer : v.isPointer = false) :
    (Entries.insert k e es key.value v.peel).run h = .ok (Entries.put key v es, h) := by
  rw [Entries.insert]
  refine HeapM.run_bind_eq_ok.mpr ⟨key, h, Key.coerceWith_value hkey, ?_⟩
  exact HeapM.run_bind_eq_ok.mpr ⟨v, h, Ty.coerce_peel hv he hpointer, rfl⟩

/-! ### Reading alike -/

namespace HeapM

variable {α β : Type} {h h' : Heap}

/-- A computation that changes neither of two heaps and gives the same on both. -/
def ReadsAlike (m : HeapM α) (h h' : Heap) : Prop :=
  ∃ x : Except Error α, m.run h = x.map (·, h) ∧ m.run h' = x.map (·, h')

theorem ReadsAlike.pure (a : α) : (pure a : HeapM α).ReadsAlike h h' := ⟨.ok a, rfl, rfl⟩

theorem ReadsAlike.throw (e : Error) : (throw e : HeapM α).ReadsAlike h h' := ⟨.error e, rfl, rfl⟩

theorem ReadsAlike.bind {m : HeapM α} {f : α → HeapM β} (hm : m.ReadsAlike h h')
    (hf : ∀ a, (f a).ReadsAlike h h') : (m >>= f).ReadsAlike h h' := by
  obtain ⟨x, hx, hx'⟩ := hm
  cases x with
  | error e =>
    refine ⟨.error e, ?_, ?_⟩
    · rw [StateT.run_bind, hx]
      rfl
    · rw [StateT.run_bind, hx']
      rfl
  | ok a =>
    obtain ⟨y, hy, hy'⟩ := hf a
    refine ⟨y, ?_, ?_⟩
    · rw [StateT.run_bind, hx, ← hy]
      rfl
    · rw [StateT.run_bind, hx', ← hy']
      rfl

theorem ReadsAlike.get_bind {f : Heap → HeapM α} (hf : f h' = f h) (hm : (f h).ReadsAlike h h') :
    (get >>= f : HeapM α).ReadsAlike h h' := by
  obtain ⟨x, hx, hx'⟩ := hm
  refine ⟨x, hx, ?_⟩
  show (f h').run h' = _
  rw [hf, hx']

theorem ReadsAlike.symm {m : HeapM α} (hm : m.ReadsAlike h h') : m.ReadsAlike h' h := by
  obtain ⟨x, hx, hx'⟩ := hm
  exact ⟨x, hx', hx⟩

/-- What a computation gives on one of the heaps it gives on the other. -/
theorem ReadsAlike.run_eq_ok {m : HeapM α} {h₁ : Heap} {a : α} (hm : m.ReadsAlike h h')
    (hrun : m.run h = .ok (a, h₁)) : h₁ = h ∧ m.run h' = .ok (a, h') := by
  obtain ⟨x, hx, hx'⟩ := hm
  rw [hx] at hrun
  cases x with
  | error e => cases hrun
  | ok b =>
    cases hrun
    exact ⟨rfl, hx'⟩

end HeapM

/-- Whether coercion into a type can give a key. -/
def Ty.takesKeys : Ty → Bool
  | invalid | any | bool | int _ | uint _ | float _ | string => true
  | _ => false

theorem Ty.AcceptsKey.takesKeys {t : Ty} {k : Key} (hk : t.AcceptsKey k) : t.takesKeys = true := by
  obtain ⟨w, hw, hkey⟩ := hk
  cases t with
  | invalid | any | bool | int | uint | float | string => rfl
  | func =>
    have hne : w.ty ≠ .any := by rcases hw with hty | hty <;> rw [hty] <;> nofun
    rw [Value.peel_eq_self hne] at hkey
    rw [hkey] at hw
    cases k <;> rcases hw with hty | hty <;> cases hty
  | _ =>
    have hne : w.ty ≠ .any := fun hty => nomatch hty ▸ hw
    rw [Value.peel_eq_self hne] at hkey
    rw [hkey] at hw
    cases k <;> cases hw

section

variable {h h' : Heap} {v : Value}

namespace Heap.Agrees

theorem base_eq (ha : h.Agrees h' v) (hacyclic : h.AcyclicBehind v) (hh : h.Bounded)
    (hv : v.Bounded h) : v.base h' = v.base h :=
  ha.follow_eq hacyclic hh hv Value.baseStep_isLocal

theorem text_eq (ha : h.Agrees h' v) (hacyclic : h.AcyclicBehind v) (hh : h.Bounded)
    (hv : v.Bounded h) : v.text h' = v.text h :=
  ha.follow_eq hacyclic hh hv Value.textStep_isLocal

/-- A value is read as the same text where the cells behind it are the same. -/
theorem toText_eq (ha : h.Agrees h' v) (hacyclic : h.AcyclicBehind v) (hh : h.Bounded)
    (hv : v.Bounded h) : v.toText h' = v.toText h := by
  have htext := ha.base.text_eq (hacyclic.of_reaches fun _ => Reaches.of_base) hh (hv.base hh)
  rw [Value.toText, Value.toText, ha.base_eq hacyclic hh hv]
  cases hb : v.base h with
  | invalid | string s => rfl
  | _ => rwa [hb] at htext

end Heap.Agrees

/-- Coercion by the base reads alike if the bases are the same and the conversion reads alike. -/
theorem Ty.coerceBase_readsAlike {t : Ty} {convert : Value → Option (HeapM Value)}
    (hb : v.peel.base h' = v.peel.base h)
    (hconvert : ∀ m, convert (v.peel.base h) = some m → m.ReadsAlike h h') :
    (t.coerceBase v convert).ReadsAlike h h' := by
  refine .get_bind ?_ ?_
  · dsimp only
    rw [hb]
  split
  · exact .pure _
  dsimp only
  split
  · exact .pure _
  · split
    · next m hm => exact hconvert m hm
    · exact .throw _

/-- Coercion into the type of a key reads no more than the base of a value and its text. -/
theorem Ty.coerce_readsAlike_of_base {t : Ty} (ht : t.takesKeys = true)
    (hb : v.peel.base h' = v.peel.base h)
    (htext : (v.peel.base h).text h' = (v.peel.base h).text h) :
    (t.coerce v).ReadsAlike h h' := by
  cases t with
  | invalid | any => exact .pure _
  | bool =>
    refine Ty.coerceBase_readsAlike hb fun m hm => ?_
    cases hm
    exact .pure _
  | string =>
    refine Ty.coerceBase_readsAlike hb fun m hm => ?_
    cases hm
    refine .get_bind ?_ (.pure _)
    rw [htext]
  | int | uint | float =>
    refine Ty.coerceBase_readsAlike hb fun m hm => ?_
    obtain ⟨n, -, rfl⟩ := Option.map_eq_some_iff.mp hm
    exact .pure _
  | _ => cases ht

/-- Coercion into the type of a key reads alike where the cells behind a value are the same. -/
theorem Ty.coerce_readsAlike {t : Ty} (ht : t.takesKeys = true) (hh : h.Bounded)
    (hacyclic : h.AcyclicBehind v) (hv : v.Bounded h) (ha : h.Agrees h' v) :
    (t.coerce v).ReadsAlike h h' := by
  have hpeel : h.AcyclicBehind v.peel := hacyclic.of_reaches fun _ => Heap.Reaches.of_peel
  have hbase : h.AcyclicBehind (v.peel.base h) := hpeel.of_reaches fun _ => Heap.Reaches.of_base
  exact Ty.coerce_readsAlike_of_base ht (ha.peel.base_eq hpeel hh hv.peel)
    (ha.peel.base.text_eq hbase hh (hv.peel.base hh))

/-- A key is brought into its form without a change of the heap. -/
theorem Key.coerceWith_heap {t : Ty} {k : Key}
    (hk : (Key.coerceWith t.coerce v).run h = .ok (k, h')) : h' = h := by
  have ht := (Key.coerceWith_appends t.coerce_appends v h k h' hk).2.takesKeys
  obtain ⟨w, h₁, hw, hrun⟩ := HeapM.run_bind_eq_ok.mp hk
  have halike : (t.coerce v).ReadsAlike h h := Ty.coerce_readsAlike_of_base ht rfl rfl
  obtain ⟨rfl, -⟩ := halike.run_eq_ok hw
  split at hrun <;> cases hrun
  rfl

theorem Key.coerceWith_readsAlike {t : Ty} (ht : t.takesKeys = true) (hh : h.Bounded)
    (hacyclic : h.AcyclicBehind v) (hv : v.Bounded h) (ha : h.Agrees h' v) :
    (Key.coerceWith t.coerce v).ReadsAlike h h' := by
  refine (Ty.coerce_readsAlike ht hh hacyclic hv ha).bind fun w => ?_
  split
  · exact .pure _
  · exact .throw _

/-- A key that a map takes on a heap is the key that it takes on every other one with the same cells
behind the value, and no cells are added for it. -/
theorem Key.coerceWith_of_agrees {t : Ty} {k : Key} {h₀ h₁ : Heap} (hh : h.Bounded)
    (hacyclic : h.AcyclicBehind v) (hv : v.Bounded h) (ha₀ : h.Agrees h₀ v) (ha : h.Agrees h' v)
    (hk : (Key.coerceWith t.coerce v).run h₀ = .ok (k, h₁)) :
    h₁ = h₀ ∧ (Key.coerceWith t.coerce v).run h' = .ok (k, h') := by
  have ht := (Key.coerceWith_appends t.coerce_appends v h₀ k h₁ hk).2.takesKeys
  have halike := Key.coerceWith_readsAlike ht hh hacyclic hv ha₀
  obtain ⟨heq, hk⟩ := halike.symm.run_eq_ok hk
  exact ⟨heq, ((Key.coerceWith_readsAlike ht hh hacyclic hv ha).run_eq_ok hk).2⟩

/-- The place of a key is the same where the cells behind it are the same. -/
theorem Key.place?_eq_of_agrees {t : Ty} (hh : h.Bounded) (hacyclic : h.AcyclicBehind v)
    (hv : v.Bounded h) (ha : h.Agrees h' v) : Key.place? t v h' = Key.place? t v h := by
  by_cases ht : t.takesKeys = true
  · obtain ⟨x, hx, hx'⟩ := Key.coerceWith_readsAlike ht hh hacyclic hv ha
    rw [Key.place?, Key.place?, hx, hx']
    cases x <;> rfl
  · have hnone (k : Heap) : Key.place? t v k = none := by
      rw [Key.place?]
      split
      · next key k' hkey =>
        exact absurd (Key.coerceWith_appends t.coerce_appends v k key k' hkey).2.takesKeys ht
      · rfl
    rw [hnone, hnone]

/-- An index is the same where the cells behind it are the same. -/
theorem Heap.Agrees.index?_eq (ha : h.Agrees h' v) (hacyclic : h.AcyclicBehind v) (hh : h.Bounded)
    (hv : v.Bounded h) : v.index? h' = v.index? h := by
  obtain ⟨x, hx, hx'⟩ := @Ty.coerce_readsAlike h h' v (.int .bits64) rfl hh hacyclic hv ha
  have hint : v.toInt64 h' = v.toInt64 h := by
    rw [Value.toInt64, Value.toInt64, StateT.run'_eq, StateT.run'_eq, hx, hx']
    cases x <;> rfl
  rw [Value.index?, Value.index?, hint]

end

end DynamicEval
