import DynamicEval.Copy
import DynamicEval.Proofs.Heap.Region

/-!
# Deep copies

A deep copy is what it copies with two differences. A field that is not exported is the zero of its
declared type, and a pointer to a cell is one to a new cell of its own, which holds a copy of the
content. So the cells behind a copy are the new ones, and no cell that was there is behind it.

## Main definitions

* `Copies`: a value is a copy of another one, with the new cells that its pointers use up in turn.
* `Copying`: what a copy leaves behind.

## Main results

* `Copies.ty_eq`: a copy has the type of what it copies.
* `Copies.reaches`: the cells behind a copy are those that its pointers use up.
* `Value.deepCopy_copies`: a deep copy is a copy, and no cell is changed for it.
* `Value.deepCopy_apart`: no cell is behind both a value and its deep copy.
-/

namespace DynamicEval

/-! ### The relation -/

/-- A value without parts and without a cell. -/
def Value.isAtom : Value → Bool
  | list _ _ | array _ _ | map _ _ _ | record _ _ | pointer _ (some _) | slot _ => false
  | _ => true

mutual

/-- On the heap `h'`, the second value is a copy of the first, which stands on the heap `h`. The
pointers of the copy use up the cells from `n` on up to `m`, each cell for one pointer. -/
inductive Copies (h h' : Heap) : Value → Value → (n m : Addr) → Prop where
  | atom {v : Value} {n : Addr} (hv : v.isAtom = true) : Copies h h' v v n n
  | list {e : Ty} {vs ws : List Value} {n m : Addr} (hvs : CopiesItems h h' vs ws n m) :
      Copies h h' (.list e vs) (.list e ws) n m
  | array {e : Ty} {vs ws : List Value} {n m : Addr} (hvs : CopiesItems h h' vs ws n m) :
      Copies h h' (.array e vs) (.array e ws) n m
  | map {k e : Ty} {es fs : List (Key × Value)} {n m : Addr}
      (hkeys : fs.map Prod.fst = es.map Prod.fst)
      (hvalues : CopiesItems h h' (es.map Prod.snd) (fs.map Prod.snd) n m) :
      Copies h h' (.map k e es) (.map k e fs) n m
  | record {r : RecordType} {vs ws : List Value} {n m : Addr}
      (hvs : CopiesFields h h' r.fields vs ws n m) : Copies h h' (.record r vs) (.record r ws) n m
  | slot {v w : Value} {n m : Addr} (hv : Copies h h' v w n m) :
      Copies h h' (.slot v) (.slot w) n m
  /-- A pointer gets a new cell, with a copy of the content. -/
  | pointer {e : Ty} {a b n : Addr} (hcell : Copies h h' (h.get a) (h'.get b) n b) :
      Copies h h' (.pointer e (some a)) (.pointer e (some b)) n (b + 1)

/-- Values are copied one by one. -/
inductive CopiesItems (h h' : Heap) : List Value → List Value → (n m : Addr) → Prop where
  | nil {n : Addr} : CopiesItems h h' [] [] n n
  | cons {v w : Value} {vs ws : List Value} {n m l : Addr} (hv : Copies h h' v w n m)
      (hvs : CopiesItems h h' vs ws m l) : CopiesItems h h' (v :: vs) (w :: ws) n l

/-- The fields of a record are copied one by one if they are exported. -/
inductive CopiesFields (h h' : Heap) :
    List Field → List Value → List Value → (n m : Addr) → Prop where
  | nil {n : Addr} : CopiesFields h h' [] [] [] n n
  | exported {f : Field} {fs : List Field} {v w : Value} {vs ws : List Value} {n m l : Addr}
      (hf : f.exported = true) (hv : Copies h h' v w n m) (hvs : CopiesFields h h' fs vs ws m l) :
      CopiesFields h h' (f :: fs) (v :: vs) (w :: ws) n l
  /-- A field that is not exported is reset. -/
  | hidden {f : Field} {fs : List Field} {v : Value} {vs ws : List Value} {n m : Addr}
      (hf : f.exported = false) (hvs : CopiesFields h h' fs vs ws n m) :
      CopiesFields h h' (f :: fs) (v :: vs) (f.ty.zero :: ws) n m

end

theorem CopiesItems.length_eq {h h' : Heap} {vs ws : List Value} {n m : Addr}
    (hvs : CopiesItems h h' vs ws n m) : ws.length = vs.length := by
  induction vs generalizing ws n with
  | nil =>
    cases hvs
    rfl
  | cons v vs ih =>
    cases hvs with
    | cons _ hvs => exact congrArg (· + 1) (ih hvs)

/-- A copy has the type of what it copies. -/
theorem Copies.ty_eq {h h' : Heap} {v w : Value} {n m : Addr} (hv : Copies h h' v w n m) :
    w.ty = v.ty := by
  cases hv with
  | array hvs =>
    rw [Value.ty, Value.ty, hvs.length_eq]
  | _ => rfl

mutual

/-- Cells are used up in the order of their addresses. -/
theorem Copies.le {h h' : Heap} {v w : Value} {n m : Addr} : Copies h h' v w n m → n ≤ m
  | .atom _ => Nat.le_refl _
  | .list hvs | .array hvs => CopiesItems.le hvs
  | .map _ hvalues => CopiesItems.le hvalues
  | .record hvs => CopiesFields.le hvs
  | .slot hv => Copies.le hv
  | .pointer hcell => Nat.le_succ_of_le (Copies.le hcell)

theorem CopiesItems.le {h h' : Heap} {vs ws : List Value} {n m : Addr} :
    CopiesItems h h' vs ws n m → n ≤ m
  | .nil => Nat.le_refl _
  | .cons hv hvs => Nat.le_trans (Copies.le hv) (CopiesItems.le hvs)

theorem CopiesFields.le {h h' : Heap} {fs : List Field} {vs ws : List Value} {n m : Addr} :
    CopiesFields h h' fs vs ws n m → n ≤ m
  | .nil => Nat.le_refl _
  | .exported _ hv hvs => Nat.le_trans (Copies.le hv) (CopiesFields.le hvs)
  | .hidden _ hvs => CopiesFields.le hvs

end

mutual

/-- A copy stays one while the cells that its pointers use up are not changed. -/
theorem Copies.congr {h h' h'' : Heap} {v w : Value} {n m : Addr} : Copies h h' v w n m →
    (∀ a, n ≤ a → a < m → h''.get a = h'.get a) → Copies h h'' v w n m
  | .atom hv, _ => .atom hv
  | .list hvs, hget => .list (CopiesItems.congr hvs hget)
  | .array hvs, hget => .array (CopiesItems.congr hvs hget)
  | .map hkeys hvalues, hget => .map hkeys (CopiesItems.congr hvalues hget)
  | .record hvs, hget => .record (CopiesFields.congr hvs hget)
  | .slot hv, hget => .slot (Copies.congr hv hget)
  | @Copies.pointer _ _ e a b n hcell, hget => by
    refine .pointer ?_
    rw [hget b hcell.le (Nat.lt_succ_self b)]
    exact Copies.congr hcell fun a hn hm => hget a hn (Nat.lt_succ_of_lt hm)

theorem CopiesItems.congr {h h' h'' : Heap} {vs ws : List Value} {n m : Addr} :
    CopiesItems h h' vs ws n m → (∀ a, n ≤ a → a < m → h''.get a = h'.get a) →
      CopiesItems h h'' vs ws n m
  | .nil, _ => .nil
  | .cons hv hvs, hget =>
    .cons (Copies.congr hv fun a hn hm => hget a hn (Nat.lt_of_lt_of_le hm hvs.le))
      (CopiesItems.congr hvs fun a hn => hget a (Nat.le_trans hv.le hn))

theorem CopiesFields.congr {h h' h'' : Heap} {fs : List Field} {vs ws : List Value} {n m : Addr} :
    CopiesFields h h' fs vs ws n m → (∀ a, n ≤ a → a < m → h''.get a = h'.get a) →
      CopiesFields h h'' fs vs ws n m
  | .nil, _ => .nil
  | .exported hf hv hvs, hget =>
    .exported hf (Copies.congr hv fun a hn hm => hget a hn (Nat.lt_of_lt_of_le hm hvs.le))
      (CopiesFields.congr hvs fun a hn => hget a (Nat.le_trans hv.le hn))
  | .hidden hf hvs, hget => .hidden hf (CopiesFields.congr hvs hget)

end

/-- A copy stays one while no cell is changed. -/
theorem Copies.appends {h h' h'' : Heap} (ha : h'.Appends h'') {v w : Value} {n m : Addr}
    (hv : Copies h h' v w n m) (hm : m ≤ h'.size) : Copies h h'' v w n m :=
  hv.congr fun a _ ham => ha.get_eq a (Nat.lt_of_lt_of_le ham hm)

/-! ### The cells behind a copy -/

namespace Heap

/-- The cells behind a value are among those from `n` on up to `m`, and none of them is behind
itself. -/
def ReachesBetween (h : Heap) (v : Value) (n m : Addr) : Prop :=
  ∀ a, h.Reaches v a → n ≤ a ∧ a < m ∧ ¬h.Reaches (h.get a) a

variable {h : Heap} {v : Value} {ws : List Value} {n n' m m' : Addr}

theorem ReachesBetween.mono (hv : h.ReachesBetween v n m) (hn : n' ≤ n) (hm : m ≤ m') :
    h.ReachesBetween v n' m' := by
  intro a ha
  obtain ⟨hle, hlt, hself⟩ := hv a ha
  exact ⟨Nat.le_trans hn hle, Nat.lt_of_lt_of_le hlt hm, hself⟩

/-- What is behind a value is behind one of its parts. -/
theorem ReachesBetween.of_parts (hws : ∀ w ∈ ws, h.ReachesBetween w n m)
    (hparts : ∀ b, v.Points b → ∃ w ∈ ws, w.Points b) : h.ReachesBetween v n m := by
  rintro a (hp | ⟨hp, hb⟩)
  · obtain ⟨w, hw, hp⟩ := hparts a hp
    exact hws w hw a (.direct hp)
  · obtain ⟨w, hw, hp⟩ := hparts _ hp
    exact hws w hw a (.behind hp hb)

end Heap

mutual

/-- The cells behind a copy are those that its pointers use up. -/
theorem Copies.reachesBetween {h h' : Heap} {v w : Value} {n m : Addr} :
    Copies h h' v w n m → h'.ReachesBetween w n m
  | .atom hv => by
    rintro a (hp | ⟨hp, -⟩) <;> cases hp <;> cases hv
  | .list hvs => .of_parts (CopiesItems.reachesBetween hvs) fun b hp => by
    cases hp with
    | list hw hp => exact ⟨_, hw, hp⟩
  | .array hvs => .of_parts (CopiesItems.reachesBetween hvs) fun b hp => by
    cases hp with
    | array hw hp => exact ⟨_, hw, hp⟩
  | .map _ hvalues => .of_parts (CopiesItems.reachesBetween hvalues) fun b hp => by
    cases hp with
    | map hentry hp => exact ⟨_, List.mem_map_of_mem hentry, hp⟩
  | .record hvs => .of_parts (CopiesFields.reachesBetween hvs) fun b hp => by
    cases hp with
    | record hw hp => exact ⟨_, hw, hp⟩
  | .slot hv => .of_parts (List.forall_mem_singleton.mpr (Copies.reachesBetween hv)) fun b hp => by
    cases hp with
    | slot hp => exact ⟨_, List.mem_singleton_self _, hp⟩
  | .pointer hcell => by
    have hbehind := Copies.reachesBetween hcell
    rintro a (hp | ⟨hp, ha⟩)
    · cases hp
      exact ⟨hcell.le, Nat.lt_succ_self _, fun hr => Nat.lt_irrefl _ (hbehind _ hr).2.1⟩
    · cases hp
      obtain ⟨hle, hlt, hself⟩ := hbehind a ha
      exact ⟨hle, Nat.lt_succ_of_lt hlt, hself⟩

theorem CopiesItems.reachesBetween {h h' : Heap} {vs ws : List Value} {n m : Addr} :
    CopiesItems h h' vs ws n m → ∀ w ∈ ws, h'.ReachesBetween w n m
  | .nil => List.forall_mem_nil _
  | .cons hv hvs => by
    have hw := (Copies.reachesBetween hv).mono (Nat.le_refl _) hvs.le
    have hws := CopiesItems.reachesBetween hvs
    exact List.forall_mem_cons.mpr ⟨hw, fun u hu => (hws u hu).mono hv.le (Nat.le_refl _)⟩

theorem CopiesFields.reachesBetween {h h' : Heap} {fs : List Field} {vs ws : List Value}
    {n m : Addr} : CopiesFields h h' fs vs ws n m → ∀ w ∈ ws, h'.ReachesBetween w n m
  | .nil => List.forall_mem_nil _
  | .exported _ hv hvs => by
    have hw := (Copies.reachesBetween hv).mono (Nat.le_refl _) hvs.le
    have hws := CopiesFields.reachesBetween hvs
    exact List.forall_mem_cons.mpr ⟨hw, fun u hu => (hws u hu).mono hv.le (Nat.le_refl _)⟩
  | .hidden _ hvs => by
    have hws := CopiesFields.reachesBetween hvs
    exact List.forall_mem_cons.mpr ⟨fun a ha => absurd ha (Ty.not_reaches_zero _ _ a), hws⟩

end

/-- No cell behind a copy is behind itself. -/
theorem Copies.acyclicBehind {h h' : Heap} {v w : Value} {n m : Addr} (hv : Copies h h' v w n m) :
    h'.AcyclicBehind w :=
  fun a ha => (hv.reachesBetween a ha).2.2

/-! ### Copying -/

/-- A copy of a value of the heap `h` that is made on the heap `k`. -/
structure Copying (h k : Heap) (v : Value) (r : Heap × Value) : Prop where
  /-- No cell is changed. -/
  appends : k.Appends r.1
  /-- The copy uses up all new cells. -/
  copies : Copies h r.1 v r.2 k.size r.1.size

/-- A copy of a cell `a` of the heap `h` that is made on the heap `k`. -/
structure CopyingCell (h k : Heap) (a : Addr) (r : Heap × Addr) : Prop where
  /-- No cell is changed. -/
  appends : k.Appends r.1
  /-- The cell is the last one. -/
  size_eq : r.1.size = r.2 + 1
  /-- It holds a copy of the content, which uses up all other new cells. -/
  copies : Copies h r.1 (h.get a) (r.1.get r.2) k.size r.2

/-- A copy of the content of a cell makes one of the cell when it is put into a new one. -/
theorem Copying.alloc {h k : Heap} {a : Addr} {r : Heap × Value} (hr : Copying h k (h.get a) r) :
    CopyingCell h k a (r.1.alloc r.2) where
  appends := hr.appends.trans (.alloc _ _)
  size_eq := Heap.size_alloc
  copies := by
    show Copies h _ (h.get a) ((r.1.alloc r.2).1.get r.1.size) k.size r.1.size
    rw [Heap.get_alloc_size]
    exact hr.copies.appends (.alloc _ _) (Nat.le_refl _)

/-- The cells that the pointers in a value of the heap `h` name are copied by `copyCell`. -/
def CopiesCellsOf (h : Heap) (copyCell : Addr → Heap → Heap × Addr) (v : Value) : Prop :=
  ∀ a, v.Points a → ∀ k, h.Appends k → CopyingCell h k a (copyCell a k)

section

variable {h : Heap} {copyCell : Addr → Heap → Heap × Addr}

mutual

/-- A step of a copy gives a copy if the cells at hand are copied. -/
theorem Value.copyStep_copying {k : Heap} (hk : h.Appends k) (v : Value) (hv : v.WellFormed h)
    (hc : CopiesCellsOf h copyCell v) : Copying h k v (v.copyStep copyCell k) := by
  match v with
  | .list e items =>
    obtain ⟨hgrows, hitems⟩ := Value.copyItemsStep_copying hk items
      (fun v hmem => (Value.wellFormed_list.mp hv v hmem).wellFormed)
      fun v hmem a ha => hc a (.list hmem ha)
    exact ⟨hgrows, .list hitems⟩
  | .array e items =>
    obtain ⟨hgrows, hitems⟩ := Value.copyItemsStep_copying hk items
      (fun v hmem => (Value.wellFormed_array.mp hv v hmem).wellFormed)
      fun v hmem a ha => hc a (.array hmem ha)
    exact ⟨hgrows, .array hitems⟩
  | .map kt et entries =>
    obtain ⟨hgrows, hkeys, hvalues⟩ := Value.copyEntriesStep_copying hk entries
      (fun entry hmem => ((Value.wellFormed_map.mp hv).values entry hmem).wellFormed)
      fun entry hmem a ha => hc a (.map hmem ha)
    exact ⟨hgrows, .map hkeys hvalues⟩
  | .record r fields =>
    obtain ⟨hgrows, hfields⟩ := Value.copyFieldsStep_copying hk r.fields fields
      (Value.wellFormed_record.mp hv) fun v hmem a ha => hc a (.record hmem ha)
    exact ⟨hgrows, .record hfields⟩
  | .pointer e (some a) =>
    have hr := hc a (.pointer e a) k hk
    refine ⟨hr.appends, ?_⟩
    show Copies h (copyCell a k).1 _ (.pointer e (some (copyCell a k).2)) _ (copyCell a k).1.size
    rw [hr.size_eq]
    exact .pointer hr.copies
  | .slot v =>
    obtain ⟨hfilled, hsingle, hv⟩ := Value.wellFormed_slot.mp hv
    have hr := Value.copyStep_copying hk v hv fun a ha => hc a (.slot ha)
    refine ⟨hr.appends, ?_⟩
    show Copies h (v.copyStep copyCell k).1 (.slot v) (v.copyStep copyCell k).2.boxed _ _
    rw [Value.boxed_eq_slot (hr.copies.ty_eq ▸ hfilled) (hr.copies.ty_eq ▸ hsingle)]
    exact .slot hr.copies
  | .pointer _ none | .invalid | .bool _ | .int _ _ | .uint _ _ | .float _ _ | .string _ | .func _
  | .emptySlot => exact ⟨.refl k, .atom rfl⟩

theorem Value.copyItemsStep_copying {k : Heap} (hk : h.Appends k) (vs : List Value)
    (hvs : ∀ v ∈ vs, v.WellFormed h) (hc : ∀ v ∈ vs, CopiesCellsOf h copyCell v) :
    k.Appends (Value.copyItemsStep copyCell vs k).1 ∧
      CopiesItems h (Value.copyItemsStep copyCell vs k).1 vs
        (Value.copyItemsStep copyCell vs k).2 k.size
        (Value.copyItemsStep copyCell vs k).1.size := by
  match vs with
  | [] => exact ⟨.refl k, .nil⟩
  | v :: vs =>
    obtain ⟨hv, hvs⟩ := List.forall_mem_cons.mp hvs
    obtain ⟨hcv, hc⟩ := List.forall_mem_cons.mp hc
    have hr := Value.copyStep_copying hk v hv hcv
    obtain ⟨hgrows, hws⟩ := Value.copyItemsStep_copying (hk.trans hr.appends) vs hvs hc
    exact ⟨hr.appends.trans hgrows, .cons (hr.copies.appends hgrows (Nat.le_refl _)) hws⟩

theorem Value.copyEntriesStep_copying {k : Heap} (hk : h.Appends k) (es : List (Key × Value))
    (hes : ∀ entry ∈ es, entry.2.WellFormed h) (hc : ∀ entry ∈ es, CopiesCellsOf h copyCell entry.2) :
    k.Appends (Value.copyEntriesStep copyCell es k).1 ∧
      (Value.copyEntriesStep copyCell es k).2.map Prod.fst = es.map Prod.fst ∧
      CopiesItems h (Value.copyEntriesStep copyCell es k).1 (es.map Prod.snd)
        ((Value.copyEntriesStep copyCell es k).2.map Prod.snd) k.size
        (Value.copyEntriesStep copyCell es k).1.size := by
  match es with
  | [] => exact ⟨.refl k, rfl, .nil⟩
  | (key, v) :: es =>
    obtain ⟨hv, hes⟩ := List.forall_mem_cons.mp hes
    obtain ⟨hcv, hc⟩ := List.forall_mem_cons.mp hc
    have hr := Value.copyStep_copying hk v hv hcv
    obtain ⟨hgrows, hkeys, hws⟩ := Value.copyEntriesStep_copying (hk.trans hr.appends) es hes hc
    exact ⟨hr.appends.trans hgrows, congrArg (key :: ·) hkeys,
      .cons (hr.copies.appends hgrows (Nat.le_refl _)) hws⟩

theorem Value.copyFieldsStep_copying {k : Heap} (hk : h.Appends k) (fs : List Field)
    (vs : List Value) (hvs : List.Forall₂ (fun f v => Value.Fits v f.ty h) fs vs)
    (hc : ∀ v ∈ vs, CopiesCellsOf h copyCell v) :
    k.Appends (Value.copyFieldsStep copyCell vs fs k).1 ∧
      CopiesFields h (Value.copyFieldsStep copyCell vs fs k).1 fs vs
        (Value.copyFieldsStep copyCell vs fs k).2 k.size
        (Value.copyFieldsStep copyCell vs fs k).1.size := by
  match vs, fs, hvs with
  | [], [], .nil => exact ⟨.refl k, .nil⟩
  | v :: vs, f :: fs, .cons hv hvs =>
    obtain ⟨hcv, hc⟩ := List.forall_mem_cons.mp hc
    rw [Value.copyFieldsStep]
    by_cases hf : f.exported = true
    · rw [if_pos hf]
      have hr := Value.copyStep_copying hk v hv.wellFormed hcv
      obtain ⟨hgrows, hws⟩ := Value.copyFieldsStep_copying (hk.trans hr.appends) fs vs hvs hc
      exact ⟨hr.appends.trans hgrows,
        .exported hf (hr.copies.appends hgrows (Nat.le_refl _)) hws⟩
    · rw [if_neg hf]
      obtain ⟨hgrows, hws⟩ := Value.copyFieldsStep_copying hk fs vs hvs hc
      exact ⟨hgrows, .hidden (Bool.eq_false_iff.mpr hf) hws⟩

end

end

namespace Value

variable {h : Heap} {v : Value}

/-- A copy for as many pointers in a row as there are is a copy. -/
theorem copyWithin_copying (hh : h.WellFormed) {n : Nat} {k : Heap} (hk : h.Appends k)
    (hv : v.WellFormed h) (hshort : ∀ as, h.Chain v as → as.length ≤ n) :
    Copying h k v (copyWithin n v k) := by
  induction n generalizing v k with
  | zero =>
    refine copyStep_copying hk v hv fun a ha => ?_
    nomatch hshort [a] (.cons ha (.nil _))
  | succ n ih =>
    refine copyStep_copying hk v hv fun a ha k hk => ?_
    have hlt := hv.bounded a ha
    have hr := ih hk (hh a hlt) fun as has => Nat.le_of_succ_le_succ (hshort _ (.cons ha has))
    show CopyingCell h k a ((copyWithin n (k.get a) k).1.alloc (copyWithin n (k.get a) k).2)
    rw [hk.get_eq a hlt]
    exact hr.alloc

/-- A deep copy of a value behind which no cell is behind itself is a copy. -/
theorem deepCopy_copying (hh : h.WellFormed) (hacyclic : h.AcyclicBehind v)
    (hv : v.WellFormed h) : Copying h h v (v.deepCopy h) :=
  copyWithin_copying hh (.refl h) hv fun _ has => hacyclic.length_le hh.bounded hv.bounded has

/-- No cell is behind both a value and its deep copy. -/
theorem deepCopy_apart (hh : h.WellFormed) (hacyclic : h.AcyclicBehind v) (hv : v.WellFormed h) :
    (v.deepCopy h).1.Apart v (v.deepCopy h).2 := by
  have hr := deepCopy_copying hh hacyclic hv
  intro a ha hcopy
  have hlt := (hr.appends.reaches hh.bounded hv.bounded ha).lt hh.bounded hv.bounded
  exact Nat.not_lt.mpr (hr.copies.reachesBetween a hcopy).1 hlt

end Value

end DynamicEval
