import DynamicEval.Proofs.Alike.Copy
import DynamicEval.Proofs.Merge
import DynamicEval.Proofs.Number
import DynamicEval.Proofs.Region.Coercion
import DynamicEval.Proofs.Reordered
import Mathlib.Data.Option.Basic

/-!
# Copies and coercion in every order

Copies and coercions put new cells on a heap while they go through the entries of a map, so that the
order of entries shows in the addresses of these cells. It shows in nothing else: what is made of
reordered values is the same up to the identity of new cells, which stand for each other one-to-one.

The coercion of an entry may run after that of any other one. So the induction over the type says
what becomes of a value wherever cells were added to its heap before; the entries of a map, each run
on a heap of its own, are then matched by their keys.

## Main definitions

* `HeapM.GivesSame`: computations that succeed with the same value wherever cells were added.
* `Ty.KeepsApart`: no two keys become one where coercion into a type rebuilds maps.

## Main results

* `Value.Reordered.alike`: reordered values are the same on their heaps.
* `Value.Reordered.deepCopy`: deep copies of reordered values are the same.
* `Ty.coerce_givesSame`: reordered values are coerced into the same, if one of them is coerced and
  keys are kept apart.
* `Ty.coerce_map_givesSame`: a map is coerced in every order if every key and value of it is.
-/

namespace DynamicEval

/-! ### Reordered values on their heaps -/

namespace Value

variable {seen : Field → Bool} {cells : Addr → Addr → Prop} {h h' k k' : Heap} {v w : Value}

/-- Values stay alike when cells are added. -/
theorem Alike.appends (hvw : v.Alike seen cells h h' w) (hk : h.Appends k) (hk' : h'.Appends k')
    (hcells : ∀ a b, cells a b → a < h.size ∧ b < h'.size) : v.Alike seen cells k k' w := by
  induction hvw with
  | atom hv => exact .atom hv
  | list hlength _ ih => exact .list hlength ih
  | array hlength _ ih => exact .array hlength ih
  | map hkeys _ ih => exact .map hkeys ih
  | record hlength _ ih => exact .record hlength ih
  | pointer hab _ ih =>
    obtain ⟨ha, hb⟩ := hcells _ _ hab
    refine .pointer hab ?_
    rw [hk.get_eq _ ha, hk'.get_eq _ hb]
    exact ih
  | slot _ ih => exact .slot ih

/-- Reordered values are alike on their heaps if the cells are that they point to. -/
theorem Reordered.alike_of_cells (hvw : v.Reordered w)
    (hcells : ∀ a, v.Points a → cells a a ∧ (h.get a).Alike seen cells h h' (h'.get a)) :
    v.Alike seen cells h h' w := by
  induction hvw with
  | atom hv => exact .atom hv
  | pointer e a => exact .pointer (hcells a (.pointer e a)).1 (hcells a (.pointer e a)).2
  | list hlength _ ih =>
    exact .list hlength fun x hx => ih x hx fun a ha =>
      hcells a (.list (List.of_mem_zip hx).1 ha)
  | array hlength _ ih =>
    exact .array hlength fun x hx => ih x hx fun a ha =>
      hcells a (.array (List.of_mem_zip hx).1 ha)
  | map hkeys _ ih =>
    exact .map hkeys fun x hx y hy hxy => ih x hx y hy hxy fun a ha => hcells a (.map hx ha)
  | @record r vs ws hlength _ ih =>
    refine .record hlength fun x hx _ => ?_
    have hx := (List.of_mem_zip hx).2
    exact ih x.2 hx fun a ha => hcells a (.record (List.of_mem_zip hx).1 ha)
  | slot _ ih => exact .slot (ih fun a ha => hcells a (.slot ha))

/-- Reordered values are alike on their heaps if no cell behind them is behind itself. -/
theorem Reordered.alike (hh : h.Reordered h') (hbounded : h.Bounded) (hvw : v.Reordered w)
    (hv : v.Bounded h) (hacyclic : h.AcyclicBehind v) (hcells : ∀ a < h.size, cells a a) :
    v.Alike seen cells h h' w := by
  suffices ∀ n {v w : Value}, v.Reordered w → v.Bounded h →
      (∀ as, h.Chain v as → as.length ≤ n) → v.Alike seen cells h h' w from
    this h.size hvw hv fun _ has => hacyclic.length_le hbounded hv has
  intro n
  induction n with
  | zero =>
    refine fun hvw _ hshort => hvw.alike_of_cells fun a ha => ?_
    nomatch hshort [a] (.cons ha (.nil _))
  | succ n ih =>
    exact fun hvw hv hshort => hvw.alike_of_cells fun a ha =>
      ⟨hcells a (hv a ha), ih (hh.get a) (hbounded a (hv a ha)) fun as has =>
        Nat.le_of_succ_le_succ (hshort _ (.cons ha has))⟩

/-- Deep copies of reordered values are the same. Their cells are new on either side and stand for
each other one-to-one. -/
theorem Reordered.deepCopy (hh : h.Reordered h') (hwf : h.WellFormed) (hvw : v.Reordered w)
    (hv : v.WellFormed h) (hacyclic : h.AcyclicBehind v) :
    ∃ cells, Pairing cells h.size (v.deepCopy h).1.size h'.size (w.deepCopy h').1.size ∧
      (v.deepCopy h).2.Same cells (v.deepCopy h).1 (w.deepCopy h').1 (w.deepCopy h').2 := by
  have halike : v.Alike (·.exported) (fun _ _ => True) h h' w :=
    hvw.alike hh hwf.bounded hv.bounded hacyclic fun _ _ => trivial
  exact halike.sameCopies hwf hv (deepCopy_copying hwf hacyclic hv).copies
    (deepCopy_copying (hh.wellFormed hwf) (hh.acyclicBehind hvw hacyclic)
      (hvw.wellFormed hh hv)).copies

end Value

/-! ### Computations that give the same -/

/-- After computations that have added cells to heaps with the same ones, an old cell stands for
itself, and new ones stand for each other as `new` says. -/
def Heap.WithNew (h : Heap) (new : Addr → Addr → Prop) (a b : Addr) : Prop :=
  a = b ∧ a < h.size ∨ new a b

theorem Heap.WithNew.mono {h : Heap} {new new' : Addr → Addr → Prop}
    (hnew : ∀ a b, new a b → new' a b) (a b : Addr) (hab : h.WithNew new a b) :
    h.WithNew new' a b :=
  hab.imp_right (hnew a b)

namespace HeapM

variable {α β : Type} {h h' : Heap}

/-- Two computations succeed wherever cells were added to the heaps `h` and `h'`, and give values
that are the same up to the identity of cells which they add. -/
def GivesSame (h h' : Heap) (m m' : HeapM Value) : Prop :=
  ∀ k k', h.Appends k → h'.Appends k' → ∃ v k₁ w k₁' new,
    m.run k = .ok (v, k₁) ∧ m'.run k' = .ok (w, k₁') ∧
      Pairing new k.size k₁.size k'.size k₁'.size ∧ v.Same (h.WithNew new) k₁ k₁' w

/-- Old cells and new ones are on the heaps that computations leave. -/
theorem withNew_lt {k k₁ k' k₁' : Heap} {new : Addr → Addr → Prop} (hsize : h.size = h'.size)
    (hk : h.Appends k₁) (hk' : h'.Appends k₁')
    (hnew : Pairing new k.size k₁.size k'.size k₁'.size) (a b : Addr) (hab : h.WithNew new a b) :
    a < k₁.size ∧ b < k₁'.size := by
  rcases hab with ⟨rfl, hlt⟩ | hab
  · exact ⟨Nat.lt_of_lt_of_le hlt hk.size_le, Nat.lt_of_lt_of_le (hsize ▸ hlt) hk'.size_le⟩
  · exact ⟨(hnew.left a b hab).2, (hnew.right a b hab).2⟩

/-- Computations that add no cells give the same if their values are. -/
theorem GivesSame.of_run {m m' : HeapM Value} {v w : Value} (hsize : h.size = h'.size)
    (hrun : ∀ k, h.Appends k → m.run k = .ok (v, k))
    (hrun' : ∀ k, h'.Appends k → m'.run k = .ok (w, k))
    (hvw : v.Same (h.WithNew fun _ _ => False) h h' w) : GivesSame h h' m m' := by
  intro k k' hk hk'
  refine ⟨v, k, w, k', _, hrun k hk, hrun' k' hk', .empty .., hvw.appends hk hk' ?_⟩
  rintro a b (⟨rfl, hlt⟩ | hab)
  · exact ⟨hlt, hsize ▸ hlt⟩
  · cases hab

/-! ### One computation after the other -/

/-- A computation is run on one value after the other, with these results. -/
inductive RunsEach (f : α → HeapM β) : List α → Heap → List β → Heap → Prop where
  | nil {k : Heap} : RunsEach f [] k [] k
  | cons {a : α} {as : List α} {b : β} {bs : List β} {k k₁ k₂ : Heap}
      (hrun : (f a).run k = .ok (b, k₁)) (hrest : RunsEach f as k₁ bs k₂) :
      RunsEach f (a :: as) k (b :: bs) k₂

variable {f : α → HeapM β} {P : β → Prop} {as : List α} {bs : List β} {k k₁ : Heap}

theorem RunsEach.length_eq (hruns : RunsEach f as k bs k₁) : bs.length = as.length := by
  induction hruns with
  | nil => rfl
  | cons _ _ ih => exact congrArg (· + 1) ih

/-- If computations succeed wherever cells were added, they do one after the other. -/
theorem exists_runsEach (hf : ∀ a, (f a).Appends P)
    (hrun : ∀ a ∈ as, ∀ k, h.Appends k → ∃ r, (f a).run k = .ok r) (hk : h.Appends k) :
    ∃ bs k₁, RunsEach f as k bs k₁ := by
  induction as generalizing k with
  | nil => exact ⟨[], k, .nil⟩
  | cons a as ih =>
    obtain ⟨ha, has⟩ := List.forall_mem_cons.mp hrun
    obtain ⟨⟨b, k₁⟩, hb⟩ := ha k hk
    obtain ⟨bs, k₂, hbs⟩ := ih has (hk.trans (hf a k b k₁ hb).1)
    exact ⟨b :: bs, k₂, .cons hb hbs⟩

/-- A computation that is run in turn succeeds where cells were added. -/
theorem RunsEach.exists_run (hf : ∀ a, (f a).Appends P) (hruns : RunsEach f as k bs k₁)
    (hk : h.Appends k) : ∀ a ∈ as, ∃ k₂ r, h.Appends k₂ ∧ (f a).run k₂ = .ok r := by
  induction hruns with
  | nil => exact List.forall_mem_nil _
  | cons hrun _ ih =>
    exact List.forall_mem_cons.mpr ⟨⟨_, _, hk, hrun⟩, ih (hk.trans (hf _ _ _ _ hrun).1)⟩

/-- The heaps that computations are run on in turn. -/
theorem RunsEach.exists_heaps (hf : ∀ a, (f a).Appends P) (hruns : RunsEach f as k bs k₁) :
    ∃ hs : Nat → Heap, hs 0 = k ∧ hs bs.length = k₁ ∧ (∀ i, (hs i).Appends (hs (i + 1))) ∧
      ∀ i b, bs[i]? = some b → ∃ a, as[i]? = some a ∧ (f a).run (hs i) = .ok (b, hs (i + 1)) := by
  induction hruns with
  | @nil k => exact ⟨fun _ => k, rfl, rfl, fun _ => .refl k, nofun⟩
  | @cons a as b bs k k₁ k₂ hrun _ ih =>
    obtain ⟨hs, rfl, rfl, hsteps, hparts⟩ := ih
    refine ⟨fun i => i.casesOn k hs, rfl, rfl, fun i => ?_, fun i b hb => ?_⟩
    · cases i with
      | zero => exact (hf _ _ _ _ hrun).1
      | succ i => exact hsteps i
    · cases i with
      | zero =>
        cases hb
        exact ⟨a, rfl, hrun⟩
      | succ i => exact hparts i b hb

/-- A heap on which a later computation is run has the cells of the earlier ones. -/
theorem appends_of_le {hs : Nat → Heap} (hsteps : ∀ i, (hs i).Appends (hs (i + 1))) {i j : Nat}
    (hij : i ≤ j) : (hs i).Appends (hs j) := by
  induction hij with
  | refl => exact .refl _
  | step _ ih => exact ih.trans (hsteps _)

theorem monotone_size {hs : Nat → Heap} (hsteps : ∀ i, (hs i).Appends (hs (i + 1))) :
    Monotone fun i => (hs i).size :=
  fun _ _ hij => (appends_of_le hsteps hij).size_le

/-- What two computations give on heaps of their own is the same on all later heaps. -/
theorem GivesSame.at_later {m m' : HeapM Value} {k k₁ k₂ k' k₁' k₂' : Heap} {v w : Value}
    (hm : GivesSame h h' m m') (hsize : h.size = h'.size) (hk : h.Appends k)
    (hk' : h'.Appends k') (hrun : m.run k = .ok (v, k₁)) (hrun' : m'.run k' = .ok (w, k₁'))
    (hk₁ : k.Appends k₁) (hk₁' : k'.Appends k₁') (hk₂ : k₁.Appends k₂) (hk₂' : k₁'.Appends k₂') :
    ∃ new, Pairing new k.size k₁.size k'.size k₁'.size ∧ v.Same (h.WithNew new) k₂ k₂' w := by
  obtain ⟨_, _, _, _, new, hv, hw, hnew, hsame⟩ := hm k k' hk hk'
  cases hrun.symm.trans hv
  cases hrun'.symm.trans hw
  exact ⟨new, hnew, hsame.appends hk₂ hk₂'
    (withNew_lt hsize (hk.trans hk₁) (hk'.trans hk₁') hnew)⟩

theorem GivesSame.exists_run {m m' : HeapM Value} (hm : GivesSame h h' m m') {k : Heap}
    (hk : h.Appends k) : ∃ r, m.run k = .ok r := by
  obtain ⟨_, _, _, _, _, hrun, -⟩ := hm k h' hk (.refl h')
  exact ⟨_, hrun⟩

theorem GivesSame.exists_run' {m m' : HeapM Value} (hm : GivesSame h h' m m') {k : Heap}
    (hk : h'.Appends k) : ∃ r, m'.run k = .ok r := by
  obtain ⟨_, _, _, _, _, -, hrun, -⟩ := hm h k (.refl h) hk
  exact ⟨_, hrun⟩

end HeapM

open HeapM

/-! ### Items -/

section

variable {h h' k k₁ : Heap} {coerce : Value → HeapM Value} {P : Value → Prop} {vs ws : List Value}

theorem Value.coerceItems_run_iff :
    (Value.coerceItems coerce vs).run k = .ok (ws, k₁) ↔ RunsEach coerce vs k ws k₁ := by
  induction vs generalizing ws k with
  | nil =>
    constructor
    · rintro ⟨⟩
      exact .nil
    · rintro ⟨⟩
      rfl
  | cons v vs ih =>
    rw [Value.coerceItems, run_bind_eq_ok]
    constructor
    · rintro ⟨w, k₂, hw, hrest⟩
      obtain ⟨us, k₃, hus, hret⟩ := run_bind_eq_ok.mp hrest
      cases hret
      exact .cons hw (ih.mp hus)
    · rintro (_ | ⟨hw, hrest⟩)
      exact ⟨_, _, hw, run_bind_eq_ok.mpr ⟨_, _, ih.mpr hrest, rfl⟩⟩

/-- Lists whose items are coerced into the same are. -/
theorem Value.coerceItems_givesSame {make : List Value → Value} (hsize : h.size = h'.size)
    (happends : ∀ v, (coerce v).Appends P) (hlength : vs.length = ws.length)
    (hitems : ∀ x ∈ vs.zip ws, GivesSame h h' (coerce x.1) (coerce x.2))
    (hmake : ∀ {cells : Addr → Addr → Prop} {k k' : Heap} {us us' : List Value},
      us.length = us'.length → (∀ x ∈ us.zip us', x.1.Same cells k k' x.2) →
        (make us).Same cells k k' (make us')) :
    GivesSame h h' (return make (← Value.coerceItems coerce vs))
      (return make (← Value.coerceItems coerce ws)) := by
  have hat (i : Nat) (v w : Value) (hv : vs[i]? = some v) (hw : ws[i]? = some w) :
      GivesSame h h' (coerce v) (coerce w) :=
    hitems (v, w) (List.mem_of_getElem? (List.getElem?_zip_eq_some.mpr ⟨hv, hw⟩))
  intro k k' hk hk'
  have hruns : ∃ us k₁, RunsEach coerce vs k us k₁ := by
    refine exists_runsEach happends (fun v hv k hk => ?_) hk
    obtain ⟨i, hi, rfl⟩ := List.mem_iff_getElem.mp hv
    exact (hat i _ _ (List.getElem?_eq_getElem hi)
      (List.getElem?_eq_getElem (hlength ▸ hi))).exists_run hk
  have hruns' : ∃ us k₁, RunsEach coerce ws k' us k₁ := by
    refine exists_runsEach happends (fun w hw k hk => ?_) hk'
    obtain ⟨i, hi, rfl⟩ := List.mem_iff_getElem.mp hw
    exact (hat i _ _ (List.getElem?_eq_getElem (hlength ▸ hi))
      (List.getElem?_eq_getElem hi)).exists_run' hk
  obtain ⟨us, k₁, hus⟩ := hruns
  obtain ⟨us', k₁', hus'⟩ := hruns'
  have hlength' : us.length = us'.length := by rw [hus.length_eq, hus'.length_eq, hlength]
  obtain ⟨hs, rfl, rfl, hsteps, hparts⟩ := hus.exists_heaps happends
  obtain ⟨hs', rfl, rfl, hsteps', hparts'⟩ := hus'.exists_heaps happends
  have hsame (i : Nat) (u u' : Value) (hu : us[i]? = some u) (hu' : us'[i]? = some u') :
      ∃ new, Pairing new (hs i).size (hs (i + 1)).size (hs' i).size (hs' (i + 1)).size ∧
        u.Same (h.WithNew new) (hs us.length) (hs' us'.length) u' := by
    obtain ⟨v, hv, hrun⟩ := hparts i u hu
    obtain ⟨w, hw, hrun'⟩ := hparts' i u' hu'
    exact (hat i v w hv hw).at_later hsize (hk.trans (appends_of_le hsteps (Nat.zero_le i)))
      (hk'.trans (appends_of_le hsteps' (Nat.zero_le i))) hrun hrun' (hsteps i) (hsteps' i)
      (appends_of_le hsteps (List.getElem?_eq_some_iff.mp hu).1)
      (appends_of_le hsteps' (List.getElem?_eq_some_iff.mp hu').1)
  obtain ⟨new, hnew, hsame⟩ := exists_pairing
    (R := fun new => Value.Same (h.WithNew new) (hs us.length) (hs' us'.length))
    (fun hpq _ _ => Value.Alike.mono (Heap.WithNew.mono hpq)) (monotone_size hsteps)
    (monotone_size hsteps') (s := id) (fun _ _ _ _ heq => heq) hsame
  refine ⟨_, _, _, _, new, run_bind_eq_ok.mpr ⟨_, _, Value.coerceItems_run_iff.mpr hus, rfl⟩,
    run_bind_eq_ok.mpr ⟨_, _, Value.coerceItems_run_iff.mpr hus', rfl⟩, hnew,
    hmake hlength' fun x hx => ?_⟩
  obtain ⟨i, hi⟩ := List.mem_iff_getElem?.mp hx
  obtain ⟨hu, hu'⟩ := List.getElem?_zip_eq_some.mp hi
  exact hsame i x.1 x.2 hu hu'

end

/-! ### Entries -/

/-- A value is read off what a computation gives as one is read off what it is run on. -/
theorem HeapM.RunsEach.map_eq {α β γ : Type} {f : α → HeapM β} {p : β → γ} {q : α → γ}
    {as : List α} {bs : List β} {k k₁ : Heap} (hruns : RunsEach f as k bs k₁)
    (hread : ∀ a b k k₁, (f a).run k = .ok (b, k₁) → p b = q a) : bs.map p = as.map q := by
  induction hruns with
  | nil => rfl
  | cons hrun _ ih => rw [List.map_cons, List.map_cons, ih, hread _ _ _ _ hrun]

/-- What a map takes as a key does not depend on the heap. -/
theorem Key.coerceWith_run {t : Ty} {key κ : Key} {h h₁ : Heap}
    (hrun : (Key.coerceWith t.coerce key.value).run h = .ok (κ, h₁)) :
    h₁ = h ∧ ∀ h', (Key.coerceWith t.coerce key.value).run h' = .ok (κ, h') := by
  have hpoints (a : Addr) : ¬key.value.Points a := by
    intro hp
    cases key <;> cases hp
  have hreaches (a : Addr) : ¬Heap.empty.Reaches key.value a := by
    rintro (hp | ⟨hp, -⟩) <;> exact hpoints _ hp
  have hagrees (h : Heap) : Heap.empty.Agrees h key.value :=
    ⟨Nat.zero_le _, fun a ha => absurd ha (hreaches a)⟩
  have hcoerce (h' : Heap) := Key.coerceWith_of_agrees Heap.empty_wellFormed.bounded
    (Heap.empty_acyclic.behind _) (fun a ha => absurd ha (hpoints a)) (hagrees h) (hagrees h') hrun
  exact ⟨(hcoerce h).1, fun h' => (hcoerce h').2⟩

/-- The key that a map with keys of type `t` stores for a key. -/
def Key.coerced? (t : Ty) (h : Heap) (key : Key) : Option Key :=
  ((Key.coerceWith t.coerce key.value).run' h).toOption

theorem Key.coerced?_of_run {t : Ty} {key κ : Key} {h h₁ : Heap}
    (hrun : (Key.coerceWith t.coerce key.value).run h = .ok (κ, h₁)) :
    key.coerced? t h = some κ := by
  show (((Key.coerceWith t.coerce key.value).run h).map Prod.fst).toOption = some κ
  rw [hrun]
  rfl

/-- A key and a value are coerced one after the other. -/
def Entries.coerceEntry (key value : Value → HeapM Value) (x : Key × Value) :
    HeapM (Key × Value) := do
  let k ← Key.coerceWith key x.1.value
  let v ← value x.2
  return (k, v)

section

variable {h h' h₁ : Heap} {k e : Ty} {es fs rs : List (Key × Value)} {x r : Key × Value}

theorem Entries.coerceEntry_appends (k e : Ty) (x : Key × Value) :
    (Entries.coerceEntry k.coerce e.coerce x).Appends fun _ => True :=
  (Key.coerceWith_appends k.coerce_appends _).bind fun _ _ =>
    (e.coerce_appends _).bind fun _ _ => .pure trivial

theorem Entries.coerceEntry_run_iff :
    (Entries.coerceEntry k.coerce e.coerce x).run h = .ok (r, h₁) ↔
      (∀ h', (Key.coerceWith k.coerce x.1.value).run h' = .ok (r.1, h')) ∧
        (e.coerce x.2).run h = .ok (r.2, h₁) := by
  rw [Entries.coerceEntry, run_bind_eq_ok]
  constructor
  · rintro ⟨κ, h₂, hκ, hrest⟩
    obtain ⟨v, h₃, hv, hret⟩ := run_bind_eq_ok.mp hrest
    cases hret
    obtain ⟨rfl, hkey⟩ := Key.coerceWith_run hκ
    exact ⟨hkey, hv⟩
  · rintro ⟨hkey, hv⟩
    exact ⟨r.1, h, hkey h, run_bind_eq_ok.mpr ⟨r.2, h₁, hv, rfl⟩⟩

/-- Entries that are added one by one at places of their own stand in their order. -/
theorem Entries.insertAll_run {key value : Value → HeapM Value} {acc : List (Key × Value)}
    (hruns : RunsEach (Entries.coerceEntry key value) es h rs h₁)
    (hnodup : ((acc ++ rs).map fun entry => entry.1.bare).Nodup) :
    (Entries.insertAll key value acc es).run h = .ok (acc ++ rs, h₁) := by
  induction hruns generalizing acc with
  | nil =>
    rw [List.append_nil]
    rfl
  | @cons x es r rs h h₁ h₂ hrun _ ih =>
    obtain ⟨κ, h₃, hκ, hrest⟩ := run_bind_eq_ok.mp hrun
    obtain ⟨v, h₄, hv, hret⟩ := run_bind_eq_ok.mp hrest
    cases hret
    have hfree : Entries.find? κ.bare acc = none := by
      rw [Entries.find?_eq_none_iff]
      rw [List.map_append, List.map_cons] at hnodup
      exact fun hmem => (List.nodup_append.mp hnodup).2.2 _ hmem _ List.mem_cons_self rfl
    have hput : acc ++ (κ, v) :: rs = Entries.put κ v acc ++ rs := by
      rw [Entries.put_of_find?_eq_none hfree, List.append_assoc]
      rfl
    rw [hput] at hnodup ⊢
    exact run_bind_eq_ok.mpr ⟨κ, h₃, hκ, run_bind_eq_ok.mpr ⟨v, _, hv, ih hnodup⟩⟩

/-- If entries are added one by one, each is coerced. -/
theorem Entries.exists_runsEach_of_insertAll {key value : Value → HeapM Value}
    {acc : List (Key × Value)} (hrun : (Entries.insertAll key value acc es).run h = .ok (rs, h₁)) :
    ∃ us, RunsEach (Entries.coerceEntry key value) es h us h₁ := by
  induction es generalizing acc h with
  | nil =>
    cases hrun
    exact ⟨[], .nil⟩
  | cons x es ih =>
    obtain ⟨κ, h₂, hκ, hrest⟩ := run_bind_eq_ok.mp hrun
    obtain ⟨v, h₃, hv, hrest⟩ := run_bind_eq_ok.mp hrest
    obtain ⟨us, hus⟩ := ih hrest
    exact ⟨(κ, v) :: us,
      .cons (run_bind_eq_ok.mpr ⟨κ, h₂, hκ, run_bind_eq_ok.mpr ⟨v, h₃, hv, rfl⟩⟩) hus⟩

/-- Entries are coerced one after the other if their keys are, and their values are wherever cells
were added. -/
theorem Entries.exists_runsEach {l : Heap} (hl : h.Appends l)
    (hkeys : ∀ x ∈ es, ∃ κ, ∀ h', (Key.coerceWith k.coerce x.1.value).run h' = .ok (κ, h'))
    (hvalues : ∀ x ∈ es, ∀ l, h.Appends l → ∃ r, (e.coerce x.2).run l = .ok r) :
    ∃ rs l₁, RunsEach (Entries.coerceEntry k.coerce e.coerce) es l rs l₁ := by
  refine HeapM.exists_runsEach (Entries.coerceEntry_appends k e) (fun x hx l hl => ?_) hl
  obtain ⟨κ, hκ⟩ := hkeys x hx
  obtain ⟨⟨v, l₁⟩, hv⟩ := hvalues x hx l hl
  exact ⟨((κ, v), l₁), Entries.coerceEntry_run_iff.mpr ⟨hκ, hv⟩⟩

/-- The places that are filled are those at which a map finds the old keys. -/
theorem Entries.nodup_coerced (hrs : RunsEach (Entries.coerceEntry k.coerce e.coerce) es h rs h₁)
    (hapart : (es.map fun x => Key.place? k x.1.value h').Nodup) :
    (rs.map fun r => r.1.bare).Nodup := by
  have hplaces : (rs.map fun r => some r.1.bare) = es.map fun x => Key.place? k x.1.value h' := by
    refine hrs.map_eq fun x r l l₁ hrun => ?_
    rw [Key.place?, (Entries.coerceEntry_run_iff.mp hrun).1 h']
  exact .of_map some (by rw [List.map_map]; exact hplaces ▸ hapart)

/-- The new keys are the old ones as the map takes them, in their order. -/
theorem Entries.perm_coerced {l l₁ : Heap} {us : List (Key × Value)}
    (hrs : RunsEach (Entries.coerceEntry k.coerce e.coerce) es h rs h₁)
    (hus : RunsEach (Entries.coerceEntry k.coerce e.coerce) fs l us l₁)
    (hkeys : (es.map Prod.fst).Perm (fs.map Prod.fst)) :
    (rs.map Prod.fst).Perm (us.map Prod.fst) := by
  have hcoerced {x r : Key × Value} {l l₁ : Heap}
      (hrun : (Entries.coerceEntry k.coerce e.coerce x).run l = .ok (r, l₁)) :
      some r.1 = x.1.coerced? k h :=
    (Key.coerced?_of_run ((Entries.coerceEntry_run_iff.mp hrun).1 h)).symm
  refine (List.map_perm_map_iff (Option.some_injective Key)).mp ?_
  rw [List.map_map, List.map_map,
    hrs.map_eq (p := some ∘ Prod.fst) (q := Key.coerced? k h ∘ Prod.fst) fun _ _ _ _ => hcoerced,
    hus.map_eq (p := some ∘ Prod.fst) (q := Key.coerced? k h ∘ Prod.fst) fun _ _ _ _ => hcoerced,
    ← List.map_map, ← List.map_map]
  exact hkeys.map _

/-- Maps with the same keys are coerced into the same if the values of the same key are and no two
keys become one. -/
theorem Entries.insertAll_givesSame (hsize : h.size = h'.size)
    (hkeys : (es.map Prod.fst).Perm (fs.map Prod.fst))
    (hcoerces : ∀ x ∈ es, ∃ r, (Key.coerceWith k.coerce x.1.value).run h = .ok r)
    (hapart : (es.map fun x => Key.place? k x.1.value h).Nodup)
    (hvalues : ∀ x ∈ es, ∀ y ∈ fs, x.1 = y.1 → GivesSame h h' (e.coerce x.2) (e.coerce y.2)) :
    GivesSame h h' (return .map k e (← Entries.insertAll k.coerce e.coerce [] es))
      (return .map k e (← Entries.insertAll k.coerce e.coerce [] fs)) := by
  have happends := Entries.coerceEntry_appends k e
  have htaken : ∀ x ∈ es, ∃ κ, ∀ h', (Key.coerceWith k.coerce x.1.value).run h' = .ok (κ, h') := by
    intro x hx
    obtain ⟨⟨κ, _⟩, hκ⟩ := hcoerces x hx
    exact ⟨κ, (Key.coerceWith_run hκ).2⟩
  have htaken' : ∀ y ∈ fs, ∃ κ, ∀ h', (Key.coerceWith k.coerce y.1.value).run h' = .ok (κ, h') := by
    intro y hy
    obtain ⟨x, hx, hxy⟩ := Value.Reordered.exists_mem_entries hkeys hy
    exact hxy ▸ htaken x hx
  intro l l' hl hl'
  obtain ⟨rs, l₁, hrs⟩ := Entries.exists_runsEach hl htaken fun x hx l hl => by
    obtain ⟨y, hy, hyx⟩ := Value.Reordered.exists_mem_entries hkeys.symm hx
    exact (hvalues x hx y hy hyx.symm).exists_run hl
  obtain ⟨rs', l₁', hrs'⟩ := Entries.exists_runsEach hl' htaken' fun y hy l hl => by
    obtain ⟨x, hx, hxy⟩ := Value.Reordered.exists_mem_entries hkeys hy
    exact (hvalues x hx y hy hxy).exists_run' hl
  have hnodup := Entries.nodup_coerced hrs hapart
  have hperm := Entries.perm_coerced hrs hrs' hkeys
  obtain ⟨hs, rfl, rfl, hsteps, hparts⟩ := hrs.exists_heaps happends
  obtain ⟨hs', rfl, rfl, hsteps', hparts'⟩ := hrs'.exists_heaps happends
  obtain ⟨new, hnew, hsame⟩ := exists_pairing_entries
    (R := fun new => Value.Same (h.WithNew new) (hs rs.length) (hs' rs'.length))
    (fun hpq _ _ => Value.Alike.mono (Heap.WithNew.mono hpq)) (monotone_size hsteps)
    (monotone_size hsteps') hperm (.of_map Key.bare (by rwa [List.map_map]))
    fun i j r r' hr hr' hrr' => by
      obtain ⟨x, hx, hrun⟩ := hparts i r hr
      obtain ⟨y, hy, hrun'⟩ := hparts' j r' hr'
      obtain ⟨hκ, hv⟩ := Entries.coerceEntry_run_iff.mp hrun
      obtain ⟨hκ', hw⟩ := Entries.coerceEntry_run_iff.mp hrun'
      -- Keys that become one are one.
      obtain ⟨z, hz, hzy⟩ := Value.Reordered.exists_mem_entries hkeys (List.mem_of_getElem? hy)
      have hmem := List.mem_of_getElem? hx
      have hxz : x = z := by
        refine List.inj_on_of_nodup_map hapart hmem hz ?_
        rw [Key.place?, Key.place?, hκ h, hzy, hκ' h, hrr']
      exact (hvalues x hmem y (List.mem_of_getElem? hy) (hxz ▸ hzy)).at_later hsize
        (hl.trans (appends_of_le hsteps (Nat.zero_le i)))
        (hl'.trans (appends_of_le hsteps' (Nat.zero_le j))) hv hw (hsteps i) (hsteps' j)
        (appends_of_le hsteps (List.getElem?_eq_some_iff.mp hr).1)
        (appends_of_le hsteps' (List.getElem?_eq_some_iff.mp hr').1)
  refine ⟨.map k e rs, _, .map k e rs', _, new, ?_, ?_, hnew, .map hperm hsame⟩
  · exact run_bind_eq_ok.mpr ⟨rs, _, Entries.insertAll_run hrs (by rwa [List.nil_append]), rfl⟩
  · refine run_bind_eq_ok.mpr ⟨rs', _, Entries.insertAll_run hrs' ?_, rfl⟩
    exact Value.Reordered.nodup_places hperm hnodup

end

/-! ### Values that are coerced -/

/-- Two values on their heaps are the same but for the order of entries, and no cell behind them is
behind itself. -/
structure Value.Mirrors (h h' : Heap) (v w : Value) : Prop where
  /-- The values are the same but for the order. -/
  reordered : v.Reordered w
  /-- The value on the left is well-formed. -/
  wellFormed : v.WellFormed h
  /-- No cell behind the value on the left is behind itself. -/
  acyclic : h.AcyclicBehind v

/-- No two keys become one where the coercion of a value into a type rebuilds maps: neither in the
value nor in the parts of it that are coerced with it. -/
def Ty.KeepsApart (h : Heap) : Ty → Value → Prop
  | .list e, v => ((v.base h).ty == .list e) = false →
      ∀ items, (v.base h).items? = some items → ∀ x ∈ items, e.KeepsApart h x
  | .array e n, v => ((v.base h).ty == .array e n) = false →
      ∀ items, (v.base h).items? = some items → ∀ x ∈ items, e.KeepsApart h x
  | .map k e, v => ((v.base h).ty == .map k e) = false →
      ∀ es, (v.base h).entries? = some es →
        (es.map fun x => Key.place? k x.1.value h).Nodup ∧ ∀ x ∈ es, e.KeepsApart h x.2
  | .pointer e, v => (v.peel.ty == .pointer e) = false → e.KeepsApart h v.peel
  | _, _ => True
termination_by structural t => t

namespace Value

variable {h h' : Heap} {v w : Value} {vs ws : List Value} {es : List (Key × Value)}

namespace Reordered

theorem exists_items? (hvw : v.Reordered w) (hvs : v.items? = some vs) :
    ∃ ws, w.items? = some ws ∧ vs.length = ws.length ∧ ∀ x ∈ vs.zip ws, x.1.Reordered x.2 := by
  cases hvw with
  | @atom v hv => cases v <;> first | cases hvs; done | cases hv
  | list hlength hitems =>
    cases hvs
    exact ⟨_, rfl, hlength, hitems⟩
  | array hlength hitems =>
    cases hvs
    exact ⟨_, rfl, hlength, hitems⟩
  | _ => cases hvs

theorem exists_entries? (hvw : v.Reordered w) (hes : v.entries? = some es) :
    ∃ fs, w.entries? = some fs ∧ (es.map Prod.fst).Perm (fs.map Prod.fst) ∧
      ∀ x ∈ es, ∀ y ∈ fs, x.1 = y.1 → x.2.Reordered y.2 := by
  cases hvw with
  | @atom v hv => cases v <;> first | cases hes; done | cases hv
  | map hkeys hvalues =>
    cases hes
    exact ⟨_, rfl, hkeys, hvalues⟩
  | _ => cases hes

theorem asInt64?_eq (hvw : v.Reordered w) : v.asInt64? = w.asInt64? := by
  cases hvw <;> rfl

theorem asUInt64?_eq (hvw : v.Reordered w) : v.asUInt64? = w.asUInt64? := by
  cases hvw <;> rfl

theorem asFloat?_eq (hvw : v.Reordered w) : v.asFloat? = w.asFloat? := by
  cases hvw <;> rfl

end Reordered

/-- Lists that are brought to one length have the items that they had, and the same fill. -/
theorem mem_zip_resize {fill : Value} {n : Nat} {x : Value × Value}
    (hlength : vs.length = ws.length) (hx : x ∈ (resize fill n vs).zip (resize fill n ws)) :
    x ∈ vs.zip ws ∨ x = (fill, fill) := by
  rw [resize, resize, List.zip_append (by rw [List.length_take, List.length_take, hlength]),
    hlength, List.zip_replicate'] at hx
  rcases List.mem_append.mp hx with hx | hx
  · have htake : (vs.take n).zip (ws.take n) = (vs.zip ws).take n := List.take_zipWith.symm
    exact .inl (List.mem_of_mem_take (htake ▸ hx))
  · exact .inr (List.eq_of_mem_replicate hx)

namespace Mirrors

theorem part {u u' : Value} (hvw : Mirrors h h' v w) (hu : u.Reordered u') (hwf : u.WellFormed h)
    (hpoints : u.Within v.Points) : Mirrors h h' u u' :=
  ⟨hu, hwf, hvw.acyclic.of_reaches fun _ ha => ha.of_points hpoints⟩

theorem peel (hvw : Mirrors h h' v w) : Mirrors h h' v.peel w.peel :=
  hvw.part hvw.reordered.peel hvw.wellFormed.peel fun _ ha => ha.of_peel

theorem boxed (hvw : Mirrors h h' v w) : Mirrors h h' v.boxed w.boxed :=
  hvw.part hvw.reordered.boxed hvw.wellFormed.boxed (Within.boxed fun _ ha => ha)

theorem base (hvw : Mirrors h h' v w) (hh : h.Reordered h') (hwf : h.WellFormed) :
    Mirrors h h' (v.base h) (w.base h') :=
  ⟨hvw.reordered.base hh, hvw.wellFormed.base hwf,
    hvw.acyclic.of_reaches fun _ => Heap.Reaches.of_base⟩

theorem same (hvw : Mirrors h h' v w) (hh : h.Reordered h') (hwf : h.WellFormed)
    (new : Addr → Addr → Prop) : v.Same (h.WithNew new) h h' w :=
  hvw.reordered.alike hh hwf.bounded hvw.wellFormed.bounded hvw.acyclic
    fun _ ha => .inl ⟨rfl, ha⟩

/-- The base is the same after cells were added. -/
theorem base_eq {k : Heap} (hvw : Mirrors h h' v w) (hwf : h.WellFormed) (hk : h.Appends k) :
    v.base k = v.base h :=
  (hk.agrees hwf.bounded hvw.wellFormed.bounded).base_eq hvw.acyclic hwf.bounded
    hvw.wellFormed.bounded

theorem text_eq {k : Heap} (hvw : Mirrors h h' v w) (hwf : h.WellFormed) (hk : h.Appends k) :
    v.text k = v.text h :=
  (hk.agrees hwf.bounded hvw.wellFormed.bounded).text_eq hvw.acyclic hwf.bounded
    hvw.wellFormed.bounded

theorem symm (hvw : Mirrors h h' v w) (hh : h.Reordered h') : Mirrors h' h w v :=
  ⟨hvw.reordered.symm, hvw.reordered.wellFormed hh hvw.wellFormed,
    hh.acyclicBehind hvw.reordered hvw.acyclic⟩

end Mirrors

end Value

/-! ### Coercion -/

section

open Value

variable {h h' : Heap} {v w : Value} {t e : Ty} {convert : Value → Option (HeapM Value)}

theorem HeapM.GivesSame.congr {m m' l l' : HeapM Value} (hm : GivesSame h h' m m')
    (hl : ∀ k, h.Appends k → l.run k = m.run k) (hl' : ∀ k, h'.Appends k → l'.run k = m'.run k) :
    GivesSame h h' l l' := by
  intro k k' hk hk'
  rw [hl k hk, hl' k' hk']
  exact hm k k' hk hk'

theorem Ty.run_coerceBase (t : Ty) (v : Value) (convert : Value → Option (HeapM Value))
    (h : Heap) :
    (t.coerceBase v convert).run h =
      if v.peel.isNil then .ok (t.zero, h)
      else if (v.base h).ty == t then .ok (v.base h, h)
      else match convert (v.base h) with
        | some m => m.run h
        | none => .error (.cannotAssign v.peel.typeName t.text) := by
  rw [coerceBase, StateT.run_bind]
  show ((ite _ _ _ : HeapM Value).run h) = _
  rw [base_peel]
  split
  · rfl
  dsimp only
  split
  · rfl
  · cases convert (v.base h) <;> rfl

/-- Coercion by the base gives the same if conversion does where it is needed. -/
theorem Ty.coerceBase_givesSame (hh : h.Reordered h') (hwf : h.WellFormed)
    (hvw : Mirrors h h' v w)
    (hconvert : v.peel.isNil = false → ((v.base h).ty == t) = false →
      ∃ m m', convert (v.base h) = some m ∧ convert (w.base h') = some m' ∧
        GivesSame h h' m m') :
    GivesSame h h' (t.coerceBase v convert) (t.coerceBase w convert) := by
  have hwf' := hh.wellFormed hwf
  have hnil := hvw.reordered.peel.isNil_eq
  have hty := (hvw.base hh hwf).reordered.ty_eq
  by_cases hv : v.peel.isNil = true
  · refine .of_run hh.size_eq (fun k _ => ?_) (fun k _ => ?_) (t.zero_alike _ _ _ _)
    · rw [Ty.run_coerceBase, if_pos hv]
    · rw [Ty.run_coerceBase, if_pos (hnil ▸ hv)]
  by_cases hb : ((v.base h).ty == t) = true
  · refine .of_run hh.size_eq (fun k hk => ?_) (fun k hk => ?_) ((hvw.base hh hwf).same hh hwf _)
    · rw [Ty.run_coerceBase, if_neg hv, hvw.base_eq hwf hk, if_pos hb]
    · rw [Ty.run_coerceBase, if_neg (hnil ▸ hv), (hvw.symm hh).base_eq hwf' hk, if_pos (hty ▸ hb)]
  obtain ⟨m, m', hm, hm', hsame⟩ := hconvert (by simpa using hv) (by simpa using hb)
  refine hsame.congr (fun k hk => ?_) (fun k hk => ?_)
  · rw [Ty.run_coerceBase, if_neg hv, hvw.base_eq hwf hk, if_neg hb, hm]
  · rw [Ty.run_coerceBase, if_neg (hnil ▸ hv), (hvw.symm hh).base_eq hwf' hk, if_neg (hty ▸ hb),
      hm']

/-- If a base has to be converted, it is where coercion succeeds. -/
theorem Ty.exists_convert_of_run {k : Heap} {r : Value × Heap} (hvw : Mirrors h h' v w)
    (hwf : h.WellFormed) (hk : h.Appends k) (hrun : (t.coerceBase v convert).run k = .ok r)
    (hnil : v.peel.isNil = false) (hty : ((v.base h).ty == t) = false) :
    ∃ m, convert (v.base h) = some m ∧ m.run k = .ok r := by
  rw [Ty.run_coerceBase, hvw.base_eq hwf hk, hnil, hty] at hrun
  cases hm : convert (v.base h) with
  | none =>
    rw [hm] at hrun
    cases hrun
  | some m =>
    rw [hm] at hrun
    exact ⟨m, rfl, hrun⟩

/-- A base of which a number is read gives the same if the number is. -/
theorem Ty.coerceBase_scalar_givesSame (hh : h.Reordered h') (hwf : h.WellFormed)
    (hvw : Mirrors h h' v w) {α : Type} {read : Value → Option α} {make : α → Value}
    (hread : read (v.base h) = read (w.base h')) (hmake : ∀ a, (make a).isAtom = true)
    (hcoerces : ∃ k r, h.Appends k ∧
      (t.coerceBase v fun b => (read b).map fun a => return make a).run k = .ok r) :
    GivesSame h h' (t.coerceBase v fun b => (read b).map fun a => return make a)
      (t.coerceBase w fun b => (read b).map fun a => return make a) := by
  obtain ⟨k, r, hk, hrun⟩ := hcoerces
  refine Ty.coerceBase_givesSame hh hwf hvw fun hnil hty => ?_
  obtain ⟨m, hm, -⟩ := Ty.exists_convert_of_run hvw hwf hk hrun hnil hty
  obtain ⟨a, -, rfl⟩ := Option.map_eq_some_iff.mp hm
  exact ⟨_, _, hm, (congrArg (Option.map _) hread.symm).trans hm,
    .of_run hh.size_eq (fun _ _ => rfl) (fun _ _ => rfl) (.atom (hmake a))⟩

theorem Ty.coerce_pointer (e : Ty) (v : Value) :
    (Ty.pointer e).coerce v =
      if v.peel.isNil then return .pointer e none
      else if v.peel.ty == .pointer e then return v.peel
      else e.coerce v.peel >>= Ty.coerce.newCell e := by
  rw [Ty.coerce]
  cases v.peel with
  | pointer e' cell => cases cell <;> rfl
  | _ => rfl

/-- New cells hold the same if the values put into them are. -/
theorem Ty.newCell_givesSame {u u' : Value} (hsize : h.size = h'.size)
    (hu : GivesSame h h' (e.coerce u) (e.coerce u')) :
    GivesSame h h' (e.coerce u >>= Ty.coerce.newCell e) (e.coerce u' >>= Ty.coerce.newCell e) := by
  intro k k' hk hk'
  obtain ⟨v, k₁, w, k₁', new, hv, hw, hnew, hsame⟩ := hu k k' hk hk'
  have hk₁ := (e.coerce_appends u k v k₁ hv).1
  have hk₁' := (e.coerce_appends u' k' w k₁' hw).1
  refine ⟨.pointer e (some k₁.size), (k₁.alloc v).1, .pointer e (some k₁'.size), (k₁'.alloc w).1,
    fun a b => new a b ∨ a = k₁.size ∧ b = k₁'.size, run_bind_eq_ok.mpr ⟨v, k₁, hv, rfl⟩,
    run_bind_eq_ok.mpr ⟨w, k₁', hw, rfl⟩, ?_, ?_⟩
  · rw [Heap.size_alloc, Heap.size_alloc]
    exact hnew.insert hk₁.size_le hk₁'.size_le
  · refine .pointer (.inr (.inr ⟨rfl, rfl⟩)) ?_
    rw [Heap.get_alloc_size, Heap.get_alloc_size]
    have hlt := withNew_lt hsize (hk.trans hk₁) (hk'.trans hk₁') hnew
    exact (hsame.appends (.alloc k₁ v) (.alloc k₁' w) hlt).mono
      (Heap.WithNew.mono fun _ _ => .inl)

/-- The zero of a type holds no maps with two keys that could become one. -/
theorem Ty.keepsApart_zero (h : Heap) (t : Ty) : t.KeepsApart h t.zero := by
  have hself {P : Prop} (hbase : t.zero.base h = t.zero) (hzero : (t.zero.ty == t) = true)
      (hty : ((t.zero.base h).ty == t) = false) : P := by
    rw [hbase, hzero] at hty
    cases hty
  have haccepts := (t.zero_fits h).accepts
  cases t with
  | list | array | map =>
    exact fun hty => hself (Heap.follow_eq_of_step fun _ => rfl) haccepts hty
  | pointer e => exact fun hty => nomatch hty.symm.trans haccepts
  | _ => trivial

/-- Maps are rebuilt to the same if no two keys become one and the values of a key are coerced into
the same. -/
theorem Ty.convert_map_givesSame {k : Ty} {es : List (Key × Value)} (hsize : h.size = h'.size)
    (hvw : Mirrors h h' v w) (hes : v.entries? = some es)
    (hkeys : ∀ x ∈ es, ∃ r, (Key.coerceWith k.coerce x.1.value).run h = .ok r)
    (hplaces : (es.map fun x => Key.place? k x.1.value h).Nodup)
    (hvalues : ∀ x ∈ es, ∀ u, Mirrors h h' x.2 u → GivesSame h h' (e.coerce x.2) (e.coerce u)) :
    ∃ m m',
      (v.entries?.map fun es => return .map k e (← Entries.insertAll k.coerce e.coerce [] es)) =
        some m ∧
      (w.entries?.map fun es => return .map k e (← Entries.insertAll k.coerce e.coerce [] es)) =
        some m' ∧ GivesSame h h' m m' := by
  obtain ⟨fs, hfs, hperm, hrel⟩ := hvw.reordered.exists_entries? hes
  obtain ⟨_, _, hwf⟩ := hvw.wellFormed.of_entries? hes
  refine ⟨_, _, congrArg (Option.map _) hes, congrArg (Option.map _) hfs,
    Entries.insertAll_givesSame hsize hperm hkeys hplaces fun x hx y hy hxy => ?_⟩
  exact hvalues x hx y.2 (hvw.part (hrel x hx y hy hxy) (hwf.values x hx).wellFormed
    (Within.of_entries? (fun _ ha => ha) hes x hx))

/-- Reordered values are coerced into the same wherever cells were added, if one of them is coerced
at all and keys are kept apart. -/
theorem Ty.coerce_givesSame (hh : h.Reordered h') (hwf : h.WellFormed) (t : Ty) {v w : Value}
    (hvw : Mirrors h h' v w) (hapart : t.KeepsApart h v)
    (hcoerces : ∃ k r, h.Appends k ∧ (t.coerce v).run k = .ok r) :
    GivesSame h h' (t.coerce v) (t.coerce w) := by
  obtain ⟨k, r, hk, hrun⟩ := hcoerces
  have hbase := hvw.base hh hwf
  match t with
  | .invalid => exact .of_run hh.size_eq (fun _ _ => rfl) (fun _ _ => rfl) (hvw.same hh hwf _)
  | .any =>
    exact .of_run hh.size_eq (fun _ _ => rfl) (fun _ _ => rfl) (hvw.peel.boxed.same hh hwf _)
  | .pointer e =>
    rw [Ty.coerce_pointer] at hrun
    rw [Ty.coerce_pointer, Ty.coerce_pointer, ← hvw.reordered.peel.isNil_eq,
      ← hvw.reordered.peel.ty_eq]
    split
    · exact .of_run hh.size_eq (fun _ _ => rfl) (fun _ _ => rfl) (.atom rfl)
    next hnil =>
    split
    · exact .of_run hh.size_eq (fun _ _ => rfl) (fun _ _ => rfl) (hvw.peel.same hh hwf _)
    next hty =>
    rw [if_neg hnil, if_neg hty] at hrun
    obtain ⟨u, k₁, hu, -⟩ := run_bind_eq_ok.mp hrun
    exact Ty.newCell_givesSame hh.size_eq
      (Ty.coerce_givesSame hh hwf e hvw.peel (hapart (by simpa using hty)) ⟨k, _, hk, hu⟩)
  | .bool =>
    refine Ty.coerceBase_givesSame hh hwf hvw fun _ _ => ⟨_, _, rfl, rfl, ?_⟩
    rw [hbase.reordered.isZero_eq]
    exact .of_run hh.size_eq (fun _ _ => rfl) (fun _ _ => rfl) (.atom rfl)
  | .string =>
    refine Ty.coerceBase_givesSame hh hwf hvw fun _ _ => ⟨_, _, rfl, rfl, ?_⟩
    refine .of_run hh.size_eq (v := .string ((v.base h).text h))
      (w := .string ((v.base h).text h)) (fun k hk => ?_) (fun k hk => ?_) (.atom rfl)
    · rw [← hbase.text_eq hwf hk]
      rfl
    · rw [hbase.reordered.text_eq hh hwf hbase.wellFormed,
        ← (hbase.symm hh).text_eq (hh.wellFormed hwf) hk]
      rfl
  | .int _ =>
    exact Ty.coerceBase_scalar_givesSame hh hwf hvw hbase.reordered.asInt64?_eq (fun _ => rfl)
      ⟨k, r, hk, hrun⟩
  | .uint _ =>
    exact Ty.coerceBase_scalar_givesSame hh hwf hvw hbase.reordered.asUInt64?_eq (fun _ => rfl)
      ⟨k, r, hk, hrun⟩
  | .float _ =>
    exact Ty.coerceBase_scalar_givesSame hh hwf hvw hbase.reordered.asFloat?_eq (fun _ => rfl)
      ⟨k, r, hk, hrun⟩
  | .record _ | .func =>
    refine Ty.coerceBase_givesSame hh hwf hvw fun hnil hty => ?_
    obtain ⟨m, hm, -⟩ := Ty.exists_convert_of_run hvw hwf hk hrun hnil hty
    cases hm
  | .list e =>
    refine Ty.coerceBase_givesSame hh hwf hvw fun hnil hty => ?_
    obtain ⟨m, hm, hrun⟩ := Ty.exists_convert_of_run hvw hwf hk hrun hnil hty
    obtain ⟨items, hitems, rfl⟩ := Option.map_eq_some_iff.mp hm
    obtain ⟨items', hitems', hlength, hrel⟩ := hbase.reordered.exists_items? hitems
    obtain ⟨us, k₁, hus, -⟩ := run_bind_eq_ok.mp hrun
    have hruns := (Value.coerceItems_run_iff.mp hus).exists_run e.coerce_appends hk
    refine ⟨_, _, hm, congrArg (Option.map _) hitems',
      Value.coerceItems_givesSame hh.size_eq e.coerce_appends hlength (fun x hx => ?_)
        fun hlength hitems => .list hlength hitems⟩
    have hmem := (List.of_mem_zip hx).1
    exact Ty.coerce_givesSame hh hwf e
      (hbase.part (hrel x hx) (hbase.wellFormed.of_items? hitems _ hmem)
        (Within.of_items? (fun _ ha => ha) hitems _ hmem))
      (hapart hty items hitems _ hmem) (hruns _ hmem)
  | .array e n =>
    refine Ty.coerceBase_givesSame hh hwf hvw fun hnil hty => ?_
    obtain ⟨m, hm, hrun⟩ := Ty.exists_convert_of_run hvw hwf hk hrun hnil hty
    obtain ⟨items, hitems, rfl⟩ := Option.map_eq_some_iff.mp hm
    obtain ⟨items', hitems', hlength, hrel⟩ := hbase.reordered.exists_items? hitems
    obtain ⟨us, k₁, hus, -⟩ := run_bind_eq_ok.mp hrun
    have hruns := (Value.coerceItems_run_iff.mp hus).exists_run e.coerce_appends hk
    refine ⟨_, _, hm, congrArg (Option.map _) hitems',
      Value.coerceItems_givesSame hh.size_eq e.coerce_appends
        (by rw [length_resize, length_resize]) (fun x hx => ?_)
        fun hlength hitems => .array hlength hitems⟩
    have hruns := hruns _ (List.of_mem_zip hx).1
    rcases mem_zip_resize hlength hx with hx | rfl
    · have hmem := (List.of_mem_zip hx).1
      exact Ty.coerce_givesSame hh hwf e
        (hbase.part (hrel x hx) (hbase.wellFormed.of_items? hitems _ hmem)
          (Within.of_items? (fun _ ha => ha) hitems _ hmem))
        (hapart hty items hitems _ hmem) hruns
    · have hzero := (e.zero_fits h).wellFormed
      exact Ty.coerce_givesSame hh hwf e
        ⟨hzero.reordered, hzero, fun a ha => absurd ha (Ty.not_reaches_zero h e a)⟩
        (e.keepsApart_zero h) hruns
  | .map kt e =>
    refine Ty.coerceBase_givesSame hh hwf hvw fun hnil hty => ?_
    obtain ⟨m, hm, hrun⟩ := Ty.exists_convert_of_run hvw hwf hk hrun hnil hty
    obtain ⟨es, hes, rfl⟩ := Option.map_eq_some_iff.mp hm
    obtain ⟨rs, k₁, hrs, -⟩ := run_bind_eq_ok.mp hrun
    obtain ⟨us, hus⟩ := Entries.exists_runsEach_of_insertAll hrs
    have hruns := hus.exists_run (Entries.coerceEntry_appends kt e) hk
    obtain ⟨hplaces, hvalues⟩ := hapart hty es hes
    refine Ty.convert_map_givesSame hh.size_eq hbase hes (fun x hx => ?_) hplaces
      fun x hx u hxu => ?_
    · obtain ⟨k₂, r, -, hr⟩ := hruns x hx
      exact ⟨_, (Entries.coerceEntry_run_iff.mp hr).1 h⟩
    · obtain ⟨k₂, r, hk₂, hr⟩ := hruns x hx
      exact Ty.coerce_givesSame hh hwf e hxu (hvalues x hx)
        ⟨k₂, _, hk₂, (Entries.coerceEntry_run_iff.mp hr).2⟩

/-- Reordered maps are coerced into the same if every key and every value is coerced and keys are
kept apart. -/
theorem Ty.coerce_map_givesSame {k : Ty} {es : List (Key × Value)} (hh : h.Reordered h')
    (hwf : h.WellFormed) (hvw : Mirrors h h' v w) (hes : (v.base h).entries? = some es)
    (hapart : (Ty.map k e).KeepsApart h v)
    (hkeys : ∀ x ∈ es, ∃ r, (Key.coerceWith k.coerce x.1.value).run h = .ok r)
    (hvalues : ∀ x ∈ es, ∃ r, (e.coerce x.2).run h = .ok r) :
    GivesSame h h' ((Ty.map k e).coerce v) ((Ty.map k e).coerce w) := by
  refine Ty.coerceBase_givesSame hh hwf hvw fun _ hty => ?_
  obtain ⟨hplaces, haparts⟩ := hapart hty es hes
  refine Ty.convert_map_givesSame hh.size_eq (hvw.base hh hwf) hes hkeys hplaces
    fun x hx u hxu => ?_
  obtain ⟨r, hr⟩ := hvalues x hx
  exact Ty.coerce_givesSame hh hwf e hxu (haparts x hx) ⟨h, r, .refl h, hr⟩

end

end DynamicEval
