import DynamicEval.Proofs.Alike
import DynamicEval.Proofs.Copy
import Mathlib.Data.List.Nodup
import Mathlib.Logic.Relator
import Mathlib.Order.Monotone.Basic

/-!
# Copies of values that look alike

A copy resets the fields that are not exported, so the copies of two values that look alike where
the exported fields are seen do not differ in any field. They are the same up to the identity of
their cells, which stand for each other one-to-one: every pointer of a copy has a cell of its own.

## Main definitions

* `Pairing`: cells of one range that stand one-to-one for cells of another.
* `Value.SameCopies`: values whose copies are the same.

## Main results

* `exists_pairing`, `exists_pairing_entries`: parts that are related over cells of their own are
  related over one pairing of all cells.
* `Value.Alike.sameCopies`: values that look alike have the same copies.
* `Value.Alike.deepCopy`: the deep copies of values that look alike are the same.
-/

namespace DynamicEval

/-! ### Cells that stand for each other -/

/-- Cells from `n` on up to `m` stand for cells from `n'` on up to `m'`, one-to-one. -/
structure Pairing (cells : Addr → Addr → Prop) (n m n' m' : Addr) : Prop where
  /-- A cell stands for one cell at most, and one at most stands for it. -/
  unique : Relator.BiUnique cells
  /-- The cells on the left are those from `n` on up to `m`. -/
  left : ∀ a b, cells a b → n ≤ a ∧ a < m
  /-- The cells on the right are those from `n'` on up to `m'`. -/
  right : ∀ a b, cells a b → n' ≤ b ∧ b < m'

namespace Pairing

variable {cells : Addr → Addr → Prop} {n m n' m' : Addr}

theorem empty (n m n' m' : Addr) : Pairing (fun _ _ => False) n m n' m' :=
  ⟨⟨nofun, nofun⟩, nofun, nofun⟩

/-- One more cell on either side. -/
theorem insert (hcells : Pairing cells n m n' m') (hle : n ≤ m) (hle' : n' ≤ m') :
    Pairing (fun a b => cells a b ∨ a = m ∧ b = m') n (m + 1) n' (m' + 1) where
  unique := by
    constructor
    · rintro a b c (hac | ⟨rfl, rfl⟩) (hbc | ⟨rfl, hc⟩)
      · exact hcells.unique.1 hac hbc
      · exact absurd (hcells.right a c hac).2 (hc ▸ Nat.lt_irrefl _)
      · exact absurd (hcells.right b _ hbc).2 (Nat.lt_irrefl _)
      · rfl
    · rintro a b c (hab | ⟨rfl, rfl⟩) (hac | ⟨ha, rfl⟩)
      · exact hcells.unique.2 hab hac
      · exact absurd (hcells.left a b hab).2 (ha ▸ Nat.lt_irrefl _)
      · exact absurd (hcells.left _ c hac).2 (Nat.lt_irrefl _)
      · rfl
  left := by
    rintro a b (hab | ⟨rfl, rfl⟩)
    · obtain ⟨hn, hm⟩ := hcells.left a b hab
      exact ⟨hn, Nat.lt_succ_of_lt hm⟩
    · exact ⟨hle, Nat.lt_succ_self _⟩
  right := by
    rintro a b (hab | ⟨rfl, rfl⟩)
    · obtain ⟨hn, hm⟩ := hcells.right a b hab
      exact ⟨hn, Nat.lt_succ_of_lt hm⟩
    · exact ⟨hle', Nat.lt_succ_self _⟩

end Pairing

/-- A cell lies in one of the ranges at most that are cut out in turn. -/
theorem eq_of_cuts {c : Nat → Addr} (hc : Monotone c) {i j : Nat} {a : Addr}
    (hi : c i ≤ a ∧ a < c (i + 1)) (hj : c j ≤ a ∧ a < c (j + 1)) : i = j := by
  rcases Nat.lt_trichotomy i j with hlt | heq | hgt
  · exact absurd (Nat.lt_of_lt_of_le hi.2 (hc hlt)) (Nat.not_lt.mpr hj.1)
  · exact heq
  · exact absurd (Nat.lt_of_lt_of_le hj.2 (hc hgt)) (Nat.not_lt.mpr hi.1)

section

variable {β γ : Type} {R : (Addr → Addr → Prop) → β → γ → Prop} {c c' : Nat → Addr}

/-- Parts that are related, each over cells from ranges of its own, are related over one pairing of
all cells. The part at the place `i` on the left belongs to the one at the place `s i` on the
right. -/
theorem exists_pairing {vs : List β} {ws : List γ}
    (hmono : ∀ {p q : Addr → Addr → Prop}, (∀ a b, p a b → q a b) → ∀ v w, R p v w → R q v w)
    (hc : Monotone c) (hc' : Monotone c') {s : Nat → Nat}
    (hs : ∀ i < vs.length, ∀ j < vs.length, s i = s j → i = j)
    (hparts : ∀ i v w, vs[i]? = some v → ws[s i]? = some w →
      ∃ cells, Pairing cells (c i) (c (i + 1)) (c' (s i)) (c' (s i + 1)) ∧ R cells v w) :
    ∃ cells, Pairing cells (c 0) (c vs.length) (c' 0) (c' ws.length) ∧
      ∀ i v w, vs[i]? = some v → ws[s i]? = some w → R cells v w := by
  have hat (i : Nat) : ∃ cells, Pairing cells (c i) (c (i + 1)) (c' (s i)) (c' (s i + 1)) ∧
      (∀ a b, cells a b → i < vs.length ∧ s i < ws.length) ∧
      ∀ v w, vs[i]? = some v → ws[s i]? = some w → R cells v w := by
    by_cases hi : i < vs.length ∧ s i < ws.length
    · have hv := List.getElem?_eq_getElem hi.1
      have hw := List.getElem?_eq_getElem hi.2
      obtain ⟨cells, hcells, hrel⟩ := hparts i _ _ hv hw
      refine ⟨cells, hcells, fun _ _ _ => hi, fun v w hv' hw' => ?_⟩
      rw [hv] at hv'
      rw [hw] at hw'
      cases hv'
      cases hw'
      exact hrel
    · refine ⟨_, .empty .., nofun, fun v w hv hw => absurd ?_ hi⟩
      exact ⟨(List.getElem?_eq_some_iff.mp hv).1, (List.getElem?_eq_some_iff.mp hw).1⟩
  choose cells hcells hplace hrel using hat
  refine ⟨fun a b => ∃ i, cells i a b, ⟨⟨?_, ?_⟩, ?_, ?_⟩, fun i v w hv hw => ?_⟩
  · rintro a₁ a₂ b ⟨i, hi⟩ ⟨j, hj⟩
    have heq : s i = s j := eq_of_cuts hc' ((hcells i).right _ _ hi) ((hcells j).right _ _ hj)
    cases hs i (hplace i _ _ hi).1 j (hplace j _ _ hj).1 heq
    exact (hcells i).unique.1 hi hj
  · rintro a b₁ b₂ ⟨i, hi⟩ ⟨j, hj⟩
    cases eq_of_cuts hc ((hcells i).left _ _ hi) ((hcells j).left _ _ hj)
    exact (hcells i).unique.2 hi hj
  · rintro a b ⟨i, hi⟩
    obtain ⟨hle, hlt⟩ := (hcells i).left a b hi
    exact ⟨Nat.le_trans (hc (Nat.zero_le i)) hle,
      Nat.lt_of_lt_of_le hlt (hc (hplace i a b hi).1)⟩
  · rintro a b ⟨i, hi⟩
    obtain ⟨hle, hlt⟩ := (hcells i).right a b hi
    exact ⟨Nat.le_trans (hc' (Nat.zero_le (s i))) hle,
      Nat.lt_of_lt_of_le hlt (hc' (hplace i a b hi).2)⟩
  · exact hmono (fun a b hab => ⟨i, hab⟩) v w (hrel i v w hv hw)

/-- Entries with the same keys, no key twice, have values that are related over one pairing of all
cells if those of the same key are related over cells from ranges of their own. -/
theorem exists_pairing_entries {es : List (Key × β)} {fs : List (Key × γ)}
    (hmono : ∀ {p q : Addr → Addr → Prop}, (∀ a b, p a b → q a b) → ∀ v w, R p v w → R q v w)
    (hc : Monotone c) (hc' : Monotone c') (hkeys : (es.map Prod.fst).Perm (fs.map Prod.fst))
    (hnodup : (es.map Prod.fst).Nodup)
    (hparts : ∀ i j x y, es[i]? = some x → fs[j]? = some y → x.1 = y.1 →
      ∃ cells, Pairing cells (c i) (c (i + 1)) (c' j) (c' (j + 1)) ∧ R cells x.2 y.2) :
    ∃ cells, Pairing cells (c 0) (c es.length) (c' 0) (c' fs.length) ∧
      ∀ x ∈ es, ∀ y ∈ fs, x.1 = y.1 → R cells x.2 y.2 := by
  -- Every key on the left has its place on the right.
  have hplace (i : Nat) : ∃ j : Nat, ∀ x, es[i]? = some x → ∃ y, fs[j]? = some y ∧ x.1 = y.1 := by
    cases hx : es[i]? with
    | none => exact ⟨0, nofun⟩
    | some x =>
      have hmem := hkeys.subset (List.mem_map_of_mem (List.mem_of_getElem? hx))
      obtain ⟨y, hy, hyx⟩ := List.mem_map.mp hmem
      obtain ⟨j, hj⟩ := List.mem_iff_getElem?.mp hy
      exact ⟨j, fun _ heq => ⟨y, hj, Option.some.inj heq ▸ hyx.symm⟩⟩
  choose σ hσ using hplace
  have hinj : ∀ i < es.length, ∀ j < es.length, σ i = σ j → i = j := by
    intro i hi j hj heq
    obtain ⟨y, hy, hxy⟩ := hσ i _ (List.getElem?_eq_getElem hi)
    obtain ⟨z, hz, hxz⟩ := hσ j _ (List.getElem?_eq_getElem hj)
    rw [heq, hz] at hy
    cases hy
    refine (List.getElem?_inj (by simpa using hi) hnodup).mp ?_
    rw [List.getElem?_map, List.getElem?_map, List.getElem?_eq_getElem hi,
      List.getElem?_eq_getElem hj, Option.map_some, Option.map_some, hxy, hxz]
  obtain ⟨cells, hcells, hrel⟩ := exists_pairing
    (R := fun cells (x : Key × β) (y : Key × γ) => R cells x.2 y.2)
    (fun hpq x y => hmono hpq x.2 y.2) hc hc' hinj fun i x y hx hy => by
      obtain ⟨z, hz, hxz⟩ := hσ i x hx
      exact hparts i (σ i) x y hx hy (Option.some.inj (hz.symm.trans hy) ▸ hxz)
  refine ⟨cells, hcells, fun x hx y hy hxy => ?_⟩
  obtain ⟨i, hi⟩ := List.mem_iff_getElem?.mp hx
  obtain ⟨z, hz, hxz⟩ := hσ i x hi
  obtain rfl := List.inj_on_of_nodup_map (hkeys.nodup hnodup) hy (List.mem_of_getElem? hz)
    (hxy.symm.trans hxz)
  exact hrel i x y hi hz

end

/-! ### The cells of each part -/

/-- One more range in front of those that are cut out in turn. -/
theorem monotone_casesOn {n : Addr} {c : Nat → Addr} (hn : n ≤ c 0) (hc : Monotone c) :
    Monotone fun i : Nat => (i.casesOn n c : Addr) :=
  monotone_nat_of_le_succ fun i => by
    cases i with
    | zero => exact hn
    | succ i => exact hc (Nat.le_succ i)

/-- The ranges of cells that the copies of values use up are cut out in turn. -/
theorem CopiesItems.exists_cuts {h h' : Heap} {vs ws : List Value} {n m : Addr}
    (hvs : CopiesItems h h' vs ws n m) :
    ∃ c : Nat → Addr, Monotone c ∧ c 0 = n ∧ c ws.length = m ∧
      ∀ i w, ws[i]? = some w → ∃ v, vs[i]? = some v ∧ Copies h h' v w (c i) (c (i + 1)) := by
  induction vs generalizing ws n with
  | nil =>
    cases hvs
    exact ⟨fun _ => _, monotone_const, rfl, rfl, nofun⟩
  | cons v vs ih =>
    cases hvs with
    | cons hv hvs =>
      obtain ⟨c, hc, rfl, rfl, hparts⟩ := ih hvs
      refine ⟨_, monotone_casesOn hv.le hc, rfl, rfl, fun i w hw => ?_⟩
      cases i with
      | zero =>
        cases hw
        exact ⟨v, rfl, hv⟩
      | succ i => exact hparts i w hw

/-- The ranges of cells that the copies of fields use up are cut out in turn. -/
theorem CopiesFields.exists_cuts {h h' : Heap} {fs : List Field} {vs ws : List Value} {n m : Addr}
    (hvs : CopiesFields h h' fs vs ws n m) :
    ∃ c : Nat → Addr, Monotone c ∧ c 0 = n ∧ c ws.length = m ∧
      ∀ i w, ws[i]? = some w → ∃ f v, fs[i]? = some f ∧ vs[i]? = some v ∧
        (f.exported = true ∧ Copies h h' v w (c i) (c (i + 1)) ∨
          f.exported = false ∧ w = f.ty.zero) := by
  induction fs generalizing vs ws n with
  | nil =>
    cases hvs
    exact ⟨fun _ => _, monotone_const, rfl, rfl, nofun⟩
  | cons f fs ih =>
    cases hvs with
    | exported hf hv hvs =>
      obtain ⟨c, hc, rfl, rfl, hparts⟩ := ih hvs
      refine ⟨_, monotone_casesOn hv.le hc, rfl, rfl, fun i w hw => ?_⟩
      cases i with
      | zero =>
        cases hw
        exact ⟨f, _, rfl, rfl, .inl ⟨hf, hv⟩⟩
      | succ i => exact hparts i w hw
    | hidden hf hvs =>
      obtain ⟨c, hc, rfl, rfl, hparts⟩ := ih hvs
      refine ⟨_, monotone_casesOn (Nat.le_refl (c 0)) hc, rfl, rfl, fun i w hw => ?_⟩
      cases i with
      | zero =>
        cases hw
        exact ⟨f, _, rfl, rfl, .inr ⟨hf, rfl⟩⟩
      | succ i => exact hparts i w hw

theorem CopiesFields.length_eq {h h' : Heap} {fs : List Field} {vs ws : List Value} {n m : Addr}
    (hvs : CopiesFields h h' fs vs ws n m) : ws.length = fs.length := by
  induction fs generalizing vs ws n with
  | nil =>
    cases hvs
    rfl
  | cons f fs ih =>
    cases hvs with
    | exported _ _ hvs | hidden _ hvs => exact congrArg (· + 1) (ih hvs)

/-! ### The same copies -/

/-- No key stands twice in a well-formed map. -/
theorem Entries.WellFormed.nodup_keys {k e : Ty} {h : Heap} {entries : List (Key × Value)}
    (he : WellFormed k e h entries) : (entries.map Prod.fst).Nodup :=
  .of_map Key.bare (by rw [List.map_map]; exact he.places)

/-- The copies of two values are the same, with cells that stand for each other one-to-one. -/
def Value.SameCopies (h h₁ h' h₁' : Heap) (v w : Value) : Prop :=
  ∀ {v' w' : Value} {n m n' m' : Addr}, Copies h h₁ v v' n m → Copies h' h₁' w w' n' m' →
    ∃ cells, Pairing cells n m n' m' ∧ v'.Same cells h₁ h₁' w'

namespace Value

variable {cells : Addr → Addr → Prop} {h h₁ h' h₁' : Heap} {v w : Value}

/-- Values that have the same copies in turn are copied to lists that are the same in turn. -/
theorem SameCopies.items {vs ws vs' ws' : List Value} {n m n' m' : Addr}
    (hlength : vs.length = ws.length) (hitems : ∀ x ∈ vs.zip ws, x.1.SameCopies h h₁ h' h₁' x.2)
    (hvs : CopiesItems h h₁ vs vs' n m) (hws : CopiesItems h' h₁' ws ws' n' m') :
    ∃ cells, Pairing cells n m n' m' ∧ vs'.length = ws'.length ∧
      ∀ x ∈ vs'.zip ws', x.1.Same cells h₁ h₁' x.2 := by
  have hlength' : vs'.length = ws'.length := by rw [hvs.length_eq, hws.length_eq, hlength]
  obtain ⟨c, hc, rfl, rfl, hparts⟩ := hvs.exists_cuts
  obtain ⟨c', hc', rfl, rfl, hparts'⟩ := hws.exists_cuts
  have hsame (i : Nat) (v' w' : Value) (hv' : vs'[i]? = some v') (hw' : ws'[i]? = some w') :
      ∃ cells, Pairing cells (c i) (c (i + 1)) (c' i) (c' (i + 1)) ∧ v'.Same cells h₁ h₁' w' := by
    obtain ⟨v, hv, hcopy⟩ := hparts i v' hv'
    obtain ⟨w, hw, hcopy'⟩ := hparts' i w' hw'
    have hmem := List.mem_of_getElem? (List.getElem?_zip_eq_some (z := (v, w)).mpr ⟨hv, hw⟩)
    exact hitems _ hmem hcopy hcopy'
  obtain ⟨cells, hcells, hsame⟩ := exists_pairing (R := fun cells => Value.Same cells h₁ h₁')
    (fun hpq _ _ => Alike.mono hpq) hc hc' (s := id) (fun _ _ _ _ heq => heq) hsame
  refine ⟨cells, hcells, hlength', fun x hx => ?_⟩
  obtain ⟨i, hi⟩ := List.mem_iff_getElem?.mp hx
  obtain ⟨hv, hw⟩ := List.getElem?_zip_eq_some.mp hi
  exact hsame i x.1 x.2 hv hw

/-- Records of one type whose exported fields have the same copies in turn are copied to records
whose fields are all the same in turn. -/
theorem SameCopies.fields {fs : List Field} {vs ws vs' ws' : List Value} {n m n' m' : Addr}
    (hfields : ∀ x ∈ fs.zip (vs.zip ws), x.1.exported = true →
      x.2.1.SameCopies h h₁ h' h₁' x.2.2)
    (hvs : CopiesFields h h₁ fs vs vs' n m) (hws : CopiesFields h' h₁' fs ws ws' n' m') :
    ∃ cells, Pairing cells n m n' m' ∧ vs'.length = ws'.length ∧
      ∀ x ∈ fs.zip (vs'.zip ws'), x.2.1.Same cells h₁ h₁' x.2.2 := by
  have hlength' : vs'.length = ws'.length := hvs.length_eq.trans hws.length_eq.symm
  obtain ⟨c, hc, rfl, rfl, hparts⟩ := hvs.exists_cuts
  obtain ⟨c', hc', rfl, rfl, hparts'⟩ := hws.exists_cuts
  have hsame (i : Nat) (v' w' : Value) (hv' : vs'[i]? = some v') (hw' : ws'[i]? = some w') :
      ∃ cells, Pairing cells (c i) (c (i + 1)) (c' i) (c' (i + 1)) ∧ v'.Same cells h₁ h₁' w' := by
    obtain ⟨f, v, hf, hv, hcopy⟩ := hparts i v' hv'
    obtain ⟨g, w, hg, hw, hcopy'⟩ := hparts' i w' hw'
    cases hf.symm.trans hg
    rcases hcopy with ⟨hexported, hcopy⟩ | ⟨hhidden, rfl⟩
    · rcases hcopy' with ⟨-, hcopy'⟩ | ⟨hhidden, -⟩
      · have hvw := List.getElem?_zip_eq_some (z := (v, w)).mpr ⟨hv, hw⟩
        have hmem := List.mem_of_getElem? (List.getElem?_zip_eq_some (z := (f, v, w)).mpr ⟨hf, hvw⟩)
        exact hfields _ hmem hexported hcopy hcopy'
      · cases hexported.symm.trans hhidden
    · rcases hcopy' with ⟨hexported, -⟩ | ⟨-, rfl⟩
      · cases hexported.symm.trans hhidden
      · exact ⟨_, .empty .., f.ty.zero_alike _ _ _ _⟩
  obtain ⟨cells, hcells, hsame⟩ := exists_pairing (R := fun cells => Value.Same cells h₁ h₁')
    (fun hpq _ _ => Alike.mono hpq) hc hc' (s := id) (fun _ _ _ _ heq => heq) hsame
  refine ⟨cells, hcells, hlength', fun x hx => ?_⟩
  obtain ⟨i, hi⟩ := List.mem_iff_getElem?.mp hx
  obtain ⟨hv, hw⟩ := List.getElem?_zip_eq_some.mp (List.getElem?_zip_eq_some.mp hi).2
  exact hsame i x.2.1 x.2.2 hv hw

/-- Entries with the same keys are copied to entries that are the same if the values of the same key
have the same copies. -/
theorem SameCopies.entries {es fs es' fs' : List (Key × Value)} {n m n' m' : Addr}
    (hkeys : (es.map Prod.fst).Perm (fs.map Prod.fst)) (hnodup : (es.map Prod.fst).Nodup)
    (hvalues : ∀ x ∈ es, ∀ y ∈ fs, x.1 = y.1 → x.2.SameCopies h h₁ h' h₁' y.2)
    (hes : es'.map Prod.fst = es.map Prod.fst) (hfs : fs'.map Prod.fst = fs.map Prod.fst)
    (hvs : CopiesItems h h₁ (es.map Prod.snd) (es'.map Prod.snd) n m)
    (hws : CopiesItems h' h₁' (fs.map Prod.snd) (fs'.map Prod.snd) n' m') :
    ∃ cells, Pairing cells n m n' m' ∧
      ∀ x ∈ es', ∀ y ∈ fs', x.1 = y.1 → x.2.Same cells h₁ h₁' y.2 := by
  obtain ⟨c, hc, rfl, rfl, hparts⟩ := hvs.exists_cuts
  obtain ⟨c', hc', rfl, rfl, hparts'⟩ := hws.exists_cuts
  rw [List.length_map, List.length_map]
  refine exists_pairing_entries (fun hpq _ _ => Alike.mono hpq) hc hc' (by rwa [hes, hfs])
    (by rwa [hes]) fun i j x' y' hx' hy' hxy => ?_
  obtain ⟨v, hv, hcopy⟩ := hparts i x'.2 (by rw [List.getElem?_map, hx', Option.map_some])
  obtain ⟨w, hw, hcopy'⟩ := hparts' j y'.2 (by rw [List.getElem?_map, hy', Option.map_some])
  rw [List.getElem?_map] at hv hw
  obtain ⟨x, hx, rfl⟩ := Option.map_eq_some_iff.mp hv
  obtain ⟨y, hy, rfl⟩ := Option.map_eq_some_iff.mp hw
  -- The copies have the keys of what they copy.
  have hkey : x'.1 = x.1 := by
    have heq := congrArg (·[i]?) hes
    simpa only [List.getElem?_map, hx, hx', Option.map_some, Option.some.injEq] using heq
  have hkey' : y'.1 = y.1 := by
    have heq := congrArg (·[j]?) hfs
    simpa only [List.getElem?_map, hy, hy', Option.map_some, Option.some.injEq] using heq
  exact hvalues x (List.mem_of_getElem? hx) y (List.mem_of_getElem? hy)
    (hkey.symm.trans (hxy.trans hkey')) hcopy hcopy'

/-- Values that look alike where the exported fields are seen have the same copies. -/
theorem Alike.sameCopies (hh : h.WellFormed) (hvw : v.Alike (·.exported) cells h h' w)
    (hv : v.WellFormed h) : v.SameCopies h h₁ h' h₁' w := by
  induction hvw with
  | atom hatom =>
    intro v' w' n m n' m' hcopy hcopy'
    cases hcopy with
    | atom =>
      cases hcopy' with
      | atom => exact ⟨_, .empty .., .atom hatom⟩
      | _ => cases hatom
    | _ => cases hatom
  | list hlength _ ih =>
    intro v' w' n m n' m' hcopy hcopy'
    cases hcopy with
    | atom hatom => cases hatom
    | list hvs =>
      cases hcopy' with
      | atom hatom => cases hatom
      | list hws =>
        have hitems := wellFormed_list.mp hv
        obtain ⟨cells, hcells, hlength, hsame⟩ := SameCopies.items hlength
          (fun x hx => ih x hx (hitems _ (List.of_mem_zip hx).1).wellFormed) hvs hws
        exact ⟨cells, hcells, .list hlength hsame⟩
  | array hlength _ ih =>
    intro v' w' n m n' m' hcopy hcopy'
    cases hcopy with
    | atom hatom => cases hatom
    | array hvs =>
      cases hcopy' with
      | atom hatom => cases hatom
      | array hws =>
        have hitems := wellFormed_array.mp hv
        obtain ⟨cells, hcells, hlength, hsame⟩ := SameCopies.items hlength
          (fun x hx => ih x hx (hitems _ (List.of_mem_zip hx).1).wellFormed) hvs hws
        exact ⟨cells, hcells, .array hlength hsame⟩
  | map hkeys _ ih =>
    intro v' w' n m n' m' hcopy hcopy'
    cases hcopy with
    | atom hatom => cases hatom
    | map hes hvs =>
      cases hcopy' with
      | atom hatom => cases hatom
      | map hfs hws =>
        have hentries := wellFormed_map.mp hv
        obtain ⟨cells, hcells, hsame⟩ := SameCopies.entries hkeys hentries.nodup_keys
          (fun x hx y hy hxy => ih x hx y hy hxy (hentries.values x hx).wellFormed) hes hfs hvs hws
        exact ⟨cells, hcells, .map (by rwa [hes, hfs]) hsame⟩
  | record _ _ ih =>
    intro v' w' n m n' m' hcopy hcopy'
    cases hcopy with
    | atom hatom => cases hatom
    | record hvs =>
      cases hcopy' with
      | atom hatom => cases hatom
      | record hws =>
        have hfits {u : Value} := exists_fits_of_mem (v := u) (wellFormed_record.mp hv)
        obtain ⟨cells, hcells, hlength, hsame⟩ := SameCopies.fields (fun x hx hexported => by
          obtain ⟨_, _, hfits⟩ := hfits (List.of_mem_zip (List.of_mem_zip hx).2).1
          exact ih x hx hexported hfits.wellFormed) hvs hws
        exact ⟨cells, hcells, .record hlength fun x hx _ => hsame x hx⟩
  | pointer _ _ ih =>
    intro v' w' n m n' m' hcopy hcopy'
    cases hcopy with
    | atom hatom => cases hatom
    | pointer hcell =>
      cases hcopy' with
      | atom hatom => cases hatom
      | pointer hcell' =>
        obtain ⟨cells, hcells, hsame⟩ := ih (hh _ (wellFormed_pointer.mp hv).1) hcell hcell'
        exact ⟨_, hcells.insert hcell.le hcell'.le,
          .pointer (.inr ⟨rfl, rfl⟩) (hsame.mono fun _ _ => .inl)⟩
  | slot _ ih =>
    intro v' w' n m n' m' hcopy hcopy'
    cases hcopy with
    | atom hatom => cases hatom
    | slot hcopy =>
      cases hcopy' with
      | atom hatom => cases hatom
      | slot hcopy' =>
        obtain ⟨cells, hcells, hsame⟩ := ih (wellFormed_slot.mp hv).2.2 hcopy hcopy'
        exact ⟨cells, hcells, .slot hsame⟩

/-- The deep copies of values that look alike where the exported fields are seen are the same. Their
cells are new on either side and stand for each other one-to-one. -/
theorem Alike.deepCopy (hh : h.Orderly) (hh' : h'.Orderly)
    (hvw : v.Alike (·.exported) cells h h' w) (hv : v.WellFormed h) (hw : w.WellFormed h') :
    ∃ cells, Pairing cells h.size (v.deepCopy h).1.size h'.size (w.deepCopy h').1.size ∧
      (v.deepCopy h).2.Same cells (v.deepCopy h).1 (w.deepCopy h').1 (w.deepCopy h').2 :=
  hvw.sameCopies hh.wellFormed hv
    (deepCopy_copying hh.wellFormed (hh.acyclic.behind v) hv).copies
    (deepCopy_copying hh'.wellFormed (hh'.acyclic.behind w) hw).copies

end Value

end DynamicEval
