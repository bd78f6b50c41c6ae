import DynamicEval.Proofs.Equality
import DynamicEval.Proofs.Number
import DynamicEval.Proofs.Rounding

/-!
# Comparison of values

A comparison with its sides exchanged has the reverse order, as equality is symmetric. Numbers are
compared by their ranks as floating-point numbers, and integers of one rank by themselves. Rounding
is monotone, so this is one lexicographic comparison of all numbers; it fails to be transitive just
where the integers of one rank meet a floating-point number of that rank, which is equal to all of
them.

## Main definitions

* `Value.HasRank`: a number that is not NaN stands at the base of a value.
* `Value.Blurs`: a floating-point number is equal to two integers of which one is less.

## Main results

* `Value.compare?_swap`: comparison with the sides exchanged.
* `Value.compare?_eq_then`: comparison of numbers, by rank and then as integers.
* `Value.compare?_chain`: chains of comparisons of numbers, which break just where one number blurs
  the two others.
-/

namespace DynamicEval

/-! ### Exchange of sides -/

theorem Binary64.compare?_swap (x y : Binary64) :
    y.compare? x = (x.compare? y).map Ordering.swap := by
  rw [compare?, compare?, Bool.or_comm]
  split
  · rfl
  · rw [Option.map_some, Int.compare_swap]

namespace Value

variable {h : Heap} {a b f v x y z : Value} {m n : Int}

theorem compareNumbers?_swap (v w : Value) :
    w.compareNumbers? v = (v.compareNumbers? w).map (Option.map Ordering.swap) := by
  rw [compareNumbers?, compareNumbers?]
  cases v.toInt? <;> cases w.toInt? <;> cases v.toFloat? <;> cases w.toFloat? <;>
    first
    | rfl
    | exact congrArg some (Binary64.compare?_swap _ _)
    | exact congrArg (some ∘ some) (Int.compare_swap _ _).symm

theorem compare?_of_string {s t : String} (hx : x.base h = string s) (hy : y.base h = string t) :
    x.compare? y h = some (compare s t) := by
  rw [compare?, hx, hy]

theorem compare?_of_not_string (hxy : ∀ s t, x.base h = string s → y.base h ≠ string t) :
    x.compare? y h = ((x.base h).compareNumbers? (y.base h)).getD
      (if x.eq y h then some .eq else none) := by
  rw [compare?]
  split
  · next hx hy => exact absurd hy (hxy _ _ hx)
  · split
    · next horder => rw [horder, Option.getD_some]
    · next horder => rw [horder, Option.getD_none]

/-- With the sides exchanged a comparison has the reverse order. -/
theorem compare?_swap (hh : h.WellFormed) (hx : x.WellFormed h) (hy : y.WellFormed h) :
    y.compare? x h = (x.compare? y h).map Ordering.swap := by
  by_cases hxy : ∀ s t, x.base h = string s → y.base h ≠ string t
  · rw [compare?_of_not_string hxy, compare?_of_not_string fun s t hy hx => hxy t s hx hy,
      compareNumbers?_swap, eq_comm hh hy hx]
    cases (x.base h).compareNumbers? (y.base h) with
    | some order => rfl
    | none => split <;> rfl
  · push Not at hxy
    obtain ⟨s, t, hx, hy⟩ := hxy
    rw [compare?_of_string hx hy, compare?_of_string hy hx]
    exact congrArg some Std.OrientedOrd.eq_swap

/-! ### Ranks -/

/-- A number stands at the base of a value, and it is not NaN. -/
structure HasRank (h : Heap) (v : Value) : Prop where
  /-- A number stands at the base. -/
  holdsNumber : v.holdsNumber h = true
  /-- It is not NaN. -/
  isNaN : ∀ w a, v.base h = float w a → a.isNaN = false

/-- The rank of the floating-point number nearest to the number at the base of a value, zero where
there is none. -/
def rankAt (h : Heap) (v : Value) : Int := ((v.base h).toFloat?.getD .zero).rank

/-- A floating-point number is equal to two integers of which the first is less: both are rounded to
it. -/
def Blurs (h : Heap) (f x y : Value) : Prop :=
  ∃ (w : FloatWidth) (a : Binary64) (m n : Int), f.base h = float w a ∧
    (x.base h).toInt? = some m ∧ (y.base h).toInt? = some n ∧ m < n ∧
    (Binary64.ofInt m).numEq a = true ∧ (Binary64.ofInt n).numEq a = true

/-- The first value is less than the second or equal to it. -/
def AtMost (h : Heap) (x y : Value) : Prop :=
  x.compare? y h = some .lt ∨ x.compare? y h = some .eq

/-- The order of numbers of one rank: only integers are told apart. -/
def tieOrder : Option Int → Option Int → Ordering
  | some m, some n => compare m n
  | _, _ => .eq

@[simp] theorem tieOrder_none_left (j : Option Int) : tieOrder none j = .eq := rfl

@[simp] theorem tieOrder_none_right (i : Option Int) : tieOrder i none = .eq := by
  cases i <;> rfl

/-- A number is an integer or a floating-point number. -/
theorem HasRank.cases (hv : v.HasRank h) :
    (∃ n, (v.base h).toInt? = some n ∧ (v.base h).toFloat? = some (.ofInt n)) ∨
      ∃ w a, v.base h = float w a ∧ a.isNaN = false := by
  have hnumber := hv.holdsNumber
  rw [Value.holdsNumber] at hnumber
  have hnan := hv.isNaN
  cases hb : v.base h with
  | int w n => exact .inl ⟨_, rfl, rfl⟩
  | uint w n => exact .inl ⟨_, rfl, rfl⟩
  | float w a => exact .inr ⟨w, a, rfl, hnan w a hb⟩
  | _ => rw [hb] at hnumber; cases hnumber

theorem rankAt_of_base {w : FloatWidth} {a : Binary64} (hb : v.base h = float w a) :
    v.rankAt h = a.rank := by
  rw [rankAt, hb]
  rfl

theorem HasRank.exists_toFloat? (hv : v.HasRank h) :
    ∃ a, (v.base h).toFloat? = some a ∧ a.isNaN = false ∧ a.rank = v.rankAt h := by
  obtain ⟨n, -, hfloat⟩ | ⟨w, a, hb, hnan⟩ := hv.cases
  · exact ⟨_, hfloat, Binary64.isNaN_ofInt n, by rw [rankAt, hfloat, Option.getD_some]⟩
  · exact ⟨a, by rw [hb]; rfl, hnan, (rankAt_of_base hb).symm⟩

theorem HasRank.rankAt_of_toInt? (hv : v.HasRank h) (hn : (v.base h).toInt? = some n) :
    v.rankAt h = (Binary64.ofInt n).rank := by
  obtain ⟨m, hm, hfloat⟩ | ⟨w, a, hb, -⟩ := hv.cases
  · cases hm.symm.trans hn
    rw [rankAt, hfloat, Option.getD_some]
  · rw [hb] at hn
    cases hn

/-- Integers that are in the order of their ranks, where these differ, may be compared by the ranks
first. -/
theorem compare_eq_then {i j : Int} (hlt : i < j → m < n) (hgt : j < i → n < m) :
    compare m n = (compare i j).then (compare m n) := by
  rcases Int.lt_trichotomy i j with hij | rfl | hij
  · rw [Int.compare_eq_lt.mpr hij, Int.compare_eq_lt.mpr (hlt hij)]
    rfl
  · rw [Int.compare_eq_eq.mpr rfl]
    rfl
  · rw [Int.compare_eq_gt.mpr hij, Int.compare_eq_gt.mpr (hgt hij)]
    rfl

theorem tieOrder_swap (i j : Option Int) : (tieOrder i j).swap = tieOrder j i := by
  cases i <;> cases j <;> first | rfl | exact Int.compare_swap _ _

/-- Numbers are compared by their ranks, and integers of one rank by themselves. -/
theorem compare?_eq_then (hx : x.HasRank h) (hy : y.HasRank h) :
    x.compare? y h = some ((compare (x.rankAt h) (y.rankAt h)).then
      (tieOrder (x.base h).toInt? (y.base h).toInt?)) := by
  obtain ⟨a, ha, hanan, harank⟩ := hx.exists_toFloat?
  obtain ⟨b, hb, hbnan, hbrank⟩ := hy.exists_toFloat?
  have hstring : ∀ s t, x.base h = string s → y.base h ≠ string t := by
    intro s t hs
    rw [hs] at ha
    cases ha
  have hfloats : a.compare? b = some (compare (x.rankAt h) (y.rankAt h)) := by
    rw [Binary64.compare?, hanan, hbnan, harank, hbrank]
    rfl
  rw [compare?_of_not_string hstring, compareNumbers?, ha, hb]
  cases hm : (x.base h).toInt? with
  | none => rw [Option.getD_some, hfloats, tieOrder_none_left, Ordering.then_eq]
  | some m =>
    cases hn : (y.base h).toInt? with
    | none => rw [Option.getD_some, hfloats, tieOrder_none_right, Ordering.then_eq]
    | some n =>
      rw [hx.rankAt_of_toInt? hm, hy.rankAt_of_toInt? hn]
      refine congrArg some (compare_eq_then (fun hlt => ?_) fun hlt => ?_)
      · exact Int.not_le.mp fun hle => Int.not_le.mpr hlt (Binary64.rank_ofInt_mono hle)
      · exact Int.not_le.mp fun hle => Int.not_le.mpr hlt (Binary64.rank_ofInt_mono hle)

/-! ### Chains of comparisons -/

theorem atMost_iff (hx : x.HasRank h) (hy : y.HasRank h) :
    AtMost h x y ↔ x.rankAt h < y.rankAt h ∨
      x.rankAt h = y.rankAt h ∧ (tieOrder (x.base h).toInt? (y.base h).toInt?).isLE = true := by
  rw [AtMost, compare?_eq_then hx hy, Option.some_inj, Option.some_inj,
    ← Ordering.isLE_iff_eq_lt_or_eq_eq, Ordering.isLE_then_iff_or, Int.compare_eq_lt,
    Int.compare_eq_eq]

theorem compare?_eq_lt_iff (hx : x.HasRank h) (hy : y.HasRank h) :
    x.compare? y h = some .lt ↔ x.rankAt h < y.rankAt h ∨
      x.rankAt h = y.rankAt h ∧ tieOrder (x.base h).toInt? (y.base h).toInt? = .lt := by
  rw [compare?_eq_then hx hy, Option.some_inj, Ordering.then_eq_lt, Int.compare_eq_lt,
    Int.compare_eq_eq]

theorem compare?_eq_eq_iff (hx : x.HasRank h) (hy : y.HasRank h) :
    x.compare? y h = some .eq ↔
      x.rankAt h = y.rankAt h ∧ tieOrder (x.base h).toInt? (y.base h).toInt? = .eq := by
  rw [compare?_eq_then hx hy, Option.some_inj, Ordering.then_eq_eq, Int.compare_eq_eq]

theorem tieOrder_eq_lt_iff {i j : Option Int} :
    tieOrder i j = .lt ↔ ∃ m n, i = some m ∧ j = some n ∧ m < n := by
  cases i <;> cases j <;> simp [tieOrder, Int.compare_eq_lt]

/-- A number blurs two integers if all three have one rank and it is no integer itself. -/
theorem blurs_iff (hf : f.HasRank h) (hx : x.HasRank h) (hy : y.HasRank h) :
    f.Blurs h x y ↔ f.rankAt h = x.rankAt h ∧ f.rankAt h = y.rankAt h ∧
      (f.base h).toInt? = none ∧ tieOrder (x.base h).toInt? (y.base h).toInt? = .lt := by
  rw [tieOrder_eq_lt_iff]
  constructor
  · rintro ⟨w, a, m, n, hb, hm, hn, hlt, hma, hna⟩
    refine ⟨?_, ?_, by rw [hb]; rfl, m, n, hm, hn, hlt⟩
    · rw [rankAt_of_base hb, hx.rankAt_of_toInt? hm, (Binary64.numEq_iff.mp hma).2.2]
    · rw [rankAt_of_base hb, hy.rankAt_of_toInt? hn, (Binary64.numEq_iff.mp hna).2.2]
  · rintro ⟨hfx, hfy, hnone, m, n, hm, hn, hlt⟩
    obtain ⟨k, hk, -⟩ | ⟨w, a, hb, hnan⟩ := hf.cases
    · cases hnone.symm.trans hk
    · refine ⟨w, a, m, n, hb, hm, hn, hlt, ?_, ?_⟩ <;>
        refine Binary64.numEq_iff.mpr ⟨Binary64.isNaN_ofInt _, hnan, ?_⟩
      · rw [← hx.rankAt_of_toInt? hm, ← hfx, rankAt_of_base hb]
      · rw [← hy.rankAt_of_toInt? hn, ← hfy, rankAt_of_base hb]

section Ties

variable {i j k : Option Int}

/-- Among numbers of one rank a chain breaks where its middle is no integer. -/
theorem isLE_tieOrder_iff (hij : (tieOrder i j).isLE = true) (hjk : (tieOrder j k).isLE = true) :
    (tieOrder i k).isLE = true ↔ ¬(j = none ∧ tieOrder k i = .lt) := by
  cases i <;> cases j <;> cases k <;>
    simp only [tieOrder, Int.isLE_compare, Int.compare_eq_lt] at * <;> grind

theorem tieOrder_eq_lt_iff_of_chain (hij : (tieOrder i j).isLE = true)
    (hjk : (tieOrder j k).isLE = true) (hlt : tieOrder i j = .lt ∨ tieOrder j k = .lt) :
    tieOrder i k = .lt ↔
      ¬(k = none ∧ tieOrder i j = .lt) ∧ ¬(i = none ∧ tieOrder j k = .lt) := by
  cases i <;> cases j <;> cases k <;>
    simp only [tieOrder, Int.isLE_compare, Int.compare_eq_lt] at * <;> grind

theorem tieOrder_eq_eq_iff (hij : tieOrder i j = .eq) (hjk : tieOrder j k = .eq) :
    tieOrder i k = .eq ↔
      ¬(j = none ∧ tieOrder i k = .lt) ∧ ¬(j = none ∧ tieOrder k i = .lt) := by
  cases i <;> cases j <;> cases k <;>
    simp only [tieOrder, Int.compare_eq_lt, Int.compare_eq_eq] at * <;> grind

end Ties

/-- A chain of two steps goes up in rank, or stays in one rank and is a chain of ties. -/
theorem AtMost.rankAt_cases (hx : x.HasRank h) (hy : y.HasRank h) (hz : z.HasRank h)
    (hxy : AtMost h x y) (hyz : AtMost h y z) :
    x.rankAt h < z.rankAt h ∨ x.rankAt h = y.rankAt h ∧ y.rankAt h = z.rankAt h ∧
      (tieOrder (x.base h).toInt? (y.base h).toInt?).isLE = true ∧
      (tieOrder (y.base h).toInt? (z.base h).toInt?).isLE = true := by
  rcases (atMost_iff hx hy).mp hxy with hlt | ⟨hxy, hxtie⟩ <;>
    rcases (atMost_iff hy hz).mp hyz with hlt' | ⟨hyz, hytie⟩
  · exact .inl (hlt.trans hlt')
  · exact .inl (hyz ▸ hlt)
  · exact .inl (hxy ▸ hlt')
  · exact .inr ⟨hxy, hyz, hxtie, hytie⟩

/-- Where one number is at most the next, the first is at most the last, unless the middle one blurs
the outer ones. -/
theorem AtMost.trans_iff (hx : x.HasRank h) (hy : y.HasRank h) (hz : z.HasRank h)
    (hxy : AtMost h x y) (hyz : AtMost h y z) : AtMost h x z ↔ ¬y.Blurs h z x := by
  rw [atMost_iff hx hz, blurs_iff hy hz hx]
  rcases hxy.rankAt_cases hx hy hz hyz with hlt | ⟨hrank, hrank', htie, htie'⟩
  · exact iff_of_true (.inl hlt) fun ⟨hyz, hyx, _⟩ => by omega
  · rw [hrank, hrank']
    simpa using isLE_tieOrder_iff htie htie'

/-- Where one of the two steps is strict, the first number is less than the last, unless an outer
one blurs the two others. -/
theorem AtMost.trans_lt_iff (hx : x.HasRank h) (hy : y.HasRank h) (hz : z.HasRank h)
    (hxy : AtMost h x y) (hyz : AtMost h y z)
    (hlt : x.compare? y h = some .lt ∨ y.compare? z h = some .lt) :
    x.compare? z h = some .lt ↔ ¬z.Blurs h x y ∧ ¬x.Blurs h y z := by
  rw [compare?_eq_lt_iff hx hy, compare?_eq_lt_iff hy hz] at hlt
  rw [compare?_eq_lt_iff hx hz, blurs_iff hz hx hy, blurs_iff hx hy hz]
  rcases hxy.rankAt_cases hx hy hz hyz with hrank | ⟨hrank, hrank', htie, htie'⟩
  · exact iff_of_true (.inl hrank) ⟨fun ⟨hzx, _⟩ => by omega, fun ⟨_, hxz, _⟩ => by omega⟩
  · rw [hrank, hrank'] at hlt ⊢
    simpa using tieOrder_eq_lt_iff_of_chain htie htie' (by simpa using hlt)

/-- Equal numbers are equal to each other, unless the middle one blurs the outer ones. -/
theorem compare?_eq_eq_trans_iff (hx : x.HasRank h) (hy : y.HasRank h) (hz : z.HasRank h)
    (hxy : x.compare? y h = some .eq) (hyz : y.compare? z h = some .eq) :
    x.compare? z h = some .eq ↔ ¬y.Blurs h x z ∧ ¬y.Blurs h z x := by
  rw [compare?_eq_eq_iff hx hy] at hxy
  rw [compare?_eq_eq_iff hy hz] at hyz
  rw [compare?_eq_eq_iff hx hz, blurs_iff hy hx hz, blurs_iff hy hz hx, hxy.1, hyz.1]
  simpa using tieOrder_eq_eq_iff hxy.2 hyz.2

theorem compare?_self_of_hasRank (hx : x.HasRank h) : x.compare? x h = some .eq := by
  refine (compare?_eq_eq_iff hx hx).mpr ⟨rfl, ?_⟩
  cases (x.base h).toInt? with
  | none => rfl
  | some n => exact Int.compare_eq_eq.mpr rfl

theorem compare?_eq_eq_symm (hx : x.HasRank h) (hy : y.HasRank h)
    (hxy : x.compare? y h = some .eq) : y.compare? x h = some .eq := by
  obtain ⟨hrank, htie⟩ := (compare?_eq_eq_iff hx hy).mp hxy
  refine (compare?_eq_eq_iff hy hx).mpr ⟨hrank.symm, ?_⟩
  rw [← tieOrder_swap, htie]
  rfl

/-- Chains of comparisons of numbers. If `x` is at most `y` and `y` at most `z`, then `x` is at most
`z`, and less if one of the two is strict; equality of numbers is an equivalence. The exceptions are
exactly those of a floating-point number that is equal to two different integers: where it is `y`
and `z` is the lesser integer, or where it is on one side of two integers in strict order, or, for
equality, where it is `y`. -/
theorem compare?_chain (hx : x.HasRank h) (hy : y.HasRank h) (hz : z.HasRank h) :
    (AtMost h x y → AtMost h y z →
      (AtMost h x z ↔ ¬y.Blurs h z x) ∧
      (x.compare? y h = some .lt ∨ y.compare? z h = some .lt →
        (x.compare? z h = some .lt ↔ ¬z.Blurs h x y ∧ ¬x.Blurs h y z))) ∧
    x.compare? x h = some .eq ∧
    (x.compare? y h = some .eq → y.compare? x h = some .eq ∧
      (y.compare? z h = some .eq →
        (x.compare? z h = some .eq ↔ ¬y.Blurs h x z ∧ ¬y.Blurs h z x))) := by
  refine ⟨fun hxy hyz => ⟨hxy.trans_iff hx hy hz hyz, hxy.trans_lt_iff hx hy hz hyz⟩,
    compare?_self_of_hasRank hx, fun hxy => ⟨compare?_eq_eq_symm hx hy hxy, ?_⟩⟩
  exact compare?_eq_eq_trans_iff hx hy hz hxy

theorem hasRank_of_base_eq (hb : v.base h = b) (hnumber : b.ty.kind.isNumber = true)
    (hnan : ∀ w a, b = float w a → a.isNaN = false) : v.HasRank h := by
  refine ⟨?_, ?_⟩
  · rw [Value.holdsNumber, hb]
    exact hnumber
  · rw [hb]
    exact hnan

theorem hasRank_ofInt (h : Heap) (n : Int) : (float .double (.ofInt n)).HasRank h := by
  refine hasRank_of_base_eq (Heap.follow_eq_of_step fun _ => rfl) rfl fun w a heq => ?_
  cases heq
  exact Binary64.isNaN_ofInt n

/-- The floating-point number `2 ^ 53` is equal to the integers `2 ^ 53` and `2 ^ 53 + 1`. Between
them it keeps the lesser before the greater. -/
theorem compare?_chain_two_pow :
    let x := uint .bits64 0x20000000000000
    let y := float .double (.ofInt 0x20000000000000)
    let z := int .bits64 0x20000000000001
    (x.HasRank .empty ∧ y.HasRank .empty ∧ z.HasRank .empty) ∧ AtMost .empty x y ∧
      AtMost .empty y z ∧ AtMost .empty x z := by
  intro x y z
  have hx : x.HasRank .empty := hasRank_of_base_eq (Heap.follow_eq_of_step fun _ => rfl) rfl nofun
  have hy : y.HasRank .empty := hasRank_ofInt _ _
  have hz : z.HasRank .empty := hasRank_of_base_eq (Heap.follow_eq_of_step fun _ => rfl) rfl nofun
  have hxy : AtMost .empty x y := .inr (by decide +kernel)
  have hyz : AtMost .empty y z := .inr (by decide +kernel)
  refine ⟨⟨hx, hy, hz⟩, hxy, hyz, (((compare?_chain hx hy hz).1 hxy hyz).1).mpr ?_⟩
  rintro ⟨w, a, m, n, -, hm, hn, hlt, -⟩
  cases hm
  cases hn
  exact absurd hlt (by decide)

/-- With the integers exchanged it breaks the chain: the greater integer is equal to it and it to
the lesser one, but the integers are told apart. -/
theorem not_atMost_trans :
    let x := int .bits64 0x20000000000001
    let y := float .double (.ofInt 0x20000000000000)
    let z := int .bits64 0x20000000000000
    (x.HasRank .empty ∧ y.HasRank .empty ∧ z.HasRank .empty) ∧
      x.compare? y .empty = some .eq ∧ y.compare? z .empty = some .eq ∧
      x.compare? z .empty = some .gt ∧ ¬AtMost .empty x z := by
  intro x y z
  have hgt : x.compare? z .empty = some .gt := by decide +kernel
  refine ⟨⟨?_, hasRank_ofInt _ _, ?_⟩, by decide +kernel, by decide +kernel, hgt, ?_⟩
  · exact hasRank_of_base_eq (Heap.follow_eq_of_step fun _ => rfl) rfl nofun
  · exact hasRank_of_base_eq (Heap.follow_eq_of_step fun _ => rfl) rfl nofun
  · rw [AtMost, hgt]
    exact nofun

end Value

end DynamicEval
