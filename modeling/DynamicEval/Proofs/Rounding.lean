import DynamicEval.Proofs.WellFormed.Coercion
import Mathlib.Order.Monotone.Basic

/-!
# Rounding of integers

The floating-point number nearest to an integer is a number, and a larger integer has no smaller
one. Integers with the same number of bits are rounded at the same place, so this is the
monotonicity of rounding to an integer; one bit more reaches patterns that are not below those
before.

## Main results

* `roundHalfEven_mono`: rounding to integers is monotone.
* `FloatFormat.nearest_mono`: so is rounding of natural numbers to a format.
* `Binary64.rank_ofInt_mono`: so is the conversion of integers.
-/

namespace DynamicEval

/-! ### Integers nearest to fractions -/

theorem div_le_roundHalfEven (n d : Nat) : n / d ≤ roundHalfEven n d := by
  rw [roundHalfEven]
  split <;> omega

theorem roundHalfEven_le (n d : Nat) : roundHalfEven n d ≤ n / d + 1 := by
  rw [roundHalfEven]
  split <;> omega

/-- A larger numerator has no smaller nearest integer. -/
theorem roundHalfEven_mono {m n d : Nat} (hmn : m ≤ n) : roundHalfEven m d ≤ roundHalfEven n d := by
  rcases Nat.lt_or_eq_of_le (Nat.div_le_div_right (c := d) hmn) with hlt | heq
  · calc
      roundHalfEven m d ≤ m / d + 1 := roundHalfEven_le m d
      _ ≤ n / d := hlt
      _ ≤ roundHalfEven n d := div_le_roundHalfEven n d
  · -- Both are rounded from one integer, by what is left over.
    have hrest : m % d ≤ n % d := by
      have hm := Nat.div_add_mod m d
      have hn := Nat.div_add_mod n d
      rw [heq] at hm
      omega
    rw [roundHalfEven, roundHalfEven, heq]
    split <;> split <;> omega

/-! ### Natural numbers in a format -/

namespace FloatFormat

/-- The integer that a natural number is rounded to when it has been scaled to the precision of a
format. -/
def scaled (f : FloatFormat) (n : Nat) : Nat :=
  roundHalfEven (n * Nat.pow 2 (f.precision - 1 - n.log2)) (Nat.pow 2 (n.log2 - (f.precision - 1)))

variable {f : FloatFormat} {m n : Nat}

/-- A natural number is rounded at the place that leaves it as many bits as there are. -/
theorem unitExponent_one (hf : f.minExponent + f.precision ≤ 1) (hn : n ≠ 0) :
    f.unitExponent n 1 = n.log2 + 1 - f.precision := by
  have hlog : Nat.log2 1 = 0 := by decide
  have hle : 1 * Nat.pow 2 n.log2 ≤ n * Nat.pow 2 0 := by
    rw [Nat.one_mul]
    exact (Nat.log2_self_le hn).trans_eq (Nat.mul_one n).symm
  have hlow : (n.log2 : Int) - (0 : Nat) - f.precision + f.precision = n.log2 := by omega
  rw [unitExponent, hlog]
  dsimp only [scaledFraction]
  rw [hlow, Int.neg_neg, Int.toNat_natCast, Int.toNat_neg_natCast, if_pos hle]
  omega

theorem nearest_one (hf : f.minExponent + f.precision ≤ 1) (hp : 0 < f.precision) (hn : n ≠ 0) :
    f.nearest n 1 =
      min ((n.log2 + 1 - f.precision - f.minExponent : Int).toNat * f.leadingBit + f.scaled n)
        f.infinity := by
  have hleft : (-((n.log2 : Int) + 1 - f.precision)).toNat = f.precision - 1 - n.log2 := by omega
  have hright : (-(-((n.log2 : Int) + 1 - f.precision))).toNat = n.log2 - (f.precision - 1) := by
    omega
  rw [nearest, if_neg hn, unitExponent_one hf hn]
  dsimp only [scaledFraction]
  rw [hleft, hright, Nat.one_mul]
  rfl

/-- The scaled number has the leading bit of a full significand, or is the next power of two. -/
theorem scaled_mem (f : FloatFormat) (hn : n ≠ 0) :
    f.leadingBit ≤ f.scaled n ∧ f.scaled n ≤ 2 * f.leadingBit := by
  have hlead : f.leadingBit = 2 ^ (f.precision - 1) := rfl
  have hexp : f.precision - 1 + (n.log2 - (f.precision - 1)) =
      n.log2 + (f.precision - 1 - n.log2) := by omega
  have hpow : f.leadingBit * 2 ^ (n.log2 - (f.precision - 1)) =
      2 ^ n.log2 * 2 ^ (f.precision - 1 - n.log2) := by
    rw [hlead, ← Nat.pow_add, hexp, Nat.pow_add]
  have hpos : 0 < 2 ^ (n.log2 - (f.precision - 1)) := Nat.two_pow_pos _
  have hscaled : f.scaled n = roundHalfEven (n * 2 ^ (f.precision - 1 - n.log2))
      (2 ^ (n.log2 - (f.precision - 1))) := rfl
  rw [hscaled]
  constructor
  · refine Nat.le_trans ?_ (div_le_roundHalfEven _ _)
    rw [Nat.le_div_iff_mul_le hpos, hpow]
    exact Nat.mul_le_mul_right _ (Nat.log2_self_le hn)
  · refine Nat.le_trans (roundHalfEven_le _ _) (Nat.succ_le_of_lt ?_)
    rw [Nat.div_lt_iff_lt_mul hpos, Nat.mul_assoc, hpow, ← Nat.mul_assoc, ← Nat.pow_succ']
    exact Nat.mul_lt_mul_of_pos_right Nat.lt_log2_self (Nat.two_pow_pos _)

/-- Rounding natural numbers to a format is monotone, if the format has room for small ones. -/
theorem nearest_mono (hf : f.minExponent + f.precision ≤ 1) (hp : 0 < f.precision) (hmn : m ≤ n) :
    f.nearest m 1 ≤ f.nearest n 1 := by
  by_cases hm : m = 0
  · rw [hm, nearest, if_pos rfl]
    exact Nat.zero_le _
  have hn : n ≠ 0 := fun heq => hm (Nat.le_zero.mp (heq ▸ hmn))
  rw [nearest_one hf hp hm, nearest_one hf hp hn]
  refine Nat.le_min.mpr ⟨Nat.le_trans (Nat.min_le_left _ _) ?_, Nat.min_le_right _ _⟩
  have hlog : m.log2 ≤ n.log2 := by
    rw [Nat.le_log2 hn]
    exact Nat.le_trans (Nat.log2_self_le hm) hmn
  rcases Nat.lt_or_eq_of_le hlog with hlt | heq
  · -- One bit more lifts the pattern by as much as the scaled number may be smaller.
    have hstep :
        (m.log2 + 1 - f.precision - f.minExponent : Int).toNat + 1 ≤
          (n.log2 + 1 - f.precision - f.minExponent : Int).toNat := by
      omega
    have hlift := Nat.mul_le_mul_right f.leadingBit hstep
    rw [Nat.succ_mul] at hlift
    have hm' := (f.scaled_mem hm).2
    have hn' := (f.scaled_mem hn).1
    omega
  · rw [scaled, scaled, heq]
    exact Nat.add_le_add_left (roundHalfEven_mono (Nat.mul_le_mul_right _ hmn)) _

end FloatFormat

/-! ### Conversion of integers -/

namespace Binary64

theorem negative_ofPattern {negative : Bool} {p : Nat} (hp : p < signBit) :
    (ofPattern negative p).negative = negative := by
  rw [signBit] at hp
  cases negative <;>
    simp only [ofPattern, Binary64.negative, signBit, UInt64.toNat_ofNat', Bool.false_eq_true,
      if_false, if_true, decide_eq_true_eq, decide_eq_false_iff_not] <;> omega

theorem rank_ofPattern {negative : Bool} {p : Nat} (hp : p < signBit) :
    (ofPattern negative p).rank = if negative then -(p : Int) else p := by
  rw [rank, negative_ofPattern hp, pattern_ofPattern hp]

theorem nearest_lt_signBit (n d : Nat) : FloatFormat.double.nearest n d < signBit :=
  Nat.lt_of_le_of_lt (FloatFormat.nearest_le_infinity _ n d) (by decide)

/-- The number nearest to an integer is a number. -/
@[simp] theorem isNaN_ofInt (n : Int) : (ofInt n).isNaN = false := by
  rw [ofInt, nearest, isNaN, pattern_ofPattern (nearest_lt_signBit _ _), decide_eq_false_iff_not,
    Nat.not_lt]
  exact FloatFormat.nearest_le_infinity _ _ _

theorem rank_ofInt (n : Int) :
    (ofInt n).rank =
      if n < 0 then -(FloatFormat.double.nearest n.natAbs 1 : Int)
      else FloatFormat.double.nearest n.natAbs 1 := by
  rw [ofInt, nearest, rank_ofPattern (nearest_lt_signBit _ _)]
  simp only [decide_eq_true_eq]

/-- A larger integer has no smaller nearest number. -/
theorem rank_ofInt_mono {m n : Int} (hmn : m ≤ n) : (ofInt m).rank ≤ (ofInt n).rank := by
  have hmono : ∀ {a b : Nat}, a ≤ b →
      FloatFormat.double.nearest a 1 ≤ FloatFormat.double.nearest b 1 :=
    FloatFormat.nearest_mono (by decide) (by decide)
  rw [rank_ofInt, rank_ofInt]
  by_cases hm : m < 0 <;> by_cases hn : n < 0
  · rw [if_pos hm, if_pos hn]
    have := hmono (a := n.natAbs) (b := m.natAbs) (by omega)
    omega
  · rw [if_pos hm, if_neg hn]
    omega
  · omega
  · rw [if_neg hm, if_neg hn]
    have := hmono (a := m.natAbs) (b := n.natAbs) (by omega)
    omega

end Binary64

end DynamicEval
