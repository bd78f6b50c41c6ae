import DynamicEval.Proofs.Eval.Sums
import Mathlib.Data.Int.ModEq

/-!
# Integers modulo 2 ^ 64

Operators read an integer operand of any type as its pattern of 64 bits. Arithmetic takes the
pattern for a signed integer, and its results are those of the integers modulo 2 ^ 64; a quotient is
cut off towards zero. The bitwise operators combine patterns bit by bit, and a shift multiplies or
divides by a power of two, however large its amount is. Nothing but a division by zero fails.

## Main definitions

* `Word.pattern`, `Word.signed`: the pattern of an integer, and the integer that a pattern stands
  for with a sign.
* `BinaryOp.onBit?`: what an operator makes of two bits.

## Main results

* `Value.toInt64_of_toInt?`, `Value.toUInt64_of_toInt?`: how integer operands are read.
* `BinaryOp.onUInt64_eq`: the bitwise operators and the shifts by their patterns.
* `BinaryOp.apply_integers`: the operators on two integers.
-/

namespace DynamicEval

/-! ### Words of 64 bits -/

namespace Word

/-- The pattern of an integer. -/
def pattern (n : Int) : Nat := (n % 2 ^ 64).toNat

/-- The integer that a pattern stands for with a sign. -/
def signed (p : Nat) : Int := if p < 2 ^ 63 then p else p - 2 ^ 64

theorem pattern_lt (n : Int) : pattern n < 2 ^ 64 := by
  rw [pattern]
  omega

/-- An integer is its signed reading up to a multiple of 2 ^ 64. -/
theorem signed_pattern_modEq (n : Int) : signed (pattern n) ≡ n [ZMOD 2 ^ 64] := by
  rw [Int.ModEq, signed, pattern]
  split <;> omega

theorem toInt_ofInt (n : Int) : (Int64.ofInt n).toInt = signed (pattern n) := by
  rw [Int64.toInt_ofInt, signed, pattern, Int64.size, Int.bmod]
  split <;> split <;> omega

theorem toInt_ofInt_modEq (n : Int) : (Int64.ofInt n).toInt ≡ n [ZMOD 2 ^ 64] := by
  rw [toInt_ofInt]
  exact signed_pattern_modEq n

/-- The quotient of signed integers fits but for that of the least one by -1, which is taken for the
least one. -/
theorem toInt_div (a b : Int64) : (a / b).toInt =
    if a.toInt = -2 ^ 63 ∧ b.toInt = -1 then a.toInt else a.toInt.tdiv b.toInt := by
  split
  · next hab =>
    have ha : a = Int64.minValue := Int64.toInt_inj.mp (hab.1.trans Int64.toInt_minValue.symm)
    have hb : b = -1 := Int64.toInt_inj.mp hab.2
    rw [ha, hb, Int64.minValue_div_neg_one]
  · next hab =>
    by_cases ha : a = Int64.minValue
    · refine Int64.toInt_div_of_ne_right a b fun hb => hab ⟨?_, hb ▸ rfl⟩
      rw [ha, Int64.toInt_minValue]
    · exact Int64.toInt_div_of_ne_left a b ha

/-- A quotient and a remainder make up the dividend. -/
theorem toInt_div_mul_add_mod (a b : Int64) :
    (a / b).toInt * b.toInt + (a % b).toInt ≡ a.toInt [ZMOD 2 ^ 64] := by
  rw [toInt_div, Int64.toInt_mod]
  split
  · next hab =>
    rw [hab.1, hab.2, Int.ModEq]
    decide
  · rw [Int.tdiv_mul_add_tmod]

theorem toNat_toUInt64 (n : Int64) : n.toUInt64.toNat = pattern n.toInt := by
  have hbits : n.toInt = (n.toUInt64.toNat : Int).bmod (2 ^ 64) := BitVec.toInt_eq_toNat_bmod _
  have hlt := n.toUInt64.toNat_lt
  rw [Int.bmod] at hbits
  rw [pattern]
  split at hbits <;> omega

theorem pattern_toNat (n : UInt64) : pattern n.toNat = n.toNat := by
  have hlt := n.toNat_lt
  rw [pattern]
  omega

/-- The pattern of an integer as an unsigned one. -/
theorem toNat_ofNat_pattern (n : Int) : (UInt64.ofNat (pattern n)).toNat = pattern n :=
  UInt64.toNat_ofNat_of_lt' (pattern_lt n)

end Word

/-! ### Operands -/

namespace Value

variable {h : Heap} {v : Value} {n : Int}

/-- An integer of any type lies between the least signed and the greatest unsigned one. -/
theorem bounds_of_toInt? (hn : (v.base h).toInt? = some n) : -2 ^ 63 ≤ n ∧ n < 2 ^ 64 := by
  cases hb : v.base h with
  | int width m =>
    rw [hb] at hn
    cases hn
    exact ⟨m.le_toInt, Int.lt_trans m.toInt_lt (by decide)⟩
  | uint width m =>
    rw [hb] at hn
    cases hn
    have hlt := m.toNat_lt
    omega
  | _ => rw [hb] at hn; cases hn

/-- Only zero is read as zero. -/
theorem ofInt_eq_zero_iff (hn : (v.base h).toInt? = some n) : Int64.ofInt n = 0 ↔ n = 0 := by
  obtain ⟨hle, hlt⟩ := bounds_of_toInt? hn
  rw [← Int64.toInt_inj, Word.toInt_ofInt, Word.signed, Word.pattern, Int64.toInt_zero]
  split <;> omega

theorem holdsNumber_of_toInt? (hn : (v.base h).toInt? = some n) : v.holdsNumber h = true := by
  rw [holdsNumber]
  cases hb : v.base h with
  | int width => cases width <;> rfl
  | uint width => cases width <;> rfl
  | _ => rw [hb] at hn; cases hn

theorem isGeneralInt_of_toInt? (hn : (v.base h).toInt? = some n) : v.isGeneralInt h = true := by
  rw [isGeneralInt, baseKind, baseTy_of_holdsNumber (holdsNumber_of_toInt? hn)]
  cases hb : v.base h with
  | int width => cases width <;> rfl
  | uint width => cases width <;> rfl
  | _ => rw [hb] at hn; cases hn

theorem isNumber_of_toInt? (hn : (v.base h).toInt? = some n) : v.isNumber h = true :=
  (holdsNumber_iff.mp (holdsNumber_of_toInt? hn)).1

/-- An integer is read with a sign as its reduction to 64 bits. -/
theorem toInt64_of_toInt? (hn : (v.base h).toInt? = some n) : v.toInt64 h = .ok (.ofInt n) := by
  have hread := IsAddend.toInt64 (isAddend_of_holdsNumber (holdsNumber_of_toInt? hn))
    (isGeneralInt_of_toInt? hn)
  rwa [integerAt, hn] at hread

/-- An integer is read without a sign as its pattern. -/
theorem toUInt64_of_toInt? (hn : (v.base h).toInt? = some n) :
    v.toUInt64 h = .ok (.ofNat (Word.pattern n)) := by
  have hnil : ¬v.peel.isNil = true := by
    intro hnil
    rw [← base_peel, base_of_isNil hnil] at hn
    cases hn
  have hconvert : (v.base h).asUInt64? = some (.ofNat (Word.pattern n)) := by
    cases hb : v.base h with
    | int width m =>
      rw [hb] at hn
      cases hn
      rw [← Word.toNat_toUInt64, UInt64.ofNat_toNat]
      rfl
    | uint width m =>
      rw [hb] at hn
      cases hn
      rw [Word.pattern_toNat, UInt64.ofNat_toNat]
      rfl
    | _ => rw [hb] at hn; cases hn
  rw [toUInt64_eq, readAs, if_neg hnil, hconvert]

end Value

/-! ### Operators -/

namespace BinaryOp

/-- The operation on integers that an operator stands for up to multiples of 2 ^ 64. -/
def onInt? : BinaryOp → Option (Int → Int → Int)
  | add => some fun m n => m + n
  | sub => some fun m n => m - n
  | mul => some fun m n => m * n
  | _ => none

/-- What an operator that works bit by bit makes of two bits. -/
def onBit? : BinaryOp → Option (Bool → Bool → Bool)
  | bitAnd => some fun a b => a && b
  | bitOr => some fun a b => a || b
  | bitXor => some fun a b => a ^^ b
  | andNot => some fun a b => a && !b
  | _ => none

variable {h : Heap} {x y : Value} {X Y : Int} {op : BinaryOp}

/-- On integers an arithmetic operator reads both operands with a sign. -/
theorem arithmetic_integers (op : BinaryOp) (hx : (x.base h).toInt? = some X)
    (hy : (y.base h).toInt? = some Y) : op.arithmetic x y h =
      (op.onInt64 (op.invalid x y) (.ofInt X) (.ofInt Y)).map (.int .bits64) := by
  have hxnum := Value.isNumber_of_toInt? hx
  have hynum := Value.isNumber_of_toInt? hy
  rw [arithmetic, Value.isString_of_isNumber hxnum, Value.isString_of_isNumber hynum,
    Bool.or_false, Bool.and_false, if_neg Bool.false_ne_true]
  dsimp only
  rw [hxnum, hynum, Bool.not_true, Bool.or_self, if_neg Bool.false_ne_true,
    Value.isGeneralInt_of_toInt? hx, Value.isGeneralInt_of_toInt? hy, Bool.and_self, if_pos rfl,
    Value.toInt64_of_toInt? hx, Value.toInt64_of_toInt? hy]
  show Except.bind (op.onInt64 _ _ _) _ = _
  cases op.onInt64 (op.invalid x y) (.ofInt X) (.ofInt Y) <;> rfl

/-- On integers a bitwise operator reads the patterns of both operands. -/
theorem bitwise_integers (op : BinaryOp) (hx : (x.base h).toInt? = some X)
    (hy : (y.base h).toInt? = some Y) : op.bitwise x y h =
      (op.onUInt64 (op.invalid x y) (.ofNat (Word.pattern X)) (.ofNat (Word.pattern Y))).map
        (.uint .bits64) := by
  rw [bitwise, Value.isGeneralInt_of_toInt? hx, Value.isGeneralInt_of_toInt? hy, Bool.not_true,
    Bool.or_self, if_neg Bool.false_ne_true]
  dsimp only
  rw [Value.toUInt64_of_toInt? hx, Value.toUInt64_of_toInt? hy]
  show Except.bind (op.onUInt64 _ _ _) _ = _
  cases op.onUInt64 (op.invalid x y) (.ofNat (Word.pattern X)) (.ofNat (Word.pattern Y)) <;> rfl

/-- Sums, differences and products are those of the integers up to multiples of 2 ^ 64. -/
theorem exists_apply_of_onInt? {f : Int → Int → Int} (hf : op.onInt? = some f)
    (hx : (x.base h).toInt? = some X) (hy : (y.base h).toInt? = some Y) :
    ∃ n : Int64, op.apply x y h = .ok (.int .bits64 n) ∧ n.toInt ≡ f X Y [ZMOD 2 ^ 64] := by
  refine ⟨.ofInt (f X Y), ?_, Word.toInt_ofInt_modEq _⟩
  have happly : op.apply x y h = op.arithmetic x y h := by
    cases op <;> first | rfl | cases hf
  rw [happly, arithmetic_integers op hx hy]
  cases op with
  | add =>
    cases hf
    rw [Int64.ofInt_add]
    rfl
  | sub =>
    cases hf
    rw [Int64.ofInt_sub]
    rfl
  | mul =>
    cases hf
    rw [Int64.ofInt_mul]
    rfl
  | _ => cases hf

/-- An operator that works bit by bit on patterns. -/
theorem exists_onUInt64_of_onBit? {f : Bool → Bool → Bool} (hf : op.onBit? = some f)
    (err : Error) (a b : UInt64) : ∃ n, op.onUInt64 err a b = .ok n ∧
      ∀ i, n.toNat.testBit i = f (a.toNat.testBit i) (b.toNat.testBit i) := by
  have hbit (c : UInt64) (i : Nat) : c.toNat.testBit i = c.toBitVec.getLsbD i :=
    BitVec.testBit_toNat _
  cases op with
  | bitAnd | bitOr | bitXor =>
    cases hf
    exact ⟨_, rfl, fun i => by simp [hbit]⟩
  | andNot =>
    cases hf
    refine ⟨a &&& ~~~b, rfl, fun i => ?_⟩
    simp only [hbit, UInt64.toBitVec_and, UInt64.toBitVec_not, BitVec.getLsbD_and,
      BitVec.getLsbD_not]
    by_cases hi : i < 64
    · simp [hi]
    · -- Beyond the width the first operand has no bits.
      simp [BitVec.getLsbD_of_ge _ _ (Nat.not_lt.mp hi)]
  | _ => cases hf

/-- A shift to the left multiplies by a power of two, and one to the right divides by it. -/
theorem onUInt64_shift (err : Error) (a b : UInt64) :
    (∃ n, shl.onUInt64 err a b = .ok n ∧ n.toNat = a.toNat * 2 ^ b.toNat % 2 ^ 64) ∧
      ∃ n, shr.onUInt64 err a b = .ok n ∧ n.toNat = a.toNat / 2 ^ b.toNat := by
  rw [onUInt64, onUInt64]
  by_cases hb : b < 64
  · have hmod : b.toNat % 64 = b.toNat := Nat.mod_eq_of_lt hb
    rw [if_pos hb, if_pos hb]
    refine ⟨⟨_, rfl, ?_⟩, ⟨_, rfl, ?_⟩⟩
    · rw [UInt64.toNat_shiftLeft, hmod, Nat.shiftLeft_eq]
    · rw [UInt64.toNat_shiftRight, hmod, Nat.shiftRight_eq_div_pow]
  · have hle : 64 ≤ b.toNat := Nat.not_lt.mp hb
    rw [if_neg hb, if_neg hb]
    refine ⟨⟨_, rfl, ?_⟩, ⟨_, rfl, ?_⟩⟩
    · have hdvd : 2 ^ 64 ∣ a.toNat * 2 ^ b.toNat := (pow_dvd_pow 2 hle).mul_left _
      rw [Nat.mod_eq_zero_of_dvd hdvd]
      rfl
    · have hlt : a.toNat < 2 ^ b.toNat :=
        Nat.lt_of_lt_of_le a.toNat_lt (Nat.pow_le_pow_right (by decide) hle)
      rw [Nat.div_eq_of_lt hlt]
      rfl

/-- An operator on patterns is one on integers of any type. -/
theorem exists_apply_of_isBitwise (hop : op.isBitwise = true) (hx : (x.base h).toInt? = some X)
    (hy : (y.base h).toInt? = some Y) {P : UInt64 → Prop}
    (hn : ∃ n, op.onUInt64 (op.invalid x y) (.ofNat (Word.pattern X)) (.ofNat (Word.pattern Y)) =
      .ok n ∧ P n) : ∃ n, op.apply x y h = .ok (.uint .bits64 n) ∧ P n := by
  obtain ⟨n, hn, hP⟩ := hn
  have happly : op.apply x y h = op.bitwise x y h := by
    cases op <;> first | rfl | cases hop
  exact ⟨n, by rw [happly, bitwise_integers op hx hy, hn]; rfl, hP⟩

/-- A division by an integer fails if that is zero. -/
theorem apply_div_rem_eq_error_iff (hx : (x.base h).toInt? = some X)
    (hy : (y.base h).toInt? = some Y) : (div.apply x y h = .error .divisionByZero ↔ Y = 0) ∧
      (rem.apply x y h = .error .divisionByZero ↔ Y = 0) := by
  have happly (op : BinaryOp) (hop : op.apply x y h = op.arithmetic x y h) := hop.trans
    (arithmetic_integers op hx hy)
  rw [happly div rfl, happly rem rfl, ← Value.ofInt_eq_zero_iff hy, onInt64, onInt64]
  split
  · next hzero => exact ⟨iff_of_true rfl hzero, iff_of_true rfl hzero⟩
  · next hne => exact ⟨iff_of_false nofun hne, iff_of_false nofun hne⟩

/-- An operator that works bit by bit on integers of any type works on their patterns. -/
theorem exists_apply_of_onBit? (op : BinaryOp) {f : Bool → Bool → Bool}
    (hf : op.onBit? = some f) (hx : (x.base h).toInt? = some X)
    (hy : (y.base h).toInt? = some Y) :
    ∃ n : UInt64, op.apply x y h = .ok (.uint .bits64 n) ∧ ∀ i, n.toNat.testBit i =
      f ((Word.pattern X).testBit i) ((Word.pattern Y).testBit i) := by
  have hop : op.isBitwise = true := by
    cases op <;> first | rfl | cases hf
  refine exists_apply_of_isBitwise hop hx hy ?_
  have hbits := exists_onUInt64_of_onBit? hf (op.invalid x y) (.ofNat (Word.pattern X))
    (.ofNat (Word.pattern Y))
  rwa [Word.toNat_ofNat_pattern, Word.toNat_ofNat_pattern] at hbits

/-- The bits of the first operand that the second one has, together with those that it lacks, are
all bits of the first operand. -/
theorem exists_apply_and_andNot (hx : (x.base h).toInt? = some X)
    (hy : (y.base h).toInt? = some Y) : ∃ u v, bitAnd.apply x y h = .ok u ∧
      andNot.apply x y h = .ok v ∧
      bitOr.apply u v h = .ok (.uint .bits64 (.ofNat (Word.pattern X))) := by
  obtain ⟨m, hm, hmbits⟩ := exists_apply_of_onBit? bitAnd rfl hx hy
  obtain ⟨n, hn, hnbits⟩ := exists_apply_of_onBit? andNot rfl hx hy
  have hword (c : UInt64) : ((Value.uint .bits64 c).base h).toInt? = some (c.toNat : Int) := by
    rw [Value.base, Heap.follow_eq_of_step fun _ => rfl]
    rfl
  obtain ⟨c, hc, hcbits⟩ := exists_apply_of_onBit? bitOr rfl (hword m) (hword n)
  have hpattern : c = .ofNat (Word.pattern X) := by
    rw [← UInt64.toNat_inj, Word.toNat_ofNat_pattern]
    refine Nat.eq_of_testBit_eq fun i => ?_
    rw [hcbits, Word.pattern_toNat, Word.pattern_toNat, hmbits, hnbits]
    cases (Word.pattern X).testBit i <;> cases (Word.pattern Y).testBit i <;> rfl
  exact ⟨_, _, hm, hn, hpattern ▸ hc⟩

/-- A shift of an integer of any type shifts its pattern by the pattern of the amount. -/
theorem exists_apply_shift (hx : (x.base h).toInt? = some X) (hy : (y.base h).toInt? = some Y) :
    (∃ n : UInt64, shl.apply x y h = .ok (.uint .bits64 n) ∧
      n.toNat = Word.pattern X * 2 ^ Word.pattern Y % 2 ^ 64) ∧
    ∃ n : UInt64, shr.apply x y h = .ok (.uint .bits64 n) ∧
      n.toNat = Word.pattern X / 2 ^ Word.pattern Y := by
  have hshl := (onUInt64_shift (shl.invalid x y) (.ofNat (Word.pattern X))
    (.ofNat (Word.pattern Y))).1
  have hshr := (onUInt64_shift (shr.invalid x y) (.ofNat (Word.pattern X))
    (.ofNat (Word.pattern Y))).2
  rw [Word.toNat_ofNat_pattern, Word.toNat_ofNat_pattern] at hshl hshr
  exact ⟨exists_apply_of_isBitwise rfl hx hy hshl, exists_apply_of_isBitwise rfl hx hy hshr⟩

/-- Quotients are cut off towards zero, and remainders go with them. The quotient of the least
integer by -1 does not fit and stays the least integer. -/
theorem exists_apply_div_rem (hx : (x.base h).toInt? = some X) (hy : (y.base h).toInt? = some Y)
    (hY : Y ≠ 0) : ∃ q r : Int64, div.apply x y h = .ok (.int .bits64 q) ∧
      rem.apply x y h = .ok (.int .bits64 r) ∧
      let a := Word.signed (Word.pattern X)
      let b := Word.signed (Word.pattern Y)
      q.toInt = (if a = -2 ^ 63 ∧ b = -1 then a else a.tdiv b) ∧ r.toInt = a.tmod b ∧
        q.toInt * b + r.toInt ≡ a [ZMOD 2 ^ 64] := by
  have hne : Int64.ofInt Y ≠ 0 := fun hzero => hY ((Value.ofInt_eq_zero_iff hy).mp hzero)
  have happly (op : BinaryOp) (hop : op.apply x y h = op.arithmetic x y h) := hop.trans
    (arithmetic_integers op hx hy)
  refine ⟨.ofInt X / .ofInt Y, .ofInt X % .ofInt Y, ?_, ?_, ?_⟩
  · rw [happly div rfl, onInt64, if_neg hne]
    rfl
  · rw [happly rem rfl, onInt64, if_neg hne]
    rfl
  · rw [← Word.toInt_ofInt, ← Word.toInt_ofInt]
    exact ⟨Word.toInt_div _ _, Int64.toInt_mod _ _, Word.toInt_div_mul_add_mod _ _⟩

end BinaryOp

/-! ### Operators in trees -/

section Trees

variable {host : Host} {ctx : Context} {S : World → Prop} {h : Heap} {x y : Value} {op : BinaryOp}

/-- On operands that are no texts a tree ends as its operator does, unless that is a disjunction,
which may do without its right operand. -/
theorem Expr.eval_binary_ends {l r : Expr} (hop : op ≠ .or) (hS : ∀ w, S w → w.heap = h)
    (hl : (l.eval host ctx).Yields S x) (hr : (r.eval host ctx).Yields S y)
    (hx : x.isString h = false) (hy : y.isString h = false) :
    ((binary op l r).eval host ctx).Ends S (op.apply x y h) := by
  rw [Action.Ends]
  simp only [run_eval_eq_meaning]
  rw [yields_eval_iff] at hl hr
  have hbinary : (op == .or) = false := beq_eq_false_iff_ne.mpr hop
  have hsum : (sumFor (l.meaning host ctx) (r.meaning host ctx)).Ends S
      (BinaryOp.add.apply x y h) := by
    refine .bind hl (.heap_bind hS ?_)
    rw [hx, if_neg nofun]
    refine .bind hr (.heap_bind hS ?_)
    rw [hy, if_neg nofun]
    exact binaryOn_ends hS
  have hother : (binaryFor op ((l.meaning host ctx).value .property)
      ((r.meaning host ctx).value .property)).Ends S (op.apply x y h) := by
    refine .bind hl (.heap_bind hS ?_)
    rw [hbinary, Bool.false_and, if_neg nofun]
    exact .bind hr (binaryOn_ends hS)
  cases op with
  | add => exact hsum
  | _ => exact hother

end Trees

/-! ### The laws -/

namespace BinaryOp

variable {h : Heap} {x y : Value} {X Y : Int}

/-- Operators on two integers of any types, at the base of their operands, in terms of the integers
and of their patterns of 64 bits. Sums, differences and products are signed integers and exact
modulo 2 ^ 64. Quotients and remainders fail for zero only; otherwise they are those of the signed
readings, and make up the dividend modulo 2 ^ 64. The bitwise operators give unsigned integers, bit
by bit, and the shifts multiply and divide by powers of two whatever the amount is. In a tree the
operators do the same to what its operands evaluate to. -/
theorem apply_integers (hx : (x.base h).toInt? = some X) (hy : (y.base h).toInt? = some Y) :
    let p := Word.pattern X
    let k := Word.pattern Y
    let a := Word.signed p
    let b := Word.signed k
    (∀ op f, onInt? op = some f → ∃ n : Int64, op.apply x y h = .ok (.int .bits64 n) ∧
      n.toInt ≡ f X Y [ZMOD 2 ^ 64]) ∧
    (div.apply x y h = .error .divisionByZero ↔ Y = 0) ∧
    (rem.apply x y h = .error .divisionByZero ↔ Y = 0) ∧
    (Y ≠ 0 → ∃ q r : Int64, div.apply x y h = .ok (.int .bits64 q) ∧
      rem.apply x y h = .ok (.int .bits64 r) ∧
      q.toInt = (if a = -2 ^ 63 ∧ b = -1 then a else a.tdiv b) ∧ r.toInt = a.tmod b ∧
      q.toInt * b + r.toInt ≡ a [ZMOD 2 ^ 64]) ∧
    (∀ op f, onBit? op = some f → ∃ n : UInt64, op.apply x y h = .ok (.uint .bits64 n) ∧
      ∀ i, n.toNat.testBit i = f (p.testBit i) (k.testBit i)) ∧
    (∃ u v, bitAnd.apply x y h = .ok u ∧ andNot.apply x y h = .ok v ∧
      bitOr.apply u v h = .ok (.uint .bits64 (.ofNat p))) ∧
    (∃ n : UInt64, shl.apply x y h = .ok (.uint .bits64 n) ∧ n.toNat = p * 2 ^ k % 2 ^ 64) ∧
    (∃ n : UInt64, shr.apply x y h = .ok (.uint .bits64 n) ∧ n.toNat = p / 2 ^ k) ∧
    ∀ {host : Host} {ctx : Context} {S : World → Prop} {op : BinaryOp} {l r : Expr}, op ≠ .or →
      (∀ w, S w → w.heap = h) → (l.eval host ctx).Yields S x → (r.eval host ctx).Yields S y →
        ((Expr.binary op l r).eval host ctx).Ends S (op.apply x y h) := by
  obtain ⟨hdiv, hrem⟩ := apply_div_rem_eq_error_iff hx hy
  obtain ⟨hshl, hshr⟩ := exists_apply_shift hx hy
  have hstring {v : Value} {n : Int} (hv : (v.base h).toInt? = some n) : v.isString h = false :=
    Value.isString_of_isNumber (Value.isNumber_of_toInt? hv)
  exact ⟨fun op f hf => exists_apply_of_onInt? hf hx hy, hdiv, hrem, exists_apply_div_rem hx hy,
    fun op f hf => exists_apply_of_onBit? op hf hx hy, exists_apply_and_andNot hx hy, hshl, hshr,
    fun hop hS hl hr => Expr.eval_binary_ends hop hS hl hr (hstring hx) (hstring hy)⟩

/-- The least signed integer, behind a pointer in a slot, is divided by -1 and shifted by 64. -/
theorem apply_integers_least :
    let h := (Heap.empty.alloc (.int .bits64 Int64.minValue)).1
    let x := Value.slot (.pointer (.int .bits64) (some 0))
    let y := Value.int .bits8 (-1)
    let z := Value.uint .bits16 64
    ((x.base h).toInt? = some (-2 ^ 63) ∧ (y.base h).toInt? = some (-1) ∧
      (z.base h).toInt? = some 64) ∧
      div.apply x y h = .ok (.int .bits64 Int64.minValue) ∧
      rem.apply x y h = .ok (.int .bits64 0) ∧ shl.apply x z h = .ok (.uint .bits64 0) := by
  intro h x y z
  have hx : (x.base h).toInt? = some (-2 ^ 63) := by decide
  have hy : (y.base h).toInt? = some (-1) := by decide
  have hz : (z.base h).toInt? = some 64 := by decide
  obtain ⟨-, -, -, hdivide, -⟩ := apply_integers hx hy
  obtain ⟨q, r, hdiv, hrem, hq, hr, -⟩ := hdivide (by decide)
  have hq : q = Int64.minValue := Int64.toInt_inj.mp (hq.trans (by decide))
  have hr : r = 0 := Int64.toInt_inj.mp (hr.trans (by decide))
  obtain ⟨-, -, -, -, -, -, ⟨n, hshl, hn⟩, -⟩ := apply_integers hx hz
  have hn : n = 0 := UInt64.toNat_inj.mp (hn.trans (by decide))
  exact ⟨⟨hx, hy, hz⟩, hq ▸ hdiv, hr ▸ hrem, hn ▸ hshl⟩

end BinaryOp

end DynamicEval
