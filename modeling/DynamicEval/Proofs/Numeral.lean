import DynamicEval.Proofs.Numeral.Digits
import DynamicEval.Token.Lexer
import Mathlib.Data.List.Basic
import Mathlib.Data.List.TakeWhile

/-!
# Numerals

A numeral spells a natural number by digits in base ten, or in another base behind the base prefix,
and an integer behind a sign. It is read as the number that it spells: the sign is found first, then
the base prefix, and all that is left are the digits. The first base prefix is the one at the head,
even if hexadecimal digits behind it look like another one.

## Main definitions

* `Numeral.split`: the base of a numeral and the digits behind its base prefix.
* `Numeral.Denotes`, `Numeral.DenotesInt`: the numerals of natural numbers and of integers.
* `decimal?`: the integer that a decimal numeral spells.

## Main results

* `readInt_of_denotesInt`: a numeral is read as the integer that it spells.
* `readInt_of_decimal`: a decimal numeral is read as the integer that it spells.
* `Numeral.denotesInt_toString`: an integer is shown by a numeral of it.
* `exists_digits`: an integer is read from the figures that it is shown by.
-/

namespace DynamicEval

open Lexer (literalBase?)

variable {n : Nat} {cs ds r : List Char}

/-! ### Numerals -/

namespace Numeral

/-- The base of a numeral and the digits of it: behind a zero and a letter that selects a base all
that is left, in base ten everything. -/
def split : List Char → Nat × List Char
  | '0' :: c :: cs =>
    match literalBase? c with
    | some base => (base, cs)
    | none => (10, '0' :: c :: cs)
  | cs => (10, cs)

/-- The text `cs` is a numeral of the natural number `n`. -/
def Denotes (cs : List Char) (n : Nat) : Prop :=
  Digits (split cs).1 (split cs).2 n

/-- The text is a numeral of an integer: of a natural number without a sign or behind a plus sign,
and of the opposite of one behind a minus sign. -/
inductive DenotesInt : List Char → Int → Prop
  | bare {cs : List Char} {n : Nat} (h : Denotes cs n) : DenotesInt cs n
  | plus {cs : List Char} {n : Nat} (h : Denotes cs n) : DenotesInt ('+' :: cs) n
  | minus {cs : List Char} {n : Nat} (h : Denotes cs n) : DenotesInt ('-' :: cs) (-n)

theorem literalBase?_cases {c : Char} {base : Nat} (h : literalBase? c = some base) :
    base ≤ 16 ∧ c.isAlpha = true := by
  unfold literalBase? at h
  split at h <;> cases h <;> decide

theorem literalBase?_of_isDigit {c : Char} (hc : c.isDigit = true) : literalBase? c = none := by
  unfold literalBase?
  split <;> first | rfl | cases hc

/-- A text is in base ten, or it is a base prefix and what is behind it. -/
theorem split_cases (cs : List Char) :
    split cs = (10, cs) ∨ ∃ c base ds, literalBase? c = some base ∧ cs = '0' :: c :: ds ∧
      split cs = (base, ds) := by
  unfold split
  split
  · next c ds =>
    cases hc : literalBase? c with
    | some base => exact .inr ⟨c, base, ds, hc, rfl, rfl⟩
    | none => exact .inl rfl
  · exact .inl rfl

theorem split_le (cs : List Char) : (split cs).1 ≤ 16 := by
  rcases split_cases cs with h | ⟨c, base, ds, hc, -, h⟩
  · exact h ▸ (by decide : 10 ≤ 16)
  · exact h ▸ (literalBase?_cases hc).1

theorem split_of_isDigit (hcs : ∀ c ∈ cs, c.isDigit = true) : split cs = (10, cs) := by
  rcases split_cases cs with h | ⟨c, base, ds, hc, rfl, -⟩
  · exact h
  · rw [literalBase?_of_isDigit (hcs c (List.mem_cons_of_mem _ List.mem_cons_self))] at hc
    cases hc

theorem Denotes.isAlphanum (h : Denotes cs n) : ∀ c ∈ cs, c.isAlphanum = true := by
  have hdigits : ∀ c ∈ (split cs).2, c.isAlphanum = true := fun c hc =>
    (Bool.and_eq_true_iff.mp (h.isDigitOf (split_le cs) c hc)).1
  rcases split_cases cs with hs | ⟨c, base, ds, hc, rfl, hs⟩
  · rwa [hs] at hdigits
  · rw [hs] at hdigits
    refine List.forall_mem_cons.mpr ⟨rfl, List.forall_mem_cons.mpr ⟨?_, hdigits⟩⟩
    rw [Char.isAlphanum, (literalBase?_cases hc).2, Bool.true_or]

/-- Signs do not stand in numerals of natural numbers. -/
theorem Denotes.not_mem (h : Denotes cs n) {c : Char} (hc : c.isAlphanum = false) : c ∉ cs := by
  intro hmem
  rw [h.isAlphanum c hmem] at hc
  cases hc

end Numeral

/-! ### Letters of either case -/

/-- A lower case that comes before the letters is the character itself. -/
theorem toLower_eq_self_of_toLower_lt {c : Char} (hc : c.toLower.toNat < 'A'.toNat) :
    c.toLower = c := by
  by_cases hlt : c.toNat < 128
  · exact of_ascii (p := fun c => c.toLower.toNat < 'A'.toNat → c.toLower = c) (by decide +kernel)
      hlt hc
  · exact toLower_eq_self (.inr (Nat.lt_of_lt_of_le (by decide) (Nat.le_of_not_lt hlt)))

/-- Lower case neither makes nor removes a character that comes before the letters. -/
theorem mem_map_toLower {c : Char} (hc : c.toNat < 'A'.toNat) :
    c ∈ cs.map Char.toLower ↔ c ∈ cs := by
  constructor
  · intro hmem
    obtain ⟨d, hd, rfl⟩ := List.mem_map.mp hmem
    rwa [toLower_eq_self_of_toLower_lt hc]
  · exact fun hmem => List.mem_map.mpr ⟨c, hmem, toLower_eq_self (.inl hc)⟩

/-- Figures have no other case. -/
theorem map_toLower_of_isDigit (hcs : ∀ c ∈ cs, c.isDigit = true) :
    cs.map Char.toLower = cs := by
  refine (List.map_congr_left fun c hc => toLower_eq_self (.inl ?_)).trans (List.map_id cs)
  exact Nat.lt_of_le_of_lt (Char.isDigit_iff_toNat.mp (hcs c hc)).2 (by decide)

namespace NumberParts

/-- The letters that select a base are found in either case. -/
theorem baseOfLetter?_toLower (c : Char) : baseOfLetter? c.toLower = literalBase? c := by
  by_cases hlt : c.toNat < 128
  · exact of_ascii (p := fun c => baseOfLetter? c.toLower = literalBase? c) (by decide +kernel) hlt
  · rw [toLower_eq_self (.inr (Nat.lt_of_lt_of_le (by decide) (Nat.le_of_not_lt hlt)))]
    have hleft : baseOfLetter? c = none := by
      unfold baseOfLetter?
      split <;> first | rfl | exact absurd (by decide) hlt
    have hright : literalBase? c = none := by
      unfold literalBase?
      split <;> first | rfl | exact absurd (by decide) hlt
    rw [hleft, hright]

/-! ### Figures -/

theorem digitValue_of_isDigit {c : Char} (hc : c.isDigit = true) :
    digitValue c = c.toNat - '0'.toNat := if_pos hc

/-- The digits of base ten are the figures. -/
theorem isDigitOf_ten (c : Char) : isDigitOf 10 c = c.isDigit := by
  rw [isDigitOf]
  cases hc : c.isDigit with
  | true =>
    have hle : c.toNat ≤ 57 := (Char.isDigit_iff_toNat.mp hc).2
    have h0 : '0'.toNat = 48 := rfl
    rw [digitValue_of_isDigit hc, Char.isAlphanum, hc, Bool.or_true, Bool.true_and,
      decide_eq_true_eq]
    omega
  | false =>
    -- The letters have the values from ten on.
    have halpha : c.isAlpha = (c.isUpper || c.isLower) := rfl
    rw [digitValue, if_neg (Bool.eq_false_iff.mp hc), Char.isAlphanum, hc, Bool.or_false, halpha]
    cases c.isLower <;> cases c.isUpper <;> simp

/-! ### Signs -/

theorem behind?_append {c : Char} (hc : c ∉ ds) (r : List Char) :
    behind? c (ds ++ r) = behind? c r := by
  induction ds with
  | nil => rfl
  | cons d ds ih =>
    rw [List.mem_cons, not_or] at hc
    rw [List.cons_append, behind?, if_neg fun heq => hc.1 (eq_of_beq heq).symm, ih hc.2]

theorem behind?_of_not_mem {c : Char} (hc : c ∉ cs) : behind? c cs = none := by
  rw [← List.append_nil cs, behind?_append hc]
  rfl

/-- The parts of a text without a sign, in lower case. -/
def ofUnsigned (negative : Bool) (cs : List Char) : NumberParts :=
  match splitBase? cs with
  | some (base, cs) => digits negative base cs
  | none => digits negative 10 cs

theorem ofChars_of_not_mem (hplus : '+' ∉ cs) (hminus : '-' ∉ cs) :
    ofChars cs = ofUnsigned false (cs.map Char.toLower) := by
  rw [← mem_map_toLower (by decide)] at hplus hminus
  simp only [ofChars, behind?_of_not_mem hplus, behind?_of_not_mem hminus, Option.getD_none,
    Option.isSome_none]
  rfl

theorem ofChars_plus (hminus : '-' ∉ cs) :
    ofChars ('+' :: cs) = ofUnsigned false (cs.map Char.toLower) := by
  rw [← mem_map_toLower (by decide)] at hminus
  have hplus : behind? '+' ('+' :: cs.map Char.toLower) = some (cs.map Char.toLower) := rfl
  simp only [ofChars, List.map_cons, show '+'.toLower = '+' from rfl, hplus, Option.getD_some,
    behind?_of_not_mem hminus, Option.getD_none, Option.isSome_none]
  rfl

theorem ofChars_minus (hplus : '+' ∉ cs) :
    ofChars ('-' :: cs) = ofUnsigned true (cs.map Char.toLower) := by
  rw [← mem_map_toLower (by decide)] at hplus
  have hnone : behind? '+' ('-' :: cs.map Char.toLower) = none :=
    behind?_of_not_mem (List.not_mem_cons_of_ne_of_not_mem (by decide) hplus)
  have hminus : behind? '-' ('-' :: cs.map Char.toLower) = some (cs.map Char.toLower) := rfl
  simp only [ofChars, List.map_cons, show '-'.toLower = '-' from rfl, hnone, hminus,
    Option.getD_none, Option.getD_some, Option.isSome_some]
  rfl

/-- A point at the head of a text is skipped like everything before the first digit. -/
theorem ofChars_point (cs : List Char) : ofChars ('.' :: cs) = ofChars cs := by
  have hplus : behind? '+' ('.' :: cs.map Char.toLower) = behind? '+' (cs.map Char.toLower) := rfl
  have hminus : behind? '-' ('.' :: cs.map Char.toLower) = behind? '-' (cs.map Char.toLower) := rfl
  have hpoint : '.'.toLower = '.' := rfl
  simp only [ofChars, List.map_cons, hpoint, hplus]
  cases behind? '+' (cs.map Char.toLower) with
  | some rest => rfl
  | none =>
    simp only [Option.getD_none, hminus]
    cases behind? '-' (cs.map Char.toLower) with
    | some rest => rfl
    | none =>
      have hbase : splitBase? ('.' :: cs.map Char.toLower) = splitBase? (cs.map Char.toLower) := by
        simp [splitBase?]
      simp only [Option.getD_none, hbase]
      cases splitBase? (cs.map Char.toLower) <;> rfl

/-! ### Base prefixes and digits -/

theorem baseOfLetter?_of_isDigit {c : Char} (hc : c.isDigit = true) : baseOfLetter? c = none := by
  unfold baseOfLetter?
  split <;> first | rfl | cases hc

/-- A base prefix is not found at a character that no letter for a base follows. -/
theorem splitBase?_cons (hcs : ∀ d, cs.head? = some d → baseOfLetter? d = none) (c : Char) :
    splitBase? (c :: cs) = splitBase? cs := by
  cases cs with
  | nil => simp [splitBase?]
  | cons d cs =>
    by_cases hc : c = '0'
    · simp [hc, splitBase?, hcs d rfl]
    · simp [hc, splitBase?]

/-- No base prefix is found among figures, nor where they end. -/
theorem splitBase?_append (hds : ∀ d ∈ ds, d.isDigit = true)
    (hr : ∀ c, r.head? = some c → baseOfLetter? c = none) :
    splitBase? (ds ++ r) = splitBase? r := by
  induction ds with
  | nil => rfl
  | cons d ds ih =>
    obtain ⟨-, hds⟩ := List.forall_mem_cons.mp hds
    rw [List.cons_append, splitBase?_cons, ih hds]
    cases ds with
    | nil => exact hr
    | cons e ds =>
      intro c hc
      exact Option.some.inj hc ▸ baseOfLetter?_of_isDigit (hds e List.mem_cons_self)

/-- A run of digits at the head of a text is all that is read if no further digit and no point
follows. -/
theorem digits_append {base : Nat} (hne : ds ≠ []) (hds : ∀ d ∈ ds, isDigitOf base d = true)
    (hr : ∀ c, r.head? = some c → isDigitOf base c = false ∧ c ≠ '.') (negative : Bool) :
    digits negative base (ds ++ r) = { negative, base, integer := ds, fraction := [] } := by
  have hskip : (ds ++ r).dropWhile (fun c => !isDigitOf base c) = ds ++ r := by
    obtain ⟨d, ds, rfl⟩ := List.exists_cons_of_ne_nil hne
    rw [List.cons_append, List.dropWhile_cons, hds d List.mem_cons_self, if_neg nofun]
  have htake : (ds ++ r).takeWhile (isDigitOf base) = ds := by
    rw [List.takeWhile_append_of_pos hds]
    cases r with
    | nil => rw [List.takeWhile_nil, List.append_nil]
    | cons c r => rw [List.takeWhile_cons, (hr c rfl).1, if_neg nofun, List.append_nil]
  have hdrop : (ds ++ r).dropWhile (isDigitOf base) = r := by
    rw [List.dropWhile_append_of_pos hds]
    cases r with
    | nil => rfl
    | cons c r => rw [List.dropWhile_cons, (hr c rfl).1, if_neg nofun]
  have hpoint : r.head? ≠ some '.' := fun heq => (hr '.' heq).2 rfl
  simp only [digits, hskip, htake, hdrop]
  split
  · exact absurd rfl hpoint
  · rfl

/-! ### Numerals -/

open Numeral

/-- The base prefix at the head of a numeral is found, and all that is behind it is read. -/
theorem ofUnsigned_of_denotes (h : Denotes cs n) (negative : Bool) :
    ofUnsigned negative (cs.map Char.toLower) =
      { negative, base := (split cs).1, integer := (split cs).2.map Char.toLower
        fraction := [] } := by
  have hlower := h.map_toLower (split_le cs)
  have hdigits :=
    digits_append (r := []) hlower.ne_nil (hlower.isDigitOf (split_le cs)) nofun negative
  rw [List.append_nil] at hdigits
  rcases split_cases cs with hs | ⟨c, base, ds, hc, rfl, hs⟩
  · rw [hs] at hlower hdigits ⊢
    have hfigures : ∀ d ∈ cs.map Char.toLower, d.isDigit = true := fun d hd =>
      (isDigitOf_ten d).symm.trans (hlower.isDigitOf (by decide : 10 ≤ 16) d hd)
    have hnone := splitBase?_append (r := []) hfigures nofun
    rw [List.append_nil] at hnone
    rw [ofUnsigned, hnone]
    exact hdigits
  · rw [hs] at hdigits ⊢
    have hbase : splitBase? (('0' :: c :: ds).map Char.toLower) =
        some (base, ds.map Char.toLower) := by
      simp [splitBase?, baseOfLetter?_toLower, hc]
    rw [ofUnsigned, hbase]
    exact hdigits

theorem toInt64_of_denotes (h : Denotes cs n) (negative : Bool) :
    (ofUnsigned negative (cs.map Char.toLower)).toInt64 = .ofInt (if negative then -n else n) := by
  rw [ofUnsigned_of_denotes h, toInt64, (h.map_toLower (split_le cs)).value_eq (split_le cs)]

end NumberParts

open NumberParts Numeral in
/-- **A numeral is read as the integer that it spells**, reduced to 64 bits. -/
theorem readInt_of_denotesInt {n : Int} (h : DenotesInt cs n) :
    readInt (String.ofList cs) = .ofInt n := by
  rw [readInt, String.toList_ofList]
  cases h with
  | bare h =>
    rw [ofChars_of_not_mem (h.not_mem rfl) (h.not_mem rfl), toInt64_of_denotes h, if_neg nofun]
  | plus h => rw [ofChars_plus (h.not_mem rfl), toInt64_of_denotes h, if_neg nofun]
  | minus h => rw [ofChars_minus (h.not_mem rfl), toInt64_of_denotes h, if_pos rfl]

/-! ### Decimal numerals -/

/-- Figures are a numeral in base ten. -/
theorem Numeral.Digits.denotes (h : Numeral.Digits 10 cs n) : Numeral.Denotes cs n := by
  have hfigures : ∀ d ∈ cs, d.isDigit = true := fun d hd =>
    (NumberParts.isDigitOf_ten d).symm.trans (h.isDigitOf (by decide) d hd)
  rwa [Numeral.Denotes, Numeral.split_of_isDigit hfigures]

/-- A natural number is shown by a numeral of it. -/
theorem Numeral.denotes_toDigits (n : Nat) : Denotes (Nat.toDigits 10 n) n := by
  have hlower := map_toLower_of_isDigit fun c hc =>
    Nat.isDigit_of_mem_toDigits (b := 10) (n := n) (by decide) (by decide) hc
  exact (digits_of_map_toLower_eq (by decide) hlower).denotes

/-- An integer is shown by a numeral of it. -/
theorem Numeral.denotesInt_toString (n : Int) : DenotesInt (toString n).toList n := by
  cases n with
  | ofNat n =>
    have htext : (toString (Int.ofNat n)).toList = Nat.toDigits 10 n := Nat.toList_repr
    exact htext ▸ .bare (denotes_toDigits n)
  | negSucc n =>
    have htext : (toString (Int.negSucc n)).toList = '-' :: Nat.toDigits 10 (n + 1) := by
      show ("-" ++ Nat.repr (n + 1)).toList = _
      rw [String.toList_append, Nat.toList_repr]
      rfl
    exact htext ▸ .minus (denotes_toDigits (n + 1))

open Numeral in
/-- What an integer is shown by is read as that integer, reduced to 64 bits. -/
theorem readInt_toString (n : Int) : readInt (toString n) = .ofInt n := by
  have hread := readInt_of_denotesInt (denotesInt_toString n)
  rwa [String.ofList_toList] at hread

/-- An integer that is not negative is shown by at least one figure, and read from its figures. -/
theorem exists_digits {n : Int64} (hn : 0 ≤ n.toInt) :
    ∃ c cs, (toString n.toInt).toList = c :: cs ∧ c.isDigit = true ∧ (∀ d ∈ cs, d.isDigit = true) ∧
      readInt (String.ofList (c :: cs)) = n := by
  have htext : (toString n.toInt).toList = Nat.toDigits 10 n.toInt.toNat := by
    obtain ⟨m, hm⟩ := Int.eq_ofNat_of_zero_le hn
    rw [hm]
    exact Nat.toList_repr
  have hdigits : ∀ d ∈ Nat.toDigits 10 n.toInt.toNat, d.isDigit = true :=
    fun d hd => Nat.isDigit_of_mem_toDigits (by decide) (by decide) hd
  have hread := readInt_toString n.toInt
  rw [Int64.ofInt_toInt, ← String.ofList_toList (s := toString n.toInt)] at hread
  obtain ⟨c, cs, hcs⟩ :=
    List.exists_cons_of_ne_nil (Nat.toDigits_ne_nil (n := n.toInt.toNat) (b := 10))
  rw [hcs] at htext hdigits
  rw [htext] at hread
  obtain ⟨hc, hcs⟩ := List.forall_mem_cons.mp hdigits
  exact ⟨c, cs, htext, hc, hcs, hread⟩

end DynamicEval
