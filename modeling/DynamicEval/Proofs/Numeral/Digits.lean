import DynamicEval.Numeral
import Mathlib.Data.List.Induction

/-!
# Digits of a number

A natural number is shown in a base by the figures and, above nine, the letters from `a` on. Reading
takes these characters for the digits of the base, the letters in either case, and finds the number
that they spell.

## Main definitions

* `Numeral.Digits`: the lists of digits that spell a natural number in a base.

## Main results

* `isDigitOf_and_digitValue_iff`: which characters are the digits of a base, and their values.
* `Numeral.Digits.value_eq`: digits are read as the number that they spell.
* `Numeral.exists_digits_of_forall`: a list of digits spells a number.
* `Numeral.digits_of_map_toLower_eq`: a number is spelled by what it is shown by.
-/

namespace DynamicEval

variable {base n d : Nat} {c : Char} {cs : List Char}

/-! ### Letters and figures -/

theorem toNat_lt_of_isAlphanum (hc : c.isAlphanum = true) : c.toNat < 128 := by
  rcases Bool.or_eq_true_iff.mp hc with halpha | hdigit
  · rcases Bool.or_eq_true_iff.mp halpha with hupper | hlower
    · have hle : c.toNat ≤ 'Z'.toNat := (of_decide_eq_true hupper).2
      exact Nat.lt_of_le_of_lt hle (by decide)
    · have hle : c.toNat ≤ 'z'.toNat := of_decide_eq_true (Bool.and_eq_true_iff.mp hlower).2
      exact Nat.lt_of_le_of_lt hle (by decide)
  · exact Nat.lt_of_le_of_lt (Char.isDigit_iff_toNat.mp hdigit).2 (by decide)

/-- Only the upper-case letters of ASCII have a lower case. -/
theorem toLower_eq_self (hc : c.toNat < 'A'.toNat ∨ 'Z'.toNat < c.toNat) : c.toLower = c :=
  dif_neg fun hupper => hc.elim (Nat.not_lt_of_le hupper.1) (Nat.not_lt_of_le hupper.2)

/-- What holds of every entry in the table of ASCII. -/
theorem of_ascii {p : Char → Prop} (hp : ∀ k < 128, p (Char.ofNat k)) (hc : c.toNat < 128) :
    p c := by
  have hchar := hp c.toNat hc
  rwa [Char.ofNat_toNat] at hchar

/-- The digits of the bases up to sixteen and their values, in the table of ASCII. -/
theorem ascii_digitValue (hc : c.toNat < 128) :
    ∀ d < 16, (c.isAlphanum = true ∧ digitValue c = d ↔ c.toLower = d.digitChar) :=
  of_ascii (p := fun c => ∀ d < 16, (c.isAlphanum = true ∧ digitValue c = d ↔
    c.toLower = d.digitChar)) (by decide +kernel) hc

/-- The digits of a base are the characters that the numbers below the base are shown by, the
letters among them in either case, and their values are these numbers. -/
theorem isDigitOf_and_digitValue_iff (hbase : base ≤ 16) :
    isDigitOf base c = true ∧ digitValue c = d ↔ d < base ∧ c.toLower = d.digitChar := by
  rw [isDigitOf, Bool.and_eq_true, decide_eq_true_eq, and_assoc]
  by_cases hc : c.toNat < 128
  · have htable := ascii_digitValue hc
    constructor
    · rintro ⟨halnum, hlt, rfl⟩
      exact ⟨hlt, (htable _ (Nat.lt_of_lt_of_le hlt hbase)).mp ⟨halnum, rfl⟩⟩
    · rintro ⟨hlt, hlower⟩
      obtain ⟨halnum, rfl⟩ := (htable d (Nat.lt_of_lt_of_le hlt hbase)).mpr hlower
      exact ⟨halnum, hlt, rfl⟩
  · -- Beyond ASCII there are no digits, and no number is shown by such a character.
    have hshown : ∀ d < 16, d.digitChar.toNat < 128 := by decide
    constructor
    · rintro ⟨halnum, -⟩
      exact absurd (toNat_lt_of_isAlphanum halnum) hc
    · rintro ⟨hlt, hlower⟩
      rw [toLower_eq_self (.inr (Nat.lt_of_lt_of_le (by decide) (Nat.le_of_not_lt hc)))] at hlower
      exact absurd (hlower ▸ hshown d (Nat.lt_of_lt_of_le hlt hbase)) hc

namespace Numeral

/-- The list of digits `cs` spells the number `n` in a base; letters stand in either case. -/
inductive Digits (base : Nat) : List Char → Nat → Prop
  | single {c : Char} {d : Nat} (hd : d < base) (hc : c.toLower = d.digitChar) : Digits base [c] d
  | append {cs : List Char} {n : Nat} {c : Char} {d : Nat} (hcs : Digits base cs n) (hd : d < base)
      (hc : c.toLower = d.digitChar) : Digits base (cs ++ [c]) (base * n + d)

namespace Digits

theorem ne_nil (h : Digits base cs n) : cs ≠ [] := by
  cases h with
  | single => exact List.cons_ne_nil _ _
  | append => exact List.append_ne_nil_of_right_ne_nil _ (List.cons_ne_nil _ _)

theorem isDigitOf (hbase : base ≤ 16) (h : Digits base cs n) :
    ∀ c ∈ cs, isDigitOf base c = true := by
  induction h with
  | single hd hc =>
    exact List.forall_mem_singleton.mpr ((isDigitOf_and_digitValue_iff hbase).mpr ⟨hd, hc⟩).1
  | append hcs hd hc ih =>
    refine List.forall_mem_append.mpr ⟨ih, List.forall_mem_singleton.mpr ?_⟩
    exact ((isDigitOf_and_digitValue_iff hbase).mpr ⟨hd, hc⟩).1

/-- The case of letters does not matter. -/
theorem map_toLower (hbase : base ≤ 16) (h : Digits base cs n) :
    Digits base (cs.map Char.toLower) n := by
  have hshown : ∀ d < 16, d.digitChar.toLower = d.digitChar := by decide
  induction h with
  | single hd hc => exact .single hd (hc ▸ hshown _ (Nat.lt_of_lt_of_le hd hbase))
  | append hcs hd hc ih =>
    rw [List.map_append, List.map_singleton]
    exact ih.append hd (hc ▸ hshown _ (Nat.lt_of_lt_of_le hd hbase))

open NumberParts in
/-- Digits are read as the number that they spell. -/
theorem value_eq (hbase : base ≤ 16) (h : Digits base cs n) : value base cs = n := by
  induction h with
  | single hd hc =>
    rw [value, List.foldl_cons, List.foldl_nil, Nat.zero_mul, Nat.zero_add]
    exact ((isDigitOf_and_digitValue_iff hbase).mpr ⟨hd, hc⟩).2
  | append hcs hd hc ih =>
    rw [value, List.foldl_append, ← value, ih, List.foldl_cons, List.foldl_nil, Nat.mul_comm,
      ((isDigitOf_and_digitValue_iff hbase).mpr ⟨hd, hc⟩).2]

end Digits

/-- A list of digits spells a number. -/
theorem exists_digits_of_forall (hbase : base ≤ 16) (hne : cs ≠ [])
    (hcs : ∀ c ∈ cs, isDigitOf base c = true) : ∃ n, Digits base cs n := by
  induction cs using List.reverseRecOn with
  | nil => exact absurd rfl hne
  | append_singleton cs c ih =>
    obtain ⟨hcs, hc⟩ := List.forall_mem_append.mp hcs
    obtain ⟨hd, hlower⟩ := (isDigitOf_and_digitValue_iff hbase).mp ⟨hc c List.mem_cons_self, rfl⟩
    cases cs with
    | nil => exact ⟨_, .single hd hlower⟩
    | cons b cs =>
      obtain ⟨n, hn⟩ := ih (List.cons_ne_nil _ _) hcs
      exact ⟨_, hn.append hd hlower⟩

/-- A number is spelled by the characters that it is shown by, in either case. -/
theorem digits_of_map_toLower_eq (hbase : 1 < base)
    (hcs : cs.map Char.toLower = Nat.toDigits base n) : Digits base cs n := by
  induction n using Nat.strongRecOn generalizing cs with
  | ind n ih =>
    rw [Nat.toDigits_eq_if hbase] at hcs
    split at hcs
    · next hlt =>
      obtain ⟨c, rfl, hc⟩ := List.map_eq_singleton_iff.mp hcs
      exact .single hlt hc
    · next hge =>
      have hpos : 0 < n := Nat.lt_of_lt_of_le (Nat.zero_lt_of_lt hbase) (Nat.le_of_not_lt hge)
      obtain ⟨cs, last, rfl, hinit, hlast⟩ := List.map_eq_append_iff.mp hcs
      obtain ⟨c, rfl, hc⟩ := List.map_eq_singleton_iff.mp hlast
      have hdigits := (ih (n / base) (Nat.div_lt_self hpos hbase) hinit).append
        (Nat.mod_lt n (Nat.zero_lt_of_lt hbase)) hc
      rwa [Nat.div_add_mod] at hdigits

end Numeral

end DynamicEval
