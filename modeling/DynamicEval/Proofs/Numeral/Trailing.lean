import DynamicEval.Proofs.Numeral
import Mathlib.Data.List.Infix

/-!
# Text behind a number

What stands behind the last digit of a number is dropped, as long as it has no mark of a number of
its own: signs and base prefixes are looked for in the whole text, so one behind the digits wins,
and the digits before it are what is dropped.

## Main definitions

* `NumberParts.Marked`: the texts with a sign or a base prefix.

## Main results

* `NumberParts.marked_iff`: a mark is found in either case.
* `NumberParts.ofChars_append_of_marked`: figures before a text with a mark are skipped.
* `NumberParts.ofChars_append_of_not_marked`: a text without a mark behind figures is dropped.
* `NumberParts.ofChars_append`: which of two parts of a text a number is read from.
-/

namespace DynamicEval

namespace NumberParts

open Lexer (literalBase?)

variable {cs ds r : List Char}

/-- The text has a sign or a base prefix somewhere. -/
def Marked (cs : List Char) : Prop :=
  '+' ∈ cs ∨ '-' ∈ cs ∨ ∃ c, (literalBase? c).isSome ∧ ['0', c] <:+: cs

/-! ### Finding marks -/

theorem behind?_isSome_iff {c : Char} : (behind? c cs).isSome ↔ c ∈ cs := by
  constructor
  · intro hsome
    by_contra hc
    rw [behind?_of_not_mem hc] at hsome
    cases hsome
  · intro hc
    obtain ⟨before, rest, rfl, hbefore⟩ := List.eq_append_cons_of_mem hc
    rw [behind?_append hbefore, behind?, if_pos (beq_self_eq_true c)]
    rfl

/-- A base prefix is found wherever it stands, its letter in either case. -/
theorem splitBase?_isSome_iff : (splitBase? (cs.map Char.toLower)).isSome ↔
    ∃ c, (literalBase? c).isSome ∧ ['0', c] <:+: cs := by
  induction cs with
  | nil => simp [splitBase?]
  | cons c cs ih =>
    -- The prefix stands at the head or behind it.
    simp only [List.infix_cons_iff (a := c), and_or_left, exists_or, ← ih, List.cons_prefix_cons]
    by_cases hc : c = '0'
    · subst hc
      cases cs with
      | nil => simp [splitBase?]
      | cons d cs =>
        cases hd : literalBase? d <;> simp [splitBase?, baseOfLetter?_toLower, hd]
    · have hlower : c.toLower ≠ '0' := fun heq =>
        hc ((toLower_eq_self_of_toLower_lt (heq ▸ (by decide))).symm.trans heq)
      simp [splitBase?, hlower, Ne.symm hc]

theorem marked_iff : Marked cs ↔ (behind? '+' (cs.map Char.toLower)).isSome ∨
    (behind? '-' (cs.map Char.toLower)).isSome ∨ (splitBase? (cs.map Char.toLower)).isSome := by
  rw [Marked, behind?_isSome_iff, behind?_isSome_iff, splitBase?_isSome_iff,
    mem_map_toLower (by decide), mem_map_toLower (by decide)]

instance : DecidablePred Marked := fun _ => decidable_of_iff _ marked_iff.symm

/-! ### Text behind figures -/

/-- Lower case leaves the head of a text alone unless that is a letter. -/
theorem head?_map_toLower (hr : ∀ c, r.head? = some c → c.isAlphanum = false) :
    (r.map Char.toLower).head? = r.head? := by
  cases r with
  | nil => rfl
  | cons c r =>
    have hlower : c.toLower = c := by
      refine dif_neg fun hupper => ?_
      have halpha : c.isAlpha = true := Bool.or_eq_true_iff.mpr (.inl (decide_eq_true hupper))
      have halnum : c.isAlphanum = true := Bool.or_eq_true_iff.mpr (.inl halpha)
      rw [hr c rfl] at halnum
      cases halnum
    rw [List.map_cons, List.head?_cons, List.head?_cons, hlower]

/-- No mark starts in figures and ends in the text behind them. -/
theorem splitBase?_map_append (hds : ∀ d ∈ ds, d.isDigit = true)
    (hr : ∀ c, r.head? = some c → c.isAlphanum = false) :
    splitBase? (ds ++ r.map Char.toLower) = splitBase? (r.map Char.toLower) := by
  refine splitBase?_append hds fun c hc => ?_
  rw [head?_map_toLower hr] at hc
  have halnum := hr c hc
  unfold baseOfLetter?
  split <;> first | rfl | cases halnum

/-- A text with a mark is read alike behind figures. -/
theorem ofChars_append_of_marked (hds : ∀ d ∈ ds, d.isDigit = true)
    (hr : ∀ c, r.head? = some c → c.isAlphanum = false) (hmarked : Marked r) :
    ofChars (ds ++ r) = ofChars r := by
  have hplus : '+' ∉ ds := fun hmem => absurd (hds _ hmem) nofun
  have hminus : '-' ∉ ds := fun hmem => absurd (hds _ hmem) nofun
  rw [marked_iff] at hmarked
  simp only [ofChars, List.map_append, map_toLower_of_isDigit hds, behind?_append hplus]
  cases hp : behind? '+' (r.map Char.toLower) with
  | some rest => rfl
  | none =>
    simp only [Option.getD_none, behind?_append hminus]
    cases hm : behind? '-' (r.map Char.toLower) with
    | some rest => rfl
    | none =>
      rw [hp, hm] at hmarked
      obtain ⟨⟨base, rest⟩, hs⟩ := Option.isSome_iff_exists.mp (by simpa using hmarked)
      simp only [Option.getD_none, splitBase?_map_append hds hr, hs]

/-- Figures are all that is read if the text behind them has no mark. -/
theorem ofChars_append_of_not_marked (hne : ds ≠ []) (hds : ∀ d ∈ ds, d.isDigit = true)
    (hr : ∀ c, r.head? = some c → c.isAlphanum = false ∧ c ≠ '.') (hmarked : ¬ Marked r) :
    ofChars (ds ++ r) = { negative := false, base := 10, integer := ds, fraction := [] } := by
  have hhead : ∀ c, r.head? = some c → c.isAlphanum = false := fun c hc => (hr c hc).1
  have hmem {c : Char} (hc : c ∉ r) (halnum : c.isDigit = false) : c ∉ ds ++ r :=
    List.not_mem_append (fun hmem => by rw [hds c hmem] at halnum; cases halnum) hc
  have hsplit : splitBase? (r.map Char.toLower) = none := by
    rw [← Option.not_isSome_iff_eq_none]
    exact fun hsome => hmarked (marked_iff.mpr (.inr (.inr hsome)))
  rw [ofChars_of_not_mem (hmem (fun h => hmarked (.inl h)) rfl)
      (hmem (fun h => hmarked (.inr (.inl h))) rfl),
    List.map_append, map_toLower_of_isDigit hds, ofUnsigned, splitBase?_map_append hds hhead,
    hsplit]
  refine digits_append hne (fun d hd => (isDigitOf_ten d).trans (hds d hd)) (fun c hc => ?_) false
  rw [head?_map_toLower hhead] at hc
  obtain ⟨halnum, hpoint⟩ := hr c hc
  rw [isDigitOf, halnum, Bool.false_and]
  exact ⟨rfl, hpoint⟩

/-- **Which part of a text a number is read from.** Behind figures, a text that starts with neither
a letter nor a figure nor a point is dropped if it has no sign and no base prefix; otherwise the
number is read from that text, and the figures before it are dropped. -/
theorem ofChars_append (hne : ds ≠ []) (hds : ∀ d ∈ ds, d.isDigit = true)
    (hr : ∀ c, r.head? = some c → c.isAlphanum = false ∧ c ≠ '.') :
    (¬ Marked r → ofChars (ds ++ r) = ofChars ds ∧
      readInt (String.ofList (ds ++ r)) = readInt (String.ofList ds)) ∧
    (Marked r → ofChars (ds ++ r) = ofChars r ∧
      readInt (String.ofList (ds ++ r)) = readInt (String.ofList r)) := by
  simp only [readInt, String.toList_ofList]
  constructor
  · intro hmarked
    have hself := ofChars_append_of_not_marked (r := []) hne hds (by simp) (by decide)
    rw [List.append_nil] at hself
    have heq := (ofChars_append_of_not_marked hne hds hr hmarked).trans hself.symm
    exact ⟨heq, congrArg toInt64 heq⟩
  · intro hmarked
    have heq := ofChars_append_of_marked hds (fun c hc => (hr c hc).1) hmarked
    exact ⟨heq, congrArg toInt64 heq⟩

/-- A unit behind a number is dropped; of a range the end is read, with its dash for a sign. -/
theorem readInt_behind_five :
    ¬ Marked [' ', 'm'] ∧ Marked ['-', '3'] ∧
      readInt (String.ofList ['5', ' ', 'm']) = 5 ∧
      readInt (String.ofList ['5', '-', '3']) = -3 := by
  have hne : ['5'] ≠ [] := List.cons_ne_nil _ _
  have hfive : ∀ d ∈ ['5'], d.isDigit = true := List.forall_mem_singleton.mpr rfl
  have hunit : ¬ Marked [' ', 'm'] := by decide
  have hrange : Marked ['-', '3'] := by decide
  refine ⟨hunit, hrange, ?_, ?_⟩
  · exact ((ofChars_append hne hfive (by simp)).1 hunit).2.trans (by decide)
  · exact ((ofChars_append hne hfive (by simp)).2 hrange).2.trans (by decide)

/-- A sign behind figures is not dropped. -/
theorem not_forall_ofChars_append_eq :
    ¬ ∀ ds r : List Char, ds ≠ [] → (∀ d ∈ ds, d.isDigit = true) →
      (∀ c, r.head? = some c → c.isAlphanum = false ∧ c ≠ '.') →
      readInt (String.ofList (ds ++ r)) = readInt (String.ofList ds) ∧
        (ofChars (ds ++ r)).integer = (ofChars ds).integer ∧
        (ofChars (ds ++ r)).base = (ofChars ds).base ∧
        (ofChars (ds ++ r)).negative = (ofChars ds).negative := by
  intro hall
  have hfive : ∀ d ∈ ['5'], d.isDigit = true := List.forall_mem_singleton.mpr rfl
  exact absurd (hall ['5'] ['-', '3'] (List.cons_ne_nil _ _) hfive (by simp)).2.2.2 (by decide)

end NumberParts

end DynamicEval
