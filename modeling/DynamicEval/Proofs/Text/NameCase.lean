import DynamicEval.Proofs.Text.Pattern
import DynamicEval.Text.NameCase
import Mathlib.Data.List.Chain

/-!
# Laws of the spellings of names

A name of ASCII letters in camel case comes back from its spelling with underscores. Camel case has
nothing left to join: a match is replaced by one capital, so a run of separators that stays stands
before something other than an ASCII letter. So camel case of camel case is the same text.

Matches are replaced by a library of patterns, of which nothing is used but its documentation. A
place starts one match at most of either pattern, so that every library that does what its
documentation says gives the text that the search gives.

## Main definitions

* `IsJoined`: no separator stands directly before an ASCII letter.
* `IsHumped`: a name of ASCII letters in camel case.
* `PatternLibrary.Documented`: a library that reads the two patterns of names.
* `PatternLibrary.camelCase?`, `PatternLibrary.underlineCase?`: the spellings by a library.

## Main results

* `lowerCase_eq_map_toLower`: lower case of ASCII text is taken character by character.
* `isJoined_of_replaced`, `IsHumped.replaced`: what camel case is, and where it comes back.
* `PatternLibrary.Documented.camelCase?_eq`: every library gives the text that the search gives.
* `camelCase_laws`: the two spellings are inverse on names in camel case, and camel case is joined
  and idempotent.
-/

namespace DynamicEval.Text

variable {c d : Char} {cs ds hit : List Char}

/-- No separator stands directly before an ASCII letter. -/
def IsJoined (cs : List Char) : Prop :=
  cs.IsChain fun c d => isSeparator c = true → d.isAlpha = false

/-- A name of ASCII letters that starts with no capital and has no two capitals side by side. -/
structure IsHumped (cs : List Char) : Prop where
  /-- All characters are ASCII letters. -/
  letters : ∀ c ∈ cs, c.isAlpha = true
  /-- The name does not start with a capital. -/
  start : ∀ c ∈ cs.head?, c.isUpper = false
  /-- A capital does not stand behind another one. -/
  humps : cs.IsChain fun c d => c.isUpper = true → d.isUpper = false

namespace PatternLibrary

/-- Camel case of a text, if the pattern compiles. -/
def camelCase? (lib : PatternLibrary) (cs : List Char) : Option (List Char) :=
  (lib.compile separated.text).map fun compiled => lib.replaceAll compiled joinWords cs

/-- A text with underscores for humps, if the pattern compiles. -/
def underlineCase? (lib : PatternLibrary) (cs : List Char) : Option (List Char) :=
  (lib.compile hump.text).map fun compiled => lowerCase (lib.replaceAll compiled partWords cs)

/-- A library whose documentation tells how it reads the two patterns of names. -/
structure Documented (lib : PatternLibrary) : Prop where
  /-- The pattern of separators and the letter behind them. -/
  separated : lib.Reads separated
  /-- The pattern of a small letter and a capital behind it. -/
  hump : lib.Reads hump

/-- The library of the two patterns that searches for them. -/
def ofNames : PatternLibrary := ofPatterns [Text.separated, Text.hump]

theorem ofNames_documented : ofNames.Documented where
  separated := ofPatterns_reads rfl nofun
  hump := ofPatterns_reads rfl nofun

end PatternLibrary

/-! ### ASCII letters -/

/-- A property of all ASCII characters can be checked code point by code point. -/
theorem forall_ascii {P : Char → Prop} (h : ∀ n < 128, P (Char.ofNat n)) (hc : c.toNat < 128) :
    P c :=
  Char.ofNat_toNat c ▸ h c.toNat hc

theorem toNat_lt_of_isAlpha (hc : c.isAlpha = true) : c.toNat < 128 := by
  have hle {d : Char} (h : c.val ≤ d.val) : c.toNat ≤ d.toNat := UInt32.le_iff_toNat_le.mp h
  rcases Bool.or_eq_true_iff.mp hc with hupper | hlower
  · have hle : c.toNat ≤ 'Z'.toNat := hle (of_decide_eq_true hupper).2
    exact hle.trans_lt (by decide)
  · have hle : c.toNat ≤ 'z'.toNat := hle (of_decide_eq_true (Bool.and_eq_true_iff.mp hlower).2)
    exact hle.trans_lt (by decide)

theorem isAlpha_of_isUpper (hc : c.isUpper = true) : c.isAlpha = true :=
  Bool.or_eq_true_iff.mpr (.inl hc)

/-- The lower case of an ASCII character is the one of the ASCII letters. -/
theorem lower_eq_toLower (hc : c.toNat < 128) : lower c = [c.toLower] :=
  forall_ascii (P := fun c => lower c = [c.toLower]) (by decide +kernel) hc

theorem toUpper_toLower (hc : c.isUpper = true) : c.toLower.toUpper = c :=
  forall_ascii (P := fun c => c.isUpper = true → c.toLower.toUpper = c) (by decide +kernel)
    (toNat_lt_of_isAlpha (isAlpha_of_isUpper hc)) hc

theorem toLower_of_isUpper_eq_false (hc : c.isUpper = false) : c.toLower = c := by
  have hrange : ¬ (c.val ≥ 'A'.val ∧ c.val ≤ 'Z'.val) := of_decide_eq_false hc
  exact dif_neg hrange

theorem isAlpha_toUpper (hc : c.isAlpha = true) : c.toUpper.isAlpha = true :=
  forall_ascii (P := fun c => c.isAlpha = true → c.toUpper.isAlpha = true) (by decide +kernel)
    (toNat_lt_of_isAlpha hc) hc

theorem isAlpha_toLower (hc : c.isAlpha = true) : c.toLower.isAlpha = true :=
  forall_ascii (P := fun c => c.isAlpha = true → c.toLower.isAlpha = true) (by decide +kernel)
    (toNat_lt_of_isAlpha hc) hc

/-- An ASCII letter separates nothing. -/
theorem isSeparator_eq_false (hc : c.isAlpha = true) : isSeparator c = false :=
  forall_ascii (P := fun c => c.isAlpha = true → isSeparator c = false) (by decide +kernel)
    (toNat_lt_of_isAlpha hc) hc

/-! ### Lower case of ASCII text -/

/-- Lower case of ASCII text is taken character by character. -/
theorem lowerCase_eq_map_toLower (hcs : ∀ c ∈ cs, c.toNat < 128) :
    lowerCase cs = cs.map Char.toLower := by
  suffices hafter : ∀ before, lowerCaseAfter before cs = cs.map Char.toLower from hafter []
  induction cs with
  | nil => intro before; rfl
  | cons c cs ih =>
    intro before
    obtain ⟨hc, hcs⟩ := List.forall_mem_cons.mp hcs
    -- The capital sigma, which has a final form, is not an ASCII character.
    have hsigma : (c == capitalSigma) = false :=
      forall_ascii (P := fun c => (c == capitalSigma) = false) (by decide +kernel) hc
    rw [lowerCaseAfter, hsigma, Bool.false_and, if_neg Bool.false_ne_true, lower_eq_toLower hc,
      ih hcs, List.map_cons, List.singleton_append]

/-! ### The patterns -/

/-- What matches the pattern of separators: a run of them and an ASCII letter. -/
theorem matches_separated_iff : Matches separated.pieces hit ↔
    ∃ run c, run ≠ [] ∧ (∀ d ∈ run, isSeparator d = true) ∧ c.isAlpha = true ∧
      hit = run ++ [c] := by
  constructor
  · rintro (_ | _ | @⟨_, _, run, _, hne, hrun, _ | @⟨_, _, c, _, hc, ⟨⟩⟩⟩)
    exact ⟨run, c, hne, hrun, hc, rfl⟩
  · rintro ⟨run, c, hne, hrun, hc, rfl⟩
    exact .many hne hrun (.one hc .nil)

/-- What matches the pattern of a hump: a small ASCII letter and a capital one. -/
theorem matches_hump_iff : Matches hump.pieces hit ↔
    ∃ c d, c.isLower = true ∧ d.isUpper = true ∧ hit = [c, d] := by
  constructor
  · rintro (_ | @⟨_, _, c, _, hc, _ | @⟨_, _, d, _, hd, ⟨⟩⟩⟩)
    exact ⟨c, d, hc, hd, rfl⟩
  · rintro ⟨c, d, hc, hd, rfl⟩
    exact .one hc (.one hd .nil)

/-- A separator directly before an ASCII letter makes a match, whatever stands around them. -/
theorem matches_separator (hc : isSeparator c = true) (hd : d.isAlpha = true) :
    Matches separated.pieces [c, d] :=
  matches_separated_iff.mpr ⟨[c], d, nofun, List.forall_mem_singleton.mpr hc, hd, rfl⟩

theorem joinWords_append_singleton (run : List Char) (c : Char) :
    joinWords (run ++ [c]) = [c.toUpper] := by
  simp [joinWords]

/-- At every place one match starts at most. -/
theorem eq_of_matches_separated {hit' behind behind' : List Char}
    (heq : hit ++ behind = hit' ++ behind') (hhit : Matches separated.pieces hit)
    (hhit' : Matches separated.pieces hit') : hit = hit' := by
  -- The run of separators is the longest one there, as a letter follows it.
  have htake {run : List Char} {c : Char} (hrun : ∀ d ∈ run, isSeparator d = true)
      (hc : c.isAlpha = true) (rest : List Char) :
      (run ++ c :: rest).takeWhile isSeparator = run := by
    rw [List.takeWhile_append_of_pos hrun, List.takeWhile_cons_of_neg, List.append_nil]
    simp [isSeparator_eq_false hc]
  obtain ⟨run, c, -, hrun, hc, rfl⟩ := matches_separated_iff.mp hhit
  obtain ⟨run', c', -, hrun', hc', rfl⟩ := matches_separated_iff.mp hhit'
  rw [List.append_assoc, List.append_assoc] at heq
  have hruns := congrArg (List.takeWhile isSeparator) heq
  rw [List.singleton_append, List.singleton_append, htake hrun hc, htake hrun' hc'] at hruns
  obtain rfl := hruns
  rw [(List.cons.inj (List.append_cancel_left heq)).1]

theorem eq_of_matches_hump {hit' behind behind' : List Char}
    (heq : hit ++ behind = hit' ++ behind') (hhit : Matches hump.pieces hit)
    (hhit' : Matches hump.pieces hit') : hit = hit' := by
  obtain ⟨c, d, -, -, rfl⟩ := matches_hump_iff.mp hhit
  obtain ⟨c', d', -, -, rfl⟩ := matches_hump_iff.mp hhit'
  exact (List.append_inj heq rfl).1

theorem camelCase_replaced (cs : List Char) :
    Replaced separated.pieces joinWords cs (camelCase cs) :=
  separated.replaceAll_replaced nofun joinWords cs

namespace PatternLibrary.Documented

variable {lib : PatternLibrary}

/-- Every library gives the camel case that the search gives. -/
theorem camelCase?_eq (hlib : lib.Documented) (cs : List Char) :
    lib.camelCase? cs = some (camelCase cs) := by
  obtain ⟨compiled, hcompiled, hreplaced⟩ := hlib.separated
  rw [camelCase?, hcompiled, Option.map_some,
    (hreplaced joinWords cs).unique eq_of_matches_separated (camelCase_replaced cs)]

/-- Every library gives the text with underscores that the search gives. -/
theorem underlineCase?_eq (hlib : lib.Documented) (cs : List Char) :
    lib.underlineCase? cs = some (underlineCase cs) := by
  obtain ⟨compiled, hcompiled, hreplaced⟩ := hlib.hump
  rw [underlineCase?, hcompiled, Option.map_some, (hreplaced partWords cs).unique
    eq_of_matches_hump (Text.hump.replaceAll_replaced nofun partWords cs), underlineCase]

end PatternLibrary.Documented

/-! ### Camel case -/

/-- A text in which no separator stands before a letter has no match. -/
theorem IsJoined.not_matches (hcs : IsJoined cs) (before hit behind : List Char)
    (heq : cs = before ++ hit ++ behind) : ¬Matches separated.pieces hit := by
  intro hhit
  obtain ⟨run, c, hne, hrun, hc, rfl⟩ := matches_separated_iff.mp hhit
  obtain ⟨run, d, rfl⟩ := (List.eq_nil_or_concat' run).resolve_left hne
  have hpair : cs = (before ++ run) ++ d :: c :: behind := by simp [heq]
  have hletter := List.isChain_iff_forall_rel_of_append_cons_cons.mp hcs hpair
    (hrun d (List.mem_append_right run (List.mem_singleton_self d)))
  exact absurd hc (by simp [hletter])

/-- Where no match starts in a text, no separator stands before a letter. -/
theorem isJoined_of_not_matches
    (hnone : ∀ {before c d behind}, cs = before ++ c :: d :: behind →
      ¬Matches separated.pieces [c, d]) : IsJoined cs := by
  refine List.isChain_iff_forall_rel_of_append_cons_cons.mpr fun c d before behind heq hc => ?_
  exact Bool.eq_false_iff.mpr fun hd => hnone heq (matches_separator hc hd)

/-- Camel case has no separator directly before a letter: a match leaves one letter, and nothing
before the first match makes another one with it. -/
theorem isJoined_of_replaced (hds : Replaced separated.pieces joinWords cs ds) : IsJoined ds := by
  induction hds with
  | none hnone =>
    exact isJoined_of_not_matches fun {before c d behind} heq =>
      hnone before [c, d] behind (by simpa using heq)
  | @hit before hit behind ds hfirst _ ih =>
    obtain ⟨run, c, hne, hrun, hc, rfl⟩ := matches_separated_iff.mp hfirst.matched
    have hupper : isSeparator c.toUpper = false := isSeparator_eq_false (isAlpha_toUpper hc)
    have hbefore : IsJoined before := by
      refine isJoined_of_not_matches fun {before' d e behind'} heq hmatch => ?_
      have hle := hfirst.first before' [d, e] (behind' ++ (run ++ [c]) ++ behind) (by simp [heq])
        hmatch
      rw [heq, List.length_append, List.length_cons] at hle
      omega
    rw [joinWords_append_singleton, List.append_assoc]
    refine List.isChain_append.mpr ⟨hbefore, List.isChain_cons.mpr ⟨?_, ih⟩, ?_⟩
    · exact fun d _ hsep => absurd hsep (by simp [hupper])
    · -- A separator at the end of what stands before the match would start the match.
      intro d hd e _ hsep
      obtain ⟨before, rfl⟩ := List.getLast?_eq_some_iff.mp hd
      have hmatch : Matches separated.pieces (d :: run ++ [c]) := matches_separated_iff.mpr
        ⟨d :: run, c, List.cons_ne_nil _ _, List.forall_mem_cons.mpr ⟨hsep, hrun⟩, hc, rfl⟩
      have hle := hfirst.first before (d :: run ++ [c]) behind (by simp) hmatch
      rw [List.length_append, List.length_singleton] at hle
      omega

/-- A joined text is its own camel case. -/
theorem camelCase_eq_self (hcs : IsJoined cs) : camelCase cs = cs :=
  (camelCase_replaced cs).eq_self hcs.not_matches

/-! ### Names in camel case -/

/-- There is no match in a text of letters. -/
theorem isJoined_of_letters (hcs : ∀ c ∈ cs, c.isAlpha = true) : IsJoined cs := by
  refine (List.pairwise_of_forall_mem_list fun c hc d _ hsep => ?_).isChain
  exact absurd hsep (by simp [isSeparator_eq_false (hcs c hc)])

/-- A match behind letters is the first one. -/
theorem leftmost_of_letters {before : List Char} (hbefore : ∀ c ∈ before, c.isAlpha = true)
    (hhit : Matches separated.pieces hit) (behind : List Char) :
    Leftmost separated.pieces before hit behind := by
  refine ⟨hhit, fun before' hit' behind' heq hhit' => Nat.le_of_not_lt fun hlt => ?_⟩
  -- An earlier match would start with one of the letters.
  obtain ⟨run, c, hne, hrun, -, rfl⟩ := matches_separated_iff.mp hhit'
  obtain ⟨d, run, rfl⟩ := List.exists_cons_of_ne_nil hne
  have hget : before[before'.length]? = some d := by
    have hfirst : (before ++ (hit ++ behind))[before'.length]? = before[before'.length]? :=
      List.getElem?_append_left hlt
    rw [← hfirst, ← List.append_assoc, ← heq]
    simp
  have hletter := hbefore d (List.mem_of_getElem? hget)
  exact absurd (hrun d List.mem_cons_self) (by simp [isSeparator_eq_false hletter])

/-- Letters have no capital among them if none comes first and none stands behind a small one. -/
theorem isUpper_eq_false_of_isChain (hletters : ∀ c ∈ cs, c.isAlpha = true)
    (hstart : ∀ c ∈ cs.head?, c.isUpper = false)
    (hchain : cs.IsChain fun c d => c.isLower = true → d.isUpper = false) :
    ∀ c ∈ cs, c.isUpper = false := by
  induction cs with
  | nil => exact List.forall_mem_nil _
  | cons c cs ih =>
    obtain ⟨hletter, hletters⟩ := List.forall_mem_cons.mp hletters
    obtain ⟨hnext, hchain⟩ := List.isChain_cons.mp hchain
    have hc : c.isUpper = false := hstart c rfl
    have hlower : c.isLower = true := (Bool.or_eq_true_iff.mp hletter).resolve_left (by simp [hc])
    exact List.forall_mem_cons.mpr ⟨hc, ih hletters (fun d hd => hnext d hd hlower) hchain⟩

/-- A part at the start of a name in which no hump is found has small letters only. -/
theorem IsHumped.map_toLower_eq_self (hcs : IsHumped (cs ++ ds))
    (hnone : ∀ {before c d behind}, cs = before ++ c :: d :: behind →
      ¬Matches hump.pieces [c, d]) : cs.map Char.toLower = cs := by
  have hletters (c : Char) (hc : c ∈ cs) : c.isAlpha = true :=
    hcs.letters c (List.mem_append_left ds hc)
  have hstart : ∀ c ∈ cs.head?, c.isUpper = false := by
    cases cs with
    | nil => exact nofun
    | cons c cs => exact hcs.start
  have hchain : cs.IsChain fun c d => c.isLower = true → d.isUpper = false := by
    refine List.isChain_iff_forall_rel_of_append_cons_cons.mpr fun c d before behind heq hc => ?_
    exact Bool.eq_false_iff.mpr fun hd => hnone heq (matches_hump_iff.mpr ⟨c, d, hc, hd, rfl⟩)
  have hsmall := isUpper_eq_false_of_isChain hletters hstart hchain
  exact (List.map_congr_left fun c hc => toLower_of_isUpper_eq_false (hsmall c hc)).trans
    (List.map_id' cs)

/-- What stands behind a capital of a name is such a name itself. -/
theorem IsHumped.behind {before : List Char} (hcs : IsHumped (before ++ c :: cs))
    (hc : c.isUpper = true) : IsHumped cs where
  letters d hd := hcs.letters d (List.mem_append_right _ (List.mem_cons_of_mem c hd))
  start d hd := (List.isChain_cons.mp (List.isChain_append.mp hcs.humps).2.1).1 d hd hc
  humps := (List.isChain_append.mp hcs.humps).2.1.tail

/-- A name comes back where underscores were put between its words, in small letters. -/
theorem IsHumped.replaced (hcs : IsHumped cs) (hds : Replaced hump.pieces partWords cs ds) :
    Replaced separated.pieces joinWords (ds.map Char.toLower) cs := by
  induction hds with
  | @none cs hnone =>
    have hall : IsHumped (cs ++ []) := by rwa [List.append_nil]
    rw [hall.map_toLower_eq_self fun {before c d behind} heq =>
      hnone before [c, d] behind (by simpa using heq)]
    exact .none (isJoined_of_letters hcs.letters).not_matches
  | @hit before hit behind ds hfirst _ ih =>
    obtain ⟨c, d, hc, hd, rfl⟩ := matches_hump_iff.mp hfirst.matched
    have hsplit : before ++ [c, d] ++ behind = (before ++ [c]) ++ d :: behind := by simp
    rw [hsplit] at hcs
    -- No hump is found before the first one, so that all letters there are small.
    have hbefore : (before ++ [c]).map Char.toLower = before ++ [c] := by
      refine hcs.map_toLower_eq_self fun {before' e e' behind'} heq hmatch => ?_
      have hle := hfirst.first before' [e, e'] (behind' ++ d :: behind)
        (by rw [hsplit, heq]; simp) hmatch
      have hlength := congrArg List.length heq
      simp only [List.length_append, List.length_cons, List.length_nil] at hlength
      omega
    have hletters (e : Char) (he : e ∈ before ++ [c]) : e.isAlpha = true :=
      hcs.letters e (List.mem_append_left _ he)
    have hletter : d.isAlpha = true := isAlpha_of_isUpper hd
    have hhit := leftmost_of_letters hletters
      (matches_separator (c := '_') (by decide) (isAlpha_toLower hletter)) (ds.map Char.toLower)
    have hjoined : joinWords ['_', d.toLower] = [d] :=
      (joinWords_append_singleton ['_'] d.toLower).trans (by rw [toUpper_toLower hd])
    have hresult := Replaced.hit (f := joinWords) hhit (ih (hcs.behind hd))
    rw [hjoined] at hresult
    have hlower : (before ++ partWords [c, d] ++ ds).map Char.toLower =
        before ++ [c] ++ ['_', d.toLower] ++ ds.map Char.toLower := by
      rw [← hbefore]
      simp [partWords]
    rw [hlower, hsplit]
    simpa using hresult

/-- A name in camel case comes back from its spelling with underscores. -/
theorem IsHumped.camelCase_underlineCase (hcs : IsHumped cs) :
    camelCase (underlineCase cs) = cs := by
  have hreplaced := hump.replaceAll_replaced nofun partWords cs
  have hascii : ∀ c ∈ hump.replaceAll partWords cs, c.toNat < 128 := by
    refine hreplaced.forall_mem (fun hit hhit => ?_) fun c hc =>
      toNat_lt_of_isAlpha (hcs.letters c hc)
    refine List.forall_mem_append.mpr ⟨fun c hc => hhit c (List.mem_of_mem_take hc),
      List.forall_mem_cons.mpr ⟨by decide, fun c hc => hhit c (List.mem_of_mem_drop hc)⟩⟩
  rw [underlineCase, lowerCase_eq_map_toLower hascii]
  exact (camelCase_replaced _).unique eq_of_matches_separated (hcs.replaced hreplaced)

/-- **Laws of the spellings of names.** By any library of patterns, a name of ASCII letters that
starts with no capital and has no two capitals side by side comes back from its spelling with
underscores. Camel case of camel case is the same text, and no separator in camel case stands
directly before an ASCII letter. -/
theorem camelCase_laws {lib : PatternLibrary} (hlib : lib.Documented) :
    (∀ cs, IsHumped cs → ∃ ds, lib.underlineCase? cs = some ds ∧ lib.camelCase? ds = some cs) ∧
      ∀ cs, ∃ ds, lib.camelCase? cs = some ds ∧ lib.camelCase? ds = some ds ∧ IsJoined ds := by
  refine ⟨fun cs hcs => ⟨underlineCase cs, hlib.underlineCase?_eq cs, ?_⟩,
    fun cs => ⟨camelCase cs, hlib.camelCase?_eq cs, ?_⟩⟩
  · rw [hlib.camelCase?_eq, hcs.camelCase_underlineCase]
  · have hjoined := isJoined_of_replaced (camelCase_replaced cs)
    exact ⟨by rw [hlib.camelCase?_eq, camelCase_eq_self hjoined], hjoined⟩

/-- The two spellings of a name of three words, by a library that searches. -/
theorem camelCase_userFirstName :
    PatternLibrary.ofNames.Documented ∧ IsHumped "userFirstName".toList ∧
      PatternLibrary.ofNames.underlineCase? "userFirstName".toList =
        some "user_first_name".toList ∧
      PatternLibrary.ofNames.camelCase? "user_first_name".toList = some "userFirstName".toList := by
  have hlib := PatternLibrary.ofNames_documented
  have hspelled : PatternLibrary.ofNames.underlineCase? "userFirstName".toList =
      some "user_first_name".toList := by
    decide +kernel
  have hhumped : IsHumped "userFirstName".toList := by
    refine ⟨List.all_eq_true.mp (by rfl), ?_, ?_⟩
    · rintro _ ⟨⟩
      rfl
    · change List.IsChain _ ['u', 's', 'e', 'r', 'F', 'i', 'r', 's', 't', 'N', 'a', 'm', 'e']
      simp [List.isChain_cons_cons]
  obtain ⟨ds, hds, hback⟩ := (camelCase_laws hlib).1 _ hhumped
  cases hds.symm.trans hspelled
  exact ⟨hlib, hhumped, hspelled, hback⟩

end DynamicEval.Text
