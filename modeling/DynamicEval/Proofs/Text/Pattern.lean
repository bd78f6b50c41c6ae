import DynamicEval.Text.Pattern

/-!
# Replacing what matches a pattern

The matches that are replaced are told by rules: the first of them starts where no earlier place in
the text starts a match, and the others are those in the text behind it. Which of several matches
at one place is taken is left open.

Programs leave their patterns to a library, which compiles the text of a pattern. The documentation
of the library tells what a text is read as, and that the matches are replaced by these rules. The
search in this project follows them too. Where a pattern has one match at most at every place,
everything that follows the rules gives the same text.

## Main definitions

* `Matches`, `Leftmost`: what matches a pattern, and the first match in a text.
* `Replaced`: a text with its successive matches replaced.
* `PatternLibrary`, `PatternLibrary.Reads`: a library of patterns, and its documentation.
* `PatternLibrary.ofPatterns`: a library of some patterns.

## Main results

* `Pattern.replaceAll_replaced`: the search replaces successive matches.
* `PatternLibrary.ofPatterns_reads`: a library that searches reads its patterns.
* `Replaced.unique`: there is one text with the matches replaced, if there is one match at most at
  every place.
-/

namespace DynamicEval.Text

/-! ### Matches -/

/-- A text matches the parts of a pattern. -/
inductive Matches : List Piece → List Char → Prop where
  | nil : Matches [] []
  | one {isIn : Char → Bool} {ps : List Piece} {c : Char} {cs : List Char} (hc : isIn c = true)
      (hcs : Matches ps cs) : Matches (.one isIn :: ps) (c :: cs)
  | many {isIn : Char → Bool} {ps : List Piece} {run cs : List Char} (hne : run ≠ [])
      (hrun : ∀ c ∈ run, isIn c = true) (hcs : Matches ps cs) :
      Matches (.many isIn :: ps) (run ++ cs)

/-- The first match in a text, with what stands before and behind it. -/
structure Leftmost (ps : List Piece) (before hit behind : List Char) : Prop where
  /-- There is a match. -/
  matched : Matches ps hit
  /-- No match starts at an earlier place. -/
  first : ∀ before' hit' behind', before' ++ hit' ++ behind' = before ++ hit ++ behind →
    Matches ps hit' → before.length ≤ before'.length

/-- The second text is the first one with its successive matches replaced by what `f` makes of
them. -/
inductive Replaced (ps : List Piece) (f : List Char → List Char) :
    List Char → List Char → Prop where
  | none {cs : List Char}
      (hnone : ∀ before hit behind, cs = before ++ hit ++ behind → ¬Matches ps hit) :
      Replaced ps f cs cs
  | hit {before hit behind ds : List Char} (hfirst : Leftmost ps before hit behind)
      (hbehind : Replaced ps f behind ds) :
      Replaced ps f (before ++ hit ++ behind) (before ++ f hit ++ ds)

/-! ### Libraries -/

/-- A library of patterns. -/
structure PatternLibrary where
  /-- Compiled patterns. -/
  Compiled : Type
  /-- Compiles the text of a pattern. -/
  compile : String → Option Compiled
  /-- A text with its matches replaced. -/
  replaceAll : Compiled → (List Char → List Char) → List Char → List Char

namespace PatternLibrary

/-- A library that reads the text of a pattern as its parts: the text is compiled, and successive
matches are replaced. -/
def Reads (lib : PatternLibrary) (p : Pattern) : Prop :=
  ∃ compiled, lib.compile p.text = some compiled ∧
    ∀ f cs, Replaced p.pieces f cs (lib.replaceAll compiled f cs)

/-- A library of some patterns, which it searches for. -/
def ofPatterns (known : List Pattern) : PatternLibrary where
  Compiled := Pattern
  compile text := known.find? (·.text == text)
  replaceAll := Pattern.replaceAll

end PatternLibrary

/-! ### The search -/

variable {ps : List Piece} {f : List Char → List Char} {cs ds es : List Char} {c : Char} {n : Nat}

theorem Matches.ne_nil (hcs : Matches ps cs) (hps : ps ≠ []) : cs ≠ [] := by
  cases hcs with
  | nil => exact absurd rfl hps
  | one => exact List.cons_ne_nil _ _
  | many hne => exact List.append_ne_nil_of_left_ne_nil hne _

/-- A match may start with one more character of the class that it starts with. -/
theorem Matches.many_cons {isIn : Char → Bool} (hc : isIn c = true)
    (hcs : Matches (.many isIn :: ps) cs) : Matches (.many isIn :: ps) (c :: cs) := by
  cases hcs with
  | many _ hrun hcs =>
    exact .many (List.cons_ne_nil _ _) (List.forall_mem_cons.mpr ⟨hc, hrun⟩) hcs

/-- What is found at the start of a text is a match. -/
theorem matches_take_of_matchLength? (hn : matchLength? ps cs = some n) :
    Matches ps (cs.take n) := by
  fun_induction matchLength? ps cs generalizing n with
  | case1 cs =>
    cases hn
    exact .nil
  | case2 => cases hn
  | case3 isIn ps c cs hc ih =>
    obtain ⟨k, hk, rfl⟩ := Option.map_eq_some_iff.mp hn
    exact .one hc (ih hk)
  | case4 => cases hn
  | case5 isIn ps c cs hc ihmore ihlast =>
    obtain ⟨k, hk, rfl⟩ := Option.map_eq_some_iff.mp hn
    rcases Option.or_eq_some_iff.mp hk with hmore | ⟨-, hlast⟩
    · exact (ihmore hmore).many_cons hc
    · exact .many (List.cons_ne_nil c []) (List.forall_mem_singleton.mpr hc) (ihlast hlast)
  | case6 => cases hn

/-- A match at the start of a text is found, or another one there. -/
theorem isSome_matchLength? (hcs : Matches ps cs) (behind : List Char) :
    (matchLength? ps (cs ++ behind)).isSome = true := by
  induction hcs with
  | nil => cases behind <;> rfl
  | one hc _ ih => rw [List.cons_append, matchLength?, if_pos hc, Option.isSome_map, ih]
  | @many isIn ps run cs hne hrun _ ih =>
    induction run with
    | nil => exact absurd rfl hne
    | cons c run ihrun =>
      obtain ⟨hc, hrun⟩ := List.forall_mem_cons.mp hrun
      rw [List.cons_append, List.cons_append, matchLength?, if_pos hc, Option.isSome_map,
        Option.isSome_or]
      by_cases hrest : run = []
      · rw [hrest, List.nil_append, ih, Bool.or_true]
      · rw [ihrun hrest hrun, Bool.true_or]

/-! ### Texts with matches replaced -/

namespace Replaced

/-- A character at which no match starts stays. -/
theorem cons (hstart : ∀ hit behind, c :: cs = hit ++ behind → ¬Matches ps hit)
    (hcs : Replaced ps f cs ds) : Replaced ps f (c :: cs) (c :: ds) := by
  cases hcs with
  | none hnone =>
    refine .none fun before hit behind heq => ?_
    cases before with
    | nil => exact hstart hit behind heq
    | cons d before => exact hnone before hit behind (List.cons.inj heq).2
  | @hit before hit behind ds hfirst hbehind =>
    have hmore : Leftmost ps (c :: before) hit behind := by
      refine ⟨hfirst.matched, fun before' hit' behind' heq hhit => ?_⟩
      cases before' with
      | nil => exact absurd hhit (hstart hit' behind' heq.symm)
      | cons d before' =>
        exact Nat.succ_le_succ (hfirst.first before' hit' behind' (List.cons.inj heq).2 hhit)
    exact .hit hmore hbehind

/-- A match at the start of a text is replaced first. -/
theorem start {hit behind : List Char} (hhit : Matches ps hit) (hbehind : Replaced ps f behind ds) :
    Replaced ps f (hit ++ behind) (f hit ++ ds) :=
  have hfirst : Leftmost ps [] hit behind := ⟨hhit, fun _ _ _ _ _ => Nat.zero_le _⟩
  .hit hfirst hbehind

/-- A text without matches stays as it is. -/
theorem eq_self (hnone : ∀ before hit behind, cs = before ++ hit ++ behind → ¬Matches ps hit)
    (hcs : Replaced ps f cs ds) : ds = cs := by
  cases hcs with
  | none => rfl
  | hit hfirst => exact absurd hfirst.matched (hnone _ _ _ rfl)

/-- What holds of the characters of a text, and of what replaces its matches, holds of the text with
the matches replaced. -/
theorem forall_mem {P : Char → Prop} (hcs : Replaced ps f cs ds)
    (hf : ∀ hit, (∀ c ∈ hit, P c) → ∀ c ∈ f hit, P c) (hP : ∀ c ∈ cs, P c) : ∀ c ∈ ds, P c := by
  induction hcs with
  | none => exact hP
  | hit _ _ ih =>
    obtain ⟨hP, hbehind⟩ := List.forall_mem_append.mp hP
    obtain ⟨hbefore, hhit⟩ := List.forall_mem_append.mp hP
    exact List.forall_mem_append.mpr
      ⟨List.forall_mem_append.mpr ⟨hbefore, hf _ hhit⟩, ih hbehind⟩

/-- There is one text with the matches replaced, if there is one match at most at every place. -/
theorem unique (hone : ∀ {hit behind hit' behind'}, hit ++ behind = hit' ++ behind' →
      Matches ps hit → Matches ps hit' → hit = hit')
    (hds : Replaced ps f cs ds) (hes : Replaced ps f cs es) : ds = es := by
  induction hds generalizing es with
  | none hnone => exact (hes.eq_self hnone).symm
  | @hit before hit behind ds hfirst _ ih =>
    generalize hcs : before ++ hit ++ behind = cs at hes
    cases hes with
    | none hnone => exact absurd hfirst.matched (hnone _ _ _ hcs.symm)
    | @hit before' hit' behind' es hfirst' hbehind' =>
      -- Both are the first match, so they start at one place, and there is one match there.
      have hlength : before.length = before'.length :=
        Nat.le_antisymm (hfirst.first before' hit' behind' hcs.symm hfirst'.matched)
          (hfirst'.first before hit behind hcs hfirst.matched)
      rw [List.append_assoc, List.append_assoc] at hcs
      obtain ⟨rfl, hrest⟩ := List.append_inj hcs hlength
      obtain rfl := hone hrest hfirst.matched hfirst'.matched
      obtain rfl := List.append_cancel_left hrest
      rw [ih hbehind']

end Replaced

/-- Behind a match or where it starts, the search replaces successive matches. -/
theorem replaceFrom_replaced (hps : ps ≠ []) (f : List Char → List Char) (skip : Nat)
    (cs : List Char) : Replaced ps f (cs.drop skip) (replaceFrom ps f skip cs) := by
  fun_induction replaceFrom ps f skip cs with
  | case1 skip =>
    rw [List.drop_nil]
    refine .none fun before hit behind heq hhit => hhit.ne_nil hps ?_
    exact (List.append_eq_nil_iff.mp (List.append_eq_nil_iff.mp heq.symm).1).2
  | case2 skip c cs ih => exact ih
  | case3 c cs n hfound ih =>
    have hhit : Matches ps (c :: cs.take n) := matches_take_of_matchLength? hfound
    have hstart := Replaced.start hhit ih
    rwa [List.cons_append, List.take_append_drop] at hstart
  | case4 c cs hmissing ih =>
    refine .cons (fun hit behind heq hhit => ?_) ih
    obtain ⟨n, hn⟩ := Option.isSome_iff_exists.mp (isSome_matchLength? hhit behind)
    rw [← heq] at hn
    cases n with
    | succ n => exact hmissing n hn
    | zero =>
      -- A match without characters would match no part of the pattern.
      exact (matches_take_of_matchLength? hn).ne_nil hps rfl

/-- The search for a pattern with parts replaces successive matches. -/
theorem Pattern.replaceAll_replaced {p : Pattern} (hp : p.pieces ≠ []) (f : List Char → List Char)
    (cs : List Char) : Replaced p.pieces f cs (p.replaceAll f cs) :=
  replaceFrom_replaced hp f 0 cs

/-- A library that searches reads each of its patterns that has parts, by its text. -/
theorem PatternLibrary.ofPatterns_reads {known : List Pattern} {p : Pattern}
    (hp : known.find? (·.text == p.text) = some p) (hpieces : p.pieces ≠ []) :
    (ofPatterns known).Reads p :=
  ⟨p, hp, p.replaceAll_replaced hpieces⟩

end DynamicEval.Text
