import DynamicEval.Proofs.Token.Quotes

/-!
# The canonical form of a text

By the rule for literals a quote opens a literal, the next quote of the same style that no backslash
protects closes it, and a literal that is never closed goes on to the end of the text. What a text
is made of by this rule says what its rewriting into double quotes is made of, piece by piece. So
the rewriting keeps what is outside of literals, and where literals open and close; it has
double-quoted literals only, and rewriting it again changes nothing.

## Main definitions

* `Text.Mark`, `Text.marks`: the pieces of a text by the rule for literals.
* `Text.Mark.doubled`: what becomes of a piece in double quotes.
* `Text.Mark.outline?`: what is outside of literals, and where they open and close.

## Main results

* `Text.flatMap_spelling_marks`: the pieces of a text are the text.
* `Text.marks_requote`: the pieces of the rewriting of a text.
* `Text.normalizeQuotes_canonical`: the rewriting is a canonical form.
-/

namespace DynamicEval.Text

/-- A piece of a text by the rule for literals. -/
inductive Mark where
  /-- A character outside of literals. -/
  | outside (c : Char)
  /-- A quote that opens a literal. -/
  | opening (quote : Char)
  /-- A character in a literal. -/
  | inside (quote c : Char)
  /-- A character in a literal that a backslash protects. -/
  | guarded (quote c : Char)
  /-- The quote that closes a literal. -/
  | closing (quote : Char)

namespace Mark

/-- The characters of a piece. -/
def spelling : Mark → List Char
  | outside c | opening c | inside _ c | closing c => [c]
  | guarded _ c => ['\\', c]

/-- What becomes of a piece when its literal is put into double quotes. -/
def doubled : Mark → Mark
  | outside c => outside c
  | opening _ => opening '"'
  | inside _ c => if c = '"' then guarded '"' '"' else inside '"' c
  | guarded quote c => if c = '\'' ∧ quote = '\'' then inside '"' '\'' else guarded '"' c
  | closing _ => closing '"'

/-- What a piece tells of a text apart from the contents of its literals: a character outside of
them, or that one opens or closes here. -/
def outline? : Mark → Option (Option Char)
  | outside c => some (some c)
  | opening _ | closing _ => some none
  | inside _ _ | guarded _ _ => none

theorem doubled_doubled (m : Mark) : m.doubled.doubled = m.doubled := by
  cases m with
  | inside quote c => by_cases hc : c = '"' <;> simp [doubled, hc]
  | guarded quote c => by_cases hc : c = '\'' ∧ quote = '\'' <;> simp [doubled, hc]
  | _ => rfl

theorem outline?_doubled (m : Mark) : m.doubled.outline? = m.outline? := by
  cases m with
  | inside quote c => by_cases hc : c = '"' <;> simp [doubled, outline?, hc]
  | guarded quote c => by_cases hc : c = '\'' ∧ quote = '\'' <;> simp [doubled, outline?, hc]
  | _ => rfl

/-- Only double quotes open literals in double quotes. -/
theorem eq_of_doubled_eq_opening {m : Mark} {q : Char} (h : m.doubled = opening q) : q = '"' := by
  cases m with
  | opening => exact (opening.inj h).symm
  | outside | closing => cases h
  | inside | guarded =>
    rw [doubled] at h
    split at h <;> cases h

end Mark

/-- The pieces of the rest of a text; `literal` is the quote of the literal that the rest starts
in. -/
def marks (literal : Option Char) : List Char → List Mark
  | [] => []
  | c :: cs =>
    match literal with
    | none => if isQuote c then .opening c :: marks (some c) cs else .outside c :: marks none cs
    | some quote =>
      if c == '\\' then
        match cs with
        | [] => [.inside quote c]
        | d :: ds => .guarded quote d :: marks literal ds
      else if c == quote then .closing c :: marks none cs
      else .inside quote c :: marks literal cs

variable {c q : Char} {literal : Option Char}

/-! ### The pieces of a text -/

/-- The pieces of a text are the text. -/
theorem flatMap_spelling_marks (literal : Option Char) (cs : List Char) :
    (marks literal cs).flatMap Mark.spelling = cs := by
  fun_induction marks literal cs with
  | case1 | case4 => rfl
  | case2 c cs _ ih | case3 c cs _ ih | case6 c cs _ _ _ ih | case7 c cs _ _ _ ih =>
    rw [List.flatMap_cons, ih]
    rfl
  | case5 c quote hc d ds ih =>
    rw [List.flatMap_cons, ih, eq_of_beq hc]
    rfl

theorem marks_opening (hc : isQuote c = true) (cs : List Char) :
    marks none (c :: cs) = .opening c :: marks (some c) cs := by
  rw [marks, if_pos hc]

theorem marks_outside (hc : ¬isQuote c = true) (cs : List Char) :
    marks none (c :: cs) = .outside c :: marks none cs := by
  rw [marks, if_neg hc]

theorem marks_guarded (q d : Char) (ds : List Char) :
    marks (some q) ('\\' :: d :: ds) = .guarded q d :: marks (some q) ds := rfl

theorem marks_closing (hq : q ≠ '\\') (cs : List Char) :
    marks (some q) (q :: cs) = .closing q :: marks none cs := by
  cases cs <;> simp [marks, hq]

theorem marks_inside (hslash : c ≠ '\\') (hc : c ≠ q) (cs : List Char) :
    marks (some q) (c :: cs) = .inside q c :: marks (some q) cs := by
  cases cs <;> simp [marks, hslash, hc]

/-- The rewriting of a text has the pieces of the text, each in double quotes. -/
theorem marks_requote (literal : Option Char) (cs : List Char) :
    marks (literal.map fun _ => '"') (requote literal cs) =
      (marks literal cs).map Mark.doubled := by
  fun_induction requote literal cs with
  | case1 => rfl
  | case2 c cs hc ih =>
    rw [marks_opening hc, List.map_cons, ← ih]
    exact marks_opening rfl _
  | case3 c cs hc ih =>
    rw [marks_outside hc, List.map_cons, ← ih]
    exact marks_outside hc _
  | case4 c quote hc =>
    obtain rfl := eq_of_beq hc
    rfl
  | case5 c quote hc d ds hd ih =>
    obtain rfl := eq_of_beq hc
    obtain ⟨rfl, rfl⟩ : d = '\'' ∧ quote = '\'' := by simpa using hd
    rw [marks_guarded, List.map_cons, ← ih]
    exact marks_inside (by decide) (by decide) _
  | case6 c quote hc d ds hd ih =>
    obtain rfl := eq_of_beq hc
    have hd : ¬(d = '\'' ∧ quote = '\'') := by simpa using hd
    rw [marks_guarded, List.map_cons, ← ih, Mark.doubled, if_neg hd]
    exact marks_guarded '"' d _
  | case7 c cs quote hslash hc ih =>
    obtain rfl := eq_of_beq hc
    rw [marks_closing (by simpa using hslash), List.map_cons, ← ih]
    exact marks_closing (q := '"') (by decide) _
  | case8 c cs quote hslash hc hquote ih =>
    obtain rfl := eq_of_beq hquote
    rw [marks_inside (by decide) (by simpa using hc), List.map_cons, ← ih]
    exact marks_guarded '"' '"' _
  | case9 c cs quote hslash hc hquote ih =>
    have hslash : c ≠ '\\' := by simpa using hslash
    have hquote : c ≠ '"' := by simpa using hquote
    rw [marks_inside hslash (by simpa using hc), List.map_cons, ← ih, Mark.doubled, if_neg hquote]
    exact marks_inside hslash hquote _

/-! ### The canonical form -/

theorem marks_normalizeQuotes (cs : List Char) :
    marks none (normalizeQuotes cs) = (marks none cs).map Mark.doubled :=
  marks_requote none cs

/-- **Rewriting the quotes of a text gives a canonical form.** The pieces of a text by the rule for
literals are the text. Rewriting it twice is rewriting it once; what is outside of literals is kept
in order, between the same literals; and every literal of the rewriting is in double quotes. -/
theorem normalizeQuotes_canonical (cs : List Char) :
    (marks none cs).flatMap Mark.spelling = cs ∧
      normalizeQuotes (normalizeQuotes cs) = normalizeQuotes cs ∧
      (marks none (normalizeQuotes cs)).filterMap Mark.outline? =
        (marks none cs).filterMap Mark.outline? ∧
      ∀ q, Mark.opening q ∈ marks none (normalizeQuotes cs) → q = '"' := by
  refine ⟨flatMap_spelling_marks none cs, ?_, ?_, fun q hq => ?_⟩
  · have htwice : marks none (normalizeQuotes (normalizeQuotes cs)) =
        marks none (normalizeQuotes cs) := by
      rw [marks_normalizeQuotes, marks_normalizeQuotes, List.map_map]
      exact List.map_congr_left fun m _ => m.doubled_doubled
    rw [← flatMap_spelling_marks none (normalizeQuotes (normalizeQuotes cs)), htwice,
      flatMap_spelling_marks]
  · rw [marks_normalizeQuotes, List.filterMap_map]
    exact List.filterMap_congr fun m _ => m.outline?_doubled
  · rw [marks_normalizeQuotes] at hq
    obtain ⟨m, -, hm⟩ := List.mem_map.mp hq
    exact Mark.eq_of_doubled_eq_opening hm

/-- A literal with both quotes in it, and one that is never closed. -/
example : normalizeQuotes "'say \"hi\"' + f('it\\'s".toList =
    "\"say \\\"hi\\\"\" + f(\"it's".toList := by
  decide +kernel

end DynamicEval.Text
