import DynamicEval.Proofs.Token.Tiling

/-!
# Tokens apart from each other

The spelling of a token is scanned as that token when it stands alone, and also before a blank. So
the spellings of the tokens of a text, written with blanks between them, have the same tokens again,
although the rules for signs, numbers and names look at what follows.

## Main definitions

* `Token.StandsAlone`: a token that its own spelling is scanned as.
* `Spaced`: words with runs of blanks between them.

## Main results

* `standsAlone_of_mem`: the tokens of a text stand alone.
* `Spaced.scanFrom`: tokens that stand alone are scanned from their spellings with blanks between.
* `scan_spaced`: the tokens of a text are those of their spaced spellings.
-/

namespace DynamicEval

open Lexer (isSpace Stops)

/-- What a token stands for and its spelling, without its place. -/
def Token.content (t : Token) : TokenKind × String := (t.kind, t.lexeme)

/-- A token that its own spelling is scanned as. -/
def Token.StandsAlone (t : Token) : Prop :=
  ∃ c cs, t.lexeme = String.ofList (c :: cs) ∧
    DynamicEval.lexeme c cs = .ok ⟨some t.kind, cs.length⟩

/-- Words in order with a run of blanks behind each of them, which the last one may lack. -/
inductive Spaced : List String → List Char → Prop where
  | nil : Spaced [] []
  | single (word : String) : Spaced [word] word.toList
  | cons (word : String) {words : List String} {gap cs : List Char} (hne : gap ≠ [])
      (hgap : ∀ c ∈ gap, isSpace c = true) (h : Spaced words cs) :
      Spaced (word :: words) (word.toList ++ (gap ++ cs))

variable {cs r : List Char} {ts : List Token} {t : Token} {p : Nat}

/-! ### Tokens that stand alone -/

/-- The tokens of a text stand alone. -/
theorem standsAlone_of_mem (h : scanFrom p cs = .ok ts) (ht : t ∈ ts) (hne : t.kind ≠ .eof) :
    t.StandsAlone := by
  rcases exists_lexeme_of_mem h ht with heof | ⟨c, rest, ⟨kind, extra⟩, hx, rfl, hlexeme⟩
  · exact absurd heof hne
  · refine ⟨c, rest.take extra, hlexeme, ?_⟩
    rw [List.length_take_of_le (lexeme_extra_le hx)]
    exact lexeme_take hx (Nat.le_refl extra)

/-- A token that stands alone is scanned before the end of a text, a blank or a quote. -/
theorem Token.StandsAlone.scanFrom_append (ht : t.StandsAlone) (hr : Stops r) (p : Nat) :
    scanFrom p (t.lexeme.toList ++ r) =
      (scanFrom (p + t.lexeme.length) r).map (⟨t.kind, t.lexeme, p⟩ :: ·) := by
  obtain ⟨c, cs, hlexeme, hx⟩ := ht
  have hx := lexeme_take_append hx (Nat.le_refl cs.length) hr
  rw [List.take_length] at hx
  have hlength : p + (String.ofList (c :: cs)).length = p + 1 + cs.length := by
    rw [String.length_ofList, List.length_cons, Nat.add_assoc, Nat.add_comm 1]
  rw [hlexeme, String.toList_ofList, List.cons_append, scanFrom_cons hx, List.drop_left, hlength]
  simp only [List.take_left]

/-! ### Blanks -/

theorem scanFrom_gap {gap : List Char} (hgap : ∀ c ∈ gap, isSpace c = true) (p : Nat) :
    scanFrom p (gap ++ r) = scanFrom (p + gap.length) r := by
  induction gap generalizing p with
  | nil => rfl
  | cons c gap ih =>
    obtain ⟨hc, hgap⟩ := List.forall_mem_cons.mp hgap
    have hx : lexeme c (gap ++ r) = .ok ⟨none, 0⟩ := by rw [lexeme, if_pos hc]
    rw [List.cons_append, scanFrom_cons hx, List.drop_zero, ih hgap, List.length_cons, Nat.add_zero,
      Nat.add_assoc, Nat.add_comm 1]
    cases scanFrom (p + (gap.length + 1)) r <;> rfl

theorem stops_of_gap {gap : List Char} (hne : gap ≠ []) (hgap : ∀ c ∈ gap, isSpace c = true) :
    Stops (gap ++ r) := by
  obtain ⟨c, gap, rfl⟩ := List.exists_cons_of_ne_nil hne
  intro d hd
  cases hd
  exact Bool.or_eq_true_iff.mpr (.inr (hgap c List.mem_cons_self))

namespace Spaced

/-- Tokens that stand alone are scanned from their spellings with blanks between them. -/
theorem scanFrom (hts : ∀ t ∈ ts, t.StandsAlone) (h : Spaced (ts.map Token.lexeme) cs) (p : Nat) :
    ∃ us, DynamicEval.scanFrom p cs = .ok us ∧
      us.map Token.content = ts.map Token.content ++ [(.eof, "")] := by
  generalize hwords : ts.map Token.lexeme = words at h
  induction h generalizing ts p with
  | nil =>
    obtain rfl := List.map_eq_nil_iff.mp hwords
    exact ⟨_, by rw [DynamicEval.scanFrom], rfl⟩
  | single word =>
    obtain ⟨t, rfl, rfl⟩ := List.map_eq_singleton_iff.mp hwords
    have hscan := (hts t List.mem_cons_self).scanFrom_append Lexer.stops_nil p
    rw [List.append_nil, DynamicEval.scanFrom] at hscan
    exact ⟨_, hscan, rfl⟩
  | cons word hne hgap _ ih =>
    obtain ⟨t, ts, rfl, rfl, rfl⟩ := List.map_eq_cons_iff.mp hwords
    obtain ⟨ht, hts⟩ := List.forall_mem_cons.mp hts
    rw [ht.scanFrom_append (stops_of_gap hne hgap), scanFrom_gap hgap]
    obtain ⟨us, hus, hcontent⟩ := ih hts _ rfl
    rw [hus]
    exact ⟨_, rfl, by rw [List.map_cons, hcontent]; rfl⟩

/-- Single blanks between words. -/
theorem intercalate (words : List String) : Spaced words (" ".intercalate words).toList := by
  rw [String.toList_intercalate]
  induction words with
  | nil => exact .nil
  | cons word words ih =>
    cases words with
    | nil =>
      rw [List.map_cons, List.map_nil, List.intercalate_singleton]
      exact .single word
    | cons next words =>
      rw [List.map_cons, List.map_cons, List.intercalate_cons_cons, List.append_assoc]
      exact .cons word (List.cons_ne_nil _ _) (List.forall_mem_singleton.mpr rfl) ih

end Spaced

/-! ### Whole texts -/

/-- **Tokens may be spaced apart.** Whatever runs of blanks stand between the spellings of the
tokens of a text, they are scanned as the same tokens in the same order; so they are with single
blanks. -/
theorem scan_spaced {text : String} {ts : List Token} {eof : Token}
    (h : scan text = .ok (ts ++ [eof])) :
    (∀ cs, Spaced (ts.map Token.lexeme) cs → ∃ us, scan (String.ofList cs) = .ok us ∧
      us.map Token.content = (ts ++ [eof]).map Token.content) ∧
    ∃ us, scan (" ".intercalate (ts.map Token.lexeme)) = .ok us ∧
      us.map Token.content = (ts ++ [eof]).map Token.content := by
  obtain ⟨us, hsame, htile⟩ := scanFrom_tiling h
  obtain ⟨rfl, heof⟩ := List.append_inj' hsame rfl
  obtain rfl := List.singleton_inj.mp heof
  have hspaced : ∀ cs, Spaced (ts.map Token.lexeme) cs → ∃ us, scan (String.ofList cs) = .ok us ∧
      us.map Token.content = (ts ++ [(⟨.eof, "", 0 + text.toList.length⟩ : Token)]).map
        Token.content := by
    intro cs hcs
    have halone : ∀ t ∈ ts, t.StandsAlone := fun t ht =>
      standsAlone_of_mem h (List.mem_append_left _ ht) (htile.kind_ne t ht)
    rw [scan, String.toList_ofList, List.map_append]
    exact hcs.scanFrom halone 0
  refine ⟨hspaced, ?_⟩
  have hsingle := hspaced _ (.intercalate _)
  rwa [String.ofList_toList] at hsingle

/-- Signs, numbers and a name without any blank, with tabulators and with single blanks. -/
theorem scan_spaced_crowded :
    let ts : List Token := [⟨.name "a", "a", 0⟩, ⟨.operator .lt, "<", 1⟩, ⟨.operator .sub, "-", 2⟩,
      ⟨.integer 1, "0b1", 3⟩, ⟨.float (readFloat "0.5"), ".5", 6⟩]
    scan "a<-0b1.5" = .ok (ts ++ [⟨.eof, "", 8⟩]) ∧
      (∃ us, scan "a\t<\r\n- 0b1\t\t.5" = .ok us ∧
        us.map Token.content = ts.map Token.content ++ [(.eof, "")]) ∧
      ∃ us, scan "a < - 0b1 .5" = .ok us ∧
        us.map Token.content = ts.map Token.content ++ [(.eof, "")] := by
  intro ts
  have hscan : scan "a<-0b1.5" = .ok (ts ++ [⟨.eof, "", 8⟩]) := by decide +kernel
  have hspaced := scan_spaced hscan
  refine ⟨hscan, hspaced.1 _ ?_, hspaced.2⟩
  exact .cons "a" (List.cons_ne_nil '\t' []) (by simp [isSpace]) <|
    .cons "<" (List.cons_ne_nil '\r' ['\n']) (by simp [isSpace]) <|
    .cons "-" (List.cons_ne_nil ' ' []) (by simp [isSpace]) <|
    .cons "0b1" (List.cons_ne_nil '\t' ['\t']) (by simp [isSpace]) <| .single ".5"

end DynamicEval
