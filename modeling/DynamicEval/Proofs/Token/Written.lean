import DynamicEval.Proofs.Numeral
import DynamicEval.Proofs.Token.Literals
import DynamicEval.Text.Quoted

/-!
# Tokens as they are written

A decimal integer, a quoted literal, a name and a sign are cut off the head of a text as the tokens
that they were written for, if nothing behind them runs on: behind a name or an integer there has to
be a blank, a bracket, a comma, or a point that no figure follows.

## Main definitions

* `Scans`: the kinds of the tokens of a text, wherever the text stands.
* `Lexer.Breaks`: a text that no name and no integer runs on into.
* `Lexer.IsName`, `Text.IsPlain`: names, and the characters whose quoted form can be read.

## Main results

* `Scans.integer`, `Scans.string`, `Scans.name`, `Scans.operator`: what is written is scanned.
* `Scans.numeral`: so is a numeral in any base at the end of a text.
* `scanFrom_names`: the names among the tokens of a text are names.
-/

namespace DynamicEval

open Lexer

/-- Wherever the text stands, it is cut into tokens of the given kinds. -/
def Scans (cs : List Char) (kinds : List TokenKind) : Prop :=
  ∀ position, ∃ ts, scanFrom position cs = .ok ts ∧ ts.map Token.kind = kinds

/-- A character whose form inside of quotes can be read: a blank, a sign, a letter or a figure of
ASCII, or the escaped form of a line break or a tabulator. -/
def Text.IsPlain (c : Char) : Prop :=
  ' ' ≤ c ∧ c ≤ '~' ∨ c = '\n' ∨ c = '\t' ∨ c = '\r'

/-- A text that can be a name. -/
def Lexer.IsName (s : String) : Prop :=
  ∃ c cs, s = String.ofList (c :: cs) ∧ startsName c = true ∧ ∀ d ∈ cs, continuesName d = true

/-- A text that no name and no integer runs on into: it is empty, or begins with a blank, a bracket
or a comma, or with a point before a name. -/
inductive Lexer.Breaks : List Char → Prop where
  | nil : Breaks []
  | mark {c : Char} (hc : c ∈ [' ', ',', '[', ']', '(', ')']) (r : List Char) : Breaks (c :: r)
  | point {c : Char} (hc : startsName c = true) (r : List Char) : Breaks ('.' :: c :: r)

/-! ### Classes of characters -/

namespace Text.CharClass

variable {inside : Bool} {n b : Nat} {bs : List Nat}

theorem inside_of_lt (hn : n < b) : CharClass.inside inside n (b :: bs) = inside := if_pos hn

theorem inside_of_le (hn : b ≤ n) :
    CharClass.inside inside n (b :: bs) = CharClass.inside (!inside) n bs :=
  if_neg (Nat.not_lt.mpr hn)

end Text.CharClass

namespace Lexer

variable {c : Char} {cs r : List Char} {s : String}

/-! ### Names -/

/-- Names do not begin with one of the characters that come before the letters. -/
theorem le_toNat_of_startsName (hc : startsName c = true) : 65 ≤ c.toNat := by
  by_contra hlt
  have hletter : Text.isAlphabetic c = false :=
    Text.CharClass.inside_of_lt (Nat.lt_of_not_le hlt)
  rw [startsName, hletter, Bool.false_or] at hc
  rw [eq_of_beq hc] at hlt
  exact hlt (by decide)

theorem ne_of_startsName {d : Char} (hc : startsName c = true) (hd : d.toNat < 65) : c ≠ d := by
  rintro rfl
  exact Nat.not_le_of_lt hd (le_toNat_of_startsName hc)

theorem not_isDigit_of_startsName (hc : startsName c = true) : c.isDigit = false := by
  refine Bool.eq_false_iff.mpr fun hdigit => ?_
  have hle := (Char.isDigit_iff_toNat.mp hdigit).2
  exact absurd (Nat.le_trans (le_toNat_of_startsName hc) hle) (by decide)

theorem not_isSpace_of_startsName (hc : startsName c = true) : isSpace c = false := by
  have hne {d : Char} (hd : d.toNat < 65) : (c == d) = false :=
    beq_eq_false_iff_ne.mpr (ne_of_startsName hc hd)
  simp only [isSpace, hne (d := ' ') (by decide), hne (d := '\r') (by decide),
    hne (d := '\t') (by decide), hne (d := '\n') (by decide), Bool.or_false]

theorem not_isQuote_of_startsName (hc : startsName c = true) : Text.isQuote c = false := by
  have hne {d : Char} (hd : d.toNat < 65) : (c == d) = false :=
    beq_eq_false_iff_ne.mpr (ne_of_startsName hc hd)
  simp only [Text.isQuote, hne (d := '"') (by decide), hne (d := '\'') (by decide), Bool.or_false]

theorem not_startsNumber_of_startsName (hc : startsName c = true) (next : Option Char) :
    startsNumber c next = false := by
  have hpoint : (c == '.') = false := beq_eq_false_iff_ne.mpr (ne_of_startsName hc (by decide))
  rw [startsNumber, not_isDigit_of_startsName hc, hpoint, Bool.false_and, Bool.or_false]

/-! ### What does not run on -/

namespace Breaks

theorem head_mem (hr : Breaks r) {d : Char} (hd : r.head? = some d) :
    d ∈ ['.', ' ', ',', '[', ']', '(', ')'] := by
  cases hr with
  | nil => cases hd
  | mark hc r => exact Option.some.inj hd ▸ List.mem_cons_of_mem _ hc
  | point hc r => exact Option.some.inj hd ▸ List.mem_cons_self

/-- What holds of every mark and of the point holds of a first character. -/
theorem head_eq {α : Type} {f : Char → α} {a : α}
    (hf : ['.', ' ', ',', '[', ']', '(', ')'].map f = List.replicate 7 a) (hr : Breaks r) {d : Char}
    (hd : r.head? = some d) : f d = a :=
  List.eq_of_mem_replicate (hf ▸ List.mem_map_of_mem (hr.head_mem hd))

theorem not_continuesName (hr : Breaks r) {d : Char} (hd : r.head? = some d) :
    continuesName d = false :=
  head_eq (by decide) hr hd

theorem not_isDigitOf_ten (hr : Breaks r) {d : Char} (hd : r.head? = some d) :
    isDigitOf 10 d = false := by
  rw [NumberParts.isDigitOf_ten]
  exact head_eq (f := Char.isDigit) (by decide) hr hd

theorem literalBase?_eq_none (hr : Breaks r) {d : Char} (hd : r.head? = some d) :
    literalBase? d = none :=
  head_eq (by decide) hr hd

theorem fractionLength_eq_zero (hr : Breaks r) : fractionLength 10 r = 0 := by
  cases hr with
  | nil => rfl
  | @mark c hc r =>
    have hpoint : c ≠ '.' := by
      rintro rfl
      exact absurd hc (by decide)
    simp [fractionLength, hpoint]
  | point hc r =>
    rw [fractionLength, NumberParts.isDigitOf_ten, not_isDigit_of_startsName hc,
      if_neg Bool.false_ne_true]

/-- No name or integer runs on into a point before a name. -/
theorem of_isName (hs : IsName s) (r : List Char) : Breaks ('.' :: (s.toList ++ r)) := by
  obtain ⟨c, cs, rfl, hc, -⟩ := hs
  rw [String.toList_ofList]
  exact .point hc (cs ++ r)

/-- A run of characters ends before such a text. -/
theorem takeWhile_append {p : Char → Bool} (hcs : ∀ d ∈ cs, p d = true)
    (hr : ∀ d, r.head? = some d → p d = false) : (cs ++ r).takeWhile p = cs := by
  rw [List.takeWhile_append_of_pos hcs]
  cases r with
  | nil => rw [List.takeWhile_nil, List.append_nil]
  | cons d r => rw [List.takeWhile_cons, hr d rfl, if_neg nofun, List.append_nil]

end Breaks

/-- A name is cut off before a text that it does not run on into. -/
theorem lexeme_name (hc : startsName c = true) (hcs : ∀ d ∈ cs, continuesName d = true)
    (hr : Breaks r) :
    lexeme c (cs ++ r) = .ok ⟨some (.name (String.ofList (c :: cs))), cs.length⟩ := by
  have hmore := Breaks.takeWhile_append hcs fun d => hr.not_continuesName
  simp only [lexeme, not_isSpace_of_startsName hc, not_isQuote_of_startsName hc,
    not_startsNumber_of_startsName hc, hc, hmore]
  rfl

/-! ### Signs -/

/-- A point before a name is not the point of a number. -/
theorem lexeme_point (hc : startsName c = true) (cs : List Char) :
    lexeme '.' (c :: cs) = .ok ⟨some .dot, 0⟩ := by
  have hnumber : startsNumber '.' (c :: cs).head? = false := by
    rw [startsNumber, List.head?_cons, Option.any_some, not_isDigit_of_startsName hc]
    rfl
  have hspace : isSpace '.' = false := rfl
  have hquote : Text.isQuote '.' = false := rfl
  have hname : startsName '.' = false := by decide
  simp only [lexeme, hspace, hquote, hnumber, hname]
  rfl

theorem lexeme_bang (hcs : cs.head? ≠ some '=') : lexeme '!' cs = .ok ⟨some .bang, 0⟩ := by
  have hsign : sign? '!' cs.head? = some (.bang, 0) := by
    cases cs with
    | nil => rfl
    | cons c cs =>
      have hc : c ≠ '=' := fun heq => hcs (heq ▸ rfl)
      simp [sign?, hc]
  have hspace : isSpace '!' = false := rfl
  have hquote : Text.isQuote '!' = false := rfl
  have hnumber : startsNumber '!' cs.head? = false := rfl
  have hname : startsName '!' = false := by decide
  simp only [lexeme, hspace, hquote, hnumber, hname, hsign]
  rfl

/-! ### Integers -/

theorem numberBase_of_isDigit (hcs : ∀ d ∈ cs, d.isDigit = true) (hr : Breaks r) (c : Char) :
    numberBase c (cs ++ r) = (10, 0) := by
  have hbase : ∀ d, (cs ++ r).head? = some d → literalBase? d = none := by
    intro d hd
    cases cs with
    | nil => exact hr.literalBase?_eq_none hd
    | cons e cs =>
      exact Option.some.inj hd ▸ Numeral.literalBase?_of_isDigit (hcs e List.mem_cons_self)
  unfold numberBase
  split
  · next d ds heq => rw [hbase d (by rw [heq]; rfl)]
  · rfl

theorem number_integer (hc : (c == '.') = false) (hcs : ∀ d ∈ cs, d.isDigit = true)
    (hr : Breaks r) :
    number c (cs ++ r) =
      .ok ⟨some (.integer (readInt (String.ofList (c :: cs)))), cs.length⟩ := by
  have hdigits : (cs ++ r).takeWhile (isDigitOf 10) = cs := by
    refine Breaks.takeWhile_append (fun d hd => ?_) fun d => hr.not_isDigitOf_ten
    rw [NumberParts.isDigitOf_ten, hcs d hd]
  have hend : ∀ d, r.head? = some d → continuesName d = false := fun d => hr.not_continuesName
  unfold number
  rw [numberBase_of_isDigit hcs hr]
  simp only [List.drop_zero, hdigits, Nat.zero_add, List.drop_left, hc, hr.fractionLength_eq_zero,
    Nat.zero_ne_one, false_and, if_false, Bool.false_eq_true, Nat.add_zero, List.take_left, if_true]
  split
  · next d hd => rw [if_neg (hend d hd ▸ nofun)]
  · rfl

/-- Figures are cut off before a text that they do not run on into. -/
theorem lexeme_integer (hc : c.isDigit = true) (hcs : ∀ d ∈ cs, d.isDigit = true) (hr : Breaks r) :
    lexeme c (cs ++ r) =
      .ok ⟨some (.integer (readInt (String.ofList (c :: cs)))), cs.length⟩ := by
  have hne {d : Char} (hd : d.isDigit = false) : (c == d) = false := by
    refine beq_eq_false_iff_ne.mpr ?_
    rintro rfl
    rw [hc] at hd
    cases hd
  have hspace : isSpace c = false := by
    simp only [isSpace, hne (d := ' ') rfl, hne (d := '\r') rfl, hne (d := '\t') rfl,
      hne (d := '\n') rfl, Bool.or_false]
  have hquote : Text.isQuote c = false := by
    simp only [Text.isQuote, hne (d := '"') rfl, hne (d := '\'') rfl, Bool.or_false]
  simp only [lexeme, hspace, hquote, startsNumber, hc, number_integer (hne rfl) hcs hr]
  rfl

theorem number_marked {d : Char} {base : Nat} (hd : literalBase? d = some base)
    (hne : cs ≠ []) (hcs : ∀ e ∈ cs, isDigitOf base e = true) :
    number '0' (d :: cs) =
      .ok ⟨some (.integer (readInt (String.ofList ('0' :: d :: cs)))), cs.length + 1⟩ := by
  have hbase : numberBase '0' (d :: cs) = (base, 1) := by simp [numberBase, hd]
  have hdigits : cs.takeWhile (isDigitOf base) = cs := List.takeWhile_eq_self_iff.mpr hcs
  have hpoint : ('0' == '.') = false := rfl
  unfold number
  rw [hbase]
  simp [hdigits, hne, hpoint, Nat.add_comm 1, fractionLength]

/-- Behind a base prefix all digits up to the end of the text belong to the number. -/
theorem lexeme_marked {d : Char} {base : Nat} (hd : literalBase? d = some base) (hne : cs ≠ [])
    (hcs : ∀ e ∈ cs, isDigitOf base e = true) :
    lexeme '0' (d :: cs) =
      .ok ⟨some (.integer (readInt (String.ofList ('0' :: d :: cs)))), cs.length + 1⟩ := by
  have hspace : isSpace '0' = false := rfl
  have hquote : Text.isQuote '0' = false := rfl
  have hstarts : startsNumber '0' (d :: cs).head? = true := rfl
  simp only [lexeme, hspace, hquote, hstarts, number_marked hd hne hcs]
  rfl

/-! ### Literals -/

/-- The blanks, signs, letters and figures of ASCII print. -/
theorem isPrintable_of_le (hlow : ' ' ≤ c) (hhigh : c ≤ '~') : Text.isPrintable c = true := by
  have hlow : 32 ≤ c.toNat := hlow
  have hhigh : c.toNat < 127 := Nat.lt_succ_of_le hhigh
  have hshape : Text.isUnprintable c = false := calc
    _ = _ := Text.CharClass.inside_of_le (Nat.zero_le _)
    _ = _ := Text.CharClass.inside_of_le hlow
    _ = _ := Text.CharClass.inside_of_lt hhigh
  have hshown : Text.isDefaultIgnorable c = false := Text.CharClass.inside_of_lt (by omega)
  have hextend : Text.isGraphemeExtend c = false := Text.CharClass.inside_of_lt (by omega)
  rw [Text.isPrintable, hshape, hshown, hextend]
  rfl

/-- A plain character stands in quotes as it is, or as its escape. -/
theorem escape_cases (hc : Text.IsPlain c) :
    (Text.escape c = [c] ∧ c ≠ '"' ∧ c ≠ '\\') ∨
      ∃ d, Text.escape c = ['\\', d] ∧ (c, d) ∈ Text.escapes := by
  by_cases htab : c = '\t'
  · exact .inr ⟨'t', by rw [htab]; rfl, by rw [htab]; decide⟩
  by_cases hline : c = '\n'
  · exact .inr ⟨'n', by rw [hline]; rfl, by rw [hline]; decide⟩
  by_cases hreturn : c = '\r'
  · exact .inr ⟨'r', by rw [hreturn]; rfl, by rw [hreturn]; decide⟩
  by_cases hquote : c = '"'
  · exact .inr ⟨'"', by rw [hquote]; rfl, by rw [hquote]; decide⟩
  by_cases hslash : c = '\\'
  · exact .inr ⟨'\\', by rw [hslash]; rfl, by rw [hslash]; decide⟩
  obtain ⟨hlow, hhigh⟩ : ' ' ≤ c ∧ c ≤ '~' := by simpa [Text.IsPlain, htab, hline, hreturn] using hc
  have hzero : c ≠ '\x00' := by
    rintro rfl
    exact absurd hlow (by decide)
  refine .inl ⟨?_, hquote, hslash⟩
  simp [Text.escape, htab, hline, hreturn, hquote, hslash, hzero, isPrintable_of_le hlow hhigh]

/-- The quoted form of a plain text is a way to write it in double quotes. -/
theorem written_flatMap_escape (hcs : ∀ c ∈ cs, Text.IsPlain c) :
    Text.Written '"' cs (cs.flatMap Text.escape) := by
  induction cs with
  | nil => exact .nil
  | cons c cs ih =>
    obtain ⟨hc, hcs⟩ := List.forall_mem_cons.mp hcs
    rw [List.flatMap_cons]
    rcases escape_cases hc with ⟨hescape, hquote, hslash⟩ | ⟨d, hescape, hd⟩
    · rw [hescape, List.singleton_append]
      exact .bare hslash hquote (ih hcs)
    · rw [hescape, List.cons_append, List.singleton_append]
      exact .escaped hd (ih hcs)

end Lexer

/-! ### Names among tokens -/

theorem lexeme_isName {c : Char} {cs : List Char} {x : Lexeme} {s : String}
    (hx : lexeme c cs = .ok x) (hs : x.kind = some (.name s)) : IsName s := by
  cases lexeme_rule hx with
  | blank | literal => cases hs
  | number _ hx =>
    rcases number_kind hx with ⟨n, hkind⟩ | ⟨y, hkind⟩
    · cases hs.symm.trans hkind
    · cases hs.symm.trans hkind
  | name hc =>
    cases hs
    exact ⟨c, _, rfl, hc, fun d hd => List.mem_takeWhile_imp hd⟩
  | sign hn =>
    cases hs
    rcases sign?_kind hn with ⟨op, hop⟩ | hmem
    · cases hop
    · simp at hmem

/-- The names among the tokens of a text are names. -/
theorem scanFrom_names {position : Nat} {cs : List Char} {ts : List Token}
    (h : scanFrom position cs = .ok ts) : ∀ t ∈ ts, ∀ s, t.kind = .name s → IsName s := by
  intro t ht s hs
  rcases exists_lexeme_of_mem h ht with heof | ⟨c, rest, x, hx, hkind, -⟩
  · cases heof.symm.trans hs
  · exact lexeme_isName hx (hkind.trans (congrArg some hs))

/-! ### What is written is scanned -/

namespace Scans

variable {c : Char} {cs r : List Char} {s : String} {kind : TokenKind} {kinds : List TokenKind}
  {n : Nat}

theorem nil : Scans [] [.eof] := fun position => ⟨_, by rw [scanFrom], rfl⟩

/-- A token and what is behind it. -/
theorem token (hl : lexeme c cs = .ok ⟨some kind, n⟩) (hcs : Scans (cs.drop n) kinds) :
    Scans (c :: cs) (kind :: kinds) := by
  intro position
  obtain ⟨ts, hts, rfl⟩ := hcs (position + 1 + n)
  exact ⟨_, by rw [scanFrom_cons hl, hts]; rfl, rfl⟩

/-- A blank does not matter. -/
theorem blank (hcs : Scans cs kinds) : Scans (' ' :: cs) kinds := by
  intro position
  obtain ⟨ts, hts, rfl⟩ := hcs (position + 1)
  have hl : lexeme ' ' cs = .ok ⟨none, 0⟩ := rfl
  exact ⟨ts, by rw [scanFrom_cons hl, List.drop_zero, Nat.add_zero, hts]; rfl, rfl⟩

/-- A name and a text that it does not run on into. -/
theorem name (hs : IsName s) (hr : Breaks r) (hkinds : Scans r kinds) :
    Scans (s.toList ++ r) (.name s :: kinds) := by
  obtain ⟨c, cs, rfl, hc, hcs⟩ := hs
  rw [String.toList_ofList, List.cons_append]
  refine token (lexeme_name hc hcs hr) ?_
  rwa [List.drop_left]

/-- The figures of an integer and a text that they do not run on into. -/
theorem integer {n : Int64} (hn : 0 ≤ n.toInt) (hr : Breaks r) (hkinds : Scans r kinds) :
    Scans ((toString n.toInt).toList ++ r) (.integer n :: kinds) := by
  obtain ⟨c, cs, htext, hc, hcs, hread⟩ := exists_digits hn
  have hl := lexeme_integer hc hcs hr
  rw [hread] at hl
  rw [htext, List.cons_append]
  refine token hl ?_
  rwa [List.drop_left]

/-- A numeral without a sign is scanned as what it is read as. -/
theorem numeral {m : Nat} (h : Numeral.Denotes cs m) :
    Scans cs [.integer (readInt (String.ofList cs)), .eof] := by
  have hdigits := h.isDigitOf (Numeral.split_le cs)
  have hne := h.ne_nil
  rcases Numeral.split_cases cs with hs | ⟨d, base, ds, hd, rfl, hs⟩
  · rw [hs] at hdigits hne
    obtain ⟨c, cs, rfl⟩ := List.exists_cons_of_ne_nil hne
    have hfigures : ∀ d ∈ c :: cs, d.isDigit = true := fun d hd =>
      (NumberParts.isDigitOf_ten d).symm.trans (hdigits d hd)
    obtain ⟨hc, hcs⟩ := List.forall_mem_cons.mp hfigures
    have hl := lexeme_integer hc hcs .nil
    rw [List.append_nil] at hl
    refine .token hl ?_
    rw [List.drop_length]
    exact .nil
  · rw [hs] at hdigits hne
    refine .token (lexeme_marked hd hne hdigits) ?_
    rw [List.drop_succ_cons, List.drop_length]
    exact .nil

/-- A quoted literal. -/
theorem string (hs : ∀ c ∈ s.toList, Text.IsPlain c) (hkinds : Scans r kinds) :
    Scans (Text.quoted s.toList ++ r) (.string s :: kinds) := by
  have hl := lexeme_of_isQuote (q := '"') rfl (s.toList.flatMap Text.escape ++ '"' :: r)
  rw [(written_flatMap_escape hs).literal (by decide)] at hl
  simp only [Except.map, String.ofList_toList] at hl
  rw [Text.quoted, List.cons_append, List.cons_append, List.append_assoc, List.singleton_append]
  refine token hl ?_
  rwa [List.drop_length_add_append]

/-- A point before a name. -/
theorem point (hs : IsName s) (hkinds : Scans (s.toList ++ r) kinds) :
    Scans ('.' :: (s.toList ++ r)) (.dot :: kinds) := by
  obtain ⟨c, cs, rfl, hc, -⟩ := hs
  rw [String.toList_ofList] at hkinds ⊢
  exact token (lexeme_point hc (cs ++ r)) hkinds

/-- The sign of negation before anything that does not make it the sign of inequality. -/
theorem bang (hcs : cs.head? ≠ some '=') (hkinds : Scans cs kinds) :
    Scans ('!' :: cs) (.bang :: kinds) :=
  token (lexeme_bang hcs) hkinds

/-- The sign of a binary operator between blanks. -/
theorem operator (op : BinaryOp) (hkinds : Scans cs kinds) :
    Scans (op.symbol.toList ++ ' ' :: cs) (.operator op :: kinds) := by
  cases op <;> exact token rfl hkinds.blank

end Scans

end DynamicEval
