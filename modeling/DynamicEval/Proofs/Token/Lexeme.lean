import DynamicEval.Proofs.Numeral
import DynamicEval.Proofs.Run

/-!
# What a token looks at

Which token starts at a character that opens no literal depends on the text up to the next quote or
blank and on nothing behind it: no number, name or sign goes on with a quote or a blank, and none
tells them apart from the end of the text. A token takes no more characters than the text has, and
stays what it is if the text behind it is cut off.

## Main definitions

* `Lexer.Stops`: a text that is empty or begins with a quote or a blank.
* `Lexer.CutNumber`: the pieces of a number.
* `Lexer.Rule`: what can start at a place.

## Main results

* `lexeme_append_stops`: a token is the same whatever stands behind the next quote or blank.
* `lexeme_take_append`: a token is the same when the text behind it is cut off.
* `lexeme_rule`: what starts at a place starts by a rule.
* `lexeme_extra_le`: a token ends within the text.
* `scanFrom_cons`: the tokens of a text by its first one.
* `exists_lexeme_of_mem`: where the spelling of a token comes from.
-/

namespace DynamicEval

namespace Lexer

open Text (isQuote)

/-- A character at which every number, name and sign before it is at its end. -/
def isStop (c : Char) : Bool := isQuote c || isSpace c

/-- A text that is empty or begins with a quote or a blank. -/
def Stops (r : List Char) : Prop := ∀ c, r.head? = some c → isStop c = true

variable {c : Char} {cs l r : List Char} {base n : Nat}

theorem stops_nil : Stops [] := fun _ hc => nomatch hc

/-! ### Stops in the classes of characters -/

theorem eq_of_isQuote (hc : isQuote c = true) : c = '"' ∨ c = '\'' := by
  simpa [isQuote] using hc

theorem isStop_iff_mem : isStop c = true ↔ c ∈ ['"', '\'', ' ', '\r', '\t', '\n'] := by
  simp [isStop, isQuote, isSpace, or_assoc]

/-- What holds of both quotes and all blanks holds of every stop. -/
theorem eq_of_isStop {α : Type} {f : Char → α} {a : α}
    (hf : ['"', '\'', ' ', '\r', '\t', '\n'].map f = List.replicate 6 a) (hc : isStop c = true) :
    f c = a :=
  List.eq_of_mem_replicate (hf ▸ List.mem_map_of_mem (isStop_iff_mem.mp hc))

theorem not_isDigitOf_of_isStop (hc : isStop c = true) : isDigitOf base c = false :=
  eq_of_isStop rfl hc

theorem not_continuesName_of_isStop (hc : isStop c = true) : continuesName c = false :=
  eq_of_isStop (by decide) hc

theorem not_isDigit_of_isStop (hc : isStop c = true) : c.isDigit = false :=
  eq_of_isStop rfl hc

theorem literalBase?_of_isStop (hc : isStop c = true) : literalBase? c = none :=
  eq_of_isStop rfl hc

theorem ne_point_of_isStop (hc : isStop c = true) : c ≠ '.' :=
  beq_eq_false_iff_ne.mp (eq_of_isStop (f := (· == '.')) rfl hc)

/-! ### Numbers -/

/-- A run of characters ends before a stop if stops are not among them. -/
theorem takeWhile_append_stops {p : Char → Bool} (hp : ∀ c, isStop c = true → p c = false)
    (hr : Stops r) : (l ++ r).takeWhile p = l.takeWhile p := by
  have hnil : r.takeWhile p = [] := by
    cases r with
    | nil => rfl
    | cons q r => rw [List.takeWhile_cons, hp q (hr q rfl), if_neg nofun]
  rw [List.takeWhile_append, hnil, List.append_nil]
  split
  · next hlen => exact (List.takeWhile_prefix p).eq_of_length hlen |>.symm
  · rfl

theorem head?_append_stops (hr : Stops r) :
    (l ++ r).head? = l.head? ∨ l = [] ∧ ∃ q, (l ++ r).head? = some q ∧ isStop q = true := by
  cases l with
  | cons c l => exact .inl rfl
  | nil =>
    cases r with
    | nil => exact .inl rfl
    | cons q r => exact .inr ⟨rfl, q, rfl, hr q rfl⟩

theorem numberBase_append_stops (hr : Stops r) :
    numberBase c (l ++ r) = numberBase c l := by
  by_cases hc : c = '0'
  · subst hc
    cases l with
    | cons d l => simp [numberBase]
    | nil =>
      cases r with
      | nil => rfl
      | cons q r => simp [numberBase, literalBase?_of_isStop (hr q rfl)]
  · simp [numberBase, hc]

theorem numberBase_skip_le (c : Char) (cs : List Char) : (numberBase c cs).2 ≤ cs.length := by
  unfold numberBase
  split
  · split <;> simp
  · exact Nat.zero_le _

/-- A fraction has digits behind its point. -/
theorem fractionLength_point (base : Nat) (cs : List Char) :
    fractionLength base ('.' :: cs) = if cs.takeWhile (isDigitOf base) = [] then 0
      else (cs.takeWhile (isDigitOf base)).length + 1 := by
  cases cs with
  | nil => rfl
  | cons d cs =>
    rw [fractionLength, List.takeWhile_cons]
    split <;> rfl

theorem fractionLength_append_stops (hr : Stops r) :
    fractionLength base (l ++ r) = fractionLength base l := by
  cases l with
  | nil =>
    cases r with
    | nil => rfl
    | cons q r => simp [fractionLength, ne_point_of_isStop (hr q rfl)]
  | cons d l =>
    by_cases hd : d = '.'
    · subst hd
      rw [List.cons_append, fractionLength_point, fractionLength_point,
        takeWhile_append_stops (fun _ => not_isDigitOf_of_isStop) hr]
    · simp [fractionLength, hd]

theorem fractionLength_le (base : Nat) (cs : List Char) : fractionLength base cs ≤ cs.length := by
  unfold fractionLength
  split
  · next c cs =>
    have hle := (List.takeWhile_prefix (isDigitOf base) (l := c :: cs)).length_le
    split
    · simpa using hle
    · exact Nat.zero_le _
  · exact Nat.zero_le _

/-- The number of characters of a prefix and of the digits behind it. -/
theorem digits_le (c : Char) (cs : List Char) :
    (numberBase c cs).2 +
      ((cs.drop (numberBase c cs).2).takeWhile (isDigitOf (numberBase c cs).1)).length ≤
        cs.length := by
  have hskip := numberBase_skip_le c cs
  have hle := (List.takeWhile_prefix (isDigitOf (numberBase c cs).1)
    (l := cs.drop (numberBase c cs).2)).length_le
  rw [List.length_drop] at hle
  omega

/-- A fraction behind the first `n` characters ends within the text. -/
theorem number_length_le (c : Char) (base : Nat) {cs : List Char} {n : Nat} (hn : n ≤ cs.length) :
    n + (if c == '.' then 0 else fractionLength base (cs.drop n)) ≤ cs.length := by
  have hle := fractionLength_le base (cs.drop n)
  rw [List.length_drop] at hle
  split <;> omega

theorem number_append_stops (hr : Stops r) : number c (l ++ r) = number c l := by
  have hbase := numberBase_append_stops (c := c) (l := l) hr
  have hskip := numberBase_skip_le c l
  have hlen := digits_le c l
  unfold number
  rw [hbase]
  generalize numberBase c l = b at hskip hlen ⊢
  obtain ⟨base, skip⟩ := b
  dsimp only at hskip hlen ⊢
  have hdigits : ((l ++ r).drop skip).takeWhile (isDigitOf base) =
      (l.drop skip).takeWhile (isDigitOf base) := by
    rw [List.drop_append_of_le_length hskip,
      takeWhile_append_stops (fun c => not_isDigitOf_of_isStop) hr]
  rw [hdigits]
  generalize (l.drop skip).takeWhile (isDigitOf base) = digits at hlen ⊢
  have hfraction : fractionLength base (l.drop (skip + digits.length) ++ r) =
      fractionLength base (l.drop (skip + digits.length)) := fractionLength_append_stops hr
  rw [List.drop_append_of_le_length hlen, hfraction]
  have hextra := number_length_le c base hlen
  generalize (if c == '.' then 0 else _) = fraction at hextra ⊢
  rw [List.take_append_of_le_length hextra, List.drop_append_of_le_length hextra]
  rcases head?_append_stops (l := l.drop (skip + digits.length + fraction)) hr with
    hhead | ⟨hnil, q, hhead, hq⟩
  · rw [hhead]
  · rw [hhead]
    simp [hnil, not_continuesName_of_isStop hq]

/-! ### Numbers as they are cut off -/

/-- How a number was cut off: the base and the length of its prefix behind `c`, the digits there,
the length of its fraction, and what the spelling up to its end stands for. -/
structure CutNumber (c : Char) (cs : List Char) (x : Lexeme) (base skip : Nat) (digits : List Char)
    (fraction : Nat) : Prop where
  base_eq : numberBase c cs = (base, skip)
  digits_eq : digits = (cs.drop skip).takeWhile (isDigitOf base)
  digits_ne_nil : skip = 1 → digits ≠ []
  fraction_eq :
    fraction = if c == '.' then 0 else fractionLength base (cs.drop (skip + digits.length))
  extra_eq : x.extra = skip + digits.length + fraction
  kind_eq : x.kind = some
    (if c == '.' then .float (readFloat ("0" ++ String.ofList (c :: cs.take x.extra)))
      else if fraction = 0 then .integer (readInt (String.ofList (c :: cs.take x.extra)))
      else .float (readFloat (String.ofList (c :: cs.take x.extra))))

/-- A number is cut off where no letter, figure or underscore follows it. -/
theorem number_eq_ok_iff {x : Lexeme} :
    number c cs = .ok x ↔
      (∃ base skip digits fraction, CutNumber c cs x base skip digits fraction) ∧
      ∀ d, (cs.drop x.extra).head? = some d → continuesName d = false := by
  constructor
  · intro hx
    unfold number at hx
    dsimp only at hx
    split at hx
    · cases hx
    · next hdigits =>
      have hne := fun hskip hnil => hdigits ⟨hskip, hnil⟩
      split at hx
      · next d hd =>
        split at hx
        · cases hx
        · next hname =>
          cases hx
          refine ⟨⟨_, _, _, _, rfl, rfl, hne, rfl, rfl, rfl⟩, fun e he => ?_⟩
          rw [← Option.some.inj (hd.symm.trans he)]
          exact eq_false_of_ne_true hname
      · next hnone =>
        cases hx
        exact ⟨⟨_, _, _, _, rfl, rfl, hne, rfl, rfl, rfl⟩, fun e he => nomatch hnone.symm.trans he⟩
  · rintro ⟨⟨base, skip, digits, fraction, h⟩, hend⟩
    obtain ⟨kind, extra⟩ := x
    obtain ⟨hbase, hdigits, hne, hfraction, rfl, hkind⟩ := h
    dsimp only at hend hkind
    unfold number
    dsimp only
    rw [hbase]
    dsimp only
    rw [← hdigits, ← hfraction, if_neg fun h => hne h.1 h.2, ← hkind]
    split
    · next d hd => rw [hend d hd, if_neg Bool.false_ne_true]
    · rfl

theorem exists_cutNumber {x : Lexeme} (hx : number c cs = .ok x) :
    ∃ base skip digits fraction, CutNumber c cs x base skip digits fraction :=
  (number_eq_ok_iff.mp hx).1

theorem number_extra_le {cs : List Char} {x : Lexeme} (hx : number c cs = .ok x) :
    x.extra ≤ cs.length := by
  obtain ⟨base, skip, digits, fraction, h⟩ := exists_cutNumber hx
  have hlen := digits_le c cs
  rw [h.base_eq, ← h.digits_eq] at hlen
  rw [h.extra_eq, h.fraction_eq]
  exact number_length_le c base hlen

/-- A number stands for an integer or a floating-point number. -/
theorem number_kind {cs : List Char} {x : Lexeme} (hx : number c cs = .ok x) :
    (∃ n, x.kind = some (.integer n)) ∨ ∃ y, x.kind = some (.float y) := by
  obtain ⟨base, skip, digits, fraction, h⟩ := exists_cutNumber hx
  rw [h.kind_eq]
  split
  · exact .inr ⟨_, rfl⟩
  · split
    · exact .inl ⟨_, rfl⟩
    · exact .inr ⟨_, rfl⟩

/-! ### Numbers at the end of a text -/

/-- A run of characters is the same in a text that is cut off behind it. -/
theorem takeWhile_take {p : Char → Bool} (hn : (cs.takeWhile p).length ≤ n) :
    (cs.take n).takeWhile p = cs.takeWhile p := by
  rw [← List.take_takeWhile, List.take_of_length_le hn]

theorem numberBase_take (hn : (numberBase c cs).2 ≤ n) :
    numberBase c (cs.take n) = numberBase c cs := by
  cases cs with
  | nil => rw [List.take_nil]
  | cons d cs =>
    cases n with
    | succ n => by_cases hc : c = '0' <;> simp [numberBase, hc]
    | zero =>
      by_cases hc : c = '0'
      · subst hc
        cases hd : literalBase? d with
        | some base => simp [numberBase, hd] at hn
        | none => simp [numberBase, hd]
      · simp [numberBase, hc]

theorem fractionLength_take (hn : fractionLength base cs ≤ n) :
    fractionLength base (cs.take n) = fractionLength base cs := by
  cases cs with
  | nil => rw [List.take_nil]
  | cons c cs =>
    cases n with
    | zero => exact (Nat.le_zero.mp hn).symm
    | succ n =>
      rw [List.take_succ_cons]
      by_cases hc : c = '.'
      · subst hc
        rw [fractionLength_point] at hn
        have hrun : (cs.take n).takeWhile (isDigitOf base) = cs.takeWhile (isDigitOf base) := by
          refine takeWhile_take ?_
          split at hn
          · next hnil => rw [hnil]; exact Nat.zero_le n
          · exact Nat.le_of_succ_le_succ hn
        rw [fractionLength_point, fractionLength_point, hrun]
      · simp [fractionLength, hc]

/-- Behind a point that starts a number there is a digit. -/
theorem CutNumber.digits_ne_nil_of_point {x : Lexeme} {skip fraction : Nat} {digits : List Char}
    (h : CutNumber '.' cs x base skip digits fraction) (hc : startsNumber '.' cs.head? = true) :
    digits ≠ [] := by
  obtain ⟨rfl, rfl⟩ := Prod.mk.inj h.base_eq
  cases cs with
  | nil => cases hc
  | cons d cs =>
    have hd : d.isDigit = true := hc
    rw [h.digits_eq, List.drop_zero, List.takeWhile_cons, NumberParts.isDigitOf_ten, if_pos hd]
    exact List.cons_ne_nil _ _

/-- A number is cut off in the same way when the text ends behind it. -/
theorem CutNumber.take {x : Lexeme} {skip fraction : Nat} {digits : List Char}
    (h : CutNumber c cs x base skip digits fraction) (hn : x.extra ≤ n) :
    CutNumber c (cs.take n) x base skip digits fraction := by
  obtain ⟨hbase, hdigits, hne, hfraction, hextra, hkind⟩ := h
  have hskip : (numberBase c cs).2 = skip := congrArg Prod.snd hbase
  have hcut : ((cs.take n).drop skip).takeWhile (isDigitOf base) = digits := by
    rw [List.drop_take, takeWhile_take (by rw [← hdigits]; omega), hdigits]
  refine ⟨?_, hcut.symm, hne, ?_, hextra, ?_⟩
  · rw [numberBase_take (by omega), hbase]
  · rw [hfraction]
    split
    · rfl
    · next hc =>
      rw [if_neg hc] at hfraction
      rw [List.drop_take, fractionLength_take (by omega)]
  · rwa [List.take_take, Nat.min_eq_left hn]

theorem number_take {x : Lexeme} (hx : number c cs = .ok x) (hn : x.extra ≤ n) :
    number c (cs.take n) = .ok x := by
  obtain ⟨⟨base, skip, digits, fraction, h⟩, hend⟩ := number_eq_ok_iff.mp hx
  refine number_eq_ok_iff.mpr ⟨⟨base, skip, digits, fraction, h.take hn⟩, fun d hd => hend d ?_⟩
  rw [List.drop_take, List.head?_take] at hd
  split at hd
  · cases hd
  · exact hd

/-- A point that starts a number has a digit of the number behind it. -/
theorem startsNumber_take {x : Lexeme} (hc : startsNumber c cs.head? = true)
    (hx : number c cs = .ok x) (hn : x.extra ≤ n) : startsNumber c (cs.take n).head? = true := by
  rw [List.head?_take]
  split
  · next hzero =>
    by_cases hpoint : c = '.'
    · subst hpoint
      obtain ⟨base, skip, digits, fraction, h⟩ := exists_cutNumber hx
      have hpos := List.length_pos_iff.mpr (h.digits_ne_nil_of_point hc)
      have hextra := h.extra_eq
      omega
    · simpa [startsNumber, hpoint] using hc
  · exact hc

theorem not_startsNumber_take (hc : startsNumber c cs.head? = false) (n : Nat) :
    startsNumber c (cs.take n).head? = false := by
  rw [List.head?_take]
  split
  · simp_all [startsNumber]
  · exact hc

/-! ### Signs -/

/-- A sign looks at what follows it only where it takes that too, and is then an operator. -/
theorem sign?_cases (c : Char) (next : Option Char) :
    (∃ op, ∃ d ∈ ['&', '^', '|', '<', '=', '>'],
      next = some d ∧ sign? c next = some (.operator op, 1)) ∨
    sign? c next = sign? c none ∧ ∀ kind n, sign? c next = some (kind, n) →
      n = 0 ∧ ((∃ op, kind = .operator op) ∨
        kind ∈ [.leftParen, .rightParen, .leftBracket, .rightBracket, .comma, .dot, .bang]) := by
  fun_cases sign? c next
  -- No rule applies, so none applies to the character alone.
  case case27 => exact .inr ⟨by simp_all [sign?], nofun⟩
  -- A rule is for a pair of characters, or for one whatever follows.
  all_goals
    first
    | exact .inl ⟨_, _, by decide, rfl, rfl⟩
    | refine .inr ⟨rfl, ?_⟩
      rintro _ _ ⟨⟩
      first | exact ⟨rfl, .inl ⟨_, rfl⟩⟩ | exact ⟨rfl, .inr (by decide)⟩

theorem sign?_of_isStop {q : Char} (hq : isStop q = true) : sign? c (some q) = sign? c none := by
  rcases sign?_cases c (some q) with ⟨_, d, hd, ⟨⟩, -⟩ | ⟨hsign, -⟩
  · have hstop : ['&', '^', '|', '<', '=', '>'].contains q = false := eq_of_isStop rfl hq
    cases hstop.symm.trans (List.contains_iff_mem.mpr hd)
  · exact hsign

/-- What a sign stands for. -/
theorem sign?_kind {next : Option Char} {kind : TokenKind} {n : Nat}
    (h : sign? c next = some (kind, n)) : (∃ op, kind = .operator op) ∨
      kind ∈ [.leftParen, .rightParen, .leftBracket, .rightBracket, .comma, .dot, .bang] := by
  rcases sign?_cases c next with ⟨op, _, -, -, hsign⟩ | ⟨-, hone⟩
  · cases h.symm.trans hsign
    exact .inl ⟨op, rfl⟩
  · exact (hone kind n h).2

/-- A sign is the same in a text that ends behind it. -/
theorem sign?_take {kind : TokenKind} {m : Nat} (h : sign? c cs.head? = some (kind, m))
    (hn : m ≤ n) : sign? c (cs.take n).head? = some (kind, m) := by
  rw [List.head?_take]
  split
  · next hzero =>
    obtain rfl : m = 0 := Nat.le_zero.mp (hzero ▸ hn)
    rcases sign?_cases c cs.head? with ⟨_, _, -, -, hsign⟩ | ⟨hsign, -⟩
    · cases h.symm.trans hsign
    · exact hsign.symm.trans h
  · exact h

theorem sign?_extra_le {cs : List Char} {kind : TokenKind} {n : Nat}
    (hn : sign? c cs.head? = some (kind, n)) : n ≤ cs.length := by
  rcases sign?_cases c cs.head? with ⟨_, d, -, hd, hsign⟩ | ⟨-, hone⟩
  · cases hn.symm.trans hsign
    obtain ⟨cs, rfl⟩ := List.head?_eq_some_iff.mp hd
    exact Nat.le_add_left 1 cs.length
  · rw [(hone kind n hn).1]
    exact Nat.zero_le _

end Lexer

open Lexer in
/-- A token that opens no literal is the same whatever stands behind the next quote or blank. -/
theorem lexeme_append_stops {c : Char} {l r : List Char} (hc : Text.isQuote c = false)
    (hr : Stops r) : lexeme c (l ++ r) = lexeme c l := by
  have hstarts : startsNumber c (l ++ r).head? = startsNumber c l.head? := by
    rcases head?_append_stops (l := l) hr with hhead | ⟨rfl, q, hhead, hq⟩
    · rw [hhead]
    · rw [hhead]
      simp [startsNumber, not_isDigit_of_isStop hq]
  have hsign : sign? c (l ++ r).head? = sign? c l.head? := by
    rcases head?_append_stops (l := l) hr with hhead | ⟨rfl, q, hhead, hq⟩
    · rw [hhead]
    · rw [hhead, sign?_of_isStop hq]
      rfl
  simp only [lexeme, hc, hstarts, hsign, number_append_stops hr,
    takeWhile_append_stops (fun _ => not_continuesName_of_isStop) hr]
  rfl

/-! ### Literals -/

namespace Lexer

variable {q : Char}

theorem literal_closing (q : Char) (cs : List Char) : literal q (q :: cs) = .ok ([], 1) := by
  cases cs <;> simp [literal]

theorem literal_escape (hq : q ≠ '\\') (d : Char) (ds : List Char) :
    literal q ('\\' :: d :: ds) = match unescape? d with
      | none => .error (.badEscape d)
      | some e => (literal q ds).map fun (text, n) => (e :: text, n + 2) := by
  have hquote : ¬('\\' == q) = true := by simpa using hq.symm
  rw [literal, if_neg hquote]
  rfl

theorem literal_bare {c : Char} (hc : c ≠ q) (hslash : c ≠ '\\') (cs : List Char) :
    literal q (c :: cs) = (literal q cs).map fun (text, n) => (c :: text, n + 1) := by
  cases cs <;> simp [literal, hc, hslash]

/-- A literal ends within the text. -/
theorem literal_extra_le {cs text : List Char} {n : Nat} (hn : literal q cs = .ok (text, n)) :
    n ≤ cs.length := by
  fun_induction literal q cs generalizing text n with
  | case1 | case3 | case4 => cases hn
  | case2 => cases hn; simp
  | case5 _ _ _ _ ds _ _ ih =>
    obtain ⟨⟨text, n⟩, hrest, hmap⟩ := Except.map_eq_ok.mp hn
    cases hmap
    have hle := ih hrest
    simp only [List.length_cons]
    omega
  | case6 _ _ _ _ ih =>
    obtain ⟨⟨text, n⟩, hrest, hmap⟩ := Except.map_eq_ok.mp hn
    cases hmap
    exact Nat.succ_le_succ (ih hrest)

/-- A literal is the same whatever stands behind it. -/
theorem literal_take_append {cs text : List Char} {m n : Nat} (h : literal q cs = .ok (text, m))
    (hn : m ≤ n) (r : List Char) : literal q (cs.take n ++ r) = .ok (text, m) := by
  fun_induction literal q cs generalizing text m n with
  | case1 | case3 | case4 => cases h
  | case2 c cs hc =>
    cases h
    obtain ⟨n, rfl⟩ := Nat.exists_eq_add_of_le' hn
    rw [eq_of_beq hc, List.take_succ_cons, List.cons_append, literal_closing]
  | case5 c hc hslash d ds e he ih =>
    obtain ⟨⟨text, k⟩, hrest, hmap⟩ := Except.map_eq_ok.mp h
    cases hmap
    obtain ⟨n, rfl⟩ := Nat.exists_eq_add_of_le' hn
    obtain rfl := eq_of_beq hslash
    rw [← Nat.add_assoc, List.take_succ_cons, List.take_succ_cons, List.cons_append,
      List.cons_append, literal_escape fun hq => hc (beq_iff_eq.mpr hq.symm), he,
      ih hrest (Nat.le_add_left k n)]
    rfl
  | case6 c cs hc hslash ih =>
    obtain ⟨⟨text, k⟩, hrest, hmap⟩ := Except.map_eq_ok.mp h
    cases hmap
    obtain ⟨n, rfl⟩ := Nat.exists_eq_add_of_le' hn
    rw [← Nat.add_assoc, List.take_succ_cons, List.cons_append,
      literal_bare (by simpa using hc) (by simpa using hslash), ih hrest (Nat.le_add_left k n)]
    rfl

end Lexer

theorem lexeme_of_isQuote {q : Char} (hq : Text.isQuote q = true) (cs : List Char) :
    lexeme q cs = (Lexer.literal q cs).map
      fun (text, n) => ⟨some (.string (String.ofList text)), n⟩ := by
  have hspace : Lexer.isSpace q = false := by
    rcases Lexer.eq_of_isQuote hq with rfl | rfl <;> rfl
  simp only [lexeme, hspace, hq]
  rfl

/-! ### Rules -/

open Lexer in
/-- The rules by which something starts at a place. -/
inductive Lexer.Rule (c : Char) (cs : List Char) : Lexeme → Prop where
  | blank (hc : isSpace c = true) : Rule c cs ⟨none, 0⟩
  | literal {text : List Char} {n : Nat} (hc : Text.isQuote c = true)
      (hn : literal c cs = .ok (text, n)) : Rule c cs ⟨some (.string (String.ofList text)), n⟩
  | number {x : Lexeme} (hc : startsNumber c cs.head? = true) (hx : number c cs = .ok x) :
      Rule c cs x
  | name (hc : startsName c = true) :
      Rule c cs ⟨some (.name (String.ofList (c :: cs.takeWhile continuesName))),
        (cs.takeWhile continuesName).length⟩
  | sign {kind : TokenKind} {n : Nat} (hn : sign? c cs.head? = some (kind, n)) :
      Rule c cs ⟨some kind, n⟩

open Lexer in
theorem lexeme_rule {c : Char} {cs : List Char} {x : Lexeme} (hx : lexeme c cs = .ok x) :
    Rule c cs x := by
  unfold lexeme at hx
  split at hx
  · next hc =>
    cases hx
    exact .blank hc
  split at hx
  · next hc =>
    obtain ⟨⟨text, n⟩, hn, rfl⟩ := Except.map_eq_ok.mp hx
    exact .literal hc hn
  split at hx
  · next hc => exact .number hc hx
  split at hx
  · next hc =>
    cases hx
    exact .name hc
  · split at hx
    · next hn =>
      cases hx
      exact .sign hn
    · cases hx

open Lexer in
/-- A token ends within the text. -/
theorem lexeme_extra_le {c : Char} {cs : List Char} {x : Lexeme} (hx : lexeme c cs = .ok x) :
    x.extra ≤ cs.length := by
  cases lexeme_rule hx with
  | blank => exact Nat.zero_le _
  | literal _ hn => exact literal_extra_le hn
  | number _ hx => exact number_extra_le hx
  | name => exact (List.takeWhile_prefix continuesName).length_le
  | sign hn => exact sign?_extra_le hn

open Lexer in
/-- A token that opens no literal is the same when the text ends behind it. -/
theorem lexeme_take_of_not_isQuote {c : Char} {cs : List Char} {x : Lexeme} {n : Nat}
    (hc : Text.isQuote c = false) (hx : lexeme c cs = .ok x) (hn : x.extra ≤ n) :
    lexeme c (cs.take n) = .ok x := by
  unfold lexeme at hx ⊢
  rw [hc, if_neg Bool.false_ne_true] at hx ⊢
  split
  · next hspace => rwa [if_pos hspace] at hx
  next hspace =>
  rw [if_neg hspace] at hx
  cases hstarts : startsNumber c cs.head? with
  | true =>
    rw [hstarts, if_pos rfl] at hx
    rw [startsNumber_take hstarts hx hn, if_pos rfl]
    exact number_take hx hn
  | false =>
    rw [hstarts, if_neg Bool.false_ne_true] at hx
    rw [not_startsNumber_take hstarts, if_neg Bool.false_ne_true]
    split
    · next hname =>
      rw [if_pos hname] at hx
      cases hx
      rw [takeWhile_take hn]
    next hname =>
    rw [if_neg hname] at hx
    cases hsign : sign? c cs.head? with
    | none => rw [hsign] at hx; cases hx
    | some sign =>
      rw [hsign] at hx
      cases hx
      rw [sign?_take hsign hn]

open Lexer in
/-- A token is the same when the text behind it is cut off, or goes on with a quote or a blank. -/
theorem lexeme_take_append {c : Char} {cs r : List Char} {x : Lexeme} {n : Nat}
    (hx : lexeme c cs = .ok x) (hn : x.extra ≤ n) (hr : Stops r) :
    lexeme c (cs.take n ++ r) = .ok x := by
  cases hc : Text.isQuote c with
  | true =>
    rw [lexeme_of_isQuote hc] at hx ⊢
    obtain ⟨⟨text, m⟩, hm, rfl⟩ := Except.map_eq_ok.mp hx
    rw [literal_take_append hm hn]
    rfl
  | false =>
    rw [lexeme_append_stops hc hr]
    exact lexeme_take_of_not_isQuote hc hx hn

/-- A token is the same when the text behind it is cut off. -/
theorem lexeme_take {c : Char} {cs : List Char} {x : Lexeme} {n : Nat} (hx : lexeme c cs = .ok x)
    (hn : x.extra ≤ n) : lexeme c (cs.take n) = .ok x := by
  have htake := lexeme_take_append hx hn Lexer.stops_nil
  rwa [List.append_nil] at htake

/-- No token stands for the end of the text. -/
theorem lexeme_kind_ne_eof {c : Char} {cs : List Char} {x : Lexeme} (hx : lexeme c cs = .ok x) :
    x.kind ≠ some .eof := by
  intro heof
  cases lexeme_rule hx with
  | blank | literal | name => cases heof
  | number _ hx =>
    rcases Lexer.number_kind hx with ⟨n, hkind⟩ | ⟨y, hkind⟩
    · cases heof.symm.trans hkind
    · cases heof.symm.trans hkind
  | sign hn =>
    cases heof
    rcases Lexer.sign?_kind hn with ⟨op, hop⟩ | hmem
    · cases hop
    · simp at hmem

/-! ### Tokens of a text -/

/-- The tokens of a text are those of what is behind its first token or blank, and that token. -/
theorem scanFrom_cons {c : Char} {cs : List Char} {x : Lexeme} (hx : lexeme c cs = .ok x)
    (p : Nat) :
    scanFrom p (c :: cs) = (scanFrom (p + 1 + x.extra) (cs.drop x.extra)).map fun ts =>
      match x.kind with
      | none => ts
      | some kind => ⟨kind, String.ofList (c :: cs.take x.extra), p⟩ :: ts := by
  simp only [scanFrom, hx]
  cases scanFrom (p + 1 + x.extra) (cs.drop x.extra) with
  | error e => rfl
  | ok ts => cases x.kind <;> rfl

/-- A token is the end of the text, or it starts at some place and its spelling is cut off there. -/
theorem exists_lexeme_of_mem {position : Nat} {cs : List Char} {ts : List Token} {t : Token}
    (h : scanFrom position cs = .ok ts) (ht : t ∈ ts) :
    t.kind = .eof ∨ ∃ c rest x, lexeme c rest = .ok x ∧ x.kind = some t.kind ∧
      t.lexeme = String.ofList (c :: rest.take x.extra) := by
  fun_induction scanFrom position cs generalizing ts with
  | case1 position =>
    cases h
    exact .inl (List.mem_singleton.mp ht ▸ rfl)
  | case2 | case3 => cases h
  | case4 _ _ _ _ _ tokens htokens _ ih =>
    cases h
    exact ih htokens ht
  | case5 position c cs x hx tokens htokens kind hkind ih =>
    cases h
    rcases List.mem_cons.mp ht with rfl | ht
    · exact .inr ⟨c, cs, x, hx, hkind, rfl⟩
    · exact ih htokens ht

end DynamicEval
