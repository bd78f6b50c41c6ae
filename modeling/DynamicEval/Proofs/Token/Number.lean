import DynamicEval.Proofs.Number
import DynamicEval.Proofs.Numeral
import DynamicEval.Proofs.Token.Lexeme

/-!
# Numbers among tokens

An integer token is spelled by a numeral and stands for what that numeral denotes. A token for a
floating-point number has a point in its spelling, with at least one digit of its base behind it.
The value of a token is what a text of the same spelling is coerced to, except that a spelling that
begins with its point gets a zero before it first.

## Main definitions

* `TokenKind.isNumber`: the tokens that stand for numbers.
* `Numeral.HasFraction`: the numerals with a point and digits behind it.
* `Lexer.IsNumber`: the spellings of numbers, and what they stand for.

## Main results

* `isNumber_of_mem`: the numbers among the tokens of a text are spelled like numbers.
* `scan_number_spelled`: they stand for what they spell.
* `scan_number_reads`: texts are coerced to the numbers that they are scanned as.
-/

namespace DynamicEval

variable {c : Char} {cs : List Char} {base skip fraction : Nat} {digits : List Char} {x : Lexeme}

/-- The tokens that stand for numbers. -/
def TokenKind.isNumber : TokenKind → Bool
  | .integer _ | .float _ => true
  | _ => false

/-- The text is a numeral with a point in it: digits of its base, at least one of them behind the
point, follow its base prefix. -/
def Numeral.HasFraction (cs : List Char) : Prop :=
  ∃ whole frac, (split cs).2 = whole ++ '.' :: frac ∧ frac ≠ [] ∧
    ∀ d ∈ whole ++ frac, isDigitOf (split cs).1 d = true

namespace Lexer

/-- The spellings of numbers and what they stand for: numerals without a fraction, numerals with
one, and fractions without digits before the point. -/
inductive IsNumber : List Char → TokenKind → Prop where
  | integer {cs : List Char} {n : Nat} (h : Numeral.Denotes cs n) :
      IsNumber cs (.integer (readInt (String.ofList cs)))
  | float {c : Char} {cs : List Char} (hc : c ≠ '.') (h : Numeral.HasFraction (c :: cs)) :
      IsNumber (c :: cs) (.float (readFloat (String.ofList (c :: cs))))
  | point {ds : List Char} (h : Numeral.HasFraction ('.' :: ds)) :
      IsNumber ('.' :: ds) (.float (readFloat ("0" ++ String.ofList ('.' :: ds))))

/-- A number has a base prefix, or it is in base ten however far it goes on. -/
theorem numberBase_cases (c : Char) (cs : List Char) :
    (∃ d rest base, c = '0' ∧ cs = d :: rest ∧ literalBase? d = some base ∧
      numberBase c cs = (base, 1)) ∨
    numberBase c cs = (10, 0) ∧ ∀ n, Numeral.split (c :: cs.take n) = (10, c :: cs.take n) := by
  by_cases hc : c = '0'
  · subst hc
    cases cs with
    | nil => exact .inr ⟨rfl, fun n => by rw [List.take_nil]; rfl⟩
    | cons d rest =>
      cases hd : literalBase? d with
      | some base => exact .inl ⟨d, rest, base, rfl, rfl, hd, by simp [numberBase, hd]⟩
      | none =>
        refine .inr ⟨by simp [numberBase, hd], fun n => ?_⟩
        cases n with
        | zero => rfl
        | succ n => simp [Numeral.split, hd]
  · exact .inr ⟨by simp [numberBase, hc], fun n => by simp [Numeral.split, hc]⟩

/-- A fraction is a point and digits behind it. -/
theorem fractionLength_cases (base : Nat) (cs : List Char) :
    fractionLength base cs = 0 ∨ ∃ frac, cs.take (fractionLength base cs) = '.' :: frac ∧
      frac ≠ [] ∧ ∀ d ∈ frac, isDigitOf base d = true := by
  unfold fractionLength
  split
  · next c cs =>
    split
    · next hc =>
      have hfrac := List.prefix_iff_eq_take.mp
        (List.takeWhile_prefix (isDigitOf base) (l := c :: cs))
      refine .inr ⟨_, congrArg (List.cons '.') hfrac.symm, ?_,
        fun d hd => List.mem_takeWhile_imp hd⟩
      rw [List.takeWhile_cons, if_pos hc]
      exact List.cons_ne_nil _ _
    · exact .inl rfl
  · exact .inl rfl

namespace CutNumber

/-- The characters behind the first are the base prefix, the digits behind it and the fraction. -/
theorem take_extra (h : CutNumber c cs x base skip digits fraction) :
    cs.take x.extra =
      cs.take skip ++ (digits ++ (cs.drop (skip + digits.length)).take fraction) := by
  have hdigits : (cs.drop skip).take digits.length = digits := by
    rw [h.digits_eq]
    exact (List.prefix_iff_eq_take.mp (List.takeWhile_prefix _)).symm
  rw [h.extra_eq, List.take_add, List.take_add, hdigits, List.append_assoc]

theorem isDigitOf (h : CutNumber c cs x base skip digits fraction) :
    ∀ d ∈ digits, isDigitOf base d = true := by
  rw [h.digits_eq]
  exact fun d hd => List.mem_takeWhile_imp hd

/-- The base of a number is that of its spelling as a numeral, and at least one digit of the base
stands before the fraction. -/
theorem exists_split_eq (h : CutNumber c cs x base skip digits fraction) (hc : c.isDigit = true) :
    ∃ whole, whole ≠ [] ∧ (∀ d ∈ whole, DynamicEval.isDigitOf base d = true) ∧
      Numeral.split (c :: cs.take x.extra) =
        (base, whole ++ (cs.drop (skip + digits.length)).take fraction) := by
  have hbase := h.base_eq
  have htake := h.take_extra
  rcases numberBase_cases c cs with ⟨d, rest, base', rfl, rfl, hd, heq⟩ | ⟨heq, hsplit⟩
  · obtain ⟨rfl, rfl⟩ := Prod.mk.inj (heq.symm.trans hbase)
    refine ⟨digits, h.digits_ne_nil rfl, h.isDigitOf, ?_⟩
    rw [htake]
    simp [Numeral.split, hd]
  · obtain ⟨rfl, rfl⟩ := Prod.mk.inj (heq.symm.trans hbase)
    refine ⟨c :: digits, List.cons_ne_nil _ _,
      List.forall_mem_cons.mpr ⟨(NumberParts.isDigitOf_ten c).trans hc, h.isDigitOf⟩, ?_⟩
    rw [hsplit, htake]
    rfl

variable {kind : TokenKind}

/-- A number that starts with a figure is an integer or has a fraction behind its digits. -/
theorem isNumber_of_isDigit (h : CutNumber c cs x base skip digits fraction)
    (hc : c.isDigit = true) (hkind : x.kind = some kind) :
    IsNumber (c :: cs.take x.extra) kind := by
  have hpoint : c ≠ '.' := by
    rintro rfl
    cases hc
  have hfraction := h.fraction_eq
  obtain ⟨whole, hne, hwhole, hsplit⟩ := h.exists_split_eq hc
  obtain rfl := Option.some.inj (hkind.symm.trans h.kind_eq)
  rw [if_neg (mt eq_of_beq hpoint)] at hfraction ⊢
  rcases fractionLength_cases base (cs.drop (skip + digits.length)) with
    hzero | ⟨frac, htake, hfrac, hdigits⟩
  · -- Without a fraction all digits behind the base prefix are those of an integer.
    rw [hzero] at hfraction
    have hbase := Numeral.split_le (c :: cs.take x.extra)
    rw [hsplit] at hbase
    obtain ⟨n, hn⟩ := Numeral.exists_digits_of_forall hbase hne hwhole
    rw [hfraction, List.take_zero, List.append_nil] at hsplit
    rw [if_pos hfraction]
    refine .integer (n := n) ?_
    rwa [Numeral.Denotes, hsplit]
  · rw [← hfraction] at htake
    rw [htake] at hsplit
    have hpos : fraction ≠ 0 := by
      rintro rfl
      rw [List.take_zero] at htake
      cases htake
    rw [if_neg hpos]
    refine .float hpoint ⟨whole, frac, ?_, hfrac, ?_⟩
    · rw [hsplit]
    · rw [hsplit]
      exact List.forall_mem_append.mpr ⟨hwhole, hdigits⟩

/-- A number that starts with its point is a fraction in base ten. -/
theorem isNumber_of_point (h : CutNumber '.' cs x base skip digits fraction)
    (hc : startsNumber '.' cs.head? = true) (hkind : x.kind = some kind) :
    IsNumber ('.' :: cs.take x.extra) kind := by
  have hne := h.digits_ne_nil_of_point hc
  obtain rfl := Option.some.inj (hkind.symm.trans h.kind_eq)
  obtain ⟨rfl, rfl⟩ := Prod.mk.inj h.base_eq
  obtain rfl : fraction = 0 := h.fraction_eq
  rw [if_pos rfl]
  refine .point ⟨[], digits, ?_, hne, h.isDigitOf⟩
  rw [h.take_extra, List.take_zero, List.take_zero, List.append_nil]
  rfl

end CutNumber

/-- What is cut off as a number is spelled like one. -/
theorem number_isNumber {kind : TokenKind} (hc : startsNumber c cs.head? = true)
    (hx : number c cs = .ok x) (hkind : x.kind = some kind) :
    IsNumber (c :: cs.take x.extra) kind := by
  obtain ⟨base, skip, digits, fraction, h⟩ := exists_cutNumber hx
  by_cases hpoint : c = '.'
  · subst hpoint
    exact h.isNumber_of_point hc hkind
  · exact h.isNumber_of_isDigit (by simpa [startsNumber, hpoint] using hc) hkind

end Lexer

open Lexer

theorem Lexer.sign?_not_isNumber {next : Option Char} {kind : TokenKind} {n : Nat}
    (h : sign? c next = some (kind, n)) : kind.isNumber = false := by
  have hmarks : ∀ mark ∈ [TokenKind.leftParen, .rightParen, .leftBracket, .rightBracket, .comma,
      .dot, .bang], mark.isNumber = false := by
    decide
  rcases sign?_kind h with ⟨op, rfl⟩ | hmem
  · rfl
  · exact hmarks kind hmem

/-- A number among the tokens of a text is spelled like one. -/
theorem isNumber_of_mem {position : Nat} {ts : List Token} {t : Token}
    (h : scanFrom position cs = .ok ts) (ht : t ∈ ts) (hnumber : t.kind.isNumber = true) :
    IsNumber t.lexeme.toList t.kind := by
  rcases exists_lexeme_of_mem h ht with heof | ⟨c, rest, x, hx, hkind, hlexeme⟩
  · rw [heof] at hnumber
    cases hnumber
  rw [hlexeme, String.toList_ofList]
  cases lexeme_rule hx with
  | number hc hx => exact number_isNumber hc hx hkind
  | blank => cases hkind
  | literal | name =>
    rw [← Option.some.inj hkind] at hnumber
    cases hnumber
  | sign hn =>
    rw [← Option.some.inj hkind, sign?_not_isNumber hn] at hnumber
    cases hnumber

/-! ### What the tokens stand for -/

/-- **Numbers among tokens stand for what they spell.** An integer is spelled by a numeral without a
point and is the number that the numeral denotes, reduced to 64 bits. A number with a point in its
spelling is a floating-point number, and has a digit of its base behind the point. -/
theorem scan_number_spelled {text : String} {ts : List Token} (h : scan text = .ok ts) :
    ∀ t ∈ ts,
      (∀ n, t.kind = .integer n → '.' ∉ t.lexeme.toList ∧
        ∃ m, Numeral.Denotes t.lexeme.toList m ∧ n = Int64.ofNat m) ∧
      (t.kind.isNumber = true → '.' ∈ t.lexeme.toList →
        (∃ y, t.kind = .float y) ∧ Numeral.HasFraction t.lexeme.toList) := by
  intro t ht
  have hspelled := isNumber_of_mem h ht
  generalize t.lexeme.toList = cs at hspelled ⊢
  generalize t.kind = kind at hspelled ⊢
  constructor
  · rintro n rfl
    cases hspelled rfl with
    | integer hm =>
      exact ⟨hm.not_mem rfl, _, hm, (readInt_of_denotesInt (.bare hm)).trans Int64.ofInt_eq_ofNat⟩
  · intro hnumber hpoint
    cases hspelled hnumber with
    | integer hm => exact absurd hpoint (hm.not_mem rfl)
    | float _ hfraction | point hfraction => exact ⟨⟨_, rfl⟩, hfraction⟩

/-- A sum of a hexadecimal integer and a fraction. -/
theorem scan_number_spelled_sum :
    (∃ m, Numeral.Denotes "0x1F".toList m ∧ (31 : Int64) = Int64.ofNat m) ∧
      Numeral.HasFraction "2.5".toList := by
  have hscan : scan "0x1F + 2.5" = .ok [⟨.integer 31, "0x1F", 0⟩, ⟨.operator .add, "+", 5⟩,
      ⟨.float (readFloat "2.5"), "2.5", 7⟩, ⟨.eof, "", 10⟩] := by decide +kernel
  have hspelled := scan_number_spelled hscan
  exact ⟨((hspelled _ (.head _)).1 _ rfl).2,
    ((hspelled _ (.tail _ (.tail _ (.head _)))).2 rfl (by decide)).2⟩

/-- **Texts are coerced to the numbers that they are scanned as.** The spelling of an integer is
read as that integer, and the spelling of a floating-point number as that number unless it begins
with its point: the text is then read as if the point were not there, and needs a zero before it to
be read as that number. -/
theorem scan_number_reads {text : String} {ts : List Token} (h : scan text = .ok ts) (heap : Heap) :
    ∀ t ∈ ts,
      (∀ n, t.kind = .integer n → (Value.string t.lexeme).toInt64 heap = .ok n) ∧
      ∀ y, t.kind = .float y →
        (t.lexeme.toList.head? ≠ some '.' → (Value.string t.lexeme).toFloat heap = .ok y) ∧
        ∀ ds, t.lexeme.toList = '.' :: ds →
          (Value.string ("0" ++ t.lexeme)).toFloat heap = .ok y ∧
            (Value.string t.lexeme).toFloat heap =
              (Value.string (String.ofList ds)).toFloat heap := by
  intro t ht
  have hspelled := isNumber_of_mem h ht
  obtain ⟨cs, hcs⟩ : ∃ cs, t.lexeme = String.ofList cs := ⟨_, String.ofList_toList.symm⟩
  rw [hcs, String.toList_ofList] at hspelled ⊢
  generalize t.kind = kind at hspelled ⊢
  constructor
  · rintro n rfl
    cases hspelled rfl with
    | integer hm => exact Value.toInt64_string _ heap
  · rintro y rfl
    cases hspelled rfl with
    | float hc hfraction =>
      refine ⟨fun _ => Value.toFloat_string _ heap, fun ds hds => ?_⟩
      exact absurd (List.cons.inj hds).1 hc
    | point hfraction =>
      refine ⟨fun hc => absurd rfl hc, fun ds hds => ⟨Value.toFloat_string _ heap, ?_⟩⟩
      rw [Value.toFloat_string, Value.toFloat_string, hds, readFloat, readFloat,
        String.toList_ofList, String.toList_ofList, NumberParts.ofChars_point]

/-- One half with a zero before its point, and without one. -/
theorem scan_number_reads_halves :
    (Value.string "0.5").toFloat .empty = .ok (readFloat "0.5") ∧
      (Value.string ".5").toFloat .empty = (Value.string "5").toFloat .empty := by
  have hscan : scan "0.5 + .5" = .ok [⟨.float (readFloat "0.5"), "0.5", 0⟩,
      ⟨.operator .add, "+", 4⟩, ⟨.float (readFloat "0.5"), ".5", 6⟩, ⟨.eof, "", 8⟩] := by
    decide +kernel
  have hreads := scan_number_reads hscan .empty
  exact ⟨((hreads _ (.head _)).2 _ rfl).1 (by decide),
    (((hreads _ (.tail _ (.tail _ (.head _)))).2 _ rfl).2 ['5'] rfl).2⟩

/-- A text that is scanned as one number need not be coerced to that number. -/
theorem not_forall_scan_number_reads :
    ¬ ∀ (text : String) (kind : TokenKind) (eof : Token) (heap : Heap),
      scan text = .ok [⟨kind, text, 0⟩, eof] → eof.kind = .eof →
      (∀ n, kind = .integer n → (Value.string text).toInt64 heap = .ok n) ∧
      ∀ y, kind = .float y → (Value.string text).toFloat heap = .ok y := by
  intro hall
  have hscan : scan ".5" = .ok [⟨.float (readFloat "0.5"), ".5", 0⟩, ⟨.eof, "", 2⟩] := by
    decide +kernel
  have hread := (hall _ _ _ .empty hscan rfl).2 _ rfl
  rw [Value.toFloat_string] at hread
  exact absurd (Except.ok.inj hread) (by decide +kernel)

end DynamicEval
