import DynamicEval.Binary64.Arithmetic

/-!
# Numerals

Reading of numbers written in base 2, 8, 10 or 16. Reading is total and lenient: a text is cut
behind its sign and its base prefix, whatever stands before the first digit is skipped, and
whatever stands behind the last digit is dropped. The same reading serves literals and the
coercion of texts to numbers, so the two agree.

## Main definitions

* `NumberParts`: sign, base and digits of a numeral.
* `NumberParts.ofChars`: the parts of a text.
* `readInt`, `readFloat`: the number that a text spells.
-/

namespace DynamicEval

/-- The value of a digit, of which the letters follow the figures; `0` for any other character. -/
def digitValue (c : Char) : Nat :=
  if c.isDigit then c.toNat - '0'.toNat
  else if c.isLower then c.toNat - 'a'.toNat + 10
  else if c.isUpper then c.toNat - 'A'.toNat + 10
  else 0

/-- Whether `c` is a digit of the given base, in either case. -/
def isDigitOf (base : Nat) (c : Char) : Bool :=
  c.isAlphanum && digitValue c < base

/-- The pieces of a numeral. -/
structure NumberParts where
  /-- Whether a minus sign was found. -/
  negative : Bool
  /-- The base that the prefix selects, ten without one. -/
  base : Nat
  /-- The digits before the point, in lower case. -/
  integer : List Char
  /-- The digits behind the point, in lower case. -/
  fraction : List Char
deriving DecidableEq

namespace NumberParts

/-- The base that a letter behind a zero selects. -/
def baseOfLetter? : Char → Option Nat
  | 'b' => some 2
  | 'o' => some 8
  | 'x' => some 16
  | _ => none

/-- The base of the first base prefix in a text and what follows the prefix. -/
def splitBase? : List Char → Option (Nat × List Char)
  | '0' :: c :: cs =>
    match baseOfLetter? c with
    | some base => some (base, cs)
    | none => splitBase? (c :: cs)
  | _ :: cs => splitBase? cs
  | [] => none

/-- What follows the first `c` in a text. -/
def behind? (c : Char) : List Char → Option (List Char)
  | [] => none
  | d :: ds => if d == c then some ds else behind? c ds

/-- The digits of a text in the given base: the first run of digits, and behind a point directly
after it a second one. -/
def digits (negative : Bool) (base : Nat) (cs : List Char) : NumberParts :=
  let cs := cs.dropWhile fun c => !isDigitOf base c
  let rest := cs.dropWhile (isDigitOf base)
  { negative, base
    integer := cs.takeWhile (isDigitOf base)
    fraction := match rest with
      | '.' :: rest => rest.takeWhile (isDigitOf base)
      | _ => [] }

/-- The parts of a text. A plus sign is looked for first and a minus sign behind it, then the first
base prefix behind the signs. -/
def ofChars (cs : List Char) : NumberParts :=
  let cs := cs.map Char.toLower
  let cs := (behind? '+' cs).getD cs
  let negative := (behind? '-' cs).isSome
  let cs := (behind? '-' cs).getD cs
  match splitBase? cs with
  | some (base, cs) => digits negative base cs
  | none => digits negative 10 cs

/-- The natural number that a list of digits spells. -/
def value (base : Nat) (ds : List Char) : Nat :=
  ds.foldl (fun n c => n * base + digitValue c) 0

/-- The integer of the parts, reduced to 64 bits; the fraction is dropped. -/
def toInt64 (p : NumberParts) : Int64 :=
  let n : Int := value p.base p.integer
  Int64.ofInt (if p.negative then -n else n)

/-- The sum of the digits times their powers of the base, added from left to right, where the first
digit has the power `high`. -/
def digitSum (base : Binary64) (acc : Binary64) (high : Int) : List Char → Binary64
  | [] => acc
  | c :: cs =>
    digitSum base (acc.add ((Binary64.ofInt (digitValue c)).mul (base.power high))) (high - 1) cs

/-- The floating-point number of the parts. While all digits together make an integer below
`Binary64.exactBound`, that integer is divided once, so short numerals are rounded once; otherwise
the digits are summed with rounding at each step. -/
def toFloat (p : NumberParts) : Binary64 :=
  let ds := p.integer ++ p.fraction
  let base := Binary64.ofInt p.base
  let magnitude :=
    if value p.base ds < Binary64.exactBound then
      (Binary64.ofInt (value p.base ds)).div (base.power p.fraction.length)
    else
      digitSum base Binary64.zero ((p.integer.length : Int) - 1) ds
  if p.negative then magnitude.neg else magnitude

end NumberParts

/-- The integer that a text spells, reduced to 64 bits. -/
def readInt (text : String) : Int64 :=
  (NumberParts.ofChars text.toList).toInt64

/-- The floating-point number that a text spells. -/
def readFloat (text : String) : Binary64 :=
  (NumberParts.ofChars text.toList).toFloat

end DynamicEval
