import DynamicEval.FloatFormat

/-!
# Shortest decimals

The shortest decimal that reads back as a given floating-point number, and of several the one
nearest to it. The decimals that read back are those of an interval around the number, which holds
its ends when the significand is even. On the grid of multiples of a power of ten only the two
neighbours of the number need a look, so the grids are searched from coarse to fine.

## Main definitions

* `Decimal`: an integer times a power of ten.
* `FloatFormat.shortest`: the shortest decimal that reads back as a pattern.
-/

namespace DynamicEval

/-- The number `digits * 10 ^ exponent`. -/
structure Decimal where
  /-- The digits, read as one integer. -/
  digits : Nat
  /-- The power of ten of the last digit. -/
  exponent : Int
deriving DecidableEq

/-- The decimals that read back as one number, in units of a fourth of its last significand bit:
`low` and `high` bound them, `center` is the number, and the bounds belong to them when `closed`
holds. -/
structure ReadingInterval where
  /-- The lower bound. -/
  low : Nat
  /-- The number itself. -/
  center : Nat
  /-- The upper bound. -/
  high : Nat
  /-- Whether the bounds read back too. -/
  closed : Bool
  /-- The exponent of two of the unit. -/
  unit : Int

/-- The interval of the finite nonzero number that a pattern stands for. Below the least number of
an exponent field its neighbour is only half as far away as above it. -/
def FloatFormat.readingInterval (f : FloatFormat) (pattern : Nat) : ReadingInterval :=
  let m := f.significand pattern
  let narrow := pattern % f.leadingBit = 0 ∧ 1 < f.exponentField pattern
  { low := 4 * m - (if narrow then 1 else 2)
    center := 4 * m
    high := 4 * m + 2
    closed := m % 2 = 0
    unit := f.exponent pattern - 2 }

namespace ReadingInterval

/-- The unit of the interval over the grid step `10 ^ exponent`, as a fraction. -/
def step (i : ReadingInterval) (exponent : Int) : Nat × Nat :=
  let (n, d) := scaledFraction 1 1 i.unit
  (n * Nat.pow 10 (-exponent).toNat, d * Nat.pow 10 exponent.toNat)

/-- Whether the multiple `c` of a grid step belongs to the interval, whose unit is `n / d` steps. -/
def holds (i : ReadingInterval) (n d c : Nat) : Bool :=
  if i.closed then i.low * n ≤ c * d && c * d ≤ i.high * n
  else i.low * n < c * d && c * d < i.high * n

/-- The multiple of `10 ^ exponent` in the interval nearest to the number, if the grid has one
there. Of two that are equally near the greater is taken. -/
def onGrid? (i : ReadingInterval) (exponent : Int) : Option Nat :=
  let (n, d) := i.step exponent
  let c := i.center * n / d
  match i.holds n d c, i.holds n d (c + 1) with
  | true, true => some (if 2 * (i.center * n) < (2 * c + 1) * d then c else c + 1)
  | true, false => some c
  | false, true => some (c + 1)
  | false, false => none

/-- The first decimal in the interval on the grids from `10 ^ exponent` down, of which `grids` are
searched. -/
def search (i : ReadingInterval) : Nat → Int → Decimal
  | 0, exponent => ⟨i.center * (i.step exponent).1 / (i.step exponent).2, exponent⟩
  | grids + 1, exponent =>
    match i.onGrid? exponent with
    | some c => ⟨c, exponent⟩
    | none => i.search grids (exponent - 1)

/-- An exponent of ten with a power above the whole interval, by at most a thousandfold. -/
def coarsest (i : ReadingInterval) : Int :=
  ((i.high.log2 : Int) + i.unit + 1) * 30103 / 100000 + 2

end ReadingInterval

/-- The shortest decimal that reads back as the finite nonzero number of a pattern. -/
def FloatFormat.shortest (f : FloatFormat) (pattern : Nat) : Decimal :=
  let i := f.readingInterval pattern
  i.search 25 i.coarsest

end DynamicEval
