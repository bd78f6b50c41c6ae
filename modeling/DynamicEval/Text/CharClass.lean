/-!
# Classes of characters

A class of characters is kept as the ascending list of the code points at which membership
changes, so a character is in the class when an odd number of them are at or below it.

## Main definitions

* `CharClass`: a class of characters.
* `CharClass.contains`: membership.
-/

namespace DynamicEval.Text

/-- A class of characters, given by the code points at which membership changes. -/
structure CharClass where
  /-- The code points at which membership changes, in ascending order. -/
  bounds : List Nat

/-- Membership of the code point `n`, where `inside` holds below the first bound. -/
def CharClass.inside (inside : Bool) (n : Nat) : List Nat → Bool
  | [] => inside
  | b :: bs => if n < b then inside else CharClass.inside (!inside) n bs

/-- Whether the character `c` is in the class. -/
def CharClass.contains (k : CharClass) (c : Char) : Bool :=
  CharClass.inside false c.toNat k.bounds

end DynamicEval.Text
