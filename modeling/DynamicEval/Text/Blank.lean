import DynamicEval.Text.CharClass

/-!
# Blank characters

The Unicode property White_Space and the removal of blank characters at both ends of a text.

## Main definitions

* `isBlank`: whether a character has the property.
* `trim`: a text without its leading and trailing blank characters.
-/

namespace DynamicEval.Text

/-- The characters with the Unicode property White_Space. -/
def blank : CharClass where
  bounds := [
    9, 14, 32, 33, 133, 134, 160, 161, 5760, 5761, 8192, 8203, 8232, 8234, 8239, 8240, 8287,
    8288, 12288, 12289]

/-- A blank character. -/
def isBlank (c : Char) : Bool :=
  blank.contains c

/-- The text without its leading and trailing blank characters. -/
def trim (cs : List Char) : List Char :=
  ((cs.dropWhile isBlank).reverse.dropWhile isBlank).reverse

end DynamicEval.Text
