import DynamicEval.Text.LetterCase
import DynamicEval.Text.Pattern

/-!
# Spelling of names

Names of several words are spelled with separators (`user_name`) or with humps (`userName`). The
conversions here look for separators and humps of ASCII letters only; the first letter and the
final lower-casing follow the full case mappings.

## Main definitions

* `separated`, `hump`: the patterns of the places where words meet.
* `camelCase`, `bigCamelCase`: separators become humps, the first word kept or capitalised.
* `underlineCase`: humps become underscores.
* `firstUpper`: the first character in upper case.
-/

namespace DynamicEval.Text

/-- A character that separates the words of a name. -/
def isSeparator (c : Char) : Bool :=
  c == ':' || c == '-' || c == '_'

/-- Separators and the ASCII letter behind them. -/
def separated : Pattern where
  text := "[:\\-_]+[a-zA-Z]"
  pieces := [.many isSeparator, .one Char.isAlpha]

/-- A small ASCII letter and a capital one behind it. -/
def hump : Pattern where
  text := "[a-z][A-Z]"
  pieces := [.one Char.isLower, .one Char.isUpper]

/-- The last character of a match as a capital, without what stands before it. -/
def joinWords (hit : List Char) : List Char :=
  (hit.drop (hit.length - 1)).map Char.toUpper

/-- A match with an underscore behind its first character. -/
def partWords (hit : List Char) : List Char :=
  hit.take 1 ++ '_' :: hit.drop 1

/-- `user_name`, `user-name` and `user:name` become `userName`. -/
def camelCase (cs : List Char) : List Char :=
  separated.replaceAll joinWords cs

/-- The first character in upper case. -/
def firstUpper : List Char → List Char
  | [] => []
  | c :: cs => upper c ++ cs

/-- `user_name` becomes `UserName`. -/
def bigCamelCase (cs : List Char) : List Char :=
  firstUpper (camelCase cs)

/-- `userName` becomes `user_name`. -/
def underlineCase (cs : List Char) : List Char :=
  lowerCase (hump.replaceAll partWords cs)

end DynamicEval.Text
