/-!
# One style of quotes

A quoted literal opens with a single or a double quote and ends at the next quote of the same
style that no backslash protects. Rewriting every literal into double quotes gives texts that
differ only in their quotes one spelling.

## Main definitions

* `normalizeQuotes`: the text with all its literals in double quotes.
-/

namespace DynamicEval.Text

/-- A character that opens a literal. -/
def isQuote (c : Char) : Bool :=
  c == '"' || c == '\''

/-- Rewrites the rest of a text; `literal` is the quote of the literal that the rest starts in.

Inside a literal a backslash keeps the character behind it, except that a protected single quote
needs no backslash any more once its literal is in double quotes, and a bare double quote gains
one. A literal that never ends is carried over. -/
def requote (literal : Option Char) : List Char → List Char
  | [] => []
  | c :: cs =>
    match literal with
    | none => if isQuote c then '"' :: requote (some c) cs else c :: requote none cs
    | some quote =>
      if c == '\\' then
        match cs with
        | [] => ['\\']
        | d :: ds =>
          if d == '\'' && quote == '\'' then '\'' :: requote literal ds
          else '\\' :: d :: requote literal ds
      else if c == quote then
        '"' :: requote none cs
      else if c == '"' then
        '\\' :: '"' :: requote literal cs
      else
        c :: requote literal cs

/-- The text with all its literals in double quotes. -/
def normalizeQuotes (cs : List Char) : List Char :=
  requote none cs

end DynamicEval.Text
