import DynamicEval.Text.Printable

/-!
# Quoted literals

A text is shown between double quotes with escapes for the quote, the backslash, the usual control
characters and everything that does not print.

## Main definitions

* `escape`: how one character is shown inside a literal.
* `quoted`: a text as a literal.
-/

namespace DynamicEval.Text

/-- How one character is shown inside a literal; what does not print is shown by its code point
in lower-case hexadecimal digits. -/
def escape (c : Char) : List Char :=
  if c == '\x00' then ['\\', '0']
  else if c == '\t' then ['\\', 't']
  else if c == '\n' then ['\\', 'n']
  else if c == '\r' then ['\\', 'r']
  else if c == '"' then ['\\', '"']
  else if c == '\\' then ['\\', '\\']
  else if isPrintable c then [c]
  else ['\\', 'u', '\x7b'] ++ Nat.toDigits 16 c.toNat ++ ['\x7d']

/-- A text between double quotes, with escapes. -/
def quoted (cs : List Char) : List Char :=
  '"' :: cs.flatMap escape ++ ['"']

end DynamicEval.Text
