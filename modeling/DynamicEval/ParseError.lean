/-!
# Failures of reading an expression

## Main definitions

* `Fault`: what is wrong with a text at one place.
* `Expectation`: what should have stood in place of a token.
* `ParseError`: why a text is not an expression, and `ParseError.message`, its wording.
-/

namespace DynamicEval

/-- The greatest height of an expression tree. -/
def maxNesting : Nat := 256

/-- What is wrong with a text at one place. -/
inductive Fault where
  /-- A single equals sign. -/
  | assignment
  /-- A character that starts no token. -/
  | unexpected (c : Char)
  /-- A backslash before a character that it does not escape. -/
  | badEscape (c : Char)
  /-- A literal without its closing quote. -/
  | unterminated
  /-- A base prefix without a digit of that base behind it. -/
  | prefixWithoutDigits
  /-- A letter, figure or underscore directly behind a number. -/
  | badDigit (c : Char)
  /-- A tree higher than `maxNesting`. -/
  | tooDeep
deriving DecidableEq

/-- The wording of a fault. -/
def Fault.message : Fault → String
  | assignment => "assignment is not an expression"
  | unexpected c => "unexpected character '" ++ c.toString ++ "'"
  | badEscape c => "invalid escape sequence \\" ++ c.toString
  | unterminated => "unterminated string"
  | prefixWithoutDigits => "number prefix without digits"
  | badDigit c => "invalid digit '" ++ c.toString ++ "' in number"
  | tooDeep => "expression nested deeper than " ++ toString maxNesting ++ " levels"

/-- What should have stood in place of a token. -/
inductive Expectation where
  | operand | fieldName | rightBracket | rightParen | endOfExpression
deriving DecidableEq

/-- The wording of an expectation. -/
def Expectation.text : Expectation → String
  | operand => "operand"
  | fieldName => "field name"
  | rightBracket => "]"
  | rightParen => ")"
  | endOfExpression => "end of expression"

/-- Why a text is not an expression. -/
inductive ParseError where
  /-- A fault at a place, counted in characters from the start. -/
  | malformed (position : Nat) (fault : Fault)
  /-- The text ends where more is needed. -/
  | unexpectedEnd
  /-- A token in place of another one. -/
  | unexpectedToken (expected : Expectation) (found : String)
  /-- A text without any token. -/
  | emptyExpression
deriving DecidableEq

/-- The wording of a failure. -/
def ParseError.message : ParseError → String
  | malformed position fault =>
    "Syntax error at offset " ++ toString position ++ ": " ++ fault.message
  | unexpectedEnd => "Unexpected end of expression"
  | unexpectedToken expected found =>
    "Unexpected token: expected " ++ expected.text ++ ", got " ++ found
  | emptyExpression => "Empty expression"

end DynamicEval
