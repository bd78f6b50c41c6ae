import DynamicEval.Binary64
import DynamicEval.Expr.Operator

/-!
# Tokens

## Main definitions

* `TokenKind`: what a token stands for.
* `Token`: a token with its spelling and its place.
-/

namespace DynamicEval

/-- What a token stands for. -/
inductive TokenKind where
  /-- An integer literal. -/
  | integer (n : Int64)
  /-- A floating-point literal. -/
  | float (x : Binary64)
  /-- A quoted literal, its escapes resolved. -/
  | string (s : String)
  /-- A name; the names of constants are told apart in evaluation. -/
  | name (s : String)
  /-- The sign of a binary operator; two of them also stand before an operand. -/
  | operator (op : BinaryOp)
  /-- The sign of negation of truth values. -/
  | bang
  | leftParen | rightParen | leftBracket | rightBracket | comma | dot
  /-- The end of the text. -/
  | eof
deriving DecidableEq

/-- A token. -/
structure Token where
  /-- What the token stands for. -/
  kind : TokenKind
  /-- The characters of the token. -/
  lexeme : String
  /-- The place of its first character, counted in characters from the start. -/
  position : Nat
deriving DecidableEq

end DynamicEval
