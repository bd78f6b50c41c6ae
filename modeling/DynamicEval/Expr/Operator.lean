/-!
# Operators

The operators of expressions, how tightly they bind and how they are written.

## Main definitions

* `BinaryOp`, `UnaryOp`: the operators.
* `Precedence`: the levels of binding, from loose to tight.
* `BinaryOp.precedence`: the level of a binary operator.
-/

namespace DynamicEval

/-- An operator between two operands. -/
inductive BinaryOp where
  | add | sub | mul | div | rem
  | eq | ne | lt | gt | le | ge
  | and | or
  | bitAnd | bitOr | bitXor | shl | shr | andNot
deriving DecidableEq

/-- An operator before its operand. -/
inductive UnaryOp where
  | neg | not | plus
deriving DecidableEq

/-- A level of binding, from the loosest to the tightest. -/
inductive Precedence where
  | or | and | comparison | term | factor | unary
deriving DecidableEq

namespace Precedence

/-- The place of a level, counted from the loosest. -/
def rank : Precedence → Nat
  | or => 0
  | and => 1
  | comparison => 2
  | term => 3
  | factor => 4
  | unary => 5

/-- The next level up, which the right operand of a left-associative operator needs. -/
def tighter : Precedence → Precedence
  | or => and
  | and => comparison
  | comparison => term
  | term => factor
  | factor => unary
  | unary => unary

end Precedence

namespace BinaryOp

/-- The level of an operator. Bitwise or and exclusive or bind as sums do, the other bitwise
operators as products do. -/
def precedence : BinaryOp → Precedence
  | or => .or
  | and => .and
  | eq | ne | lt | gt | le | ge => .comparison
  | add | sub | bitOr | bitXor => .term
  | mul | div | rem | shl | shr | bitAnd | andNot => .factor

/-- An operator that compares its operands. -/
def isComparison (op : BinaryOp) : Bool :=
  op.precedence == .comparison

/-- An operator on the bit patterns of its operands. -/
def isBitwise : BinaryOp → Bool
  | bitAnd | bitOr | bitXor | shl | shr | andNot => true
  | _ => false

/-- How an operator is written. -/
def symbol : BinaryOp → String
  | add => "+"
  | sub => "-"
  | mul => "*"
  | div => "/"
  | rem => "%"
  | eq => "=="
  | ne => "!="
  | lt => "<"
  | gt => ">"
  | le => "<="
  | ge => ">="
  | and => "&&"
  | or => "||"
  | bitAnd => "&"
  | bitOr => "|"
  | bitXor => "^"
  | shl => "<<"
  | shr => ">>"
  | andNot => "&^"

end BinaryOp

/-- How an operator is written. -/
def UnaryOp.symbol : UnaryOp → String
  | neg => "-"
  | not => "!"
  | plus => "+"

end DynamicEval
