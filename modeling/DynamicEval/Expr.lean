import DynamicEval.Binary64
import DynamicEval.Expr.Operator

/-!
# Expression trees

## Main definitions

* `Expr`: the tree of an expression.
* `Expr.height`: the number of nodes on a longest path from the root.
-/

namespace DynamicEval

/-- An expression. -/
inductive Expr where
  /-- An integer literal. -/
  | int (n : Int64)
  /-- A floating-point literal. -/
  | float (x : Binary64)
  /-- A quoted literal. -/
  | string (s : String)
  /-- A name; `nil`, `null`, `true` and `false` are told apart in evaluation. -/
  | name (s : String)
  /-- A member of an object. -/
  | select (object : Expr) (field : String)
  /-- An element of an object. -/
  | index (object : Expr) (key : Expr)
  /-- A call. -/
  | call (callee : Expr) (args : List Expr)
  /-- An operator before its operand. -/
  | unary (op : UnaryOp) (operand : Expr)
  /-- An operator between its operands. -/
  | binary (op : BinaryOp) (left : Expr) (right : Expr)
  /-- An expression in parentheses. -/
  | paren (inner : Expr)

mutual

/-- The number of nodes on a longest path from the root of a tree. -/
def Expr.height : Expr → Nat
  | .int _ | .float _ | .string _ | .name _ => 1
  | .select object _ => object.height + 1
  | .index object key => max object.height key.height + 1
  | .call callee args => max callee.height (Expr.heightOfList args) + 1
  | .unary _ operand => operand.height + 1
  | .binary _ left right => max left.height right.height + 1
  | .paren inner => inner.height + 1
termination_by structural e => e

/-- The greatest height of several trees, zero for none. -/
def Expr.heightOfList : List Expr → Nat
  | [] => 0
  | e :: es => max e.height (Expr.heightOfList es)
termination_by structural es => es

end

end DynamicEval
