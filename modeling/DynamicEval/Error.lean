import DynamicEval.Expr.Operator
import DynamicEval.ParseError

/-!
# Failures

Everything that can go wrong between reading an expression and storing a value. Types are named as
they are written.

## Main definitions

* `Error`, `Error.message`: a failure and its wording.
* `Severity`, `Error.severity`: how grave a failure is.
-/

namespace DynamicEval

/-- A failure. -/
inductive Error where
  /-- A text is not an expression. -/
  | parse (e : ParseError)
  /-- The target of a call is nothing; it is named as it is written. -/
  | undefinedMethod (name : String)
  /-- The target of a call is a value of another type. -/
  | notCallable (type : String)
  /-- A binary operator on operands it has no meaning for. -/
  | invalidOperation (op : BinaryOp) (left : String) (right : String)
  /-- An operator before an operand it has no meaning for. -/
  | invalidUnary (op : UnaryOp) (type : String)
  /-- An integer quotient or remainder by zero. -/
  | divisionByZero
  /-- A value of one type where another is needed. -/
  | unexpectedType (expected : String) (found : String)
  /-- A callable with declared parameters, called with another number of arguments. -/
  | arityMismatch (name : String) (expected : Nat) (found : Nat)
  /-- A destination without a type. -/
  | unaddressable
  /-- A value that cannot be coerced into the type of a destination. -/
  | cannotAssign (source : String) (destination : String)
  /-- A copy between different types. -/
  | cannotClone (source : String) (destination : String)
  /-- A merge of types that do not go together. -/
  | cannotMerge (source : String) (destination : String)
  /-- A field that a record type does not declare. -/
  | unknownField (record : String) (field : String)
  /-- A failure that host code reports. -/
  | host (message : String)
deriving DecidableEq

/-- How grave a failure is. -/
inductive Severity where
  /-- The same inputs will always fail. -/
  | fatal
  /-- Other inputs may succeed. -/
  | recoverable
  /-- Evaluation may go on. -/
  | warning
deriving DecidableEq

namespace Error

/-- The wording of a failure. -/
def message : Error → String
  | parse e => e.message
  | undefinedMethod name => "Undefined method: " ++ name
  | notCallable type => "Value is not callable: " ++ type
  | invalidOperation op left right =>
    "Invalid operation: " ++ op.symbol ++ " on types " ++ left ++ " and " ++ right
  | invalidUnary op type => "Invalid operator '" ++ op.symbol ++ "' on " ++ type
  | divisionByZero => "Division by zero"
  | unexpectedType expected found => "Type error: expected " ++ expected ++ ", got " ++ found
  | arityMismatch name expected found =>
    "Function " ++ name ++ " expects " ++ toString expected ++ " arguments, got " ++ toString found
  | unaddressable => "Destination is unaddressable"
  | cannotAssign source destination => "Can't assign " ++ source ++ " to " ++ destination
  | cannotClone source destination => "Can't clone " ++ source ++ " into " ++ destination
  | cannotMerge source destination => "Can't merge " ++ source ++ " into " ++ destination
  | unknownField record field => "Runtime error: " ++ record ++ " has no field " ++ field
  | host message => "Runtime error: " ++ message

/-- How grave a failure is. Writing into the wrong type is a mistake of the program. -/
def severity : Error → Severity
  | unaddressable | cannotAssign _ _ | cannotClone _ _ | cannotMerge _ _ => .fatal
  | unexpectedType _ _ => .warning
  | _ => .recoverable

end Error

end DynamicEval
