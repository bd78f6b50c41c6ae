import DynamicEval.Decimal.Layout
import DynamicEval.Expr
import DynamicEval.Text.Quoted

/-!
# Writing expressions

An expression is written with one blank around binary operators and one behind the comma between
arguments. Parentheses are nodes of the tree, so none are added.

## Main definitions

* `Expr.text`: an expression as a text.
-/

namespace DynamicEval

mutual

/-- An expression as a text. -/
def Expr.text : Expr → String
  | .int n => toString n.toInt
  | .float x => NumberStyle.literal.writeDouble x
  | .string s => String.ofList (Text.quoted s.toList)
  | .name s => s
  | .select object field => object.text ++ "." ++ field
  | .index object key => object.text ++ "[" ++ key.text ++ "]"
  | .call callee args => callee.text ++ "(" ++ ", ".intercalate (Expr.texts args) ++ ")"
  | .unary op operand => op.symbol ++ operand.text
  | .binary op left right => left.text ++ " " ++ op.symbol ++ " " ++ right.text
  | .paren inner => "(" ++ inner.text ++ ")"
termination_by structural e => e

/-- Several expressions, each as a text. -/
def Expr.texts : List Expr → List String
  | [] => []
  | e :: es => e.text :: Expr.texts es
termination_by structural es => es

end

end DynamicEval
