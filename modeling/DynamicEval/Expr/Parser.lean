import DynamicEval.Expr
import DynamicEval.Token.Lexer

/-!
# Parsing

A parser reads one construct from the head of a list of tokens and gives its tree, the height of
the tree and the tokens behind it. Binary operators are read by climbing from loose to tight
levels. Two limits bound the nesting: an operand may stand only `maxNesting` operands deep, so
operands are read by recursion on the room that is left, and no tree may be higher than
`maxNesting`. Every round of a loop consumes a token, so the tokens at hand bound the rounds.

## Main definitions

* `Parser`: a reader of one construct.
* `Parser.operand`: reads a prefixed or postfixed operand in a given room.
* `Parser.climb`, `Parser.binary`: read chains of binary operators.
* `Expr.parse`: reads all tokens of a text as one expression.
* `Expr.read`: reads a text.
-/

namespace DynamicEval

/-- A tree that was read, its height and the tokens behind it. -/
structure Parsed where
  /-- The tree. -/
  tree : Expr
  /-- The height of the tree. -/
  height : Nat
  /-- The tokens behind it. -/
  rest : List Token

/-- A reader of one construct at the head of a list of tokens. -/
abbrev Parser := List Token → Except ParseError Parsed

namespace Parser

/-- The kind of the first token, the end of the text when there is none. -/
def head : List Token → TokenKind
  | [] => .eof
  | t :: _ => t.kind

/-- The failure for a tree that would be too high, found before the first of `ts`. -/
def tooDeep (ts : List Token) : ParseError :=
  .malformed (match ts with | [] => 0 | t :: _ => t.position) .tooDeep

/-- The failure for a first token other than expected. -/
def unexpected (expected : Expectation) : List Token → ParseError
  | [] => .unexpectedEnd
  | t :: _ => if t.kind = .eof then .unexpectedEnd else .unexpectedToken expected t.lexeme

/-- The height of a node over subtrees of height up to `height`, found before the tokens `ts`. -/
def grow (height : Nat) (ts : List Token) : Except ParseError Nat :=
  if maxNesting ≤ height then .error (tooDeep ts) else .ok (height + 1)

/-- Takes a token of the given kind off the head of a list. -/
def expect (kind : TokenKind) (expected : Expectation) (ts : List Token) :
    Except ParseError (List Token) :=
  if head ts = kind then .ok ts.tail else .error (unexpected expected ts)

section Levels

/-- Reads further operators of at least the level `min`, each with a right operand that `right`
reads at the next level up, and joins them to the left. -/
def climb (right : Precedence → Parser) (min : Precedence) : Nat → Parsed → Except ParseError Parsed
  | 0, left => .ok left
  | rounds + 1, left =>
    match head left.rest with
    | .operator op =>
      if op.precedence.rank < min.rank then
        .ok left
      else do
        let r ← right op.precedence.tighter left.rest.tail
        let height ← grow (max left.height r.height) r.rest
        climb right min rounds ⟨.binary op left.tree r.tree, height, r.rest⟩
    | _ => .ok left

/-- Reads a chain of operators of at least the level `min` over operands that `operand` reads;
`levels` bounds the number of levels above `min`. -/
def binary (operand : Parser) : Nat → Precedence → Parser
  | 0, _, ts => operand ts
  | levels + 1, min, ts => do
    let left ← operand ts
    climb (binary operand levels) min left.rest.length left

/-- Reads a whole expression over operands that `operand` reads. -/
def expression (operand : Parser) : Parser :=
  binary operand 6 .or

end Levels

section Postfix

/-- Reads the arguments of a call up to its closing parenthesis, each with `expression`. The last
argument may have a comma behind it. -/
def arguments (expression : Parser) :
    Nat → List Token → Except ParseError (List Expr × Nat × List Token)
  | 0, ts => .error (unexpected .rightParen ts)
  | rounds + 1, ts => do
    let arg ← expression ts
    if head arg.rest = .comma then
      let ts := arg.rest.tail
      if head ts = .rightParen then
        return ([arg.tree], arg.height, ts.tail)
      let (args, height, ts) ← arguments expression rounds ts
      return (arg.tree :: args, max arg.height height, ts)
    else
      let ts ← expect .rightParen .rightParen arg.rest
      return ([arg.tree], arg.height, ts)

/-- Reads the arguments of a call behind its opening parenthesis. -/
def argumentList (expression : Parser) (ts : List Token) :
    Except ParseError (List Expr × Nat × List Token) :=
  if head ts = .rightParen then .ok ([], 0, ts.tail) else arguments expression ts.length ts

/-- Reads members, elements and calls behind an operand. -/
def suffixes (expression : Parser) : Nat → Parsed → Except ParseError Parsed
  | 0, x => .ok x
  | rounds + 1, x =>
    match head x.rest with
    | .dot =>
      let ts := x.rest.tail
      match head ts with
      | .name field => do
        let height ← grow x.height ts.tail
        suffixes expression rounds ⟨.select x.tree field, height, ts.tail⟩
      | _ => .error (unexpected .fieldName ts)
    | .leftBracket => do
      let key ← expression x.rest.tail
      let ts ← expect .rightBracket .rightBracket key.rest
      let height ← grow (max x.height key.height) ts
      suffixes expression rounds ⟨.index x.tree key.tree, height, ts⟩
    | .leftParen => do
      let (args, argsHeight, ts) ← argumentList expression x.rest.tail
      let height ← grow (max x.height argsHeight) ts
      suffixes expression rounds ⟨.call x.tree args, height, ts⟩
    | _ => .ok x

/-- Reads a literal, a name or an expression in parentheses. -/
def primary (expression : Parser) (ts : List Token) : Except ParseError Parsed :=
  match head ts with
  | .integer n => .ok ⟨.int n, 1, ts.tail⟩
  | .float x => .ok ⟨.float x, 1, ts.tail⟩
  | .string s => .ok ⟨.string s, 1, ts.tail⟩
  | .name s => .ok ⟨.name s, 1, ts.tail⟩
  | .leftParen => do
    let inner ← expression ts.tail
    let ts ← expect .rightParen .rightParen inner.rest
    let height ← grow inner.height ts
    return ⟨.paren inner.tree, height, ts⟩
  | _ => .error (unexpected .operand ts)

/-- Reads a literal, a name or an expression in parentheses with everything behind it that belongs
to it. -/
def postfixed (expression : Parser) (ts : List Token) : Except ParseError Parsed := do
  let x ← primary expression ts
  suffixes expression x.rest.length x

end Postfix

/-- The operator that a token stands for before an operand. -/
def prefixOp? : TokenKind → Option UnaryOp
  | .bang => some .not
  | .operator .sub => some .neg
  | .operator .add => some .plus
  | _ => none

/-- Reads an operand in a room for so many nested operands. -/
def operand : Nat → Parser
  | 0, ts => .error (tooDeep ts)
  | room + 1, ts =>
    match prefixOp? (head ts) with
    | some op => do
      let x ← operand room ts.tail
      let height ← grow x.height x.rest
      return ⟨.unary op x.tree, height, x.rest⟩
    | none => postfixed (expression (operand room)) ts

end Parser

namespace Expr

open DynamicEval.Parser in
/-- Reads all tokens as one expression. -/
def parse (ts : List Token) : Except ParseError Expr :=
  if head ts = .eof then
    .error .emptyExpression
  else do
    let e ← expression (operand maxNesting) ts
    if head e.rest = .eof then return e.tree
    throw (unexpected .endOfExpression e.rest)

/-- Reads a text as one expression. -/
def read (text : String) : Except ParseError Expr := do
  parse (← scan text)

end Expr

end DynamicEval
