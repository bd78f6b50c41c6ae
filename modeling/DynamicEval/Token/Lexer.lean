import DynamicEval.Numeral
import DynamicEval.ParseError
import DynamicEval.Text.Alphabetic
import DynamicEval.Text.Numeric
import DynamicEval.Text.Quotes
import DynamicEval.Token

/-!
# Scanning

A text is cut into tokens from left to right. At each place the first character selects a rule, and
the rule says what the token stands for and how many further characters it takes; the token's
spelling is that slice of the text, so tokens tile the text up to blanks between them.

## Main definitions

* `Lexeme`: what starts at a place.
* `lexeme`: the rule of a place.
* `scan`: the tokens of a text, with an end token behind them.
-/

namespace DynamicEval

/-- What starts at a place: a token of some kind, or a blank, and the number of characters that
belong to it after the first. -/
structure Lexeme where
  /-- The kind of the token; a blank has none. -/
  kind : Option TokenKind
  /-- The number of characters after the first. -/
  extra : Nat

namespace Lexer

/-- A character that may start a name. -/
def startsName (c : Char) : Bool :=
  Text.isAlphabetic c || c == '_'

/-- A character that may continue a name. -/
def continuesName (c : Char) : Bool :=
  Text.isAlphabetic c || Text.isNumeric c || c == '_'

/-- The blanks that separate tokens. -/
def isSpace (c : Char) : Bool :=
  c == ' ' || c == '\r' || c == '\t' || c == '\n'

/-- The character that a backslash makes of the one behind it. -/
def unescape? : Char → Option Char
  | 'n' => some '\n'
  | 't' => some '\t'
  | 'r' => some '\r'
  | '\\' => some '\\'
  | '"' => some '"'
  | '\'' => some '\''
  | _ => none

/-- The contents of a literal behind its opening quote, and the number of characters up to and with
its closing quote. -/
def literal (quote : Char) : List Char → Except Fault (List Char × Nat)
  | [] => .error .unterminated
  | c :: cs =>
    if c == quote then
      .ok ([], 1)
    else if c == '\\' then
      match cs with
      | [] => .error .unterminated
      | d :: ds =>
        match unescape? d with
        | none => .error (.badEscape d)
        | some e => (literal quote ds).map fun (text, n) => (e :: text, n + 2)
    else
      (literal quote cs).map fun (text, n) => (c :: text, n + 1)

/-- The base that a letter behind a leading zero selects. -/
def literalBase? : Char → Option Nat
  | 'b' | 'B' => some 2
  | 'o' | 'O' => some 8
  | 'x' | 'X' => some 16
  | _ => none

/-- The base of a number and the number of characters of its prefix after the first. -/
def numberBase : Char → List Char → Nat × Nat
  | '0', c :: _ =>
    match literalBase? c with
    | some base => (base, 1)
    | none => (10, 0)
  | _, _ => (10, 0)

/-- The number of characters of a fraction at the head of a text: a point with a digit behind it,
and all digits behind the point. -/
def fractionLength (base : Nat) : List Char → Nat
  | '.' :: c :: cs =>
    if isDigitOf base c then ((c :: cs).takeWhile (isDigitOf base)).length + 1 else 0
  | _ => 0

/-- A number that starts with a figure, or with a point before a figure. -/
def number (c : Char) (cs : List Char) : Except Fault Lexeme :=
  let (base, skip) := numberBase c cs
  let digits := (cs.drop skip).takeWhile (isDigitOf base)
  if skip = 1 ∧ digits = [] then
    .error .prefixWithoutDigits
  else
    let behind := cs.drop (skip + digits.length)
    let fraction := if c == '.' then 0 else fractionLength base behind
    let extra := skip + digits.length + fraction
    let text := String.ofList (c :: cs.take extra)
    let kind :=
      if c == '.' then .float (readFloat ("0" ++ text))
      else if fraction = 0 then .integer (readInt text)
      else .float (readFloat text)
    match (cs.drop extra).head? with
    | some d => if continuesName d then .error (.badDigit d) else .ok ⟨some kind, extra⟩
    | none => .ok ⟨some kind, extra⟩

/-- A sign, given its first character and the one behind it, with the number of its further
characters. -/
def sign? : Char → Option Char → Option (TokenKind × Nat)
  | '(', _ => some (.leftParen, 0)
  | ')', _ => some (.rightParen, 0)
  | '[', _ => some (.leftBracket, 0)
  | ']', _ => some (.rightBracket, 0)
  | ',', _ => some (.comma, 0)
  | '.', _ => some (.dot, 0)
  | '+', _ => some (.operator .add, 0)
  | '-', _ => some (.operator .sub, 0)
  | '*', _ => some (.operator .mul, 0)
  | '/', _ => some (.operator .div, 0)
  | '%', _ => some (.operator .rem, 0)
  | '^', _ => some (.operator .bitXor, 0)
  | '&', some '&' => some (.operator .and, 1)
  | '&', some '^' => some (.operator .andNot, 1)
  | '&', _ => some (.operator .bitAnd, 0)
  | '|', some '|' => some (.operator .or, 1)
  | '|', _ => some (.operator .bitOr, 0)
  | '<', some '<' => some (.operator .shl, 1)
  | '<', some '=' => some (.operator .le, 1)
  | '<', _ => some (.operator .lt, 0)
  | '>', some '>' => some (.operator .shr, 1)
  | '>', some '=' => some (.operator .ge, 1)
  | '>', _ => some (.operator .gt, 0)
  | '!', some '=' => some (.operator .ne, 1)
  | '!', _ => some (.bang, 0)
  | '=', some '=' => some (.operator .eq, 1)
  | _, _ => none

/-- Whether a number starts with `c`, behind which `next` stands. -/
def startsNumber (c : Char) (next : Option Char) : Bool :=
  c.isDigit || (c == '.' && next.any Char.isDigit)

end Lexer

open Lexer in
/-- What starts with the character `c`, behind which the text goes on with `cs`. -/
def lexeme (c : Char) (cs : List Char) : Except Fault Lexeme :=
  if isSpace c then
    .ok ⟨none, 0⟩
  else if Text.isQuote c then
    (literal c cs).map fun (text, n) => ⟨some (.string (String.ofList text)), n⟩
  else if startsNumber c cs.head? then
    number c cs
  else if startsName c then
    let more := cs.takeWhile continuesName
    .ok ⟨some (.name (String.ofList (c :: more))), more.length⟩
  else
    match sign? c cs.head? with
    | some (kind, extra) => .ok ⟨some kind, extra⟩
    | none => .error (if c == '=' then .assignment else .unexpected c)

/-- The tokens of the rest of a text, which starts at `position`. -/
def scanFrom (position : Nat) : List Char → Except ParseError (List Token)
  | [] => .ok [⟨.eof, "", position⟩]
  | c :: cs =>
    match lexeme c cs with
    | .error fault => .error (.malformed position fault)
    | .ok l =>
      match scanFrom (position + 1 + l.extra) (cs.drop l.extra) with
      | .error e => .error e
      | .ok tokens =>
        match l.kind with
        | none => .ok tokens
        | some kind => .ok (⟨kind, String.ofList (c :: cs.take l.extra), position⟩ :: tokens)
termination_by cs => cs.length
decreasing_by
  simp only [List.length_drop, List.length_cons]
  omega

/-- The tokens of a text, with an end token behind them. -/
def scan (text : String) : Except ParseError (List Token) :=
  scanFrom 0 text.toList

end DynamicEval
