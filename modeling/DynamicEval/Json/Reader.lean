/-!
# Reading JSON

The strict grammar of JSON texts. Of numbers only the natural ones of 64 bits are told apart, and a
text may hold an escaped half of a surrogate pair, for which there is no character.

The evaluator leaves this to a library of others. The reader stands in for that library so that a
configuration can be read from its text; no theorem is about it or depends on it.

## Main definitions

* `Json`: the syntax of a JSON text.
* `Json.read?`: reads a whole text.
-/

namespace DynamicEval

/-- The syntax of a JSON text. -/
inductive Json where
  | null
  | bool (b : Bool)
  /-- A number, with its value when it is a natural number of 64 bits written as digits only. -/
  | number (natural? : Option Nat)
  /-- A text, with its characters unless half a surrogate pair is among them. -/
  | string (chars? : Option (List Char))
  | array (items : List Json)
  | object (members : List (Option (List Char) × Json))

namespace Json

/-- Drops blanks from the head of a text. -/
def skipBlanks (cs : List Char) : List Char :=
  cs.dropWhile fun c => c == ' ' || c == '\n' || c == '\t' || c == '\r'

/-- Reads at least one digit. -/
def digits? (cs : List Char) : Option (List Char × List Char) :=
  match cs.takeWhile Char.isDigit with
  | [] => none
  | ds => some (ds, cs.dropWhile Char.isDigit)

/-- Reads a fraction if there is one, and tells whether there is. -/
def fraction? : List Char → Option (Bool × List Char)
  | '.' :: cs => (digits? cs).map fun (_, cs) => (true, cs)
  | cs => some (false, cs)

/-- Reads a power of ten if there is one, and tells whether there is. -/
def power? : List Char → Option (Bool × List Char)
  | c :: cs =>
    if c == 'e' || c == 'E' then
      let cs := match cs with
        | '+' :: cs | '-' :: cs => cs
        | cs => cs
      (digits? cs).map fun (_, cs) => (true, cs)
    else
      some (false, c :: cs)
  | [] => some (false, [])

/-- Reads a number. -/
def number? (cs : List Char) : Option (Json × List Char) := do
  let (negative, cs) := match cs with
    | '-' :: cs => (true, cs)
    | cs => (false, cs)
  let (ds, cs) ← digits? cs
  if ds.head? = some '0' ∧ ds.length ≠ 1 then
    none
  let (fractional, cs) ← fraction? cs
  let (scaled, cs) ← power? cs
  let n := ds.foldl (fun n c => n * 10 + (c.toNat - '0'.toNat)) 0
  let natural := !negative && !fractional && !scaled && n < UInt64.size
  return (number (if natural then some n else none), cs)

/-- The value of a hexadecimal digit. -/
def hexDigit? (c : Char) : Option Nat :=
  if c.isDigit then some (c.toNat - '0'.toNat)
  else if 'a' ≤ c && c ≤ 'f' then some (c.toNat - 'a'.toNat + 10)
  else if 'A' ≤ c && c ≤ 'F' then some (c.toNat - 'A'.toNat + 10)
  else none

/-- Reads four hexadecimal digits. -/
def hexUnit? : List Char → Option (Nat × List Char)
  | a :: b :: c :: d :: cs => do
    let high := (← hexDigit? a) * 16 + (← hexDigit? b)
    let low := (← hexDigit? c) * 16 + (← hexDigit? d)
    return (high * 256 + low, cs)
  | _ => none

/-- A unit of text: a character or half a surrogate pair. -/
inductive TextUnit where
  | char (c : Char)
  | high (n : Nat)
  | low (n : Nat)

/-- The unit of text with the given number. -/
def TextUnit.ofNat (n : Nat) : TextUnit :=
  if 0xd800 ≤ n && n < 0xdc00 then high (n - 0xd800)
  else if 0xdc00 ≤ n && n < 0xe000 then low (n - 0xdc00)
  else char (Char.ofNat n)

/-- The characters of units of text, unless half a surrogate pair stands alone. -/
def TextUnit.chars? : List TextUnit → Option (List Char)
  | [] => some []
  | char c :: us => (chars? us).map (c :: ·)
  | high m :: low n :: us => (chars? us).map (Char.ofNat (0x10000 + m * 0x400 + n) :: ·)
  | _ => none

/-- The character that a backslash makes of the one behind it. -/
def simpleEscape? : Char → Option Char
  | '"' => some '"'
  | '\\' => some '\\'
  | '/' => some '/'
  | 'b' => some '\x08'
  | 'f' => some '\x0c'
  | 'n' => some '\n'
  | 'r' => some '\r'
  | 't' => some '\t'
  | _ => none

/-- Reads the units of a text behind its opening quote, of which there are at most so many. -/
def textUnits? : Nat → List Char → Option (List TextUnit × List Char)
  | 0, _ | _, [] => none
  | n + 1, c :: cs =>
    if c == '"' then
      some ([], cs)
    else if c == '\\' then
      match cs with
      | 'u' :: cs => do
        let (u, cs) ← hexUnit? cs
        let (us, cs) ← textUnits? n cs
        return (.ofNat u :: us, cs)
      | d :: cs => do
        let e ← simpleEscape? d
        let (us, cs) ← textUnits? n cs
        return (.char e :: us, cs)
      | [] => none
    else if c.toNat < 0x20 then
      none
    else do
      let (us, cs) ← textUnits? n cs
      return (.char c :: us, cs)

/-- Reads a text behind its opening quote. -/
def text? (cs : List Char) : Option (Option (List Char) × List Char) :=
  (textUnits? (cs.length + 1) cs).map fun (us, cs) => (TextUnit.chars? us, cs)

/-- Takes a word off the head of a text. -/
def word? (word : List Char) (cs : List Char) : Option (List Char) :=
  if word.isPrefixOf cs then some (cs.drop word.length) else none

mutual

/-- Reads a value, in at most so many steps. -/
def value? : Nat → List Char → Option (Json × List Char)
  | 0, _ => none
  | n + 1, cs =>
    match skipBlanks cs with
    | '"' :: cs => (text? cs).map fun (chars, cs) => (string chars, cs)
    | '[' :: cs =>
      match skipBlanks cs with
      | ']' :: cs => some (array [], cs)
      | cs => (items? n cs).map fun (items, cs) => (array items, cs)
    | '\x7b' :: cs =>
      match skipBlanks cs with
      | '\x7d' :: cs => some (object [], cs)
      | cs => (members? n cs).map fun (members, cs) => (object members, cs)
    | 'n' :: cs => (word? "ull".toList cs).map fun cs => (null, cs)
    | 't' :: cs => (word? "rue".toList cs).map fun cs => (bool true, cs)
    | 'f' :: cs => (word? "alse".toList cs).map fun cs => (bool false, cs)
    | cs => number? cs
termination_by structural n => n

/-- Reads the items of an array up to its closing bracket. -/
def items? : Nat → List Char → Option (List Json × List Char)
  | 0, _ => none
  | n + 1, cs => do
    let (item, cs) ← value? n cs
    match skipBlanks cs with
    | ',' :: cs => do
      let (items, cs) ← items? n cs
      return (item :: items, cs)
    | ']' :: cs => return ([item], cs)
    | _ => none
termination_by structural n => n

/-- Reads the members of an object up to its closing brace. -/
def members? : Nat → List Char → Option (List (Option (List Char) × Json) × List Char)
  | 0, _ => none
  | n + 1, cs =>
    match skipBlanks cs with
    | '"' :: cs => do
      let (name, cs) ← text? cs
      match skipBlanks cs with
      | ':' :: cs => do
        let (member, cs) ← value? n cs
        match skipBlanks cs with
        | ',' :: cs => do
          let (members, cs) ← members? n cs
          return ((name, member) :: members, cs)
        | '\x7d' :: cs => return ([(name, member)], cs)
        | _ => none
      | _ => none
    | _ => none
termination_by structural n => n

end

/-- Reads a whole text. -/
def read? (text : String) : Option Json := do
  let (value, rest) ← value? (text.length + 1) text.toList
  if (skipBlanks rest).isEmpty then some value else none

end Json

end DynamicEval
