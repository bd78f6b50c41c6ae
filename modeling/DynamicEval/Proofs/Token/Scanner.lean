import DynamicEval.Proofs.Token.Lexeme

/-!
# Scanning by places

A scanner that keeps a place in the text looks characters up by their index. Looking ahead is
guarded at the end of the text, where a NUL character stands in, but going on by a character is not:
what keeps it within the text is that no run goes on with a NUL and that a literal asks for the end
first. Here every lookup out of bounds, and every loop that runs more often than the text has
places, ends without a result. The scanner always has one, and it is the one of `scan`.

## Main definitions

* `Scanner.peek`, `Scanner.peekNext`, `Scanner.advance`, `Scanner.slice`: lookups by index.
* `Scanner.token`: what starts at a place.
* `Scanner.run`: the tokens of a text.

## Main results

* `Scanner.token_eq`: what starts at a place is the lexeme there.
* `Scanner.run_eq_scan`: the scanner always has a result, the one of `scan`.
-/

namespace DynamicEval.Scanner

open Lexer (literalBase? startsName continuesName isSpace unescape?)

variable (src : List Char)

/-! ### Lookups -/

/-- The character at a place, a NUL at the end of the text. -/
def peek (i : Nat) : Option Char :=
  if src.length ≤ i then some '\x00' else src[i]?

/-- The character behind a place, a NUL at the end of the text. -/
def peekNext (i : Nat) : Option Char :=
  if src.length ≤ i + 1 then some '\x00' else src[i + 1]?

/-- Goes on by the character at a place, which must not be the end of the text. -/
def advance (i : Nat) : Option (Char × Nat) :=
  src[i]?.map fun c => (c, i + 1)

/-- Goes on by the character at a place if it is `c`. -/
def matchChar (c : Char) (i : Nat) : Option (Bool × Nat) :=
  if src.length ≤ i then
    return (false, i)
  else do
    let d ← src[i]?
    return if d = c then (true, i + 1) else (false, i)

/-- The characters from one place to another. -/
def slice (start stop : Nat) : Option (List Char) :=
  if start ≤ stop ∧ stop ≤ src.length then some ((src.drop start).take (stop - start)) else none

/-- Goes on by all characters of a class, in so many rounds at most. -/
def advanceWhile (p : Char → Bool) : Nat → Nat → Option Nat
  | 0, _ => none
  | rounds + 1, i => do
    let c ← peek src i
    if p c then
      let (_, j) ← advance src i
      advanceWhile p rounds j
    else
      return i

/-! ### Tokens -/

/-- The contents of a literal from a place on, behind `text`, and the place of its closing quote, or
the end of the text when it has none. -/
def contents (quote : Char) : Nat → Nat → List Char → Option (Except Fault (List Char × Nat))
  | 0, _, _ => none
  | rounds + 1, i, text => do
    let c ← peek src i
    if src.length ≤ i ∨ c = quote then
      return .ok (text, i)
    else if c = '\\' then
      let (_, i) ← advance src i
      if src.length ≤ i then
        return .ok (text, i)
      else
        let (d, i) ← advance src i
        match unescape? d with
        | some e => contents quote rounds i (text ++ [e])
        | none => return .error (.badEscape d)
    else
      let (c, i) ← advance src i
      contents quote rounds i (text ++ [c])

/-- The literal of some contents that end at a place, where its closing quote should stand, and the
place behind it. -/
def closing : Except Fault (List Char × Nat) → Option (Except Fault (Option TokenKind × Nat))
  | .error fault => return .error fault
  | .ok (text, i) =>
    if src.length ≤ i then
      return .error .unterminated
    else do
      let (_, i) ← advance src i
      return .ok (some (.string (String.ofList text)), i)

/-- A literal behind its opening quote, and the place behind its closing one. -/
def literal (quote : Char) (i : Nat) : Option (Except Fault (Option TokenKind × Nat)) := do
  closing src (← contents src quote (src.length + 1) i [])

/-- Whether a fraction stands behind the digits of a number, which has none when it starts with a
point, and the place behind it. -/
def fraction (base : Nat) (point : Bool) (i : Nat) : Option (Bool × Nat) := do
  let c ← peek src i
  let d ← peekNext src i
  if !point && c == '.' && isDigitOf base d then
    let (_, i) ← advance src i
    let i ← advanceWhile src (isDigitOf base) (src.length + 1) i
    return (true, i)
  else
    return (false, i)

/-- The digits and the fraction of a number, and the place behind them. -/
def digits (base : Nat) (point : Bool) (start i : Nat) :
    Option (Except Fault (Option TokenKind × Nat)) := do
  let i ← advanceWhile src (isDigitOf base) (src.length + 1) i
  let (hasFraction, i) ← fraction src base point i
  let c ← peek src i
  if continuesName c then
    return .error (.badDigit c)
  else
    let cs ← slice src start i
    let text := String.ofList cs
    let kind :=
      if point then .float (readFloat ("0" ++ text))
      else if hasFraction then .float (readFloat text)
      else .integer (readInt text)
    return .ok (some kind, i)

/-- A number that starts at `start`, and the place behind it. -/
def number (start i : Nat) : Option (Except Fault (Option TokenKind × Nat)) := do
  let first ← src[start]?
  let letter ← peek src i
  match if first = '0' then literalBase? letter else none with
  | some base =>
    let (_, i) ← advance src i
    let d ← peek src i
    if isDigitOf base d then
      digits src base false start i
    else
      return .error .prefixWithoutDigits
  | none => digits src 10 (first == '.') start i

/-- A name that starts at `start`, and the place behind it. -/
def name (start i : Nat) : Option (Except Fault (Option TokenKind × Nat)) := do
  let i ← advanceWhile src continuesName (src.length + 1) i
  let cs ← slice src start i
  return .ok (some (.name (String.ofList cs)), i)

/-- What a sign stands for when one of the characters of `pairs` stands behind it. -/
def paired : List (Char × TokenKind) → Nat → Option (Option TokenKind × Nat)
  | [], i => return (none, i)
  | (c, kind) :: pairs, i => do
    let (hit, i) ← matchChar src c i
    if hit then return (some kind, i) else paired pairs i

/-- What a sign stands for together with the character behind it. -/
def pairs : Char → List (Char × TokenKind)
  | '&' => [('&', .operator .and), ('^', .operator .andNot)]
  | '|' => [('|', .operator .or)]
  | '<' => [('<', .operator .shl), ('=', .operator .le)]
  | '>' => [('>', .operator .shr), ('=', .operator .ge)]
  | '!' => [('=', .operator .ne)]
  | '=' => [('=', .operator .eq)]
  | _ => []

/-- What a sign stands for alone. -/
def alone? : Char → Option TokenKind
  | '(' => some .leftParen
  | ')' => some .rightParen
  | '[' => some .leftBracket
  | ']' => some .rightBracket
  | ',' => some .comma
  | '.' => some .dot
  | '+' => some (.operator .add)
  | '-' => some (.operator .sub)
  | '*' => some (.operator .mul)
  | '/' => some (.operator .div)
  | '%' => some (.operator .rem)
  | '^' => some (.operator .bitXor)
  | '&' => some (.operator .bitAnd)
  | '|' => some (.operator .bitOr)
  | '<' => some (.operator .lt)
  | '>' => some (.operator .gt)
  | '!' => some .bang
  | _ => none

/-- A sign `c`, and the place behind it. -/
def sign (c : Char) (i : Nat) : Option (Except Fault (Option TokenKind × Nat)) := do
  let (kind?, i) ← paired src (pairs c) i
  match kind? <|> alone? c with
  | some kind => return .ok (some kind, i)
  | none => return .error (if c == '=' then .assignment else .unexpected c)

/-- What starts at a place, and the place behind it. -/
def token (start : Nat) : Option (Except Fault (Option TokenKind × Nat)) := do
  let (c, i) ← advance src start
  let next ← peek src i
  if isSpace c then
    return .ok (none, i)
  else if Text.isQuote c then
    literal src c i
  else if c.isDigit || (c == '.' && next.isDigit) then
    number src start i
  else if startsName c then
    name src start i
  else
    sign src c i

/-- The tokens from a place on, behind `tokens`, in so many rounds at most. -/
def tokensFrom : Nat → Nat → List Token → Option (Except ParseError (List Token))
  | 0, _, _ => none
  | rounds + 1, i, tokens =>
    if src.length ≤ i then
      return .ok (tokens ++ [⟨.eof, "", i⟩])
    else do
      match ← token src i with
      | .error fault => return .error (.malformed i fault)
      | .ok (none, j) => tokensFrom rounds j tokens
      | .ok (some kind, j) =>
        let cs ← slice src i j
        tokensFrom rounds j (tokens ++ [⟨kind, String.ofList cs, i⟩])

/-- The tokens of a text. -/
def run (text : String) : Option (Except ParseError (List Token)) :=
  tokensFrom text.toList (text.toList.length + 1) 0 []

/-! ### Lookups within the text -/

section

variable {src} {c : Char} {cs : List Char} {i : Nat}

theorem length_le_iff (hcs : src.drop i = cs) : src.length ≤ i ↔ cs = [] := by
  rw [← hcs, List.drop_eq_nil_iff]

theorem drop_succ (hcs : src.drop i = c :: cs) : src.drop (i + 1) = cs := by
  rw [← List.tail_drop, hcs, List.tail_cons]

theorem getElem?_eq (hcs : src.drop i = cs) : src[i]? = cs.head? := by
  rw [← hcs, List.head?_drop]

theorem peek_eq (hcs : src.drop i = cs) : peek src i = some (cs.headD '\x00') := by
  rw [peek]
  cases cs with
  | nil => rw [if_pos ((length_le_iff hcs).mpr rfl), List.headD_nil]
  | cons c cs => rw [if_neg (by simp [length_le_iff hcs]), getElem?_eq hcs]; rfl

theorem drop_add (hcs : src.drop i = cs) (n : Nat) : src.drop (i + n) = cs.drop n := by
  rw [← hcs, List.drop_drop]

theorem peekNext_eq (hcs : src.drop i = cs) : peekNext src i = some (cs.tail.headD '\x00') :=
  peek_eq (by rw [← hcs, List.tail_drop])

theorem advance_eq (hcs : src.drop i = c :: cs) : advance src i = some (c, i + 1) := by
  rw [advance, getElem?_eq hcs]
  rfl

theorem matchChar_eq (hcs : src.drop i = cs) (d : Char) :
    matchChar src d i = some (if cs.head? = some d then (true, i + 1) else (false, i)) := by
  rw [matchChar]
  cases cs with
  | nil => rw [if_pos ((length_le_iff hcs).mpr rfl)]; rfl
  | cons c cs => rw [if_neg (by simp [length_le_iff hcs]), getElem?_eq hcs]; simp

/-- A run of characters that a NUL does not go on ends within the text. -/
theorem advanceWhile_eq {p : Char → Bool} (hp : p '\x00' = false) (hcs : src.drop i = cs)
    {rounds : Nat} (hrounds : cs.length < rounds) :
    advanceWhile src p rounds i = some (i + (cs.takeWhile p).length) := by
  induction rounds generalizing i cs with
  | zero => cases hrounds
  | succ rounds ih =>
    simp only [advanceWhile, peek_eq hcs, Option.bind_eq_bind, Option.bind_some]
    cases cs with
    | nil => rw [List.headD_nil, if_neg (by simp [hp])]; rfl
    | cons c cs =>
      rw [List.headD_cons, List.takeWhile_cons]
      split
      · simp only [advance_eq hcs, Option.bind_some]
        rw [ih (drop_succ hcs) (Nat.lt_of_succ_lt_succ hrounds), List.length_cons,
          Nat.add_right_comm, Nat.add_assoc]
      · rfl

/-- The characters of a token, which starts with `c` and has `n` further ones. -/
theorem slice_eq {n : Nat} (hcs : src.drop i = c :: cs) (hn : n ≤ cs.length) :
    slice src i (i + 1 + n) = some (c :: cs.take n) := by
  have hlength : cs.length + 1 = src.length - i := by
    rw [← List.length_drop, hcs, List.length_cons]
  have hsize : i + 1 + n - i = n + 1 := by omega
  rw [slice, if_pos ⟨by omega, by omega⟩, hcs, hsize, List.take_succ_cons]

/-! ### Tokens within the text -/

theorem length_lt_rounds (hcs : src.drop i = cs) : cs.length < src.length + 1 := by
  rw [← hcs, List.length_drop]
  omega

/-- The contents of a literal that is closed, or the fault of one that is not. -/
theorem contents_closing (quote : Char) (hcs : src.drop i = cs) {rounds : Nat}
    (hrounds : cs.length < rounds) (before : List Char) :
    (contents src quote rounds i before >>= closing src) =
      some ((Lexer.literal quote cs).map fun (text, n) =>
        (some (.string (String.ofList (before ++ text))), i + n)) := by
  induction rounds generalizing i cs before with
  | zero => cases hrounds
  | succ rounds ih =>
    have hend : src.length ≤ i ↔ cs = [] := length_le_iff hcs
    rw [contents]
    simp only [peek_eq hcs, Option.bind_eq_bind, Option.bind_some]
    cases cs with
    | nil =>
      rw [if_pos (.inl (hend.mpr rfl)), Option.pure_def, Option.bind_some, closing,
        if_pos (hend.mpr rfl)]
      rfl
    | cons c cs =>
      have hnext := drop_succ hcs
      have hlt := Nat.lt_of_succ_lt_succ hrounds
      rw [List.headD_cons]
      by_cases hquote : c = quote
      · subst hquote
        rw [if_pos (.inr rfl), Option.pure_def, Option.bind_some, closing, if_neg (by simp [hend])]
        simp [advance_eq hcs, Lexer.literal_closing, Except.map]
      have hopen : ¬(src.length ≤ i ∨ c = quote) := by simp [hend, hquote]
      rw [if_neg hopen]
      by_cases hslash : c = '\\'
      · subst hslash
        simp only [if_pos, advance_eq hcs, Option.bind_some, length_le_iff hnext]
        cases cs with
        | nil => simp [closing, length_le_iff hnext, Lexer.literal, hquote, Except.map]
        | cons d ds =>
          have hlt : ds.length < rounds := Nat.lt_of_succ_lt hlt
          simp only [reduceCtorEq, if_false, advance_eq hnext, Option.bind_some,
            Lexer.literal_escape fun hq => hquote hq.symm]
          cases he : unescape? d with
          | none => simp [closing, Except.map]
          | some e =>
            have hrest := ih (drop_succ hnext) hlt (before ++ [e])
            rw [Option.bind_eq_bind] at hrest
            dsimp only
            rw [hrest]
            cases Lexer.literal quote ds with
            | error fault => rfl
            | ok x => simp [Except.map]; omega
      · have hrest := ih hnext hlt (before ++ [c])
        rw [Option.bind_eq_bind] at hrest
        simp only [if_neg hslash, advance_eq hcs, Option.bind_some]
        rw [hrest, Lexer.literal_bare hquote hslash]
        cases Lexer.literal quote cs with
        | error fault => rfl
        | ok x => simp [Except.map]; omega

theorem literal_eq (quote : Char) (hcs : src.drop i = cs) :
    literal src quote i = some ((Lexer.literal quote cs).map fun (text, n) =>
      (some (.string (String.ofList text)), i + n)) :=
  contents_closing quote hcs (length_lt_rounds hcs) []

theorem not_continuesName_nul : continuesName '\x00' = false := by
  decide

theorem name_eq (hcs : src.drop i = c :: cs) :
    name src i (i + 1) = some (.ok (some (.name (String.ofList (c :: cs.takeWhile continuesName))),
      i + 1 + (cs.takeWhile continuesName).length)) := by
  have hrest := drop_succ hcs
  have hrun : cs.take (cs.takeWhile continuesName).length = cs.takeWhile continuesName :=
    List.prefix_iff_eq_take.mp (List.takeWhile_prefix _) |>.symm
  have hslice := slice_eq hcs (List.takeWhile_prefix continuesName).length_le
  rw [hrun] at hslice
  simp only [name, advanceWhile_eq not_continuesName_nul hrest (length_lt_rounds hrest), hslice,
    Option.bind_eq_bind, Option.bind_some, Option.pure_def]

/-! ### Numbers within the text -/

theorem not_isDigitOf_nul (base : Nat) : isDigitOf base '\x00' = false := rfl

/-- A fraction takes its point and at least one digit. -/
theorem fraction_eq (base : Nat) (point : Bool) (hcs : src.drop i = cs) {n : Nat}
    (hn : n = if point then 0 else Lexer.fractionLength base cs) :
    fraction src base point i = some (n != 0, i + n) := by
  simp only [fraction, peek_eq hcs, peekNext_eq hcs, Option.bind_eq_bind, Option.bind_some]
  subst hn
  split
  case isTrue hfraction =>
    simp only [Bool.and_eq_true, Bool.not_eq_true', beq_iff_eq] at hfraction
    obtain ⟨⟨rfl, hpoint⟩, hdigit⟩ := hfraction
    match cs with
    | [] => simp at hpoint
    | [_] => simp [not_isDigitOf_nul] at hdigit
    | c :: d :: ds =>
      obtain rfl : c = '.' := hpoint
      have hdigit : isDigitOf base d = true := hdigit
      have hnext := drop_succ hcs
      simp only [advance_eq hcs, Option.bind_some,
        advanceWhile_eq (not_isDigitOf_nul base) hnext (length_lt_rounds hnext)]
      simp [Lexer.fractionLength, hdigit]
      omega
  case isFalse hfraction =>
    have hzero : (if point then 0 else Lexer.fractionLength base cs) = 0 := by
      cases point with
      | true => rfl
      | false =>
        rw [if_neg Bool.false_ne_true]
        unfold Lexer.fractionLength
        split
        · next d ds =>
          refine if_neg fun hdigit => hfraction ?_
          rw [List.headD_cons, List.tail_cons, List.headD_cons, hdigit]
          rfl
        · rfl
    rw [hzero]
    rfl

/-- The digits behind the base prefix of a number are those of the lexeme, with the same fault. -/
theorem digits_eq (hcs : src.drop i = c :: cs) {base skip : Nat}
    (hbase : Lexer.numberBase c cs = (base, skip))
    (hdigits : ¬(skip = 1 ∧ (cs.drop skip).takeWhile (isDigitOf base) = [])) :
    digits src base (c == '.') i (i + 1 + skip) =
      some ((Lexer.number c cs).map fun x => (x.kind, i + 1 + x.extra)) := by
  have hskip := Lexer.digits_le c cs
  rw [hbase] at hskip
  rw [Lexer.number, hbase]
  dsimp only
  rw [if_neg hdigits]
  generalize hrun : ((cs.drop skip).takeWhile (isDigitOf base)).length = run at hskip ⊢
  generalize hfraction :
    (if c == '.' then 0 else Lexer.fractionLength base (cs.drop (skip + run))) = n
  have hle := Lexer.number_length_le c base hskip
  rw [hfraction] at hle
  have hstart := drop_add (drop_succ hcs) skip
  have hbehind : src.drop (i + 1 + skip + run) = cs.drop (skip + run) := by
    rw [drop_add hstart, List.drop_drop]
  have hplace : i + 1 + skip + run + n = i + 1 + (skip + run + n) := by omega
  have hend : src.drop (i + 1 + skip + run + n) = cs.drop (skip + run + n) := by
    rw [drop_add hbehind, List.drop_drop]
  simp only [digits, advanceWhile_eq (not_isDigitOf_nul base) hstart (length_lt_rounds hstart),
    hrun, fraction_eq base (c == '.') hbehind hfraction.symm, peek_eq hend, Option.bind_eq_bind,
    Option.bind_some]
  have hkind (text : String) :
      (if (n != 0) = true then TokenKind.float (readFloat text) else .integer (readInt text)) =
        if n = 0 then .integer (readInt text) else .float (readFloat text) := by
    by_cases hn : n = 0
    · simp [hn]
    · simp [hn]
  rw [hplace, slice_eq hcs hle]
  simp only [Option.bind_some, Option.pure_def, hkind]
  cases cs.drop (skip + run + n) with
  | nil =>
    rw [List.headD_nil, not_continuesName_nul, if_neg Bool.false_ne_true]
    rfl
  | cons d ds =>
    rw [List.headD_cons, List.head?_cons]
    dsimp only
    split
    · rfl
    · rfl

theorem number_eq (hcs : src.drop i = c :: cs) :
    number src i (i + 1) = some ((Lexer.number c cs).map fun x => (x.kind, i + 1 + x.extra)) := by
  have hrest := drop_succ hcs
  simp only [number, getElem?_eq hcs, List.head?_cons, peek_eq hrest, Option.bind_eq_bind,
    Option.bind_some]
  cases hletter : if c = '0' then literalBase? (cs.headD '\x00') else none with
  | none =>
    have hbase : Lexer.numberBase c cs = (10, 0) := by
      unfold Lexer.numberBase
      split
      · next d ds =>
        rw [if_pos rfl, List.headD_cons] at hletter
        rw [hletter]
      · rfl
    exact digits_eq hcs hbase (by simp)
  | some base =>
    obtain rfl : c = '0' := by
      by_contra hne
      rw [if_neg hne] at hletter
      cases hletter
    rw [if_pos rfl] at hletter
    match cs with
    | [] => cases hletter
    | d :: ds =>
      have hbase : Lexer.numberBase '0' (d :: ds) = (base, 1) := by
        rw [List.headD_cons] at hletter
        rw [Lexer.numberBase, hletter]
      have hbehind := drop_succ hrest
      simp only [advance_eq hrest, peek_eq hbehind, Option.bind_some]
      split
      case isTrue hdigit =>
        refine digits_eq hcs hbase ?_
        rintro ⟨-, hnil⟩
        cases ds with
        | nil => simp [not_isDigitOf_nul] at hdigit
        | cons e es => simp_all
      case isFalse hdigit =>
        have hnil : ((d :: ds).drop 1).takeWhile (isDigitOf base) = [] := by
          cases ds with
          | nil => rfl
          | cons e es => simpa using hdigit
        rw [Lexer.number, hbase]
        dsimp only
        rw [if_pos ⟨rfl, hnil⟩]
        rfl

/-! ### Signs within the text -/

theorem paired_eq (hcs : src.drop i = cs) (ps : List (Char × TokenKind)) :
    paired src ps i = some (match ps.find? fun p => cs.head? = some p.1 with
      | some p => (some p.2, i + 1)
      | none => (none, i)) := by
  induction ps with
  | nil => rfl
  | cons p ps ih =>
    obtain ⟨d, kind⟩ := p
    simp only [paired, matchChar_eq hcs, Option.bind_eq_bind, Option.bind_some]
    by_cases hd : cs.head? = some d
    · simp [hd]
    · simp [hd, ih]

/-- A sign is one of its pairs or stands alone. -/
theorem sign?_eq (c : Char) (next : Option Char) :
    Lexer.sign? c next = match (pairs c).find? fun p => next = some p.1 with
      | some p => some (p.2, 1)
      | none => (alone? c).map fun kind => (kind, 0) := by
  unfold Lexer.sign?
  split
  -- No rule for the character alone: it is an equals sign without another one, or no sign at all.
  case h_27 => by_cases hequals : c = '=' <;> simp_all [pairs, alone?]
  all_goals simp_all [pairs, alone?]

theorem sign_eq (c : Char) (hcs : src.drop i = cs) :
    sign src c i = some (match Lexer.sign? c cs.head? with
      | some (kind, n) => .ok (some kind, i + n)
      | none => .error (if c == '=' then .assignment else .unexpected c)) := by
  simp only [sign, paired_eq hcs, Option.bind_eq_bind, Option.bind_some, sign?_eq]
  cases (pairs c).find? fun p => cs.head? = some p.1 with
  | some p => rfl
  | none => cases alone? c <;> rfl

/-! ### Whole texts -/

/-- What starts at a place is the lexeme there. -/
theorem token_eq (hcs : src.drop i = c :: cs) :
    token src i = some ((lexeme c cs).map fun x => (x.kind, i + 1 + x.extra)) := by
  have hrest := drop_succ hcs
  have hstarts : Lexer.startsNumber c cs.head? =
      (c.isDigit || (c == '.' && (cs.headD '\x00').isDigit)) := by
    cases cs <;> rfl
  simp only [token, advance_eq hcs, peek_eq hrest, Option.bind_eq_bind, Option.bind_some, lexeme,
    hstarts]
  split
  · rfl
  split
  · rw [literal_eq c hrest]
    cases Lexer.literal c cs <;> rfl
  split
  · exact number_eq hcs
  split
  · exact name_eq hcs
  · rw [sign_eq c hrest]
    cases Lexer.sign? c cs.head? <;> rfl

/-- Every round of the scanner takes a character at least, so there are rounds enough. -/
theorem tokensFrom_eq {rounds : Nat} (hi : i ≤ src.length) (hrounds : src.length - i < rounds)
    (before : List Token) :
    tokensFrom src rounds i before = some ((scanFrom i (src.drop i)).map (before ++ ·)) := by
  induction rounds generalizing i before with
  | zero => cases hrounds
  | succ rounds ih =>
    rw [tokensFrom]
    cases hcs : src.drop i with
    | nil =>
      rw [if_pos ((length_le_iff hcs).mpr rfl), scanFrom]
      rfl
    | cons c cs =>
      have hlength : cs.length + 1 = src.length - i := by
        rw [← List.length_drop, hcs, List.length_cons]
      rw [if_neg (by simp [length_le_iff hcs]), token_eq hcs]
      cases hx : lexeme c cs with
      | error fault =>
        rw [scanFrom, hx]
        rfl
      | ok x =>
        have hle := lexeme_extra_le hx
        have hdrop : src.drop (i + 1 + x.extra) = cs.drop x.extra := drop_add (drop_succ hcs) _
        have hrest (after : List Token) := ih (i := i + 1 + x.extra) (by omega) (by omega) after
        rw [hdrop] at hrest
        rw [scanFrom_cons hx]
        obtain ⟨kind, n⟩ := x
        cases kind with
        | none =>
          simp only [Except.map, Option.bind_eq_bind, Option.bind_some, hrest]
          cases scanFrom (i + 1 + n) (cs.drop n) <;> rfl
        | some kind =>
          simp only [Except.map, Option.bind_eq_bind, Option.bind_some, slice_eq hcs hle, hrest]
          cases scanFrom (i + 1 + n) (cs.drop n) with
          | error e => rfl
          | ok tokens => simp

end

/-- The scanner has a result for every text, so no lookup of it is out of bounds and its loops end,
and the result is the one of `scan`. -/
theorem run_eq_scan (text : String) : run text = some (scan text) := by
  rw [run, tokensFrom_eq (Nat.zero_le _) (by omega), scan, List.drop_zero]
  cases scanFrom 0 text.toList <;> rfl

end DynamicEval.Scanner
