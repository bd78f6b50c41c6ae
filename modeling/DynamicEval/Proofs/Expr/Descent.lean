import DynamicEval.Proofs.Expr.Soundness
import DynamicEval.Proofs.Token.Scanner
import DynamicEval.Proofs.Token.Tiling

/-!
# Parsing by places

A parser that keeps a place among the tokens looks them up by their index, and counts how many
operands it is in. Every lookup out of bounds, every loop that runs more often than there are
tokens, every operand deeper than `maxNesting` and every level tighter than the tightest one ends
without a result here, also when the place and the count are kept after a failure. The parser always
has a result, and it is the one of `Expr.parse`: whatever stands among the tokens, it goes on only
over tokens that do not end the text, so the end token stops it, and each of its routines leaves the
count as it was.

## Main definitions

* `Descent`: a computation over a place, a count of operands and the greatest count so far.
* `Descent.unary`, `Descent.binary`, `Descent.parse`: the routines of the parser.
* `Descent.Follows`: a computation that does what a reader of a list of tokens does.
* `Descent.Routine`: the routines by name, with what they read at a place.

## Main results

* `Descent.unary_tracks`: operands are read as from the list of the tokens.
* `Descent.Routine.run_safe`: each routine has a result, restores the count and stays on the tokens.
* `Expr.read_safe`: scanning and parsing are safe for every text.
-/

namespace DynamicEval

/-- Where a parser stands. -/
structure Cursor where
  /-- The place of the next token. -/
  current : Nat
  /-- How many operands the parser is in. -/
  depth : Nat
  /-- The greatest depth so far. -/
  deepest : Nat

/-- A computation over the state of a parser, which also stands somewhere after a failure. No result
at all stands for a lookup out of bounds, and for rounds or room that do not suffice. -/
abbrev Descent := ExceptT ParseError (StateT Cursor Option)

namespace Descent

variable {α β : Type} (ts : List Token)

/-! ### Single tokens -/

/-- There is no result. -/
def stuck : Descent α := fun _ => none

/-- The token at the place. -/
def peek : Descent Token := fun s => ts[s.current]?.map fun t => (.ok t, s)

/-- The token at the place, which is left behind unless it ends the text. -/
def advance : Descent Token := do
  let t ← peek ts
  if t.kind = .eof then
    return t
  else
    modify fun s => { s with current := s.current + 1 }
    return t

/-- The failure for a token other than expected. -/
def unexpected (expected : Expectation) : Descent α := do
  let t ← peek ts
  throw (if t.kind = .eof then .unexpectedEnd else .unexpectedToken expected t.lexeme)

/-- The failure for a tree that would be too high. -/
def tooDeep : Descent α := do
  let t ← peek ts
  throw (.malformed t.position .tooDeep)

/-- Goes on over a token of the given kind. -/
def expect (kind : TokenKind) (expected : Expectation) : Descent Token := do
  let t ← peek ts
  if t.kind = kind then advance ts else unexpected ts expected

/-- Goes on over a name, which is the name of a field. -/
def fieldName : Descent String := do
  let t ← peek ts
  match t.kind with
  | .name field =>
    let _ ← advance ts
    return field
  | _ => unexpected ts .fieldName

/-- The height of a node over subtrees of height up to `height`. -/
def grow (height : Nat) : Descent Nat :=
  if maxNesting ≤ height then tooDeep ts else return height + 1

/-! ### Trees -/

/-- Reads further operators of at least the level `min`, as `Parser.climb` does. -/
def climb (right : Precedence → Descent (Expr × Nat)) (min : Precedence) :
    Nat → Expr × Nat → Descent (Expr × Nat)
  | 0, _ => stuck
  | rounds + 1, (left, height) => do
    let t ← peek ts
    match t.kind with
    | .operator op =>
      if op.precedence.rank < min.rank then
        return (left, height)
      else
        let _ ← advance ts
        let (r, rightHeight) ← right op.precedence.tighter
        let height ← grow ts (max height rightHeight)
        climb right min rounds (.binary op left r, height)
    | _ => return (left, height)

/-- Reads a chain of operators of at least the level `min`, in so many levels. -/
def binary (operand : Descent (Expr × Nat)) : Nat → Precedence → Descent (Expr × Nat)
  | 0, _ => stuck
  | levels + 1, min => do
    let left ← operand
    climb ts (binary operand levels) min ts.length left

/-- Reads a whole expression over operands that `operand` reads. -/
def expression (operand : Descent (Expr × Nat)) : Descent (Expr × Nat) :=
  binary ts operand 6 .or

/-- Reads further arguments of a call, behind `args` of the given height. -/
def arguments (expression : Descent (Expr × Nat)) :
    Nat → List Expr × Nat → Descent (List Expr × Nat)
  | 0, _ => stuck
  | rounds + 1, (args, height) => do
    let (arg, argHeight) ← expression
    let args := args ++ [arg]
    let height := max height argHeight
    let t ← peek ts
    if t.kind = .comma then
      let _ ← advance ts
      let t ← peek ts
      if t.kind = .rightParen then
        let _ ← advance ts
        return (args, height)
      else
        arguments expression rounds (args, height)
    else
      let _ ← expect ts .rightParen .rightParen
      return (args, height)

/-- Reads the arguments of a call behind its opening parenthesis. -/
def argumentList (expression : Descent (Expr × Nat)) : Descent (List Expr × Nat) := do
  let t ← peek ts
  if t.kind = .rightParen then
    let _ ← advance ts
    return ([], 0)
  else
    arguments ts expression ts.length ([], 0)

/-- Reads members, elements and calls behind an operand. -/
def suffixes (expression : Descent (Expr × Nat)) : Nat → Expr × Nat → Descent (Expr × Nat)
  | 0, _ => stuck
  | rounds + 1, (x, height) => do
    let t ← peek ts
    match t.kind with
    | .dot =>
      let _ ← advance ts
      let field ← fieldName ts
      let height ← grow ts height
      suffixes expression rounds (.select x field, height)
    | .leftBracket =>
      let _ ← advance ts
      let (key, keyHeight) ← expression
      let _ ← expect ts .rightBracket .rightBracket
      let height ← grow ts (max height keyHeight)
      suffixes expression rounds (.index x key, height)
    | .leftParen =>
      let _ ← advance ts
      let (args, argsHeight) ← argumentList ts expression
      let height ← grow ts (max height argsHeight)
      suffixes expression rounds (.call x args, height)
    | _ => return (x, height)

/-- Reads a literal, a name or an expression in parentheses. The first token is left behind before
it is looked at. -/
def primary (expression : Descent (Expr × Nat)) : Descent (Expr × Nat) := do
  let t ← advance ts
  match t.kind with
  | .integer n => return (.int n, 1)
  | .float x => return (.float x, 1)
  | .string s => return (.string s, 1)
  | .name s => return (.name s, 1)
  | .leftParen =>
    let (inner, height) ← expression
    let _ ← expect ts .rightParen .rightParen
    let height ← grow ts height
    return (.paren inner, height)
  | .eof => throw .unexpectedEnd
  | _ => throw (.unexpectedToken .operand t.lexeme)

/-- Reads a literal, a name or an expression in parentheses with everything behind it that belongs
to it. -/
def postfixed (expression : Descent (Expr × Nat)) : Descent (Expr × Nat) := do
  let x ← primary ts expression
  suffixes ts expression ts.length x

/-- Reads an operand behind its prefixes, which stand before operands that `unary` reads. -/
def prefixed (unary : Descent (Expr × Nat)) : Descent (Expr × Nat) := do
  let t ← peek ts
  match Parser.prefixOp? t.kind with
  | some op =>
    let _ ← advance ts
    let (x, height) ← unary
    let height ← grow ts height
    return (.unary op x, height)
  | none => postfixed ts (expression ts unary)

/-- One level deeper; the count goes back by one also behind a failure, and may not fall below
zero. -/
def nested (m : Descent α) : Descent α := fun s => do
  let (r, s) ← m.run.run
    { s with depth := s.depth + 1, deepest := max s.deepest (s.depth + 1) }
  if s.depth = 0 then none else some (r, { s with depth := s.depth - 1 })

/-- Reads an operand, which may be nested so many times. -/
def unary : Nat → Descent (Expr × Nat)
  | 0 => stuck
  | room + 1 => do
    let s ← get
    if maxNesting ≤ s.depth then tooDeep ts else nested (prefixed ts (unary room))

/-- Reads all tokens as one expression. -/
def parse : Descent Expr := do
  let t ← peek ts
  if t.kind = .eof then
    throw .emptyExpression
  else
    let (e, _) ← expression ts (unary ts (maxNesting + 1))
    let t ← peek ts
    if t.kind = .eof then return e else unexpected ts .endOfExpression

/-! ### Computations that follow a reader -/

end Descent

/-- From one state to another the place does not go back and stays among the tokens up to `last`,
the count of operands is the same in the end, and it was not above `maxNesting` on the way. -/
structure Cursor.Leads (last : Nat) (s s' : Cursor) : Prop where
  /-- The place does not go back. -/
  current_le : s.current ≤ s'.current
  /-- The place stays before the end. -/
  le_last : s'.current ≤ last
  /-- The count is restored. -/
  depth_eq : s'.depth = s.depth
  /-- The count was never too high. -/
  deepest_le : s'.deepest ≤ max s.deepest maxNesting

namespace Cursor.Leads

variable {last : Nat} {s s' s'' : Cursor}

theorem refl (hs : s.current ≤ last) : s.Leads last s :=
  ⟨Nat.le_refl _, hs, rfl, Nat.le_max_left _ _⟩

theorem trans (h : s.Leads last s') (h' : s'.Leads last s'') : s.Leads last s'' where
  current_le := h.current_le.trans h'.current_le
  le_last := h'.le_last
  depth_eq := h'.depth_eq.trans h.depth_eq
  deepest_le := h'.deepest_le.trans (Nat.max_le.mpr ⟨h.deepest_le, Nat.le_max_right _ _⟩)

end Cursor.Leads

namespace Descent

variable {α β γ δ : Type} {ts us : List Token} {last : Nat} {s s₁ : Cursor} {t : Token}

/-- The token at the place `last` ends the text. -/
def EndsAt (ts : List Token) (last : Nat) : Prop :=
  ∃ t, ts[last]? = some t ∧ t.kind = .eof

/-- The computation `m` has a result, the one that a reader gives: the same failure, or a success
related to its success and to the tokens from the new place on. -/
def Follows (ts : List Token) (last : Nat) (m : Descent α) (s : Cursor) (r : Except ParseError β)
    (R : α → β → List Token → Prop) : Prop :=
  ∃ s', s.Leads last s' ∧ match r with
    | .error e => m.run.run s = some (.error e, s')
    | .ok b => ∃ a, m.run.run s = some (.ok a, s') ∧ R a b (ts.drop s'.current)

/-- What was read is the same tree with the same tokens behind it. -/
def Reads (x : Expr × Nat) (y : Parsed) (rest : List Token) : Prop :=
  y = ⟨x.1, x.2, rest⟩

/-- In `depth` operands, `m` does at every place what `p` does with the tokens from there on. -/
def Tracks (ts : List Token) (last depth : Nat) (m : Descent (Expr × Nat)) (p : Parser) : Prop :=
  ∀ s : Cursor, s.current ≤ last → s.depth = depth →
    Follows ts last m s (p (ts.drop s.current)) Reads

theorem run_bind (m : Descent α) (f : α → Descent β) (s : Cursor) :
    (m >>= f).run.run s = (m.run.run s).bind fun
      | (.ok a, s) => (f a).run.run s
      | (.error e, s) => some (.error e, s) := by
  rw [ExceptT.run_bind, StateT.run_bind, Option.bind_eq_bind]
  congr 1
  funext ⟨x, s⟩
  cases x <;> rfl

/-- There is a token at every place up to the end, and one behind it if it is not the end. -/
theorem EndsAt.exists_cons (hts : EndsAt ts last) {i : Nat} (hi : i ≤ last) :
    ∃ t us, ts.drop i = t :: us ∧ ts.drop (i + 1) = us ∧ (t.kind ≠ .eof → i + 1 ≤ last) := by
  obtain ⟨eof, heof, hkind⟩ := hts
  have hlt : last < ts.length := (List.getElem?_eq_some_iff.mp heof).1
  refine ⟨ts[i], ts.drop (i + 1), List.drop_eq_getElem_cons (hi.trans_lt hlt), rfl, fun hne => ?_⟩
  refine Nat.lt_of_le_of_ne hi ?_
  rintro rfl
  rw [List.getElem?_eq_getElem hlt] at heof
  cases heof
  exact hne hkind

namespace Follows

variable {m : Descent α} {f : α → Descent γ} {r : Except ParseError β}
  {g : β → Except ParseError δ} {R : α → β → List Token → Prop} {R' : γ → δ → List Token → Prop}

theorem pure {a : α} {b : β} (hs : s.current ≤ last) (hR : R a b (ts.drop s.current)) :
    Follows ts last (Pure.pure a) s (.ok b) R :=
  ⟨s, .refl hs, a, rfl, hR⟩

theorem throw (e : ParseError) (hs : s.current ≤ last) :
    Follows ts last (MonadExcept.throw e : Descent α) s (.error e : Except ParseError β) R :=
  ⟨s, .refl hs, rfl⟩

/-- A computation that goes on from another state follows what it does there. -/
theorem of_run_eq (m' : Descent α) (hrun : m.run.run s = m'.run.run s₁) (hs : s.Leads last s₁)
    (h : Follows ts last m' s₁ r R) : Follows ts last m s r R := by
  obtain ⟨s', hs', h⟩ := h
  refine ⟨s', hs.trans hs', ?_⟩
  rwa [hrun]

theorem bind (h : Follows ts last m s r R) (hf : ∀ a b s', s.Leads last s' →
    R a b (ts.drop s'.current) → Follows ts last (f a) s' (g b) R') :
    Follows ts last (m >>= f) s (r >>= g) R' := by
  obtain ⟨s', hs', h⟩ := h
  cases r with
  | error e =>
    refine ⟨s', hs', ?_⟩
    rw [run_bind, h]
    rfl
  | ok b =>
    obtain ⟨a, hrun, hR⟩ := h
    refine of_run_eq (f a) ?_ hs' (hf a b s' hs' hR)
    rw [run_bind, hrun]
    rfl

/-- Nothing comes behind a failure. -/
theorem error_bind {e : ParseError}
    (h : Follows ts last m s (.error e) fun _ (_ : Empty) _ => False) :
    Follows ts last (m >>= f) s (.error e : Except ParseError δ) R' := by
  obtain ⟨s', hs', hrun⟩ := h
  refine ⟨s', hs', ?_⟩
  rw [run_bind, hrun]
  rfl

/-- A reader that only rearranges what it read. -/
theorem bind_ok {g : β → δ} {R' : α → δ → List Token → Prop} (h : Follows ts last m s r R)
    (hR : ∀ a b rest, R a b rest → R' a (g b) rest) :
    Follows ts last m s (r >>= fun b => .ok (g b)) R' := by
  obtain ⟨s', hs', h⟩ := h
  cases r with
  | error e => exact ⟨s', hs', h⟩
  | ok b =>
    obtain ⟨a, hrun, h⟩ := h
    exact ⟨s', hs', a, hrun, hR a b _ h⟩

theorem get_bind {f : Cursor → Descent γ} (hs : s.current ≤ last) {r : Except ParseError δ}
    (h : Follows ts last (f s) s r R') : Follows ts last (get >>= f) s r R' :=
  of_run_eq (f s) rfl (.refl hs) h

/-- Looking at the token at the place changes nothing. -/
theorem peek_bind {f : Token → Descent γ} (hs : s.current ≤ last)
    (hcs : ts.drop s.current = t :: us) {r : Except ParseError δ} (h : Follows ts last (f t) s r R') :
    Follows ts last (peek ts >>= f) s r R' := by
  have hpeek : (peek ts).run.run s = some (.ok t, s) := by
    have ht : ts[s.current]? = some t := by rw [← List.head?_drop, hcs, List.head?_cons]
    change ts[s.current]?.map _ = _
    rw [ht]
    rfl
  refine of_run_eq (f t) ?_ (.refl hs) h
  rw [run_bind, hpeek]
  rfl

/-- A token that does not end the text is left behind. -/
theorem advance_bind {f : Token → Descent γ} (hs : s.current + 1 ≤ last)
    (hcs : ts.drop s.current = t :: us) (hkind : t.kind ≠ .eof) {r : Except ParseError δ}
    (h : Follows ts last (f t) { s with current := s.current + 1 } r R') :
    Follows ts last (advance ts >>= f) s r R' := by
  have hleads : s.Leads last { s with current := s.current + 1 } :=
    ⟨Nat.le_succ _, hs, rfl, Nat.le_max_left _ _⟩
  rw [advance, bind_assoc]
  refine peek_bind (Nat.le_of_succ_le hs) hcs ?_
  rw [if_neg hkind]
  exact of_run_eq (f t) (by rw [bind_assoc, run_bind]; rfl) hleads h

/-- The token that ends the text is not left behind. -/
theorem advance_bind_eof {f : Token → Descent γ} (hs : s.current ≤ last)
    (hcs : ts.drop s.current = t :: us) (hkind : t.kind = .eof) {r : Except ParseError δ}
    (h : Follows ts last (f t) s r R') : Follows ts last (advance ts >>= f) s r R' := by
  rw [advance, bind_assoc]
  refine peek_bind hs hcs ?_
  rwa [if_pos hkind, pure_bind]

end Follows

/-! ### Single tokens -/

section Tokens

variable {R : α → β → List Token → Prop}

theorem head_eq {i : Nat} (hcs : ts.drop i = t :: us) : Parser.head (ts.drop i) = t.kind := by
  rw [hcs]
  rfl

theorem unexpected_follows (hts : EndsAt ts last) (hs : s.current ≤ last)
    (expected : Expectation) : Follows ts last (unexpected ts expected : Descent α) s
      (.error (Parser.unexpected expected (ts.drop s.current)) : Except ParseError β) R := by
  obtain ⟨t, us, hcs, -, -⟩ := hts.exists_cons hs
  rw [unexpected, hcs]
  refine .peek_bind hs hcs ?_
  rw [Parser.unexpected]
  exact .throw _ hs

theorem tooDeep_follows (hts : EndsAt ts last) (hs : s.current ≤ last) :
    Follows ts last (tooDeep ts : Descent α) s
      (.error (Parser.tooDeep (ts.drop s.current)) : Except ParseError β) R := by
  obtain ⟨t, us, hcs, -, -⟩ := hts.exists_cons hs
  rw [tooDeep, hcs]
  exact .peek_bind hs hcs (.throw _ hs)

theorem grow_follows (hts : EndsAt ts last) (hs : s.current ≤ last) (height : Nat) :
    Follows ts last (grow ts height) s (Parser.grow height (ts.drop s.current))
      fun a b rest => a = b ∧ rest = ts.drop s.current := by
  rw [grow, Parser.grow]
  split
  · exact tooDeep_follows hts hs
  · exact .pure hs ⟨rfl, rfl⟩

theorem expect_follows (hts : EndsAt ts last) (hs : s.current ≤ last) {kind : TokenKind}
    (hkind : kind ≠ .eof) (expected : Expectation) :
    Follows ts last (expect ts kind expected) s (Parser.expect kind expected (ts.drop s.current))
      fun _ b rest => b = rest := by
  obtain ⟨t, us, hcs, hus, hnext⟩ := hts.exists_cons hs
  rw [expect, Parser.expect, head_eq hcs]
  refine .peek_bind hs hcs ?_
  by_cases ht : t.kind = kind
  · have hne : t.kind ≠ .eof := ht ▸ hkind
    rw [if_pos ht, if_pos ht, List.tail_drop, ← bind_pure (advance ts)]
    exact .advance_bind (hnext hne) hcs hne (.pure (hnext hne) rfl)
  · rw [if_neg ht, if_neg ht]
    exact unexpected_follows hts hs expected

end Tokens

/-! ### Chains of binary operators -/

theorem length_drop_le_of_leads {n : Nat} (hus : ts.drop (s.current + 1) = us) {s' : Cursor}
    (hleads : ({ s with current := s.current + 1 } : Cursor).Leads last s')
    (hn : (t :: us).length ≤ n + 1) : (ts.drop s'.current).length ≤ n := by
  have hle := hleads.current_le
  have hlength := congrArg List.length hus
  rw [List.length_drop] at hlength
  rw [List.length_cons] at hn
  rw [List.length_drop]
  dsimp only at hle
  omega

/-- The rounds suffice when there is one for each token. -/
theorem climb_follows (hts : EndsAt ts last) {right : Precedence → Descent (Expr × Nat)}
    {right' : Precedence → Parser} {min : Precedence} {depth : Nat}
    (hright : ∀ op : BinaryOp, min.rank ≤ op.precedence.rank →
      Tracks ts last depth (right op.precedence.tighter) (right' op.precedence.tighter)) :
    ∀ {n m : Nat} {s : Cursor} {x : Expr} {height : Nat}, s.current ≤ last → s.depth = depth →
      (ts.drop s.current).length ≤ n → (ts.drop s.current).length ≤ m →
      Follows ts last (climb ts right min n (x, height)) s
        (Parser.climb right' min m ⟨x, height, ts.drop s.current⟩) Reads := by
  intro n
  induction n with
  | zero =>
    intro m s x height hs _ hn _
    obtain ⟨t, us, hcs, -, -⟩ := hts.exists_cons hs
    rw [hcs] at hn
    cases hn
  | succ n ih =>
    intro m s x height hs hdepth hn hm
    obtain ⟨⟨kind, lexeme, position⟩, us, hcs, hus, hnext⟩ := hts.exists_cons hs
    rw [hcs] at hn hm
    cases m with
    | zero => cases hm
    | succ m =>
      rw [climb, Parser.climb, hcs]
      refine .peek_bind hs hcs ?_
      cases kind with
      | operator op =>
        dsimp only [Parser.head]
        split
        · exact .pure hs (by rw [hcs]; rfl)
        · next hle =>
          have hplace : s.current + 1 ≤ last := hnext (by simp)
          refine .advance_bind hplace hcs (by simp) ?_
          rw [List.tail_cons, ← hus]
          refine .bind (hright op (Nat.not_lt.mp hle) _ hplace hdepth) ?_
          rintro ⟨r, rightHeight⟩ _ s₁ hs₁ rfl
          refine .bind (grow_follows hts hs₁.le_last _) ?_
          rintro height _ s₂ hs₂ ⟨rfl, hrest⟩
          have hleads := hs₁.trans hs₂
          rw [← hrest]
          exact ih hs₂.le_last (hleads.depth_eq.trans hdepth)
            (length_drop_le_of_leads hus hleads hn) (length_drop_le_of_leads hus hleads hm)
      | _ => exact .pure hs (by rw [hcs]; rfl)

theorem length_drop_le (ts : List Token) (i : Nat) : (ts.drop i).length ≤ ts.length := by
  rw [List.length_drop]
  exact Nat.sub_le _ _

/-- The levels suffice when every level from `min` on has one. -/
theorem binary_tracks (hts : EndsAt ts last) {operand : Descent (Expr × Nat)} {operand' : Parser}
    {depth : Nat} (hoperand : Tracks ts last depth operand operand') :
    ∀ {levels : Nat} {min : Precedence}, Precedence.unary.rank < levels + min.rank →
      Tracks ts last depth (binary ts operand levels min) (Parser.binary operand' levels min) := by
  intro levels
  induction levels with
  | zero =>
    intro min hlevels
    have := min.rank_le_unary
    omega
  | succ levels ih =>
    intro min hlevels s hs hdepth
    rw [binary, Parser.binary]
    refine .bind (hoperand s hs hdepth) ?_
    rintro ⟨x, height⟩ _ s₁ hs₁ rfl
    refine climb_follows hts (fun op hop => ih ?_) hs₁.le_last (hs₁.depth_eq.trans hdepth)
      (length_drop_le ts _) (Nat.le_refl _)
    have := op.rank_tighter
    omega

theorem expression_tracks (hts : EndsAt ts last) {operand : Descent (Expr × Nat)}
    {operand' : Parser} {depth : Nat} (hoperand : Tracks ts last depth operand operand') :
    Tracks ts last depth (expression ts operand) (Parser.expression operand') :=
  binary_tracks hts hoperand (by decide)

/-! ### Operands with what stands behind them -/

section Postfix

variable {expr : Descent (Expr × Nat)} {expr' : Parser} {depth : Nat}

/-- What was read are the same arguments, behind those before, with the same tokens behind them. -/
def ReadsBehind (before : List Expr × Nat) (x : List Expr × Nat) (y : List Expr × Nat × List Token)
    (rest : List Token) : Prop :=
  x = (before.1 ++ y.1, max before.2 y.2.1) ∧ y.2.2 = rest

theorem arguments_follows (hts : EndsAt ts last) (hexpr : Tracks ts last depth expr expr') :
    ∀ {n m : Nat} {s : Cursor} (before : List Expr × Nat), s.current ≤ last → s.depth = depth →
      (ts.drop s.current).length ≤ n → (ts.drop s.current).length ≤ m →
      Follows ts last (arguments ts expr n before) s
        (Parser.arguments expr' m (ts.drop s.current)) (ReadsBehind before) := by
  intro n
  induction n with
  | zero =>
    intro m s before hs _ hn _
    obtain ⟨t, us, hcs, -, -⟩ := hts.exists_cons hs
    rw [hcs] at hn
    cases hn
  | succ n ih =>
    intro m s before hs hdepth hn hm
    cases m with
    | zero =>
      obtain ⟨t, us, hcs, -, -⟩ := hts.exists_cons hs
      rw [hcs] at hm
      cases hm
    | succ m =>
      obtain ⟨args, height⟩ := before
      rw [arguments, Parser.arguments]
      refine .bind (hexpr s hs hdepth) ?_
      rintro ⟨arg, argHeight⟩ _ s₁ hs₁ rfl
      obtain ⟨t, us, hcs, hus, hnext⟩ := hts.exists_cons hs₁.le_last
      refine .peek_bind hs₁.le_last hcs ?_
      dsimp only
      rw [head_eq hcs]
      by_cases hcomma : t.kind = .comma
      · have hne : t.kind ≠ .eof := by simp [hcomma]
        rw [if_pos hcomma, if_pos hcomma]
        refine .advance_bind (hnext hne) hcs hne ?_
        simp only [List.tail_drop]
        have hle := hnext hne
        obtain ⟨t', us', hcs', hus', hnext'⟩ := hts.exists_cons hle
        rw [head_eq hcs']
        refine .peek_bind hle hcs' ?_
        by_cases hclosing : t'.kind = .rightParen
        · have hne' : t'.kind ≠ .eof := by simp [hclosing]
          rw [if_pos hclosing, if_pos hclosing]
          exact .advance_bind (hnext' hne') hcs' hne' (.pure (hnext' hne') ⟨rfl, rfl⟩)
        · rw [if_neg hclosing, if_neg hclosing]
          have hlength (k : Nat) (hk : (ts.drop s.current).length ≤ k + 1) :
              (ts.drop (s₁.current + 1)).length ≤ k := by
            have hcurrent := hs₁.current_le
            rw [List.length_drop] at hk ⊢
            omega
          refine .bind_ok (ih (args ++ [arg], max height argHeight) hle
            (hs₁.depth_eq.trans hdepth) (hlength n hn) (hlength m hm)) ?_
          rintro _ ⟨args', height', rest'⟩ _ ⟨rfl, rfl⟩
          refine ⟨?_, rfl⟩
          simp [Nat.max_assoc]
      · rw [if_neg hcomma, if_neg hcomma]
        refine .bind (expect_follows hts hs₁.le_last (by simp) _) ?_
        rintro _ _ s₂ hs₂ rfl
        exact .pure hs₂.le_last ⟨rfl, rfl⟩

theorem argumentList_follows (hts : EndsAt ts last) (hexpr : Tracks ts last depth expr expr')
    (hs : s.current ≤ last) (hdepth : s.depth = depth) :
    Follows ts last (argumentList ts expr) s (Parser.argumentList expr' (ts.drop s.current))
      (ReadsBehind ([], 0)) := by
  obtain ⟨t, us, hcs, -, hnext⟩ := hts.exists_cons hs
  rw [argumentList, Parser.argumentList, head_eq hcs]
  refine .peek_bind hs hcs ?_
  by_cases hclosing : t.kind = .rightParen
  · have hne : t.kind ≠ .eof := by simp [hclosing]
    rw [if_pos hclosing, if_pos hclosing, List.tail_drop]
    exact .advance_bind (hnext hne) hcs hne (.pure (hnext hne) ⟨rfl, rfl⟩)
  · rw [if_neg hclosing, if_neg hclosing]
    exact arguments_follows hts hexpr ([], 0) hs hdepth (length_drop_le ts _) (Nat.le_refl _)

/-- The name of a field, and the tokens behind it. -/
theorem fieldName_bind (hts : EndsAt ts last) (hs : s.current ≤ last) {f : String → Descent α}
    {g : String → Except ParseError β} {R : α → β → List Token → Prop}
    (hf : ∀ field, s.current + 1 ≤ last →
      Follows ts last (f field) { s with current := s.current + 1 } (g field) R) :
    Follows ts last (fieldName ts >>= f) s
      (match Parser.head (ts.drop s.current) with
        | .name field => g field
        | _ => .error (Parser.unexpected .fieldName (ts.drop s.current))) R := by
  obtain ⟨⟨kind, lexeme, position⟩, us, hcs, -, hnext⟩ := hts.exists_cons hs
  rw [fieldName, bind_assoc, head_eq hcs]
  refine .peek_bind hs hcs ?_
  cases kind with
  | name field =>
    have hplace : s.current + 1 ≤ last := hnext (by simp)
    rw [bind_assoc]
    exact .advance_bind hplace hcs (by simp) (hf field hplace)
  | _ => exact .error_bind (unexpected_follows hts hs .fieldName)

theorem suffixes_follows (hts : EndsAt ts last) (hexpr : Tracks ts last depth expr expr') :
    ∀ {n m : Nat} {s : Cursor} {x : Expr} {height : Nat}, s.current ≤ last → s.depth = depth →
      (ts.drop s.current).length ≤ n → (ts.drop s.current).length ≤ m →
      Follows ts last (suffixes ts expr n (x, height)) s
        (Parser.suffixes expr' m ⟨x, height, ts.drop s.current⟩) Reads := by
  intro n
  induction n with
  | zero =>
    intro m s x height hs _ hn _
    obtain ⟨t, us, hcs, -, -⟩ := hts.exists_cons hs
    rw [hcs] at hn
    cases hn
  | succ n ih =>
    intro m s x height hs hdepth hn hm
    obtain ⟨⟨kind, lexeme, position⟩, us, hcs, hus, hnext⟩ := hts.exists_cons hs
    rw [hcs] at hn hm
    cases m with
    | zero => cases hm
    | succ m =>
      -- A node over the tree is no higher than `maxNesting`, and the loop goes on behind it.
      have hgrow {s' : Cursor}
          (hleads : ({ s with current := s.current + 1 } : Cursor).Leads last s') (y : Expr)
          (k : Nat) :
          Follows ts last (do suffixes ts expr n (y, ← grow ts k)) s'
            (do Parser.suffixes expr' m ⟨y, ← Parser.grow k (ts.drop s'.current),
              ts.drop s'.current⟩) Reads := by
        refine .bind (grow_follows hts hleads.le_last _) ?_
        rintro height _ s'' hs'' ⟨rfl, hrest⟩
        have hleads := hleads.trans hs''
        rw [← hrest]
        exact ih hs''.le_last (hleads.depth_eq.trans hdepth)
          (length_drop_le_of_leads hus hleads hn) (length_drop_le_of_leads hus hleads hm)
      rw [suffixes, Parser.suffixes]
      dsimp only
      rw [head_eq hcs]
      refine .peek_bind hs hcs ?_
      cases kind with
      | dot =>
        have hplace : s.current + 1 ≤ last := hnext (by simp)
        refine .advance_bind hplace hcs (by simp) ?_
        rw [List.tail_drop]
        refine fieldName_bind hts hplace fun field hlt => ?_
        rw [List.tail_drop]
        have hleads : ({ s with current := s.current + 1 } : Cursor).Leads last
            { s with current := s.current + 1 + 1 } :=
          ⟨Nat.le_succ _, hlt, rfl, Nat.le_max_left _ _⟩
        exact hgrow hleads _ _
      | leftBracket =>
        have hplace : s.current + 1 ≤ last := hnext (by simp)
        refine .advance_bind hplace hcs (by simp) ?_
        rw [List.tail_drop]
        refine .bind (hexpr _ hplace hdepth) ?_
        rintro ⟨key, keyHeight⟩ _ s₁ hs₁ rfl
        refine .bind (expect_follows hts hs₁.le_last (by simp) _) ?_
        rintro _ _ s₂ hs₂ rfl
        exact hgrow (hs₁.trans hs₂) _ _
      | leftParen =>
        have hplace : s.current + 1 ≤ last := hnext (by simp)
        refine .advance_bind hplace hcs (by simp) ?_
        rw [List.tail_drop]
        refine .bind (argumentList_follows hts hexpr hplace hdepth) ?_
        rintro _ ⟨args, argsHeight, _⟩ s₁ hs₁ ⟨rfl, rfl⟩
        rw [List.nil_append, Nat.zero_max]
        exact hgrow hs₁ _ _
      | _ => exact .pure hs rfl

theorem primary_tracks (hts : EndsAt ts last) (hexpr : Tracks ts last depth expr expr') :
    Tracks ts last depth (primary ts expr) (Parser.primary expr') := by
  intro s hs hdepth
  obtain ⟨⟨kind, lexeme, position⟩, us, hcs, hus, hnext⟩ := hts.exists_cons hs
  rw [primary, Parser.primary, head_eq hcs, List.tail_drop]
  cases kind with
  | integer | float | string | name =>
    have hplace : s.current + 1 ≤ last := hnext (by simp)
    exact .advance_bind hplace hcs (by simp) (.pure hplace rfl)
  | leftParen =>
    have hplace : s.current + 1 ≤ last := hnext (by simp)
    refine .advance_bind hplace hcs (by simp) ?_
    refine .bind (hexpr _ hplace hdepth) ?_
    rintro ⟨inner, height⟩ _ s₁ hs₁ rfl
    refine .bind (expect_follows hts hs₁.le_last (by simp) _) ?_
    rintro _ _ s₂ hs₂ rfl
    refine .bind (grow_follows hts hs₂.le_last _) ?_
    rintro height _ s₃ hs₃ ⟨rfl, hrest⟩
    exact .pure hs₃.le_last (by rw [hrest]; rfl)
  | eof =>
    rw [hcs]
    exact .advance_bind_eof hs hcs rfl (.throw _ hs)
  | _ =>
    have hplace : s.current + 1 ≤ last := hnext (by simp)
    rw [hcs]
    exact .advance_bind hplace hcs (by simp) (.throw _ hplace)

theorem postfixed_tracks (hts : EndsAt ts last) (hexpr : Tracks ts last depth expr expr') :
    Tracks ts last depth (postfixed ts expr) (Parser.postfixed expr') := by
  intro s hs hdepth
  rw [postfixed, Parser.postfixed]
  refine .bind (primary_tracks hts hexpr s hs hdepth) ?_
  rintro ⟨x, height⟩ _ s₁ hs₁ rfl
  exact suffixes_follows hts hexpr hs₁.le_last (hs₁.depth_eq.trans hdepth) (length_drop_le ts _)
    (Nat.le_refl _)

end Postfix

/-! ### Operands -/

/-- An operand behind its prefixes is one in a room for one more. -/
theorem prefixed_tracks (hts : EndsAt ts last) {unary : Descent (Expr × Nat)} {depth room : Nat}
    (hunary : Tracks ts last depth unary (Parser.operand room)) :
    Tracks ts last depth (prefixed ts unary) (Parser.operand (room + 1)) := by
  intro s hs hdepth
  obtain ⟨t, us, hcs, -, hnext⟩ := hts.exists_cons hs
  rw [prefixed, Parser.operand, head_eq hcs]
  refine .peek_bind hs hcs ?_
  cases hop : Parser.prefixOp? t.kind with
  | some op =>
    have hne : t.kind ≠ .eof := by
      intro heof
      rw [heof] at hop
      cases hop
    refine .advance_bind (hnext hne) hcs hne ?_
    dsimp only
    rw [List.tail_drop]
    refine .bind (hunary _ (hnext hne) hdepth) ?_
    rintro ⟨x, height⟩ _ s₁ hs₁ rfl
    refine .bind (grow_follows hts hs₁.le_last _) ?_
    rintro height _ s₂ hs₂ ⟨rfl, hrest⟩
    exact .pure hs₂.le_last (by rw [hrest]; rfl)
  | none => exact postfixed_tracks hts (expression_tracks hts hunary) s hs hdepth

/-- One level deeper a computation follows the same reader. -/
theorem nested_follows {m : Descent α} {r : Except ParseError β} {R : α → β → List Token → Prop}
    (hdepth : s.depth < maxNesting)
    (h : Follows ts last m { s with depth := s.depth + 1, deepest := max s.deepest (s.depth + 1) }
      r R) : Follows ts last (nested m) s r R := by
  obtain ⟨s', hs', h⟩ := h
  have hpos : s'.depth ≠ 0 := by
    rw [hs'.depth_eq]
    exact Nat.succ_ne_zero _
  refine ⟨{ s' with depth := s'.depth - 1 }, ⟨hs'.current_le, hs'.le_last, ?_, ?_⟩, ?_⟩
  · exact congrArg (· - 1) hs'.depth_eq
  · refine hs'.deepest_le.trans (Nat.max_le.mpr ⟨Nat.max_le.mpr ⟨Nat.le_max_left _ _, ?_⟩, ?_⟩)
    · exact (Nat.succ_le_of_lt hdepth).trans (Nat.le_max_right _ _)
    · exact Nat.le_max_right _ _
  · have hrun (x : Except ParseError α)
        (hx : m.run.run { s with depth := s.depth + 1, deepest := max s.deepest (s.depth + 1) } =
          some (x, s')) :
        (nested m).run.run s = some (x, { s' with depth := s'.depth - 1 }) := by
      change (m.run.run _).bind _ = _
      rw [hx, Option.bind_some]
      exact if_neg hpos
    cases r with
    | error e => exact hrun _ h
    | ok b =>
      obtain ⟨a, h, hR⟩ := h
      exact ⟨a, hrun _ h, hR⟩

/-- In `depth` operands there is room for `maxNesting - depth` more. -/
theorem unary_tracks (hts : EndsAt ts last) {room depth : Nat} (hroom : room + depth = maxNesting) :
    Tracks ts last depth (unary ts (room + 1)) (Parser.operand room) := by
  induction room generalizing depth with
  | zero =>
    intro s hs hdepth
    rw [unary, Parser.operand]
    refine .get_bind hs ?_
    rw [if_pos (show maxNesting ≤ s.depth by omega)]
    exact tooDeep_follows hts hs
  | succ room ih =>
    intro s hs hdepth
    have hlt : s.depth < maxNesting := by omega
    rw [unary]
    refine .get_bind hs ?_
    rw [if_neg (Nat.not_le_of_lt hlt)]
    have hunary : Tracks ts last (depth + 1) (unary ts (room + 1)) (Parser.operand room) :=
      ih (by omega)
    exact nested_follows hlt (prefixed_tracks hts hunary _ hs (congrArg (· + 1) hdepth))

/-! ### Routines -/

/-- The routines of the parser. -/
inductive Routine where
  | binary (min : Precedence)
  | unary | prefixed | postfixed | arguments | primary

/-- What a routine reads in a room for so many nested operands: one tree, or the arguments of a
call, with the height. -/
def Routine.run (ts : List Token) (room : Nat) : Routine → Descent (List Expr × Nat)
  | binary min => one (Descent.binary ts (Descent.unary ts room) 6 min)
  | unary => one (Descent.unary ts room)
  | prefixed => one (Descent.prefixed ts (Descent.unary ts room))
  | postfixed => one (Descent.postfixed ts (expression ts (Descent.unary ts room)))
  | arguments => argumentList ts (expression ts (Descent.unary ts room))
  | primary => one (Descent.primary ts (expression ts (Descent.unary ts room)))
where
  /-- A single tree. -/
  one (m : Descent (Expr × Nat)) : Descent (List Expr × Nat) := do
    let (x, height) ← m
    return ([x], height)

/-- The run has a result, with the count of operands restored and the place among the tokens, and no
tree of it is higher than `maxNesting`. -/
def IsSafe (last : Nat) (m : Descent (List Expr × Nat)) (s : Cursor) : Prop :=
  ∃ r s', m.run.run s = some (r, s') ∧ s.Leads last s' ∧
    ∀ trees height, r = .ok (trees, height) → ∀ e ∈ trees, e.height ≤ maxNesting

/-- A reader of sound trees is followed safely. -/
theorem Tracks.isSafe {m : Descent (Expr × Nat)} {p : Parser} {depth : Nat}
    (h : Tracks ts last depth m p) (hp : ∀ us x, p us = .ok x → x.Sound us)
    (hs : s.current ≤ last) (hdepth : s.depth = depth) : IsSafe last (Routine.run.one m) s := by
  obtain ⟨s', hs', h⟩ := h s hs hdepth
  cases hr : p (ts.drop s.current) with
  | error e =>
    rw [hr] at h
    refine ⟨.error e, s', ?_, hs', nofun⟩
    rw [Routine.run.one, run_bind, h]
    rfl
  | ok y =>
    rw [hr] at h
    obtain ⟨x, hrun, rfl⟩ := h
    have hsound := hp _ _ hr
    refine ⟨.ok ([x.1], x.2), s', ?_, hs', ?_⟩
    · rw [Routine.run.one, run_bind, hrun]
      rfl
    · rintro _ _ ⟨⟩ e he
      rw [List.mem_singleton.mp he]
      exact hsound.height_eq ▸ hsound.height_le

end Descent

/-- No argument of a call is higher than `maxNesting`. -/
theorem Parser.height_le_of_mem_arguments {expr : Parser}
    (hexpr : ∀ ts x, expr ts = .ok x → x.Sound ts) {rounds : Nat} {ts us : List Token}
    {args : List Expr} {height : Nat} (h : arguments expr rounds ts = .ok (args, height, us)) :
    ∀ e ∈ args, e.height ≤ maxNesting := by
  induction rounds generalizing ts us args height with
  | zero => cases h
  | succ rounds ih =>
    rw [arguments, Except.bind_eq_ok] at h
    obtain ⟨x, hx, h⟩ := h
    have hs := hexpr ts x hx
    have hle : x.tree.height ≤ maxNesting := hs.height_eq ▸ hs.height_le
    dsimp only at h
    split at h
    · split at h
      · cases h
        exact List.forall_mem_singleton.mpr hle
      · obtain ⟨⟨args', height', us'⟩, hargs, h⟩ := Except.bind_eq_ok.mp h
        cases h
        exact List.forall_mem_cons.mpr ⟨hle, ih hargs⟩
    · obtain ⟨us', -, h⟩ := Except.bind_eq_ok.mp h
      cases h
      exact List.forall_mem_singleton.mpr hle

namespace Descent

variable {ts : List Token} {last : Nat} {s : Cursor}

/-- Every routine is safe at every place, however deep it is in operands. -/
theorem Routine.run_safe (hts : EndsAt ts last) (routine : Routine) (hs : s.current ≤ last)
    (hdepth : s.depth ≤ maxNesting) :
    IsSafe last (routine.run ts (maxNesting + 1 - s.depth)) s := by
  have hroom : maxNesting + 1 - s.depth = maxNesting - s.depth + 1 := by omega
  have hunary := unary_tracks hts (Nat.sub_add_cancel hdepth)
  have hexpr := expression_tracks hts hunary
  have hsound (us : List Token) (x : Parsed)
      (hx : Parser.expression (Parser.operand (maxNesting - s.depth)) us = .ok x) : x.Sound us :=
    (Parser.expression_sound (Parser.operand_sound _) hx).toSound
  rw [hroom]
  cases routine with
  | binary min =>
    have hlevels : Precedence.unary.rank < 6 + min.rank :=
      Nat.lt_of_lt_of_le (by decide) (Nat.le_add_right 6 _)
    exact (binary_tracks hts hunary hlevels).isSafe
      (fun _ _ hx => (Parser.binary_sound (Parser.operand_sound _) hlevels.le hx).toSound) hs rfl
  | unary => exact hunary.isSafe (fun _ _ hx => (Parser.operand_sound _ _ _ hx).1) hs rfl
  | prefixed =>
    exact (prefixed_tracks hts hunary).isSafe
      (fun _ _ hx => (Parser.operand_sound _ _ _ hx).1) hs rfl
  | postfixed =>
    exact (postfixed_tracks hts hexpr).isSafe
      (fun _ _ hx => (Parser.postfixed_sound hsound hx).1) hs rfl
  | primary =>
    exact (primary_tracks hts hexpr).isSafe
      (fun _ _ hx => (Parser.primary_sound hsound hx).1) hs rfl
  | arguments =>
    obtain ⟨s', hs', h⟩ := argumentList_follows hts hexpr hs rfl
    cases hr : Parser.argumentList (Parser.expression (Parser.operand (maxNesting - s.depth)))
        (ts.drop s.current) with
    | error e =>
      rw [hr] at h
      exact ⟨.error e, s', h, hs', nofun⟩
    | ok y =>
      rw [hr] at h
      obtain ⟨args, height, us⟩ := y
      obtain ⟨_, hrun, rfl, -⟩ := h
      refine ⟨_, s', hrun, hs', ?_⟩
      rintro _ _ ⟨⟩ e he
      rw [Parser.argumentList] at hr
      split at hr
      · cases hr
        cases he
      · exact Parser.height_le_of_mem_arguments hsound hr e he

/-- The whole parser gives what `Expr.parse` gives, and stays on the tokens. -/
theorem parse_follows (hts : EndsAt ts last) :
    Follows ts last (parse ts) ⟨0, 0, 0⟩ (Expr.parse ts) fun e e' _ => e = e' := by
  have hzero : (⟨0, 0, 0⟩ : Cursor).current ≤ last := Nat.zero_le _
  obtain ⟨t, us, hcs, -, -⟩ := hts.exists_cons hzero
  rw [parse, Expr.parse]
  refine .peek_bind hzero hcs ?_
  have hhead := head_eq hcs
  rw [List.drop_zero] at hhead
  rw [hhead]
  by_cases heof : t.kind = .eof
  · rw [if_pos heof, if_pos heof]
    exact .throw _ hzero
  · rw [if_neg heof, if_neg heof]
    refine .bind (expression_tracks hts (unary_tracks hts (Nat.add_zero _)) ⟨0, 0, 0⟩ hzero rfl) ?_
    rintro ⟨e, height⟩ _ s₁ hs₁ rfl
    obtain ⟨t', us', hcs', -, -⟩ := hts.exists_cons hs₁.le_last
    refine .peek_bind hs₁.le_last hcs' ?_
    dsimp only
    rw [head_eq hcs']
    by_cases heof' : t'.kind = .eof
    · rw [if_pos heof', if_pos heof']
      exact .pure hs₁.le_last rfl
    · rw [if_neg heof', if_neg heof']
      exact unexpected_follows hts hs₁.le_last _

end Descent

/-! ### The main result -/

/-- No tree that was parsed is higher than `maxNesting`. -/
theorem Expr.height_le_of_parse_eq_ok {ts : List Token} {e : Expr} (h : parse ts = .ok e) :
    e.height ≤ maxNesting := by
  rw [parse] at h
  split at h
  · cases h
  · obtain ⟨x, hx, h⟩ := Except.bind_eq_ok.mp h
    have hs := (Parser.expression_sound (Parser.operand_sound _) hx).toSound
    split at h
    · cases h
      exact hs.height_eq ▸ hs.height_le
    · cases h

/-- **Scanning and parsing are safe.** For every text the scanner has a result, so it looks up no
character out of bounds and its loops end. If the text has tokens, the last of them is the end, and
the parser has a result, so it looks up no token out of bounds and its loops and its recursion end.
It does not go past the end, its count of operands is zero again in the end and never above
`maxNesting`, and no tree is higher than that. Every routine of the parser has these properties at
every place and depth, with the count restored also after a failure. -/
theorem Expr.read_safe (text : String) :
    Scanner.run text = some (scan text) ∧
      ∀ ts, scan text = .ok ts →
        (∃ us eof, ts = us ++ [eof] ∧ eof.kind = .eof) ∧
        (∃ s, (Descent.parse ts).run.run ⟨0, 0, 0⟩ = some (parse ts, s) ∧
          Cursor.Leads (ts.length - 1) ⟨0, 0, 0⟩ s) ∧
        (∀ e, parse ts = .ok e → e.height ≤ maxNesting) ∧
        ∀ (routine : Descent.Routine) (s : Cursor), s.current < ts.length → s.depth ≤ maxNesting →
          Descent.IsSafe (ts.length - 1) (routine.run ts (maxNesting + 1 - s.depth)) s := by
  refine ⟨Scanner.run_eq_scan text, fun ts hts => ?_⟩
  obtain ⟨us, eof, rfl, heof, -⟩ := scanFrom_eq_append_eof hts
  have hlast : (us ++ [eof]).length - 1 = us.length := by simp
  have hends : Descent.EndsAt (us ++ [eof]) us.length := ⟨eof, by simp, heof⟩
  rw [hlast]
  refine ⟨⟨us, eof, rfl, heof⟩, ?_, fun e => height_le_of_parse_eq_ok, ?_⟩
  · obtain ⟨s, hs, h⟩ := Descent.parse_follows hends
    refine ⟨s, ?_, hs⟩
    cases hr : parse (us ++ [eof]) with
    | error e => rwa [hr] at h
    | ok e =>
      rw [hr] at h
      obtain ⟨_, hrun, rfl⟩ := h
      exact hrun
  · intro routine s hs hdepth
    exact routine.run_safe hends (by simpa [Nat.lt_succ_iff] using hs) hdepth

/-- The parser stops at the end behind an open parenthesis, in no operand any more. -/
theorem Expr.read_safe_open :
    let ts : List Token := [⟨.operator .sub, "-", 0⟩, ⟨.leftParen, "(", 1⟩, ⟨.name "a", "a", 2⟩,
      ⟨.eof, "", 3⟩]
    Scanner.run "-(a" = some (.ok ts) ∧
      ∃ s, (Descent.parse ts).run.run ⟨0, 0, 0⟩ = some (.error .unexpectedEnd, s) ∧ s.current ≤ 3 ∧
        s.depth = 0 ∧ s.deepest ≤ maxNesting := by
  intro ts
  have hscan : scan "-(a" = .ok ts := by decide +kernel
  have hparse : parse ts = .error .unexpectedEnd := rfl
  obtain ⟨hrun, hparser⟩ := Expr.read_safe "-(a"
  obtain ⟨-, ⟨s, hs, hleads⟩, -, -⟩ := hparser ts hscan
  rw [hscan] at hrun
  rw [hparse] at hs
  exact ⟨hrun, s, hs, hleads.le_last, hleads.depth_eq, hleads.deepest_le⟩

end DynamicEval
