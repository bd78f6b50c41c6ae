import DynamicEval.Proofs.Expr.Soundness

/-!
# Every spelling of a well-shaped tree is read

A reader that meets a spelling of a well-shaped tree, with nothing behind it that could continue the
tree, gives that tree and stops behind the spelling. It can fail in one way only: by finding the
tree too high, and then the tree is higher than the room the reader had. So neither of the two limits
of the parser refuses a tree that fits into its room.

The tokens of an operand and of a chain of operators are nested to the left, but the loops that read
them go from left to right. So the statements about loops say where the loop stands once it has read
a left part, and the induction is on that left part.

## Main definitions

* `OrTooHigh`: an outcome is the expected one, or something was found too high.
* `Parser.Reads`: a reader reads a tree, or finds it too high.

## Main results

* `Parser.operand_reads`, `Parser.expression_reads`: every spelling is read.
* `Expr.parse_eq_ok_iff_spells`: the trees that the parser gives, and the trees it finds too high.
-/

open DynamicEval.Parser

namespace DynamicEval

/-- The outcome is the expected one, or something of the given height was found too high, which has
more height than the given room. -/
def OrTooHigh {α : Type} (room height : Nat) (expected outcome : Except ParseError α) : Prop :=
  outcome = expected ∨ room < height ∧ ∃ position, outcome = .error (.malformed position .tooDeep)

namespace OrTooHigh

variable {α β : Type} {room room' height height' : Nat}

theorem trans {expected middle outcome : Except ParseError α}
    (h : OrTooHigh room height middle outcome)
    (hmiddle : OrTooHigh room' height' expected middle) (hlt : room < height → room' < height') :
    OrTooHigh room' height' expected outcome := by
  rcases h with rfl | ⟨hroom, herror⟩
  · exact hmiddle
  · exact .inr ⟨hlt hroom, herror⟩

/-- What is done with the expected outcome is done with the outcome. -/
theorem bind {a : α} {x : Except ParseError α} {f : α → Except ParseError β}
    {expected : Except ParseError β} (h : OrTooHigh room height (.ok a) x)
    (hf : OrTooHigh room' height' expected (f a)) (hlt : room < height → room' < height') :
    OrTooHigh room' height' expected (x >>= f) := by
  rcases h with rfl | ⟨hroom, position, rfl⟩
  · exact hf
  · exact .inr ⟨hlt hroom, position, rfl⟩

end OrTooHigh

namespace Parser

/-- The outcome of a reader that reads the tree `e` and stops before the tokens `rest`, or finds `e`
too high for the given room. -/
abbrev Reads (room : Nat) (e : Expr) (rest : List Token) (outcome : Except ParseError Parsed) :
    Prop :=
  OrTooHigh room e.height (.ok ⟨e, e.height, rest⟩) outcome

/-- A token that continues an operand. -/
def startsSuffix : TokenKind → Bool
  | .dot | .leftBracket | .leftParen => true
  | _ => false

/-- The reader `expr` reads every spelling of a well-shaped tree. -/
def ReadsExpressions (room : Nat) (expr : Parser) : Prop :=
  ∀ ⦃ts : List Token⦄ ⦃e : Expr⦄ ⦃rest : List Token⦄, Spells ts e → e.WellShaped →
    startsSuffix (head rest) = false → (∀ op, head rest ≠ .operator op) →
      Reads room e rest (expr (ts ++ rest))

/-- The reader `opd` reads every spelling of a well-shaped operand. -/
def ReadsOperands (room : Nat) (opd : Parser) : Prop :=
  ∀ ⦃ts : List Token⦄ ⦃e : Expr⦄ ⦃rest : List Token⦄, Spells ts e → e.WellShaped →
    e.precedence = .unary → startsSuffix (head rest) = false → Reads room e rest (opd (ts ++ rest))

/-! ### Single tokens -/

theorem head_cons (t : Token) (ts : List Token) : head (t :: ts) = t.kind := rfl

theorem expect_cons {kind : TokenKind} {expected : Expectation} {t : Token} {ts : List Token}
    (ht : t.kind = kind) : expect kind expected (t :: ts) = .ok ts := by
  simp [expect, head_cons, ht]

/-- A node over subtrees of height up to `height` is refused only if it is too high. -/
theorem grow_orTooHigh {room : Nat} (hroom : room ≤ maxNesting) (height : Nat) (ts : List Token) :
    OrTooHigh room (height + 1) (.ok (height + 1)) (grow height ts) := by
  unfold grow
  split
  · next hle => exact .inr ⟨by omega, _, rfl⟩
  · exact .inl rfl

/-- A loop that has come to a tree with enough rounds left, and takes one round to a tree around it,
comes to that tree with enough rounds left. -/
theorem reaches_step {room : Nat} {loop : Nat → Parsed → Except ParseError Parsed} {e e' : Expr}
    {ts rest : List Token} {outcome : Except ParseError Parsed}
    (h : ∃ rounds, ts.length ≤ rounds ∧
      OrTooHigh room e.height (loop rounds ⟨e, e.height, ts⟩) outcome)
    (hrest : rest.length < ts.length) (hheight : e.height < e'.height)
    (hstep : ∀ rounds, OrTooHigh room e'.height (loop rounds ⟨e', e'.height, rest⟩)
      (loop (rounds + 1) ⟨e, e.height, ts⟩)) :
    ∃ rounds, rest.length ≤ rounds ∧
      OrTooHigh room e'.height (loop rounds ⟨e', e'.height, rest⟩) outcome := by
  obtain ⟨rounds, hrounds, h⟩ := h
  obtain ⟨rounds, rfl⟩ : ∃ n, rounds = n + 1 := Nat.exists_eq_succ_of_ne_zero (by omega)
  exact ⟨rounds, by omega, h.trans (hstep rounds) fun hlt => Nat.lt_trans hlt hheight⟩

/-! ### Operands with what stands behind them -/

section Postfix

variable {room : Nat} {expr : Parser}

/-- Arguments are read up to their parenthesis, or one of them is too high. -/
theorem arguments_reads (hexpr : ReadsExpressions room expr) {closing : Token}
    (hclosing : closing.kind = .rightParen) (rest : List Token) {args : List Expr} :
    ∀ {ts : List Token} {rounds : Nat}, SpellsArguments ts args → Expr.WellShapedList args →
      ts.length < rounds → OrTooHigh room (Expr.heightOfList args)
        (.ok (args, Expr.heightOfList args, rest))
        (arguments expr rounds (ts ++ closing :: rest)) := by
  induction args with
  | nil => intro ts rounds h; cases h
  | cons arg args ih =>
    intro ts rounds h hw hrounds
    obtain ⟨rounds, rfl⟩ := Nat.exists_eq_succ_of_ne_zero (Nat.ne_of_gt (Nat.zero_lt_of_lt hrounds))
    rw [arguments]
    cases h with
    | last harg =>
      have hstop : startsSuffix (head (closing :: rest)) = false := by
        simp [head_cons, hclosing, startsSuffix]
      refine (hexpr harg hw.1 hstop (by simp [head_cons, hclosing])).bind ?_ (by simp [Expr.heightOfList])
      left
      simp [head_cons, hclosing, expect_cons, bind, Except.bind, Expr.heightOfList, pure, Except.pure]
    | @lastComma ts _ comma harg hcomma =>
      rw [List.append_assoc]
      have hstop : startsSuffix (head (comma :: closing :: rest)) = false := by
        simp [head_cons, hcomma, startsSuffix]
      refine (hexpr harg hw.1 hstop (by simp [head_cons, hcomma])).bind ?_ (by simp [Expr.heightOfList])
      left
      simp [head_cons, hcomma, hclosing, Expr.heightOfList, pure, Except.pure]
    | @cons ts us _ _ comma harg hcomma hargs =>
      have hstop : startsSuffix (head (comma :: (us ++ closing :: rest))) = false := by
        simp [head_cons, hcomma, startsSuffix]
      rw [List.append_assoc, List.cons_append]
      refine (hexpr harg hw.1 hstop (by simp [head_cons, hcomma])).bind ?_
        (by simp only [Expr.heightOfList]; omega)
      have hne := hargs.head_append_ne_rightParen (closing :: rest)
      have hlen : us.length < rounds := by
        simp only [List.length_append, List.length_cons] at hrounds
        omega
      simp only [head_cons, hcomma, List.tail_cons, hne, ↓reduceIte]
      refine (ih hargs hw.2 hlen).bind ?_ (by simp only [Expr.heightOfList]; omega)
      exact .inl rfl

/-- A call is read from its opening parenthesis on. -/
theorem argumentList_reads (hexpr : ReadsExpressions room expr) {closing : Token}
    (hclosing : closing.kind = .rightParen) (rest : List Token) {ts : List Token} {args : List Expr}
    (hargs : SpellsArguments ts args) (hw : Expr.WellShapedList args) :
    OrTooHigh room (Expr.heightOfList args) (.ok (args, Expr.heightOfList args, rest))
      (argumentList expr (ts ++ closing :: rest)) := by
  rw [argumentList, if_neg (hargs.head_append_ne_rightParen _)]
  exact arguments_reads hexpr hclosing rest hargs hw (by simp)

theorem suffixes_stop {x : Parsed} (h : startsSuffix (head x.rest) = false) :
    ∀ rounds, suffixes expr rounds x = .ok x
  | 0 => rfl
  | rounds + 1 => by
    rw [suffixes]
    split
    case h_1 hhead | h_2 hhead | h_3 hhead => simp [hhead, startsSuffix] at h
    case h_4 => rfl

theorem postfixed_leaf {e : Expr} {t : Token} {rest : List Token}
    (h : primary expr (t :: rest) = .ok ⟨e, 1, rest⟩) (hheight : e.height = 1) (room : Nat) :
    ∃ rounds, rest.length ≤ rounds ∧ OrTooHigh room e.height
      (suffixes expr rounds ⟨e, e.height, rest⟩) (postfixed expr ([t] ++ rest)) := by
  refine ⟨rest.length, Nat.le_refl _, .inl ?_⟩
  rw [postfixed, List.singleton_append, h, hheight]
  rfl

/-- The loop over suffixes comes to every operand that begins what it reads. -/
theorem postfixed_reaches (hroom : room < maxNesting) (hexpr : ReadsExpressions room expr)
    {e : Expr} {ts : List Token} (h : Spells ts e) (hw : e.WellShaped) (he : e.IsPostfix)
    (rest : List Token) : ∃ rounds, rest.length ≤ rounds ∧ OrTooHigh (room + 1) e.height
      (suffixes expr rounds ⟨e, e.height, rest⟩) (postfixed expr (ts ++ rest)) := by
  cases h with
  | int ht | float ht | string ht | name ht =>
    exact postfixed_leaf (by simp [primary, head_cons, ht]) rfl _
  | @select ts object dot field s hobject hdot hfield =>
    have hobject := postfixed_reaches hroom hexpr hobject hw.1 hw.2 (dot :: field :: rest)
    rw [List.append_assoc]
    refine reaches_step hobject (by simp only [List.length_cons]; omega)
      (by rw [Expr.height]; omega) fun rounds => ?_
    rw [suffixes]
    simp only [head_cons, hdot, hfield, List.tail_cons]
    exact (grow_orTooHigh hroom object.height rest).bind (.inl rfl) id
  | @index ts us object key opening closing hobject hopening hkey hclosing =>
    have hobject := postfixed_reaches hroom hexpr hobject hw.1 hw.2.1
      (opening :: (us ++ closing :: rest))
    have hstop : startsSuffix (head (closing :: rest)) = false := by
      simp [head_cons, hclosing, startsSuffix]
    have hread := hexpr hkey hw.2.2 hstop (by simp [head_cons, hclosing])
    simp only [List.append_assoc, List.cons_append, List.nil_append]
    refine reaches_step hobject (by simp only [List.length_append, List.length_cons]; omega)
      (by rw [Expr.height]; omega) fun rounds => ?_
    rw [suffixes]
    simp only [head_cons, hopening, List.tail_cons]
    refine hread.bind ?_ (by simp only [Expr.height]; omega)
    simp only [expect_cons hclosing]
    exact (grow_orTooHigh hroom (max object.height key.height) rest).bind (.inl rfl) id
  | @callNone ts callee opening closing hcallee hopening hclosing =>
    have hcallee := postfixed_reaches hroom hexpr hcallee hw.1 hw.2.1 (opening :: closing :: rest)
    rw [List.append_assoc]
    refine reaches_step hcallee (by simp only [List.length_cons]; omega)
      (by rw [Expr.height]; omega) fun rounds => ?_
    rw [suffixes]
    simp only [head_cons, hopening, List.tail_cons, argumentList, hclosing, ↓reduceIte]
    exact (grow_orTooHigh hroom (max callee.height 0) rest).bind (.inl rfl) id
  | @call ts us callee args opening closing hcallee hopening hargs hclosing =>
    have hcallee := postfixed_reaches hroom hexpr hcallee hw.1 hw.2.1
      (opening :: (us ++ closing :: rest))
    have hread := argumentList_reads hexpr hclosing rest hargs hw.2.2
    simp only [List.append_assoc, List.cons_append, List.nil_append]
    refine reaches_step hcallee (by simp only [List.length_append, List.length_cons]; omega)
      (by rw [Expr.height]; omega) fun rounds => ?_
    rw [suffixes]
    simp only [head_cons, hopening, List.tail_cons]
    refine hread.bind ?_ (by simp only [Expr.height]; omega)
    exact (grow_orTooHigh hroom (max callee.height (Expr.heightOfList args)) rest).bind (.inl rfl) id
  | unary | binary => exact he.elim
  | @paren ts inner opening closing hopening hinner hclosing =>
    have hstop : startsSuffix (head (closing :: rest)) = false := by
      simp [head_cons, hclosing, startsSuffix]
    have hread := hexpr hinner hw hstop (by simp [head_cons, hclosing])
    refine ⟨rest.length, Nat.le_refl _, ?_⟩
    simp only [List.cons_append, List.append_assoc, List.nil_append, postfixed]
    have hprimary : OrTooHigh (room + 1) (Expr.paren inner).height
        (.ok ⟨.paren inner, (Expr.paren inner).height, rest⟩)
        (primary expr (opening :: (ts ++ closing :: rest))) := by
      simp only [primary, head_cons, hopening, List.tail_cons]
      refine hread.bind ?_ (by simp only [Expr.height]; omega)
      simp only [expect_cons hclosing]
      exact (grow_orTooHigh hroom inner.height rest).bind (.inl rfl) id
    exact hprimary.bind (.inl rfl) id

end Postfix

/-! ### Chains of binary operators -/

section Levels

variable {room : Nat} {opd : Parser}

theorem climb_stop {right : Precedence → Parser} {min : Precedence} {x : Parsed}
    (h : ∀ op, head x.rest = .operator op → op.precedence.rank < min.rank) :
    ∀ rounds, climb right min rounds x = .ok x
  | 0 => rfl
  | rounds + 1 => by
    rw [climb]
    split
    · next op hop => rw [if_pos (h op hop)]
    · rfl

/-- A chain is read to its end when the loop comes to all of it: before a token that cannot continue
it the loop stops. -/
theorem binary_reads_of_reaches {levels : Nat} {min : Precedence} {e : Expr} {rest : List Token}
    {outcome : Except ParseError Parsed}
    (h : ∃ rounds, rest.length ≤ rounds ∧ OrTooHigh room e.height
      (climb (binary opd levels) min rounds ⟨e, e.height, rest⟩) outcome)
    (hrest : ∀ op, head rest = .operator op → op.precedence.rank < min.rank) :
    Reads room e rest outcome := by
  obtain ⟨rounds, -, h⟩ := h
  exact h.trans (.inl (climb_stop hrest rounds)) id

/-- The loop over operators comes to every chain that begins what it reads. -/
theorem binary_reaches (hroom : room ≤ maxNesting) (hopd : ReadsOperands room opd)
    {e : Expr} {ts : List Token} (h : Spells ts e) (hw : e.WellShaped) {levels : Nat}
    {min : Precedence} (hmin : min.rank ≤ e.precedence.rank)
    (hlevels : Precedence.unary.rank ≤ levels + 1 + min.rank) (rest : List Token)
    (hstop : startsSuffix (head rest) = false)
    (hrest : ∀ op, head rest = .operator op → op.precedence.rank ≤ e.precedence.rank) :
    ∃ rounds, rest.length ≤ rounds ∧ OrTooHigh room e.height
      (climb (binary opd levels) min rounds ⟨e, e.height, rest⟩)
      (binary opd (levels + 1) min (ts ++ rest)) := by
  have hoperand : e.precedence = .unary → ∃ rounds, rest.length ≤ rounds ∧ OrTooHigh room e.height
      (climb (binary opd levels) min rounds ⟨e, e.height, rest⟩)
      (binary opd (levels + 1) min (ts ++ rest)) := fun he =>
    ⟨rest.length, Nat.le_refl _, (hopd h hw he hstop).bind (.inl rfl) id⟩
  -- The same loop comes to the left operand first. The right operand has a level of its own.
  cases h with
  | @binary ts us op left right t hleft ht hright =>
    obtain ⟨hwl, hwr, hleft_le, hright_lt⟩ := hw
    have hop : min.rank ≤ op.precedence.rank := hmin
    have htighter := op.rank_tighter
    have hleft := binary_reaches hroom hopd hleft hwl (Nat.le_trans hop hleft_le) hlevels
      (t :: (us ++ rest)) (by simp [head_cons, ht, startsSuffix])
      (by simpa [head_cons, ht] using hleft_le)
    have hread : Reads room right rest
        (Parser.binary opd levels op.precedence.tighter (us ++ rest)) := by
      cases levels with
      | zero =>
        -- There is no level above the tightest operator, and no chain that would need one.
        have hprec := Expr.precedence_eq_unary_of_le (e := right) (by omega)
        exact hopd hright hwr hprec hstop
      | succ levels =>
        refine binary_reads_of_reaches (binary_reaches hroom hopd hright hwr (by omega) (by omega)
          rest hstop fun op' hop' => ?_) fun op' hop' => ?_
        · have : op'.precedence.rank ≤ op.precedence.rank := hrest op' hop'
          omega
        · have : op'.precedence.rank ≤ op.precedence.rank := hrest op' hop'
          omega
    rw [List.append_assoc, List.cons_append]
    refine reaches_step hleft (by simp only [List.length_append, List.length_cons]; omega)
      (by rw [Expr.height]; omega) fun rounds => ?_
    rw [climb]
    simp only [head_cons, ht, List.tail_cons, Nat.not_lt.mpr hop, ↓reduceIte]
    refine hread.bind ?_ (by simp only [Expr.height]; omega)
    exact (grow_orTooHigh hroom (max left.height right.height) rest).bind (.inl rfl) id
  | _ => exact hoperand rfl

theorem expression_reads (hroom : room ≤ maxNesting) (hopd : ReadsOperands room opd) :
    ReadsExpressions room (expression opd) := fun _ _ rest h hw hstop hrest =>
  binary_reads_of_reaches (binary_reaches hroom hopd h hw (Nat.zero_le _) (by decide) rest hstop
    fun op hop => absurd hop (hrest op)) fun op hop => absurd hop (hrest op)

end Levels

/-- In a room of the stated size every operand that fits is read. -/
theorem operand_reads : ∀ {room : Nat}, room ≤ maxNesting → ReadsOperands room (operand room)
  | 0, _, _, e, _, _, _, _, _ => .inr ⟨e.height_pos, _, rfl⟩
  | room + 1, hroom, ts, e, rest, h, hw, he, hstop => by
    have hexpr := expression_reads (Nat.le_of_succ_le hroom) (operand_reads (Nat.le_of_succ_le hroom))
    have hpost (hpost : e.IsPostfix) : Reads (room + 1) e rest (operand (room + 1) (ts ++ rest)) := by
      obtain ⟨rounds, -, hreach⟩ := postfixed_reaches hroom hexpr h hw hpost rest
      rw [operand, h.head_append, h.prefixOp?_head hw hpost]
      exact hreach.trans (.inl (suffixes_stop hstop rounds)) id
    cases h with
    | @unary ts op x t ht hx =>
      have hop : prefixOp? t.kind = some op := by rw [ht]; cases op <;> rfl
      have hread := operand_reads (Nat.le_of_succ_le hroom) hx hw.1 hw.2 hstop
      rw [List.cons_append, operand, head_cons, hop]
      refine hread.bind ?_ (by simp only [Expr.height]; omega)
      exact (grow_orTooHigh hroom x.height rest).bind (.inl rfl) id
    | @binary _ _ op => exact absurd he op.precedence_ne_unary
    | _ => exact hpost trivial

end Parser

/-! ### The trees that the parser gives -/

namespace Expr

/-- The tokens before the end of the text are all that stand before some end of it. -/
private theorem eq_of_append_eof {ts us rest : List Token} {eof : Token}
    (hts : ∀ t ∈ ts, t.kind ≠ .eof) (hus : ∀ t ∈ us, t.kind ≠ .eof) (heof : eof.kind = .eof)
    (hrest : head rest = .eof) (h : ts ++ [eof] = us ++ rest) : us = ts := by
  cases rest with
  | nil =>
    rw [List.append_nil] at h
    exact absurd heof (hus eof (by simp [← h]))
  | cons t rest =>
    rcases List.append_eq_append_iff.mp h with ⟨vs, rfl, hvs⟩ | ⟨vs, rfl, hvs⟩
    · cases vs with
      | nil => simp
      | cons v vs => simp at hvs
    · cases vs with
      | nil => simp
      | cons v vs =>
        obtain ⟨rfl, -⟩ := List.cons.inj hvs
        exact absurd hrest (hts t (by simp))

/-- A tree that is given has a spelling in all tokens before the end, and all that a tree needs. -/
theorem spells_of_parse {ts : List Token} (hts : ∀ t ∈ ts, t.kind ≠ .eof) {eof : Token}
    (heof : eof.kind = .eof) {e : Expr} (h : parse (ts ++ [eof]) = .ok e) :
    e.WellShaped ∧ e.height ≤ maxNesting ∧ Spells ts e := by
  unfold parse at h
  split at h
  · cases h
  · rw [Except.bind_eq_ok] at h
    obtain ⟨x, hx, h⟩ := h
    have hs := expression_sound (operand_sound maxNesting) hx
    obtain ⟨us, hus, hspells⟩ := hs.spells
    split at h
    · next hend =>
      cases h
      have hall := eq_of_append_eof hts hspells.kind_ne_eof heof hend hus
      exact ⟨hs.wellShaped, hs.height_eq ▸ hs.height_le, hall ▸ hspells⟩
    · cases h

/-- The spelling of a well-shaped tree is read as the tree, or the tree is found too high. -/
theorem parse_orTooHigh {ts : List Token} (eof : Token) (heof : eof.kind = .eof) {e : Expr}
    (h : Spells ts e) (hw : e.WellShaped) :
    OrTooHigh maxNesting e.height (.ok e) (parse (ts ++ [eof])) := by
  have hread : Reads maxNesting e [eof] (expression (operand maxNesting) (ts ++ [eof])) :=
    expression_reads (Nat.le_refl _) (operand_reads (Nat.le_refl _)) h hw
      (by simp [head_cons, heof, startsSuffix]) (by simp [head_cons, heof])
  rw [parse, if_neg (h.head_append _ ▸ h.head_ne_eof)]
  refine hread.bind ?_ id
  left
  simp [head_cons, heof, pure, Except.pure]

/-- **The parser accepts exactly its grammar.** On tokens up to the end of the text it gives the tree
`e` if and only if they are a spelling of `e`, which is well shaped and not higher than allowed. A
spelling of a well-shaped tree that is higher is refused for that reason. -/
theorem parse_eq_ok_iff_spells (ts : List Token) (hts : ∀ t ∈ ts, t.kind ≠ .eof) (lexeme : String)
    (position : Nat) (e : Expr) :
    (parse (ts ++ [⟨.eof, lexeme, position⟩]) = .ok e ↔
      e.WellShaped ∧ e.height ≤ maxNesting ∧ Spells ts e) ∧
    (Spells ts e → e.WellShaped → maxNesting < e.height →
      ∃ place, parse (ts ++ [⟨.eof, lexeme, position⟩]) = .error (.malformed place .tooDeep)) := by
  refine ⟨⟨spells_of_parse hts rfl, fun ⟨hw, hheight, h⟩ => ?_⟩, fun h hw hheight => ?_⟩
  · rcases parse_orTooHigh ⟨.eof, lexeme, position⟩ rfl h hw with hok | ⟨hlt, -⟩
    · exact hok
    · exact absurd hheight (Nat.not_le.mpr hlt)
  · rcases parse_orTooHigh ⟨.eof, lexeme, position⟩ rfl h hw with hok | ⟨-, herror⟩
    · exact absurd (spells_of_parse hts rfl hok).2.1 (Nat.not_le.mpr hheight)
    · exact herror

/-- The tokens of `a - b - f(1,)` are grouped to the left, and the comma changes nothing. -/
theorem parse_sub_sub_call :
    parse [⟨.name "a", "a", 0⟩, ⟨.operator .sub, "-", 2⟩, ⟨.name "b", "b", 4⟩,
      ⟨.operator .sub, "-", 6⟩, ⟨.name "f", "f", 8⟩, ⟨.leftParen, "(", 9⟩, ⟨.integer 1, "1", 10⟩,
      ⟨.comma, ",", 11⟩, ⟨.rightParen, ")", 12⟩, ⟨.eof, "", 13⟩] =
    .ok (.binary .sub (.binary .sub (.name "a") (.name "b")) (.call (.name "f") [.int 1])) := by
  refine (parse_eq_ok_iff_spells [⟨.name "a", "a", 0⟩, ⟨.operator .sub, "-", 2⟩,
    ⟨.name "b", "b", 4⟩, ⟨.operator .sub, "-", 6⟩, ⟨.name "f", "f", 8⟩, ⟨.leftParen, "(", 9⟩,
    ⟨.integer 1, "1", 10⟩, ⟨.comma, ",", 11⟩, ⟨.rightParen, ")", 12⟩] (by simp) "" 13 _).1.mpr
    ⟨?_, by decide, ?_⟩
  · simp [WellShaped, WellShapedList, IsPostfix, precedence, BinaryOp.precedence, Precedence.rank]
  · exact .binary (.binary (.name rfl) rfl (.name rfl)) rfl
      (.call (.name rfl) rfl (.lastComma (.int rfl) rfl) rfl)

end Expr

end DynamicEval
