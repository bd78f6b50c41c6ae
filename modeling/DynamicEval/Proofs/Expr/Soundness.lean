import DynamicEval.Proofs.Expr.Grammar
import DynamicEval.Proofs.Run

/-!
# What the parser reads is a spelling

Every reader of the parser takes a spelling of the tree that it gives off the head of the tokens, and
the tree is well shaped and as high as the reader says. The readers are taken from the inside out:
arguments and suffixes over any sound reader of expressions, chains of binary operators over any
sound reader of operands, and operands by induction on the room that is left.

A chain of operators ends only before a token that cannot continue it, which is what makes the left
operand of the next operator bind tightly enough.

## Main definitions

* `Parsed.Sound`: what was read is a spelling of the tree that was given.
* `Parsed.SoundAt`: likewise for a chain of operators of some level, read to its end.

## Main results

* `Parser.operand_sound`, `Parser.expression_sound`: every reader is sound.
-/

namespace DynamicEval

/-- The tree of `x` is well shaped and of the stated height, and `ts` begins with a spelling of it,
behind which the rest of `x` stands. -/
structure Parsed.Sound (ts : List Token) (x : Parsed) : Prop where
  /-- The tokens that were read are a spelling of the tree. -/
  spells : ∃ us, ts = us ++ x.rest ∧ Spells us x.tree
  /-- The tree is well shaped. -/
  wellShaped : x.tree.WellShaped
  /-- The stated height is that of the tree. -/
  height_eq : x.height = x.tree.height
  /-- The tree is not too high. -/
  height_le : x.height ≤ maxNesting

/-- What was read is sound, its operators bind at least as tightly as `min`, and no operator of that
level follows. -/
structure Parsed.SoundAt (min : Precedence) (ts : List Token) (x : Parsed) : Prop
    extends x.Sound ts where
  /-- The outermost operator is of the level or a tighter one. -/
  le_precedence : min.rank ≤ x.tree.precedence.rank
  /-- An operator behind the tree is of a looser level. -/
  rank_lt : ∀ op, Parser.head x.rest = .operator op → op.precedence.rank < min.rank

namespace Parsed.Sound

variable {ts : List Token} {x : Parsed}

theorem length_rest_le (h : x.Sound ts) : x.rest.length ≤ ts.length := by
  obtain ⟨us, rfl, -⟩ := h.spells
  simp

/-- A tree of one token. -/
theorem leaf {t : Token} {us : List Token} {e : Expr} (h : Spells [t] e) (hw : e.WellShaped)
    (hheight : e.height = 1) : Parsed.Sound (t :: us) ⟨e, 1, us⟩ :=
  ⟨⟨[t], rfl, h⟩, hw, hheight.symm, show 1 ≤ maxNesting by decide⟩

end Parsed.Sound

namespace Parser

/-! ### Single tokens -/

/-- A token other than the end is at the head of a list only when the list has a head. -/
theorem exists_cons_of_head {ts : List Token} {k : TokenKind} (h : head ts = k) (hk : k ≠ .eof) :
    ∃ t us, ts = t :: us ∧ t.kind = k := by
  cases ts with
  | nil => exact absurd h.symm hk
  | cons t us => exact ⟨t, us, rfl, h⟩

theorem expect_eq_ok {kind : TokenKind} {expected : Expectation} {ts us : List Token}
    (hkind : kind ≠ .eof) (h : expect kind expected ts = .ok us) :
    ∃ t, ts = t :: us ∧ t.kind = kind := by
  unfold expect at h
  split at h
  · next hhead =>
    obtain ⟨t, vs, rfl, ht⟩ := exists_cons_of_head hhead hkind
    cases h
    exact ⟨t, rfl, ht⟩
  · cases h

theorem prefixOp?_eq_some {k : TokenKind} {op : UnaryOp} (h : prefixOp? k = some op) :
    k = op.tokenKind := by
  unfold prefixOp? at h
  split at h <;> cases h <;> rfl

theorem grow_eq_ok {height grown : Nat} {ts : List Token} :
    grow height ts = .ok grown ↔ height < maxNesting ∧ height + 1 = grown := by
  unfold grow
  split <;> simp <;> omega

/-! ### Operands with what stands behind them -/

section Postfix

variable {expr : Parser}

theorem arguments_sound (hexpr : ∀ ts x, expr ts = .ok x → x.Sound ts) :
    ∀ {rounds : Nat} {ts us : List Token} {args : List Expr} {height : Nat},
      arguments expr rounds ts = .ok (args, height, us) →
        height = Expr.heightOfList args ∧ Expr.WellShapedList args ∧
          ∃ vs t, ts = vs ++ t :: us ∧ t.kind = .rightParen ∧ SpellsArguments vs args := by
  intro rounds
  induction rounds with
  | zero => intro ts us args height h; cases h
  | succ rounds ih =>
    intro ts us args height h
    rw [arguments, Except.bind_eq_ok] at h
    obtain ⟨x, hx, h⟩ := h
    have hs := hexpr ts x hx
    obtain ⟨vs, hts, hvs⟩ := hs.spells
    split at h
    · next hcomma =>
      obtain ⟨comma, rest, hrest, hcomma⟩ := exists_cons_of_head hcomma (by simp)
      rw [hrest, List.tail_cons] at h
      dsimp only at h
      split at h
      · next hclosing =>
        obtain ⟨closing, rest', rfl, hclosing⟩ := exists_cons_of_head hclosing (by simp)
        cases h
        refine ⟨by simp [Expr.heightOfList, hs.height_eq], ⟨hs.wellShaped, trivial⟩,
          vs ++ [comma], closing, ?_, hclosing, .lastComma hvs hcomma⟩
        simp [hts, hrest]
      · rw [Except.bind_eq_ok] at h
        obtain ⟨⟨args', height', us'⟩, hargs, h⟩ := h
        cases h
        obtain ⟨hheight, hshape, ws, closing, rfl, hclosing, hws⟩ := ih hargs
        refine ⟨by rw [Expr.heightOfList, hs.height_eq, hheight], ⟨hs.wellShaped, hshape⟩,
          vs ++ comma :: ws, closing, ?_, hclosing, .cons hvs hcomma hws⟩
        simp [hts, hrest]
    · rw [Except.bind_eq_ok] at h
      obtain ⟨us', hclosing, h⟩ := h
      cases h
      obtain ⟨closing, hrest, hclosing⟩ := expect_eq_ok (by simp) hclosing
      refine ⟨by simp [Expr.heightOfList, hs.height_eq], ⟨hs.wellShaped, trivial⟩,
        vs, closing, ?_, hclosing, .last hvs⟩
      rw [hts, hrest]

/-- A call with the arguments that were read is a spelling with its parentheses. -/
theorem argumentList_sound (hexpr : ∀ ts x, expr ts = .ok x → x.Sound ts) {ts us : List Token}
    {args : List Expr} {height : Nat} (h : argumentList expr ts = .ok (args, height, us)) :
    height = Expr.heightOfList args ∧ Expr.WellShapedList args ∧
      ∀ {vs callee opening}, Spells vs callee → opening.kind = .leftParen →
        ∃ ws, ts = ws ++ us ∧ Spells (vs ++ opening :: ws) (.call callee args) := by
  unfold argumentList at h
  split at h
  · next hclosing =>
    obtain ⟨closing, rest, rfl, hclosing⟩ := exists_cons_of_head hclosing (by simp)
    cases h
    exact ⟨rfl, trivial, fun hvs hopening => ⟨[closing], rfl, .callNone hvs hopening hclosing⟩⟩
  · obtain ⟨hheight, hshape, ws, closing, rfl, hclosing, hws⟩ := arguments_sound hexpr h
    refine ⟨hheight, hshape, fun hvs hopening => ⟨ws ++ [closing], by simp, ?_⟩⟩
    exact .call hvs hopening hws hclosing

theorem primary_sound (hexpr : ∀ ts x, expr ts = .ok x → x.Sound ts) {ts : List Token} {x : Parsed}
    (h : primary expr ts = .ok x) : x.Sound ts ∧ x.tree.IsPostfix := by
  rw [primary] at h
  cases hhead : head ts with
  | integer n =>
    rw [hhead] at h
    obtain ⟨t, us, rfl, ht⟩ := exists_cons_of_head hhead (by simp)
    cases h
    exact ⟨.leaf (.int ht) trivial rfl, trivial⟩
  | float n =>
    rw [hhead] at h
    obtain ⟨t, us, rfl, ht⟩ := exists_cons_of_head hhead (by simp)
    cases h
    exact ⟨.leaf (.float ht) trivial rfl, trivial⟩
  | string n =>
    rw [hhead] at h
    obtain ⟨t, us, rfl, ht⟩ := exists_cons_of_head hhead (by simp)
    cases h
    exact ⟨.leaf (.string ht) trivial rfl, trivial⟩
  | name n =>
    rw [hhead] at h
    obtain ⟨t, us, rfl, ht⟩ := exists_cons_of_head hhead (by simp)
    cases h
    exact ⟨.leaf (.name ht) trivial rfl, trivial⟩
  | leftParen =>
    rw [hhead] at h
    obtain ⟨opening, us, rfl, hopening⟩ := exists_cons_of_head hhead (by simp)
    simp only [Except.bind_eq_ok] at h
    obtain ⟨inner, hinner, us', hclosing, height, hgrow, h⟩ := h
    cases h
    obtain ⟨closing, hrest, hclosing⟩ := expect_eq_ok (by simp) hclosing
    obtain ⟨hlt, rfl⟩ := grow_eq_ok.mp hgrow
    have hs := hexpr _ _ hinner
    obtain ⟨vs, hus, hvs⟩ := hs.spells
    rw [List.tail_cons] at hus
    refine ⟨⟨⟨opening :: (vs ++ [closing]), ?_, .paren hopening hvs hclosing⟩, hs.wellShaped, ?_,
      hlt⟩, trivial⟩
    · simp [hus, hrest]
    · simp [Expr.height, hs.height_eq]
  | _ =>
    rw [hhead] at h
    cases h

theorem suffixes_sound (hexpr : ∀ ts x, expr ts = .ok x → x.Sound ts) {ts : List Token} :
    ∀ {rounds : Nat} {x y : Parsed}, x.Sound ts → x.tree.IsPostfix →
      suffixes expr rounds x = .ok y → y.Sound ts ∧ y.tree.IsPostfix := by
  intro rounds
  induction rounds with
  | zero => intro x y hx hpost h; cases h; exact ⟨hx, hpost⟩
  | succ rounds ih =>
    intro x y hx hpost h
    obtain ⟨us, hts, hus⟩ := hx.spells
    rw [suffixes] at h
    split at h
    case h_1 hdot =>
      obtain ⟨dot, rest, hrest, hdot⟩ := exists_cons_of_head hdot (by simp)
      rw [hrest, List.tail_cons] at h
      dsimp only at h
      split at h
      · next s hfield =>
        obtain ⟨field, rest', rfl, hfield⟩ := exists_cons_of_head hfield (by simp)
        rw [Except.bind_eq_ok] at h
        obtain ⟨height, hgrow, h⟩ := h
        obtain ⟨hlt, rfl⟩ := grow_eq_ok.mp hgrow
        refine ih ?_ ?_ h
        · refine ⟨⟨us ++ [dot, field], ?_, .select hus hdot hfield⟩, ⟨hx.wellShaped, hpost⟩, ?_, hlt⟩
          · simp [hts, hrest]
          · simp [Expr.height, hx.height_eq]
        · trivial
      · cases h
    case h_2 hopening =>
      obtain ⟨opening, rest, hrest, hopening⟩ := exists_cons_of_head hopening (by simp)
      rw [hrest, List.tail_cons] at h
      simp only [Except.bind_eq_ok] at h
      obtain ⟨key, hkey, us', hclosing, height, hgrow, h⟩ := h
      obtain ⟨closing, hrest', hclosing⟩ := expect_eq_ok (by simp) hclosing
      obtain ⟨hlt, rfl⟩ := grow_eq_ok.mp hgrow
      have hs := hexpr _ _ hkey
      obtain ⟨vs, hvs, hspell⟩ := hs.spells
      refine ih ?_ ?_ h
      · refine ⟨⟨us ++ opening :: (vs ++ [closing]), ?_, .index hus hopening hspell hclosing⟩,
          ⟨hx.wellShaped, hpost, hs.wellShaped⟩, ?_, hlt⟩
        · simp [hts, hrest, hvs, hrest']
        · simp [Expr.height, hx.height_eq, hs.height_eq]
      · trivial
    case h_3 hopening =>
      obtain ⟨opening, rest, hrest, hopening⟩ := exists_cons_of_head hopening (by simp)
      rw [hrest, List.tail_cons] at h
      simp only [Except.bind_eq_ok] at h
      obtain ⟨⟨args, argsHeight, us'⟩, hargs, height, hgrow, h⟩ := h
      obtain ⟨hlt, rfl⟩ := grow_eq_ok.mp hgrow
      obtain ⟨hheight, hshape, hcall⟩ := argumentList_sound hexpr hargs
      obtain ⟨ws, hws, hspell⟩ := hcall hus hopening
      refine ih ?_ ?_ h
      · refine ⟨⟨us ++ opening :: ws, ?_, hspell⟩, ⟨hx.wellShaped, hpost, hshape⟩, ?_, hlt⟩
        · simp [hts, hrest, hws]
        · simp [Expr.height, hx.height_eq, hheight]
      · trivial
    case h_4 => cases h; exact ⟨hx, hpost⟩

theorem postfixed_sound (hexpr : ∀ ts x, expr ts = .ok x → x.Sound ts) {ts : List Token}
    {x : Parsed} (h : postfixed expr ts = .ok x) : x.Sound ts ∧ x.tree.IsPostfix := by
  rw [postfixed, Except.bind_eq_ok] at h
  obtain ⟨y, hy, h⟩ := h
  obtain ⟨hs, hpost⟩ := primary_sound hexpr hy
  exact suffixes_sound hexpr hs hpost h

end Postfix

/-! ### Chains of binary operators -/

section Levels

/-- Climbing keeps a chain sound and stops only before an operator of a looser level. The rounds
suffice when there is one for each token. -/
theorem climb_sound {right : Precedence → Parser} {min : Precedence} {ts : List Token}
    (hright : ∀ {op : BinaryOp} {us : List Token} {x : Parsed}, min.rank ≤ op.precedence.rank →
      right op.precedence.tighter us = .ok x → x.SoundAt op.precedence.tighter us) :
    ∀ {rounds : Nat} {x y : Parsed}, x.Sound ts → min.rank ≤ x.tree.precedence.rank →
      (∀ op, head x.rest = .operator op → op.precedence.rank ≤ x.tree.precedence.rank) →
      x.rest.length ≤ rounds → climb right min rounds x = .ok y → y.SoundAt min ts := by
  intro rounds
  induction rounds with
  | zero =>
    intro x y hx hmin hhead hlen h
    cases h
    have hrest : x.rest = [] := List.eq_nil_of_length_eq_zero (Nat.le_zero.mp hlen)
    exact ⟨hx, hmin, by simp [hrest, head]⟩
  | succ rounds ih =>
    intro x y hx hmin hhead hlen h
    rw [climb] at h
    split at h
    · next op hop =>
      obtain ⟨t, rest, hrest, ht⟩ := exists_cons_of_head hop (by simp)
      rw [hrest, List.tail_cons] at h
      split at h
      · next hlt =>
        cases h
        refine ⟨hx, hmin, fun op' hop' => ?_⟩
        rw [hop] at hop'
        cases hop'
        exact hlt
      · next hle =>
        have hle : min.rank ≤ op.precedence.rank := Nat.not_lt.mp hle
        simp only [Except.bind_eq_ok] at h
        obtain ⟨r, hr, height, hgrow, h⟩ := h
        obtain ⟨hlt, rfl⟩ := grow_eq_ok.mp hgrow
        have hs := hright hle hr
        -- The tree that was read so far becomes the left operand of the next round.
        obtain ⟨us, hts, hus⟩ := hx.spells
        obtain ⟨vs, hvs, hspell⟩ := hs.spells
        have htighter := op.rank_tighter
        refine ih ?_ ?_ ?_ ?_ h
        · refine ⟨⟨us ++ t :: vs, ?_, .binary hus ht hspell⟩, ⟨hx.wellShaped, hs.wellShaped,
            hhead op hop, ?_⟩, ?_, hlt⟩
          · simp [hts, hrest, hvs]
          · have := hs.le_precedence
            omega
          · simp [Expr.height, hx.height_eq, hs.height_eq]
        · exact hle
        · intro op' hop'
          have := hs.rank_lt op' hop'
          change op'.precedence.rank ≤ op.precedence.rank
          omega
        · have := hs.length_rest_le
          rw [hrest, List.length_cons] at hlen
          dsimp only
          omega
    · next hop =>
      cases h
      exact ⟨hx, hmin, fun op hop' => absurd hop' (hop op)⟩

variable {opd : Parser}

/-- A chain over sound operands is sound; the levels suffice when every level above `min` has
one. -/
theorem binary_sound (hopd : ∀ ts x, opd ts = .ok x → x.Sound ts ∧ x.tree.precedence = .unary) :
    ∀ {levels : Nat} {min : Precedence} {ts : List Token} {x : Parsed},
      Precedence.unary.rank ≤ levels + min.rank → binary opd levels min ts = .ok x →
        x.SoundAt min ts := by
  intro levels
  induction levels with
  | zero =>
    intro min ts x hlevels h
    obtain ⟨hs, hprec⟩ := hopd ts x h
    refine ⟨hs, hprec ▸ min.rank_le_unary, fun op _ => ?_⟩
    have := op.rank_lt_unary
    omega
  | succ levels ih =>
    intro min ts x hlevels h
    rw [binary, Except.bind_eq_ok] at h
    obtain ⟨left, hleft, h⟩ := h
    obtain ⟨hs, hprec⟩ := hopd ts left hleft
    refine climb_sound (fun {op us x} hop hx => ih ?_ hx) hs (hprec ▸ min.rank_le_unary)
      (fun op _ => hprec ▸ op.precedence.rank_le_unary) (Nat.le_refl _) h
    have := op.rank_tighter
    omega

theorem expression_sound (hopd : ∀ ts x, opd ts = .ok x → x.Sound ts ∧ x.tree.precedence = .unary)
    {ts : List Token} {x : Parsed} (h : expression opd ts = .ok x) : x.SoundAt .or ts :=
  binary_sound hopd (by decide) h

end Levels

/-- An operand is sound in every room, and is no binary operator. -/
theorem operand_sound : ∀ (room : Nat) (ts : List Token) (x : Parsed),
    operand room ts = .ok x → x.Sound ts ∧ x.tree.precedence = .unary := by
  intro room
  induction room with
  | zero => intro ts x h; cases h
  | succ room ih =>
    intro ts x h
    rw [operand] at h
    split at h
    · next op hop =>
      have hne : head ts ≠ .eof := by
        intro heof
        simp [heof, prefixOp?] at hop
      obtain ⟨t, us, rfl, ht⟩ := exists_cons_of_head rfl hne
      simp only [Except.bind_eq_ok, List.tail_cons] at h
      obtain ⟨y, hy, height, hgrow, h⟩ := h
      cases h
      obtain ⟨hlt, rfl⟩ := grow_eq_ok.mp hgrow
      obtain ⟨hs, hprec⟩ := ih us y hy
      obtain ⟨vs, rfl, hvs⟩ := hs.spells
      refine ⟨⟨⟨t :: vs, rfl, .unary (prefixOp?_eq_some (ht ▸ hop)) hvs⟩, ⟨hs.wellShaped, hprec⟩, ?_,
        hlt⟩, rfl⟩
      simp [Expr.height, hs.height_eq]
    · obtain ⟨hs, hpost⟩ := postfixed_sound (fun us y hy => (expression_sound ih hy).toSound) h
      exact ⟨hs, hpost.precedence_eq⟩

end Parser

end DynamicEval
