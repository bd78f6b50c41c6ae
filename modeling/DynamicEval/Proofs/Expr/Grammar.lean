import DynamicEval.Expr.Parser

/-!
# The grammar of expressions

A list of tokens *spells* a tree when it is what the tree reads from left to right, one token for
each literal, name, operator and bracket. Only the arguments of a call leave a choice: the last one
may have a comma behind it. A tree is *well shaped* when every subtree stands where no parentheses
are needed around it, so that its spelling can be read in one way only.

## Main definitions

* `Expr.precedence`, `Expr.IsPostfix`: how tightly the outermost node of a tree binds.
* `Expr.WellShaped`: the shape of the trees that are read.
* `Spells`, `SpellsArguments`: the spellings of a tree and of the arguments of a call.

## Main results

* `Spells.kind_ne_eof`: no spelling holds the end of the text.
* `Spells.head_ne_rightParen`, `Spells.prefixOp?_head`: what a spelling cannot begin with.
-/

open DynamicEval.Parser

namespace DynamicEval

/-! ### Well-shaped trees -/

/-- How tightly the outermost node of a tree binds. A tree that is no binary operator binds more
tightly than all of them. -/
def Expr.precedence : Expr → Precedence
  | .binary op _ _ => op.precedence
  | _ => .unary

/-- A tree whose outermost node is no operator, so that members, elements and calls may stand
behind it. -/
def Expr.IsPostfix : Expr → Prop
  | .binary _ _ _ | .unary _ _ => False
  | _ => True

mutual

/-- A tree in which every subtree binds tightly enough for its place: the left operand of a binary
operator at least as tightly as the operator and the right one more tightly, the operand of a prefix
operator more tightly than any binary operator, and what has a member, an element or arguments more
tightly than any operator. -/
def Expr.WellShaped : Expr → Prop
  | .int _ | .float _ | .string _ | .name _ => True
  | .select object _ => object.WellShaped ∧ object.IsPostfix
  | .index object key => object.WellShaped ∧ object.IsPostfix ∧ key.WellShaped
  | .call callee args => callee.WellShaped ∧ callee.IsPostfix ∧ Expr.WellShapedList args
  | .unary _ operand => operand.WellShaped ∧ operand.precedence = .unary
  | .binary op left right =>
    left.WellShaped ∧ right.WellShaped ∧ op.precedence.rank ≤ left.precedence.rank ∧
      op.precedence.rank < right.precedence.rank
  | .paren inner => inner.WellShaped
termination_by structural e => e

/-- Trees that are well shaped, each by itself. -/
def Expr.WellShapedList : List Expr → Prop
  | [] => True
  | e :: es => e.WellShaped ∧ Expr.WellShapedList es
termination_by structural es => es

end

/-! ### Spellings -/

/-- The kind of the token that stands for an operator before its operand. -/
def UnaryOp.tokenKind : UnaryOp → TokenKind
  | neg => .operator .sub
  | not => .bang
  | plus => .operator .add

mutual

/-- The tokens `ts` are a spelling of the tree `e`. -/
inductive Spells : List Token → Expr → Prop
  | int {t : Token} {n : Int64} (ht : t.kind = .integer n) : Spells [t] (.int n)
  | float {t : Token} {x : Binary64} (ht : t.kind = .float x) : Spells [t] (.float x)
  | string {t : Token} {s : String} (ht : t.kind = .string s) : Spells [t] (.string s)
  | name {t : Token} {s : String} (ht : t.kind = .name s) : Spells [t] (.name s)
  | select {ts : List Token} {object : Expr} {dot field : Token} {s : String}
      (hobject : Spells ts object) (hdot : dot.kind = .dot) (hfield : field.kind = .name s) :
      Spells (ts ++ [dot, field]) (.select object s)
  | index {ts us : List Token} {object key : Expr} {opening closing : Token}
      (hobject : Spells ts object) (hopening : opening.kind = .leftBracket) (hkey : Spells us key)
      (hclosing : closing.kind = .rightBracket) :
      Spells (ts ++ opening :: (us ++ [closing])) (.index object key)
  | callNone {ts : List Token} {callee : Expr} {opening closing : Token}
      (hcallee : Spells ts callee) (hopening : opening.kind = .leftParen)
      (hclosing : closing.kind = .rightParen) :
      Spells (ts ++ [opening, closing]) (.call callee [])
  | call {ts us : List Token} {callee : Expr} {args : List Expr} {opening closing : Token}
      (hcallee : Spells ts callee) (hopening : opening.kind = .leftParen)
      (hargs : SpellsArguments us args) (hclosing : closing.kind = .rightParen) :
      Spells (ts ++ opening :: (us ++ [closing])) (.call callee args)
  | unary {ts : List Token} {op : UnaryOp} {operand : Expr} {t : Token}
      (ht : t.kind = op.tokenKind) (hoperand : Spells ts operand) :
      Spells (t :: ts) (.unary op operand)
  | binary {ts us : List Token} {op : BinaryOp} {left right : Expr} {t : Token}
      (hleft : Spells ts left) (ht : t.kind = .operator op) (hright : Spells us right) :
      Spells (ts ++ t :: us) (.binary op left right)
  | paren {ts : List Token} {inner : Expr} {opening closing : Token}
      (hopening : opening.kind = .leftParen) (hinner : Spells ts inner)
      (hclosing : closing.kind = .rightParen) :
      Spells (opening :: (ts ++ [closing])) (.paren inner)

/-- The tokens `ts` are a spelling of arguments, of which there is at least one: commas stand between
them, and one may stand behind the last. -/
inductive SpellsArguments : List Token → List Expr → Prop
  | last {ts : List Token} {arg : Expr} (harg : Spells ts arg) : SpellsArguments ts [arg]
  | lastComma {ts : List Token} {arg : Expr} {comma : Token} (harg : Spells ts arg)
      (hcomma : comma.kind = .comma) : SpellsArguments (ts ++ [comma]) [arg]
  | cons {ts us : List Token} {arg : Expr} {args : List Expr} {comma : Token}
      (harg : Spells ts arg) (hcomma : comma.kind = .comma) (hargs : SpellsArguments us args) :
      SpellsArguments (ts ++ comma :: us) (arg :: args)

end

/-! ### Laws of shapes -/

theorem Precedence.rank_le_unary (p : Precedence) : p.rank ≤ Precedence.unary.rank := by
  cases p <;> decide

/-- No binary operator binds as tightly as an operator before its operand. -/
theorem BinaryOp.rank_lt_unary (op : BinaryOp) : op.precedence.rank < Precedence.unary.rank := by
  cases op <;> decide

theorem BinaryOp.precedence_ne_unary (op : BinaryOp) : op.precedence ≠ .unary := by
  cases op <;> decide

/-- The next level up from that of a binary operator is one rank above it. -/
theorem BinaryOp.rank_tighter (op : BinaryOp) :
    op.precedence.tighter.rank = op.precedence.rank + 1 := by
  cases op <;> rfl

theorem Expr.height_pos (e : Expr) : 0 < e.height := by
  cases e <;> simp [Expr.height]

/-- A tree that binds more tightly than all binary operators is none of them. -/
theorem Expr.precedence_eq_unary_of_le {e : Expr}
    (h : Precedence.unary.rank ≤ e.precedence.rank) : e.precedence = .unary := by
  cases e with
  | binary op l r => exact absurd h (Nat.not_le.mpr op.rank_lt_unary)
  | _ => rfl

/-- What may have a member binds more tightly than all binary operators. -/
theorem Expr.IsPostfix.precedence_eq {e : Expr} (h : e.IsPostfix) : e.precedence = .unary := by
  cases e with
  | binary => exact h.elim
  | _ => rfl

/-! ### Laws of spellings -/

mutual

/-- No token of a spelling is the end of the text. -/
theorem Spells.kind_ne_eof {ts : List Token} {e : Expr} (h : Spells ts e) :
    ∀ t ∈ ts, t.kind ≠ .eof := by
  cases h with
  | int ht | float ht | string ht | name ht => simp [ht]
  | select hobject hdot hfield =>
    have := hobject.kind_ne_eof
    simp_all [or_imp]
  | index hobject hopening hkey hclosing =>
    have := hobject.kind_ne_eof
    have := hkey.kind_ne_eof
    simp_all [or_imp]
  | callNone hcallee hopening hclosing =>
    have := hcallee.kind_ne_eof
    simp_all [or_imp]
  | call hcallee hopening hargs hclosing =>
    have := hcallee.kind_ne_eof
    have := hargs.kind_ne_eof
    simp_all [or_imp]
  | @unary _ op _ _ ht hoperand =>
    have := hoperand.kind_ne_eof
    cases op <;> simp_all [UnaryOp.tokenKind]
  | binary hleft ht hright =>
    have := hleft.kind_ne_eof
    have := hright.kind_ne_eof
    simp_all [or_imp]
  | paren hopening hinner hclosing =>
    have := hinner.kind_ne_eof
    simp_all [or_imp]

/-- No token among arguments is the end of the text. -/
theorem SpellsArguments.kind_ne_eof {ts : List Token} {args : List Expr}
    (h : SpellsArguments ts args) : ∀ t ∈ ts, t.kind ≠ .eof := by
  cases h with
  | last harg => exact harg.kind_ne_eof
  | lastComma harg hcomma =>
    have := harg.kind_ne_eof
    simp_all [or_imp]
  | cons harg hcomma hargs =>
    have := harg.kind_ne_eof
    have := hargs.kind_ne_eof
    simp_all [or_imp]

end

/-- The kind of the first token of a spelling, whatever follows. -/
theorem Spells.head_append {ts : List Token} {e : Expr} (h : Spells ts e) (us : List Token) :
    head (ts ++ us) = head ts := by
  cases h with
  | select hobject | index hobject | callNone hobject | call hobject | binary hobject =>
    simp only [List.append_assoc, hobject.head_append]
  | _ => rfl

theorem Spells.head_ne_eof {ts : List Token} {e : Expr} (h : Spells ts e) : head ts ≠ .eof := by
  have hne := h.kind_ne_eof
  have hhead := h.head_append [⟨.bang, "", 0⟩]
  cases ts with
  | nil => simp [head] at hhead
  | cons t ts => exact hne t List.mem_cons_self

/-- No spelling begins with a closing parenthesis. -/
theorem Spells.head_ne_rightParen {ts : List Token} {e : Expr} (h : Spells ts e) :
    head ts ≠ .rightParen := by
  cases h with
  | int ht | float ht | string ht | name ht => simp [head, ht]
  | select hobject | index hobject | callNone hobject | call hobject | binary hobject =>
    rw [hobject.head_append]
    exact hobject.head_ne_rightParen
  | @unary _ op _ _ ht => cases op <;> simp [head, ht, UnaryOp.tokenKind]
  | paren hopening => simp [head, hopening]

/-- No arguments begin with a closing parenthesis. -/
theorem SpellsArguments.head_append_ne_rightParen {ts : List Token} {args : List Expr}
    (h : SpellsArguments ts args) (us : List Token) : head (ts ++ us) ≠ .rightParen := by
  cases h with
  | last harg | lastComma harg | cons harg =>
    simp only [List.append_assoc, harg.head_append]
    exact harg.head_ne_rightParen

/-- The spelling of what may have a member begins with no operator. -/
theorem Spells.prefixOp?_head {ts : List Token} {e : Expr} (h : Spells ts e) (hw : e.WellShaped)
    (he : e.IsPostfix) : prefixOp? (head ts) = none := by
  cases h with
  | int ht | float ht | string ht | name ht => simp [head, ht, prefixOp?]
  | select hobject =>
    rw [hobject.head_append]
    exact hobject.prefixOp?_head hw.1 hw.2
  | index hobject | callNone hobject | call hobject =>
    rw [hobject.head_append]
    exact hobject.prefixOp?_head hw.1 hw.2.1
  | unary | binary => exact he.elim
  | paren hopening => simp [head, hopening, prefixOp?]

end DynamicEval
