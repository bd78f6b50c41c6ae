import DynamicEval.Expr.Printer
import DynamicEval.Proofs.Expr.Quotes
import DynamicEval.Proofs.Token.Written

/-!
# Reading what was written

The text of a tree is cut into the tokens that the tree is written with, although no blanks stand
around points, brackets and the operators before an operand: what stands behind a name or an integer
never runs on into it. These tokens are a spelling of the tree, so a tree that was read is read
again from its text.

## Main definitions

* `Expr.kinds`: the kinds of the tokens that a tree is written with.
* `Expr.Legible`: a tree whose literals can be read from their texts.

## Main results

* `Expr.spells_kinds`: the tokens that a tree is written with are a spelling of it.
* `Expr.text_scans`: the text of a tree is cut into the tokens that it is written with.
* `Expr.read_text`: a tree that was read is read again from its text.
-/

namespace DynamicEval

mutual

/-- The kinds of the tokens that a tree is written with. -/
def Expr.kinds : Expr → List TokenKind
  | .int n => [.integer n]
  | .float x => [.float x]
  | .string s => [.string s]
  | .name s => [.name s]
  | .select object field => object.kinds ++ [.dot, .name field]
  | .index object key => object.kinds ++ .leftBracket :: (key.kinds ++ [.rightBracket])
  | .call callee args =>
    callee.kinds ++ .leftParen :: ([.comma].intercalate (Expr.kindsOfList args) ++ [.rightParen])
  | .unary op operand => op.tokenKind :: operand.kinds
  | .binary op left right => left.kinds ++ .operator op :: right.kinds
  | .paren inner => .leftParen :: (inner.kinds ++ [.rightParen])
termination_by structural e => e

/-- The kinds of the tokens that several trees are written with. -/
def Expr.kindsOfList : List Expr → List (List TokenKind)
  | [] => []
  | e :: es => e.kinds :: Expr.kindsOfList es
termination_by structural es => es

end

/-- A token that is read as itself from how a tree shows it. Floating-point literals are left out,
and so are negative integers, which are shown with the sign of an operator. -/
def TokenKind.IsLegible : TokenKind → Prop
  | .integer n => 0 ≤ n.toInt
  | .float _ => False
  | .string s => ∀ c ∈ s.toList, Text.IsPlain c
  | _ => True

/-- A tree whose literals can be read from their texts. -/
def Expr.Legible (e : Expr) : Prop := ∀ kind ∈ e.kinds, kind.IsLegible

/-! ### Spellings -/

/-- A token of a kind. -/
def TokenKind.token (kind : TokenKind) : Token := ⟨kind, "", 0⟩

theorem TokenKind.map_kind_token (kinds : List TokenKind) :
    (kinds.map token).map Token.kind = kinds := by
  rw [List.map_map]
  exact List.map_id kinds

mutual

/-- The tokens that a tree is written with are a spelling of it. -/
theorem Expr.spells_token (e : Expr) : Spells (e.kinds.map TokenKind.token) e := by
  match e with
  | .int n => exact .int rfl
  | .float x => exact .float rfl
  | .string s => exact .string rfl
  | .name s => exact .name rfl
  | .select object field =>
    rw [Expr.kinds, List.map_append]
    exact .select object.spells_token rfl rfl
  | .index object key =>
    rw [Expr.kinds, List.map_append, List.map_cons, List.map_append]
    exact .index object.spells_token rfl key.spells_token rfl
  | .call callee [] =>
    rw [Expr.kinds, List.map_append]
    exact .callNone callee.spells_token rfl rfl
  | .call callee (arg :: args) =>
    rw [Expr.kinds, List.map_append, List.map_cons, List.map_append]
    have hargs := Expr.spells_tokens (arg :: args) (List.cons_ne_nil _ _)
    exact .call callee.spells_token rfl hargs rfl
  | .unary op operand => exact .unary rfl operand.spells_token
  | .binary op left right =>
    rw [Expr.kinds, List.map_append]
    exact .binary left.spells_token rfl right.spells_token
  | .paren inner =>
    rw [Expr.kinds, List.map_cons, List.map_append]
    exact .paren rfl inner.spells_token rfl

theorem Expr.spells_tokens (args : List Expr) (hargs : args ≠ []) :
    SpellsArguments (([.comma].intercalate (Expr.kindsOfList args)).map TokenKind.token) args := by
  match args with
  | [] => exact absurd rfl hargs
  | [arg] =>
    rw [Expr.kindsOfList, Expr.kindsOfList, List.intercalate_singleton]
    exact .last arg.spells_token
  | arg :: arg' :: args =>
    rw [Expr.kindsOfList, Expr.kindsOfList, List.intercalate_cons_cons, List.append_assoc,
      List.singleton_append, List.map_append]
    exact .cons arg.spells_token rfl (Expr.spells_tokens (arg' :: args) (List.cons_ne_nil _ _))

end

theorem Expr.spells_kinds {e : Expr} {ts : List Token} (hts : ts.map Token.kind = e.kinds) :
    Spells ts e :=
  e.spells_token.congr (hts.trans (TokenKind.map_kind_token e.kinds).symm)

mutual

/-- A tree is written with no tokens that its spellings do not have. They may have commas more. -/
theorem Spells.kinds_sublist {ts : List Token} {e : Expr} (h : Spells ts e) :
    e.kinds.Sublist (ts.map Token.kind) := by
  cases h with
  | int ht | float ht | string ht | name ht =>
    rw [List.map_singleton, ht]
    exact .refl _
  | select hobject hdot hfield =>
    rw [Expr.kinds, List.map_append, List.map_cons, List.map_singleton, hdot, hfield]
    exact hobject.kinds_sublist.append_right _
  | index hobject hopening hkey hclosing =>
    rw [Expr.kinds, List.map_append, List.map_cons, List.map_append, List.map_singleton, hopening,
      hclosing]
    exact hobject.kinds_sublist.append (.cons_cons _ (hkey.kinds_sublist.append_right _))
  | callNone hcallee hopening hclosing =>
    rw [Expr.kinds, List.map_append, List.map_cons, List.map_singleton, hopening, hclosing]
    exact hcallee.kinds_sublist.append_right _
  | call hcallee hopening hargs hclosing =>
    rw [Expr.kinds, List.map_append, List.map_cons, List.map_append, List.map_singleton, hopening,
      hclosing]
    exact hcallee.kinds_sublist.append (.cons_cons _ (hargs.kinds_sublist.append_right _))
  | unary ht hoperand =>
    rw [Expr.kinds, List.map_cons, ht]
    exact .cons_cons _ hoperand.kinds_sublist
  | binary hleft ht hright =>
    rw [Expr.kinds, List.map_append, List.map_cons, ht]
    exact hleft.kinds_sublist.append (.cons_cons _ hright.kinds_sublist)
  | paren hopening hinner hclosing =>
    rw [Expr.kinds, List.map_cons, List.map_append, List.map_singleton, hopening, hclosing]
    exact .cons_cons _ (hinner.kinds_sublist.append_right _)

theorem SpellsArguments.kinds_sublist {ts : List Token} {args : List Expr}
    (h : SpellsArguments ts args) :
    ([.comma].intercalate (Expr.kindsOfList args)).Sublist (ts.map Token.kind) := by
  cases h with
  | last harg =>
    rw [Expr.kindsOfList, Expr.kindsOfList, List.intercalate_singleton]
    exact harg.kinds_sublist
  | lastComma harg hcomma =>
    rw [Expr.kindsOfList, Expr.kindsOfList, List.intercalate_singleton, List.map_append]
    exact harg.kinds_sublist.trans (List.sublist_append_left _ _)
  | @cons ts us arg args comma harg hcomma hargs =>
    have hrest := hargs.kinds_sublist
    cases args with
    | nil => cases hargs
    | cons arg' args =>
      rw [Expr.kindsOfList] at hrest ⊢
      rw [Expr.kindsOfList, List.intercalate_cons_cons, List.append_assoc, List.map_append,
        List.map_cons, hcomma]
      exact harg.kinds_sublist.append (.cons_cons _ hrest)

end

/-! ### Texts -/

/-- A token of a tree that was read from a text and has legible literals. -/
def TokenKind.IsWritten (kind : TokenKind) : Prop :=
  kind.IsLegible ∧ ∀ s, kind = .name s → Lexer.IsName s

open Lexer

/-- A text that does not begin with the sign of equality. -/
def Text.HeadNeEqual (s : String) : Prop := ∃ c cs, s.toList = c :: cs ∧ c ≠ '='

theorem Text.HeadNeEqual.append {s : String} (hs : HeadNeEqual s) (t : String) :
    HeadNeEqual (s ++ t) := by
  obtain ⟨c, cs, hcs, hc⟩ := hs
  exact ⟨c, cs ++ t.toList, by rw [String.toList_append, hcs, List.cons_append], hc⟩

/-- The text of a tree does not begin with the sign of equality. -/
theorem Expr.text_headNeEqual (e : Expr) (he : ∀ kind ∈ e.kinds, kind.IsWritten) :
    Text.HeadNeEqual e.text := by
  match e with
  | .int n =>
    obtain ⟨c, cs, hcs, hc, -⟩ := exists_digits (he (.integer n) List.mem_cons_self).1
    refine ⟨c, cs, hcs, ?_⟩
    rintro rfl
    cases hc
  | .float x => exact (he (.float x) List.mem_cons_self).1.elim
  | .string s => exact ⟨'"', _, String.toList_ofList, by decide⟩
  | .name s =>
    obtain ⟨c, cs, rfl, hc, -⟩ := (he (.name s) List.mem_cons_self).2 s rfl
    exact ⟨c, cs, String.toList_ofList, ne_of_startsName hc (by decide)⟩
  | .select object field =>
    have hobject := object.text_headNeEqual fun kind hkind => he kind (List.mem_append_left _ hkind)
    exact (hobject.append _).append _
  | .index object key =>
    have hobject := object.text_headNeEqual fun kind hkind => he kind (List.mem_append_left _ hkind)
    exact ((hobject.append _).append _).append _
  | .call callee args =>
    have hcallee := callee.text_headNeEqual fun kind hkind => he kind (List.mem_append_left _ hkind)
    exact ((hcallee.append _).append _).append _
  | .unary op operand =>
    have hop : Text.HeadNeEqual op.symbol := by
      cases op <;> exact ⟨_, [], rfl, by decide⟩
    exact hop.append _
  | .binary op left right =>
    have hleft := left.text_headNeEqual fun kind hkind => he kind (List.mem_append_left _ hkind)
    exact (((hleft.append _).append _).append _).append _
  | .paren inner =>
    have hparen : Text.HeadNeEqual "(" := ⟨'(', [], rfl, by decide⟩
    exact (hparen.append _).append _

/-- The sign of an operator before an operand that does not begin with the sign of equality. -/
theorem Scans.unary (op : UnaryOp) {s : String} (hs : Text.HeadNeEqual s) {r : List Char}
    {kinds : List TokenKind} (hkinds : Scans (s.toList ++ r) kinds) :
    Scans (op.symbol.toList ++ (s.toList ++ r)) (op.tokenKind :: kinds) := by
  cases op with
  | neg => exact token rfl hkinds
  | plus => exact token rfl hkinds
  | not =>
    obtain ⟨c, cs, hcs, hc⟩ := hs
    refine bang (fun heq => hc ?_) hkinds
    rw [hcs] at heq
    exact Option.some.inj heq

mutual

/-- The text of a tree, before a text that it does not run on into, is cut into the tokens that the
tree is written with. -/
theorem Expr.text_scans (e : Expr) (he : ∀ kind ∈ e.kinds, kind.IsWritten) {r : List Char}
    {kinds : List TokenKind} (hr : Breaks r) (hkinds : Scans r kinds) :
    Scans (e.text.toList ++ r) (e.kinds ++ kinds) := by
  have hbracket {c : Char} (hc : c ∈ ['[', ']', '(', ')']) (r : List Char) : Breaks (c :: r) :=
    .mark (List.mem_cons_of_mem _ (List.mem_cons_of_mem _ hc)) r
  match e with
  | .int n => exact .integer (he _ List.mem_cons_self).1 hr hkinds
  | .float x => exact (he (.float x) List.mem_cons_self).1.elim
  | .string s =>
    rw [Expr.text, String.toList_ofList]
    exact .string (he _ List.mem_cons_self).1 hkinds
  | .name s => exact .name ((he _ List.mem_cons_self).2 s rfl) hr hkinds
  | .select object field =>
    obtain ⟨hobject, hfield⟩ := List.forall_mem_append.mp he
    have hfield : IsName field := (hfield (.name field) (by simp)).2 field rfl
    simp only [Expr.text, Expr.kinds, String.toList_append, List.append_assoc]
    exact object.text_scans hobject (.of_isName hfield r) (.point hfield (.name hfield hr hkinds))
  | .index object key =>
    obtain ⟨hobject, hkey⟩ := List.forall_mem_append.mp he
    obtain ⟨hkey, -⟩ := List.forall_mem_append.mp (List.forall_mem_cons.mp hkey).2
    simp only [Expr.text, Expr.kinds, String.toList_append, List.append_assoc, List.cons_append,
      List.nil_append]
    have hclosing : Scans (']' :: r) (.rightBracket :: kinds) := .token rfl hkinds
    have hkey := key.text_scans hkey (hbracket (by decide) r) hclosing
    exact object.text_scans hobject (hbracket (by decide) _) (.token rfl hkey)
  | .call callee args =>
    obtain ⟨hcallee, hargs⟩ := List.forall_mem_append.mp he
    obtain ⟨hargs, -⟩ := List.forall_mem_append.mp (List.forall_mem_cons.mp hargs).2
    simp only [Expr.text, Expr.kinds, String.toList_append, List.append_assoc, List.cons_append,
      List.nil_append]
    have hclosing : Scans (')' :: r) (.rightParen :: kinds) := .token rfl hkinds
    have hargs := Expr.texts_scan args hargs (hbracket (by decide) r) hclosing
    exact callee.text_scans hcallee (hbracket (by decide) _) (.token rfl hargs)
  | .unary op operand =>
    obtain ⟨-, hoperand⟩ := List.forall_mem_cons.mp he
    simp only [Expr.text, Expr.kinds, String.toList_append, List.append_assoc]
    exact .unary op (operand.text_headNeEqual hoperand) (operand.text_scans hoperand hr hkinds)
  | .binary op left right =>
    obtain ⟨hleft, hright⟩ := List.forall_mem_append.mp he
    obtain ⟨-, hright⟩ := List.forall_mem_cons.mp hright
    simp only [Expr.text, Expr.kinds, String.toList_append, List.append_assoc]
    have hright := Scans.operator op (right.text_scans hright hr hkinds)
    exact left.text_scans hleft (.mark List.mem_cons_self _) hright.blank
  | .paren inner =>
    obtain ⟨hinner, -⟩ := List.forall_mem_append.mp (List.forall_mem_cons.mp he).2
    simp only [Expr.text, Expr.kinds, String.toList_append, List.append_assoc, List.cons_append,
      List.nil_append]
    have hclosing : Scans (')' :: r) (.rightParen :: kinds) := .token rfl hkinds
    exact .token rfl (inner.text_scans hinner (hbracket (by decide) r) hclosing)

/-- The texts of arguments with commas between them are cut into the tokens that they are written
with. -/
theorem Expr.texts_scan (args : List Expr)
    (hargs : ∀ kind ∈ [.comma].intercalate (Expr.kindsOfList args), kind.IsWritten) {r : List Char}
    {kinds : List TokenKind} (hr : Breaks r) (hkinds : Scans r kinds) :
    Scans ((", ".intercalate (Expr.texts args)).toList ++ r)
      ([.comma].intercalate (Expr.kindsOfList args) ++ kinds) := by
  match args with
  | [] => exact hkinds
  | [arg] =>
    rw [Expr.kindsOfList, Expr.kindsOfList, List.intercalate_singleton] at hargs ⊢
    rw [Expr.texts, Expr.texts, String.intercalate_singleton]
    exact arg.text_scans hargs hr hkinds
  | arg :: arg' :: args =>
    rw [Expr.kindsOfList, Expr.kindsOfList, List.intercalate_cons_cons, List.append_assoc] at hargs
    obtain ⟨harg, hargs⟩ := List.forall_mem_append.mp hargs
    have hrest := Expr.texts_scan (arg' :: args) (List.forall_mem_append.mp hargs).2 hr hkinds
    rw [Expr.texts, Expr.texts, Expr.kindsOfList, Expr.kindsOfList, String.intercalate_cons_cons,
      List.intercalate_cons_cons]
    simp only [String.toList_append, List.append_assoc]
    exact arg.text_scans harg (.mark (by decide) _) (.token rfl hrest.blank)

end

/-! ### Reading -/

/-- The tokens of a tree that was read from a text are written as they were read. -/
theorem Expr.Legible.isWritten {e : Expr} (he : e.Legible) {position : Nat} {cs : List Char}
    {ts : List Token} {eof : Token} (hts : scanFrom position cs = .ok (ts ++ [eof]))
    (hspells : Spells ts e) : ∀ kind ∈ e.kinds, kind.IsWritten := by
  intro kind hkind
  refine ⟨he kind hkind, fun s hs => ?_⟩
  obtain ⟨t, ht, rfl⟩ := List.mem_map.mp (hspells.kinds_sublist.subset hkind)
  exact scanFrom_names hts t (List.mem_append_left _ ht) s hs

/-- Tokens that a tree of allowed height is written with are read as that tree. -/
theorem Expr.read_of_scans {e : Expr} {cs : List Char} (hcs : Scans cs (e.kinds ++ [.eof]))
    (hw : e.WellShaped) (hheight : e.height ≤ maxNesting) : read (String.ofList cs) = .ok e := by
  obtain ⟨ts, hts, hkinds⟩ := hcs 0
  obtain ⟨us, vs, rfl, hus, hvs⟩ := List.map_eq_append_iff.mp hkinds
  obtain ⟨eof, rfl, heof⟩ := List.map_eq_singleton_iff.mp hvs
  rw [← String.toList_ofList (l := cs)] at hts
  refine Except.bind_eq_ok.mpr ⟨_, hts, ?_⟩
  rcases parse_orTooHigh eof heof (spells_kinds hus) hw with hok | ⟨hlt, -⟩
  · exact hok
  · exact absurd hheight (Nat.not_le.mpr hlt)

/-- **A tree that was read is read again from its text**, if its literals are legible there: no
floating-point literal, no negative integer, and in the quoted literals only characters that stand
there as they are or behind a backslash. -/
theorem Expr.read_text {text : String} {e : Expr} (hread : read text = .ok e) (he : e.Legible) :
    read e.text = .ok e := by
  obtain ⟨ts, hts, hparse⟩ := Except.bind_eq_ok.mp hread
  obtain ⟨ts, eof, rfl, heof, hne⟩ := scanFrom_eq_append_eof hts
  obtain ⟨hw, hheight, hspells⟩ := spells_of_parse hne heof hparse
  -- The text is cut into the tokens that the tree is written with, and one end behind them.
  obtain ⟨us, hus, hkinds⟩ := e.text_scans (he.isWritten hts hspells) .nil .nil 0
  rw [List.append_nil] at hus
  obtain ⟨us, eof', rfl, heof', -⟩ := scanFrom_eq_append_eof hus
  rw [List.map_append, List.map_singleton, heof'] at hkinds
  have hagain := spells_kinds (List.append_cancel_right hkinds)
  refine Except.bind_eq_ok.mpr ⟨_, hus, ?_⟩
  rcases parse_orTooHigh eof' heof' hagain hw with hok | ⟨hlt, -⟩
  · exact hok
  · exact absurd hheight (Nat.not_le.mpr hlt)

/-- Blanks, the style of quotes and a last comma are lost, and the tree is the same. -/
theorem Expr.read_text_call :
    let args : List Expr := [.select (.name "a") "b", .string "\"\n"]
    let e : Expr := .unary .not (.call (.name "f") args)
    read "! f(a . b, '\"\\n',)" = .ok e ∧ e.Legible ∧ read "!f(a.b, \"\\\"\\n\")" = .ok e := by
  intro args e
  have hscan : scan "! f(a . b, '\"\\n',)" = .ok [⟨.bang, "!", 0⟩, ⟨.name "f", "f", 2⟩,
      ⟨.leftParen, "(", 3⟩, ⟨.name "a", "a", 4⟩, ⟨.dot, ".", 6⟩, ⟨.name "b", "b", 8⟩,
      ⟨.comma, ",", 9⟩, ⟨.string "\"\n", "'\"\\n'", 11⟩, ⟨.comma, ",", 16⟩,
      ⟨.rightParen, ")", 17⟩, ⟨.eof, "", 18⟩] := by decide +kernel
  have hread : read "! f(a . b, '\"\\n',)" = .ok e := Except.bind_eq_ok.mpr ⟨_, hscan, rfl⟩
  have hstring : ∀ c ∈ "\"\n".toList, Text.IsPlain c := by
    refine List.forall_mem_cons.mpr ⟨.inl (by decide), List.forall_mem_singleton.mpr ?_⟩
    exact .inr (.inl rfl)
  have he : e.Legible := by
    have hkinds : e.kinds = [.bang, .name "f", .leftParen, .name "a", .dot, .name "b", .comma,
      .string "\"\n", .rightParen] := rfl
    rw [Legible, hkinds]
    simp only [List.forall_mem_cons, TokenKind.IsLegible, true_and]
    exact ⟨hstring, List.forall_mem_nil _⟩
  exact ⟨hread, he, read_text hread he⟩

end DynamicEval
