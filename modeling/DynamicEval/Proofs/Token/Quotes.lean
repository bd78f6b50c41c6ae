import DynamicEval.Proofs.Token.Lexeme

/-!
# Rewriting the quotes of a text

Rewriting the literals of a text into double quotes and cutting the text into tokens each decide for
themselves where a literal begins and ends. They agree: a literal and its rewriting have the same
contents, and end before the same rest. So a text and its rewriting have tokens of the same kinds,
or both have none, for the same fault.

## Main definitions

* `Lexer.SameLiteral`: a literal and its rewriting agree.
* `SameKinds`: two outcomes of scanning that differ only in places and spellings.
* `Text.FromQuote`: a text that is empty or begins with a quote.

## Main results

* `Lexer.literal_requote`: a literal and its rewriting.
* `scanFrom_requote`: the tokens of a text and of its rewriting.
-/

namespace DynamicEval

open Text (isQuote requote)

/-- Two outcomes of scanning agree but for places and spellings: both give tokens of the same kinds,
or both find the same fault. -/
inductive SameKinds : Except ParseError (List Token) → Except ParseError (List Token) → Prop
  | ok {ts us : List Token} (h : ts.map Token.kind = us.map Token.kind) :
      SameKinds (.ok ts) (.ok us)
  | error (p q : Nat) (fault : Fault) :
      SameKinds (.error (.malformed p fault)) (.error (.malformed q fault))

theorem SameKinds.symm {x y : Except ParseError (List Token)} (h : SameKinds x y) :
    SameKinds y x := by
  cases h with
  | ok h => exact .ok h.symm
  | error p q fault => exact .error q p fault

/-! ### Rewriting from the head -/

namespace Text

theorem ne_slash_of_isQuote {q : Char} (hq : isQuote q = true) : q ≠ '\\' := by
  rcases Lexer.eq_of_isQuote hq with rfl | rfl <;> decide

theorem requote_closing {q : Char} (hq : q ≠ '\\') (cs : List Char) :
    requote (some q) (q :: cs) = '"' :: requote none cs := by
  cases cs <;> simp [requote, hq]

theorem requote_escape (q d : Char) (ds : List Char) :
    requote (some q) ('\\' :: d :: ds) =
      (if d = '\'' ∧ q = '\'' then ['\''] else ['\\', d]) ++ requote (some q) ds := by
  by_cases hd : d = '\'' ∧ q = '\'' <;> simp [requote, hd]

/-- A character in a literal that is neither protected nor a quote of its own style. -/
theorem requote_bare {q c : Char} (hslash : c ≠ '\\') (hc : c ≠ q) (cs : List Char) :
    requote (some q) (c :: cs) =
      (if c = '"' then ['\\', '"'] else [c]) ++ requote (some q) cs := by
  have heq : requote (some q) (c :: cs) =
      if c = '"' then '\\' :: '"' :: requote (some q) cs else c :: requote (some q) cs := by
    cases cs <;> simp [requote, hslash, hc]
  rw [heq]
  split <;> rfl

end Text

/-! ### Literals -/

namespace Lexer

/-- The outcomes of reading a literal at the head of `cs` and its rewriting at the head of `ds`
agree: both give the same contents, and what is behind the literal in `ds` is the rewriting of what
is behind it in `cs`, or both find the same fault. -/
inductive SameLiteral (cs ds : List Char) :
    Except Fault (List Char × Nat) → Except Fault (List Char × Nat) → Prop
  | ok {n m : Nat} (text : List Char) (h : ds.drop m = requote none (cs.drop n)) :
      SameLiteral cs ds (.ok (text, n)) (.ok (text, m))
  | error (fault : Fault) : SameLiteral cs ds (.error fault) (.error fault)

/-- One more character of the contents, spelled `l` before one literal and `l'` before the other,
keeps them in agreement. -/
theorem SameLiteral.cons {cs ds : List Char} {x y : Except Fault (List Char × Nat)}
    (h : SameLiteral cs ds x y) (c : Char) (l l' : List Char) :
    SameLiteral (l ++ cs) (l' ++ ds) (x.map fun (text, n) => (c :: text, n + l.length))
      (y.map fun (text, n) => (c :: text, n + l'.length)) := by
  cases h with
  | @ok n m text h =>
    refine .ok (c :: text) ?_
    rw [Nat.add_comm, List.drop_length_add_append, h, Nat.add_comm, List.drop_length_add_append]
  | error fault => exact .error fault

/-- A literal and its rewriting have the same contents and the same rest behind them, or the same
fault. -/
theorem literal_requote {q : Char} (hq : isQuote q = true) (cs : List Char) :
    SameLiteral cs (requote (some q) cs) (literal q cs) (literal '"' (requote (some q) cs)) := by
  fun_induction literal q cs with
  | case1 => exact .error _
  | case2 c cs hc =>
    obtain rfl := eq_of_beq hc
    rw [Text.requote_closing (Text.ne_slash_of_isQuote hq)]
    have hdrop : ('"' :: requote none cs).drop 1 = requote none ((c :: cs).drop 1) := rfl
    rw [literal_closing]
    exact .ok [] hdrop
  | case3 c hc hslash =>
    obtain rfl := eq_of_beq hslash
    exact .error _
  | case4 c hc hslash d ds hd =>
    have hquote : ¬(d = '\'' ∧ q = '\'') := by rintro ⟨rfl, -⟩; cases hd
    obtain rfl := eq_of_beq hslash
    rw [Text.requote_escape, if_neg hquote, List.cons_append, List.singleton_append,
      literal_escape (by decide), hd]
    exact .error _
  | case5 c hc hslash d ds e he ih =>
    obtain rfl := eq_of_beq hslash
    rw [Text.requote_escape]
    split
    · -- A single quote that is protected in single quotes needs no backslash in double quotes.
      next hquote =>
      obtain ⟨rfl, rfl⟩ := hquote
      cases he
      rw [List.singleton_append, literal_bare (by decide) (by decide)]
      exact ih.cons '\'' ['\\', '\''] ['\'']
    · rw [List.cons_append, List.singleton_append, literal_escape (by decide), he]
      exact ih.cons e ['\\', d] ['\\', d]
  | case6 c cs hc hslash ih =>
    have hslash : c ≠ '\\' := by simpa using hslash
    rw [Text.requote_bare hslash (by simpa using hc)]
    split
    · -- A double quote in single quotes needs a backslash in double quotes.
      next hquote =>
      subst hquote
      exact ih.cons '"' ['"'] ['\\', '"']
    · next hquote =>
      rw [List.singleton_append, literal_bare hquote hslash]
      exact ih.cons c [c] [c]

end Lexer

/-! ### Texts -/

namespace Text

/-- A text that is empty or begins with a quote. -/
def FromQuote (r : List Char) : Prop := ∀ c, r.head? = some c → isQuote c = true

theorem FromQuote.stops {r : List Char} (hr : FromQuote r) : Lexer.Stops r := fun c hc =>
  Bool.or_eq_true_iff.mpr (.inl (hr c hc))

theorem FromQuote.requote {r : List Char} (hr : FromQuote r) : FromQuote (requote none r) := by
  cases r with
  | nil => exact fun _ hc => nomatch hc
  | cons q r =>
    intro c hc
    rw [Text.requote, if_pos (hr q rfl)] at hc
    cases hc
    rfl

/-- Nothing is rewritten before the first quote. -/
theorem requote_append {l r : List Char} (hl : ∀ c ∈ l, isQuote c = false) :
    requote none (l ++ r) = l ++ requote none r := by
  induction l with
  | nil => rfl
  | cons c l ih =>
    rw [List.cons_append, requote, if_neg (by simp [hl c]), ih fun d hd => hl d (.tail _ hd)]
    rfl

/-- A text is what stands before its first quote and a rest that begins with it. -/
theorem exists_eq_append_fromQuote (cs : List Char) :
    ∃ l r, cs = l ++ r ∧ (∀ c ∈ l, isQuote c = false) ∧ FromQuote r := by
  refine ⟨cs.takeWhile (!isQuote ·), cs.dropWhile (!isQuote ·),
    List.takeWhile_append_dropWhile.symm, fun c hc => ?_, fun c hc => ?_⟩
  · simpa using List.all_eq_true.mp List.all_takeWhile c hc
  · simpa [hc] using List.head?_dropWhile_not (!isQuote ·) cs

end Text

/-! ### Scanning -/

theorem scanFrom_sameKinds_of_error {c d : Char} {cs ds : List Char} {fault : Fault}
    (hc : lexeme c cs = .error fault) (hd : lexeme d ds = .error fault) (p q : Nat) :
    SameKinds (scanFrom p (c :: cs)) (scanFrom q (d :: ds)) := by
  simpa only [scanFrom, hc, hd] using .error p q fault

/-- Texts that begin with tokens of one kind have tokens of the same kinds if their rests do. -/
theorem scanFrom_sameKinds_of_ok {c d : Char} {cs ds : List Char} {x y : Lexeme}
    (hc : lexeme c cs = .ok x) (hd : lexeme d ds = .ok y) (hkind : x.kind = y.kind)
    (hrest : ∀ p q, SameKinds (scanFrom p (cs.drop x.extra)) (scanFrom q (ds.drop y.extra)))
    (p q : Nat) : SameKinds (scanFrom p (c :: cs)) (scanFrom q (d :: ds)) := by
  have hrest := hrest (p + 1 + x.extra) (q + 1 + y.extra)
  rw [scanFrom_cons hc, scanFrom_cons hd, hkind]
  generalize scanFrom _ (cs.drop x.extra) = outcome at hrest ⊢
  generalize scanFrom _ (ds.drop y.extra) = outcome' at hrest ⊢
  cases hrest with
  | ok h =>
    cases y.kind with
    | none => exact .ok h
    | some kind => exact .ok (by simpa using h)
  | error p q fault => exact .error p q fault

/-- A text and its rewriting have tokens of the same kinds, or none for the same fault. -/
theorem scanFrom_requote (cs : List Char) (p q : Nat) :
    SameKinds (scanFrom p (requote none cs)) (scanFrom q cs) := by
  match cs with
  | [] =>
    simp only [requote, scanFrom]
    exact .ok rfl
  | c :: cs =>
    rw [requote]
    split
    · next hc =>
      have hnew := lexeme_of_isQuote (q := '"') rfl (requote (some c) cs)
      have hold := lexeme_of_isQuote hc cs
      have hlit := Lexer.literal_requote hc cs
      generalize Lexer.literal c cs = outcome at hold hlit
      generalize Lexer.literal '"' (requote (some c) cs) = outcome' at hnew hlit
      cases hlit with
      | @ok n m text hdrop =>
        refine scanFrom_sameKinds_of_ok hnew hold rfl (fun p q => ?_) p q
        rw [hdrop]
        exact scanFrom_requote (cs.drop n) p q
      | error fault => exact scanFrom_sameKinds_of_error hnew hold p q
    · next hc =>
      obtain ⟨l, r, hcs, hl, hr⟩ := Text.exists_eq_append_fromQuote cs
      have hold := lexeme_append_stops (l := l) (by simpa using hc) hr.stops
      have hnew := lexeme_append_stops (l := l) (by simpa using hc) hr.requote.stops
      rw [← hcs] at hold
      rw [hcs, Text.requote_append hl, ← hcs]
      cases hx : lexeme c l with
      | error fault => exact scanFrom_sameKinds_of_error (hnew.trans hx) (hold.trans hx) p q
      | ok x =>
        have hle := lexeme_extra_le hx
        refine scanFrom_sameKinds_of_ok (hnew.trans hx) (hold.trans hx) rfl (fun p q => ?_) p q
        have hdrop : requote none (cs.drop x.extra) = (l ++ requote none r).drop x.extra := by
          rw [hcs, List.drop_append_of_le_length hle, List.drop_append_of_le_length hle,
            Text.requote_append fun d hd => hl d (List.mem_of_mem_drop hd)]
        rw [← hdrop]
        exact scanFrom_requote (cs.drop x.extra) p q
termination_by cs.length
decreasing_by all_goals simp only [List.length_drop, List.length_cons]; omega

end DynamicEval
