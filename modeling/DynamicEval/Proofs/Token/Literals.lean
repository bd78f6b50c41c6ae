import DynamicEval.Proofs.Token.Quotes
import DynamicEval.Proofs.Token.Tiling

/-!
# Texts as literals

Every text can be written as a literal in quotes of either style: its characters stand there as they
are or as escapes, a backslash and the quote itself only as escapes. Such a literal is scanned as
one token for the text, and its rewriting into double quotes is such a literal too.

## Main definitions

* `Text.Written`: the ways to write a text between two quotes.
* `Text.protect`: the way that puts a backslash only where one is needed.

## Main results

* `Text.written_protect`: every text can be written.
* `Text.Written.requote`: the rewriting of a literal is a way to write the same text.
* `Text.Written.literal`, `Text.Written.scanFrom`: what is written is scanned.
-/

namespace DynamicEval

open Lexer (unescape?)

namespace Text

/-- The characters that have an escape in literals, each with what stands for it behind the
backslash. -/
def escapes : List (Char × Char) :=
  [('\\', '\\'), ('"', '"'), ('\'', '\''), ('\n', 'n'), ('\t', 't'), ('\r', 'r')]

/-- The ways to write a text between two quotes `q`: every character stands there as it is or as its
escape, a backslash and the quote `q` only as their escapes. -/
inductive Written (q : Char) : List Char → List Char → Prop where
  | nil : Written q [] []
  | bare {c : Char} {s body : List Char} (hslash : c ≠ '\\') (hc : c ≠ q) (h : Written q s body) :
      Written q (c :: s) (c :: body)
  | escaped {c d : Char} {s body : List Char} (hd : (c, d) ∈ escapes) (h : Written q s body) :
      Written q (c :: s) ('\\' :: d :: body)

/-- A text with a backslash before every backslash and every quote `q` in it. -/
def protect (q : Char) (s : List Char) : List Char :=
  s.flatMap fun c => if c = '\\' ∨ c = q then ['\\', c] else [c]

variable {q c d : Char} {s body : List Char}

theorem unescape?_of_mem_escapes (hd : (c, d) ∈ escapes) : unescape? d = some c := by
  have htable : ∀ p ∈ escapes, unescape? p.2 = some p.1 := by decide
  exact htable (c, d) hd

/-- Every text can be written in quotes of either style. -/
theorem written_protect (hq : isQuote q = true) (s : List Char) : Written q s (protect q s) := by
  have hquotes : ∀ c ∈ ['\\', '"', '\''], (c, c) ∈ escapes := by simp [escapes]
  induction s with
  | nil => exact .nil
  | cons c s ih =>
    rw [protect, List.flatMap_cons]
    split
    · next hc =>
      refine .escaped (hquotes c ?_) ih
      rcases hc with rfl | rfl
      · exact List.mem_cons_self
      · exact List.mem_cons_of_mem _ (by simpa using Lexer.eq_of_isQuote hq)
    · next hc =>
      obtain ⟨hslash, hc⟩ := not_or.mp hc
      exact .bare hslash hc ih

namespace Written

/-- What is written is read up to the closing quote. -/
theorem literal (hq : q ≠ '\\') (h : Written q s body) (r : List Char) :
    Lexer.literal q (body ++ q :: r) = .ok (s, body.length + 1) := by
  induction h with
  | nil => exact Lexer.literal_closing q r
  | bare hslash hc _ ih =>
    rw [List.cons_append, Lexer.literal_bare hc hslash, ih]
    rfl
  | escaped hd _ ih =>
    rw [List.cons_append, List.cons_append, Lexer.literal_escape hq, unescape?_of_mem_escapes hd,
      ih]
    rfl

/-- The rewriting of a literal into double quotes is a way to write the same text. -/
theorem requote (hq : q ≠ '\\') (h : Written q s body) (r : List Char) :
    ∃ body', Text.requote (some q) (body ++ q :: r) = body' ++ '"' :: Text.requote none r ∧
      Written '"' s body' := by
  induction h with
  | nil => exact ⟨[], requote_closing hq r, .nil⟩
  | @bare c _ _ hslash hc _ ih =>
    obtain ⟨body', heq, h'⟩ := ih
    rw [List.cons_append, requote_bare hslash hc, heq]
    by_cases hquote : c = '"'
    · subst hquote
      exact ⟨_, rfl, .escaped (by decide) h'⟩
    · rw [if_neg hquote]
      exact ⟨_, rfl, .bare hslash hquote h'⟩
  | @escaped c d _ _ hd _ ih =>
    obtain ⟨body', heq, h'⟩ := ih
    rw [List.cons_append, List.cons_append, requote_escape, heq]
    by_cases hquote : d = '\'' ∧ q = '\''
    · obtain ⟨rfl, rfl⟩ := hquote
      obtain rfl : '\'' = c := Option.some.inj (unescape?_of_mem_escapes hd)
      exact ⟨_, rfl, .bare (by decide) (by decide) h'⟩
    · rw [if_neg hquote]
      exact ⟨_, rfl, .escaped hd h'⟩

/-- The rewriting of a whole literal. -/
theorem normalizeQuotes (hq : isQuote q = true) (h : Written q s body) :
    ∃ body', Text.normalizeQuotes (q :: (body ++ [q])) = '"' :: (body' ++ ['"']) ∧
      Written '"' s body' := by
  obtain ⟨body', heq, h'⟩ := h.requote (ne_slash_of_isQuote hq) []
  refine ⟨body', ?_, h'⟩
  rw [Text.normalizeQuotes, Text.requote, if_pos hq, heq]
  rfl

/-- What is written between two quotes is scanned as one token. -/
theorem scanFrom (hq : isQuote q = true) (h : Written q s body) (p : Nat) :
    DynamicEval.scanFrom p (q :: (body ++ [q])) =
      .ok [⟨.string (String.ofList s), String.ofList (q :: (body ++ [q])), p⟩,
        ⟨.eof, "", p + (q :: (body ++ [q])).length⟩] := by
  have hx := lexeme_of_isQuote hq (body ++ [q])
  rw [h.literal (ne_slash_of_isQuote hq)] at hx
  have hlength : (body ++ [q]).length = body.length + 1 := List.length_append
  rw [scanFrom_cons hx, ← hlength, List.drop_length, List.take_length, DynamicEval.scanFrom,
    List.length_cons, Nat.add_assoc, Nat.add_comm 1]
  rfl

end Written

end Text

end DynamicEval
