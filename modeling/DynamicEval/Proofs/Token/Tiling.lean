import DynamicEval.Proofs.Token.Lexeme

/-!
# Tokens tile the text

The tokens of a text are slices of it that follow one another, and only blanks stand between them.
If a text cannot be cut into tokens, its fault is at a place within it, and the text up to that
place can be.

## Main definitions

* `Token.Covers`: the places of a text that a token takes.
* `Tiling`: slices of a text that follow one another with only blanks between them.

## Main results

* `Tiling.blank`, `Tiling.token`: a blank or a token before a text keeps a tiling of it.
* `scanFrom_tiling`: the tokens of a text tile it.
* `scanFrom_take_of_error`: the text before a fault can be cut into tokens.
* `scan_tiles`: both for whole texts.
-/

namespace DynamicEval

open Lexer (isSpace)

/-- The place behind the last character of a token. -/
def Token.finish (t : Token) : Nat := t.position + t.lexeme.length

/-- The places of a text that a token takes. -/
def Token.Covers (t : Token) (i : Nat) : Prop := t.position ≤ i ∧ i < t.finish

/-- The tokens are slices of a text that starts at the place `start`; they follow one another
without an overlap, and what they leave of the text is blank. -/
structure Tiling (start : Nat) (cs : List Char) (ts : List Token) : Prop where
  /-- None of them stands for the end of the text. -/
  kind_ne : ∀ t ∈ ts, t.kind ≠ .eof
  lexeme_ne : ∀ t ∈ ts, t.lexeme ≠ ""
  start_le : ∀ t ∈ ts, start ≤ t.position
  slice : ∀ t ∈ ts, t.lexeme.toList = (cs.drop (t.position - start)).take t.lexeme.length
  apart : ts.Pairwise fun t u => t.position < u.position ∧ t.finish ≤ u.position
  gaps : ∀ i c, cs[i]? = some c → (∀ t ∈ ts, ¬t.Covers (start + i)) → isSpace c = true

variable {c : Char} {cs l r : List Char} {ts : List Token} {x : Lexeme} {p : Nat}

/-! ### One step -/

namespace Tiling

theorem nil (p : Nat) : Tiling p [] [] :=
  ⟨nofun, nofun, nofun, nofun, .nil, nofun⟩

/-- Slices of a text are slices of a text that it ends. -/
theorem slice_append (h : Tiling (p + l.length) r ts) {t : Token} (ht : t ∈ ts) :
    t.lexeme.toList = ((l ++ r).drop (t.position - p)).take t.lexeme.length := by
  have hle := h.start_le t ht
  have hplace : t.position - p = l.length + (t.position - (p + l.length)) := by omega
  rw [hplace, List.drop_length_add_append]
  exact h.slice t ht

/-- A blank before a text. -/
theorem blank (hc : isSpace c = true) (h : Tiling (p + 1) cs ts) : Tiling p (c :: cs) ts where
  kind_ne := h.kind_ne
  lexeme_ne := h.lexeme_ne
  start_le t ht := Nat.le_of_succ_le (h.start_le t ht)
  slice t ht := h.slice_append (l := [c]) ht
  apart := h.apart
  gaps i d hd hfree := by
    cases i with
    | zero => exact Option.some.inj hd ▸ hc
    | succ i =>
      refine h.gaps i d hd fun t ht => ?_
      rw [Nat.add_assoc, Nat.add_comm 1]
      exact hfree t ht

/-- A token before a text. -/
theorem token {kind : TokenKind} (hkind : kind ≠ .eof) (hl : l ≠ [])
    (h : Tiling (p + l.length) r ts) : Tiling p (l ++ r) (⟨kind, String.ofList l, p⟩ :: ts) where
  kind_ne := List.forall_mem_cons.mpr ⟨hkind, h.kind_ne⟩
  lexeme_ne := List.forall_mem_cons.mpr ⟨by simpa using hl, h.lexeme_ne⟩
  start_le := List.forall_mem_cons.mpr
    ⟨Nat.le_refl p, fun t ht => Nat.le_of_add_right_le (h.start_le t ht)⟩
  slice := List.forall_mem_cons.mpr ⟨by simp, fun t ht => h.slice_append ht⟩
  apart := by
    refine List.pairwise_cons.mpr ⟨fun u hu => ?_, h.apart⟩
    have hle := h.start_le u hu
    have hpos := List.length_pos_iff.mpr hl
    simp only [Token.finish, String.length_ofList]
    omega
  gaps i d hd hfree := by
    obtain ⟨hfirst, hfree⟩ := List.forall_mem_cons.mp hfree
    -- The places that the token leaves free are those of the text behind it.
    have hle : l.length ≤ i := by
      simp only [Token.Covers, Token.finish, String.length_ofList] at hfirst
      omega
    rw [List.getElem?_append_right hle] at hd
    refine h.gaps _ d hd fun t ht => ?_
    rw [Nat.add_assoc, Nat.add_sub_cancel' hle]
    exact hfree t ht

end Tiling

/-! ### Whole texts -/

/-- Only a blank stands for no token. -/
theorem isSpace_of_kind_eq_none (hx : lexeme c cs = .ok x) (hkind : x.kind = none) :
    isSpace c = true ∧ x.extra = 0 := by
  cases lexeme_rule hx with
  | blank hc => exact ⟨hc, rfl⟩
  | number _ hx =>
    rcases Lexer.number_kind hx with ⟨n, hn⟩ | ⟨y, hy⟩
    · cases hkind.symm.trans hn
    · cases hkind.symm.trans hy
  | literal | name | sign => cases hkind

/-- The tokens of a text tile it, with one end behind them. -/
theorem scanFrom_tiling (h : scanFrom p cs = .ok ts) :
    ∃ us, ts = us ++ [⟨.eof, "", p + cs.length⟩] ∧ Tiling p cs us := by
  fun_induction scanFrom p cs generalizing ts with
  | case1 p =>
    cases h
    exact ⟨[], rfl, .nil p⟩
  | case2 | case3 => cases h
  | case4 p c cs x hx tokens htokens hkind ih =>
    cases h
    obtain ⟨us, rfl, hus⟩ := ih htokens
    obtain ⟨hc, hextra⟩ := isSpace_of_kind_eq_none hx hkind
    rw [hextra, List.drop_zero] at hus
    refine ⟨us, ?_, hus.blank hc⟩
    rw [hextra, List.drop_zero, List.length_cons, Nat.add_zero, Nat.add_assoc, Nat.add_comm 1]
  | case5 p c cs x hx tokens htokens kind hkind ih =>
    cases h
    obtain ⟨us, rfl, hus⟩ := ih htokens
    have hle := lexeme_extra_le hx
    have hlength : p + (c :: cs.take x.extra).length = p + 1 + x.extra := by
      rw [List.length_cons, List.length_take_of_le hle, Nat.add_assoc, Nat.add_comm 1]
    have htile := Tiling.token (l := c :: cs.take x.extra)
      (fun heof => lexeme_kind_ne_eof hx (hkind.trans (congrArg some heof)))
      (List.cons_ne_nil _ _) (hlength ▸ hus)
    rw [List.cons_append, List.take_append_drop] at htile
    refine ⟨_, ?_, htile⟩
    rw [List.cons_append, List.length_drop, List.length_cons]
    congr 4
    omega

/-- Scanning gives tokens up to one end of the text. -/
theorem scanFrom_eq_append_eof (h : scanFrom p cs = .ok ts) :
    ∃ us eof, ts = us ++ [eof] ∧ eof.kind = .eof ∧ ∀ t ∈ us, t.kind ≠ .eof := by
  obtain ⟨us, rfl, hus⟩ := scanFrom_tiling h
  exact ⟨us, _, rfl, rfl, hus.kind_ne⟩

/-- A fault is at a place within the text, and what is before it can be cut into tokens. -/
theorem scanFrom_take_of_error {e : ParseError} (h : scanFrom p cs = .error e) :
    ∃ n fault, e = .malformed (p + n) fault ∧ n < cs.length ∧
      ∃ ts, scanFrom p (cs.take n) = .ok ts := by
  fun_induction scanFrom p cs with
  | case1 | case4 | case5 => cases h
  | case2 p c cs fault hx =>
    cases h
    exact ⟨0, fault, rfl, Nat.succ_pos _, _, by rw [List.take_zero, scanFrom]⟩
  | case3 p c cs x hx e' he ih =>
    cases h
    obtain ⟨n, fault, rfl, hn, ts, hts⟩ := ih he
    rw [List.length_drop] at hn
    refine ⟨x.extra + n + 1, fault, ?_, ?_, ?_⟩
    · congr 1
      omega
    · rw [List.length_cons]
      omega
    · -- The first token is the same when the text is cut off at a place behind it.
      have hdrop : (cs.take (x.extra + n)).drop x.extra = (cs.drop x.extra).take n := by
        rw [List.drop_take, Nat.add_sub_cancel_left]
      rw [List.take_succ_cons, scanFrom_cons (lexeme_take hx (Nat.le_add_right _ n)), hdrop, hts]
      exact ⟨_, rfl⟩

/-- **Tokens tile the text.** The tokens of a text are non-empty slices of it that follow one
another without an overlap, and all else in the text is blank; one end of the text stands behind
them, at the number of its characters. If a text cannot be cut into tokens, the fault is at a place
within it, and the text up to there can be. -/
theorem scan_tiles (text : String) :
    (∀ ts, scan text = .ok ts →
      ∃ us, ts = us ++ [⟨.eof, "", text.length⟩] ∧ Tiling 0 text.toList us) ∧
    ∀ e, scan text = .error e → ∃ n fault, e = .malformed n fault ∧ n < text.length ∧
      ∃ ts, scan (String.ofList (text.toList.take n)) = .ok ts := by
  constructor
  · intro ts h
    obtain ⟨us, rfl, hus⟩ := scanFrom_tiling h
    rw [Nat.zero_add, String.length_toList]
    exact ⟨us, rfl, hus⟩
  · intro e h
    obtain ⟨n, fault, rfl, hn, ts, hts⟩ := scanFrom_take_of_error h
    rw [Nat.zero_add]
    refine ⟨n, fault, rfl, String.length_toList ▸ hn, ts, ?_⟩
    show scanFrom 0 (String.ofList (text.toList.take n)).toList = .ok ts
    rwa [String.toList_ofList]

/-- Numbers and a sign, and a literal that is never closed. -/
theorem scan_tiles_half_open :
    (∃ us, scan "0x1F + .5" = .ok (us ++ [⟨.eof, "", 9⟩]) ∧ us.length = 3 ∧
      Tiling 0 "0x1F + .5".toList us) ∧
    scan "a + 'b" = .error (.malformed 4 .unterminated) ∧ ∃ ts, scan "a + " = .ok ts := by
  have hok : scan "0x1F + .5" = .ok ([⟨.integer 31, "0x1F", 0⟩, ⟨.operator .add, "+", 5⟩,
      ⟨.float (readFloat "0.5"), ".5", 7⟩] ++ [⟨.eof, "", 9⟩]) := by decide +kernel
  have herror : scan "a + 'b" = .error (.malformed 4 .unterminated) := by decide +kernel
  obtain ⟨us, hus, htile⟩ := (scan_tiles "0x1F + .5").1 _ hok
  obtain ⟨rfl, -⟩ := List.append_inj' hus rfl
  obtain ⟨n, fault, he, -, hts⟩ := (scan_tiles "a + 'b").2 _ herror
  cases he
  exact ⟨⟨_, hok, rfl, htile⟩, herror, hts⟩

end DynamicEval
