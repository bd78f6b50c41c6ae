import DynamicEval.Proofs.Expr.Completeness
import DynamicEval.Proofs.Token.Quotes
import DynamicEval.Proofs.Token.Tiling

/-!
# Reading a text with its quotes rewritten

The tree that is read depends on the kinds of the tokens only, so a text and its rewriting into
double quotes are read as the same tree.

## Main results

* `Spells.congr`: whether tokens spell a tree depends on their kinds.
* `Expr.parse_eq_ok_of_kinds`: the parser gives the same tree for tokens of the same kinds.
* `Expr.read_normalizeQuotes`: rewriting the quotes of a text keeps its tokens and its tree.
-/

namespace DynamicEval

/-! ### Spellings -/

mutual

/-- Tokens of the kinds of a spelling are a spelling of the same tree. -/
theorem Spells.congr {ts us : List Token} {e : Expr} (h : Spells ts e)
    (hkinds : us.map Token.kind = ts.map Token.kind) : Spells us e := by
  -- What the tokens of the spelling are the others are in the same places.
  cases h with
  | int ht =>
    obtain ⟨u, us, rfl, hu, hus⟩ := List.map_eq_cons_iff.mp hkinds
    obtain rfl := List.map_eq_nil_iff.mp hus
    exact .int (hu.trans ht)
  | float ht =>
    obtain ⟨u, us, rfl, hu, hus⟩ := List.map_eq_cons_iff.mp hkinds
    obtain rfl := List.map_eq_nil_iff.mp hus
    exact .float (hu.trans ht)
  | string ht =>
    obtain ⟨u, us, rfl, hu, hus⟩ := List.map_eq_cons_iff.mp hkinds
    obtain rfl := List.map_eq_nil_iff.mp hus
    exact .string (hu.trans ht)
  | name ht =>
    obtain ⟨u, us, rfl, hu, hus⟩ := List.map_eq_cons_iff.mp hkinds
    obtain rfl := List.map_eq_nil_iff.mp hus
    exact .name (hu.trans ht)
  | select hobject hdot hfield =>
    simp only [List.map_append, List.map_cons, List.map_nil, List.map_eq_append_iff,
      List.map_eq_cons_iff, List.map_eq_nil_iff] at hkinds
    obtain ⟨us, vs, rfl, hus, dot', vs, rfl, hdot', field', vs, rfl, hfield', rfl⟩ := hkinds
    exact .select (hobject.congr hus) (hdot'.trans hdot) (hfield'.trans hfield)
  | index hobject hopening hkey hclosing =>
    simp only [List.map_append, List.map_cons, List.map_nil, List.map_eq_append_iff,
      List.map_eq_cons_iff, List.map_eq_nil_iff] at hkinds
    obtain ⟨us, vs, rfl, hus, opening', vs, rfl, hopening', vs, ws, rfl, hvs, closing', ws, rfl,
      hclosing', rfl⟩ := hkinds
    exact .index (hobject.congr hus) (hopening'.trans hopening) (hkey.congr hvs)
      (hclosing'.trans hclosing)
  | callNone hcallee hopening hclosing =>
    simp only [List.map_append, List.map_cons, List.map_nil, List.map_eq_append_iff,
      List.map_eq_cons_iff, List.map_eq_nil_iff] at hkinds
    obtain ⟨us, vs, rfl, hus, opening', vs, rfl, hopening', closing', vs, rfl, hclosing', rfl⟩ :=
      hkinds
    exact .callNone (hcallee.congr hus) (hopening'.trans hopening) (hclosing'.trans hclosing)
  | call hcallee hopening hargs hclosing =>
    simp only [List.map_append, List.map_cons, List.map_nil, List.map_eq_append_iff,
      List.map_eq_cons_iff, List.map_eq_nil_iff] at hkinds
    obtain ⟨us, vs, rfl, hus, opening', vs, rfl, hopening', vs, ws, rfl, hvs, closing', ws, rfl,
      hclosing', rfl⟩ := hkinds
    exact .call (hcallee.congr hus) (hopening'.trans hopening) (hargs.congr hvs)
      (hclosing'.trans hclosing)
  | unary ht hoperand =>
    obtain ⟨u, us, rfl, hu, hus⟩ := List.map_eq_cons_iff.mp hkinds
    exact .unary (hu.trans ht) (hoperand.congr hus)
  | binary hleft ht hright =>
    simp only [List.map_append, List.map_cons, List.map_eq_append_iff, List.map_eq_cons_iff]
      at hkinds
    obtain ⟨us, vs, rfl, hus, u, vs, rfl, hu, hvs⟩ := hkinds
    exact .binary (hleft.congr hus) (hu.trans ht) (hright.congr hvs)
  | paren hopening hinner hclosing =>
    simp only [List.map_append, List.map_cons, List.map_nil, List.map_eq_append_iff,
      List.map_eq_cons_iff, List.map_eq_nil_iff] at hkinds
    obtain ⟨opening', vs, rfl, hopening', vs, ws, rfl, hvs, closing', ws, rfl, hclosing', rfl⟩ :=
      hkinds
    exact .paren (hopening'.trans hopening) (hinner.congr hvs) (hclosing'.trans hclosing)

/-- Tokens of the kinds of spelled arguments are a spelling of the same arguments. -/
theorem SpellsArguments.congr {ts us : List Token} {args : List Expr} (h : SpellsArguments ts args)
    (hkinds : us.map Token.kind = ts.map Token.kind) : SpellsArguments us args := by
  cases h with
  | last harg => exact .last (harg.congr hkinds)
  | lastComma harg hcomma =>
    simp only [List.map_append, List.map_cons, List.map_nil, List.map_eq_append_iff,
      List.map_eq_cons_iff, List.map_eq_nil_iff] at hkinds
    obtain ⟨us, vs, rfl, hus, comma', vs, rfl, hcomma', rfl⟩ := hkinds
    exact .lastComma (harg.congr hus) (hcomma'.trans hcomma)
  | cons harg hcomma hargs =>
    simp only [List.map_append, List.map_cons, List.map_eq_append_iff, List.map_eq_cons_iff]
      at hkinds
    obtain ⟨us, vs, rfl, hus, comma', vs, rfl, hcomma', hvs⟩ := hkinds
    exact .cons (harg.congr hus) (hcomma'.trans hcomma) (hargs.congr hvs)

end

/-! ### Reading -/

namespace Expr

/-- The tree that the parser gives depends on the kinds of the tokens. -/
theorem parse_eq_ok_of_kinds {ts us : List Token} {eof eof' : Token} (heof : eof.kind = .eof)
    (hts : ∀ t ∈ ts, t.kind ≠ .eof)
    (hkinds : (us ++ [eof']).map Token.kind = (ts ++ [eof]).map Token.kind) {e : Expr}
    (h : parse (ts ++ [eof]) = .ok e) : parse (us ++ [eof']) = .ok e := by
  simp only [List.map_append, List.map_cons, List.map_nil] at hkinds
  obtain ⟨hus, heof'⟩ := List.append_inj' hkinds rfl
  obtain ⟨hw, hheight, hspells⟩ := spells_of_parse hts heof h
  have heof' : eof'.kind = .eof := by simpa [heof] using heof'
  rcases parse_orTooHigh eof' heof' (hspells.congr hus) hw with hok | ⟨hlt, -⟩
  · exact hok
  · exact absurd hheight (Nat.not_le.mpr hlt)

theorem read_eq_ok_of_sameKinds {s t : String} (h : SameKinds (scan t) (scan s)) {e : Expr}
    (hs : read s = .ok e) : read t = .ok e := by
  obtain ⟨ts, hts, hparse⟩ := Except.bind_eq_ok.mp hs
  obtain ⟨us, eof, rfl, heof, hus⟩ := scanFrom_eq_append_eof hts
  rw [hts] at h
  generalize ht : scan t = outcome at h
  cases h with
  | ok hkinds =>
    obtain ⟨vs, eof', rfl, -, -⟩ := scanFrom_eq_append_eof ht
    exact Except.bind_eq_ok.mpr ⟨_, ht, parse_eq_ok_of_kinds heof hus hkinds hparse⟩

/-- **Rewriting the quotes of a text keeps its tokens and its tree.** A text can be cut into tokens
if and only if its rewriting into double quotes can be, the tokens are of the same kinds, and both
are read as the same tree. -/
theorem read_normalizeQuotes (t : String) :
    ((∃ ts, scan (String.ofList (Text.normalizeQuotes t.toList)) = .ok ts) ↔ ∃ us, scan t = .ok us) ∧
    (∀ ts us, scan (String.ofList (Text.normalizeQuotes t.toList)) = .ok ts → scan t = .ok us →
      ts.map Token.kind = us.map Token.kind) ∧
    ∀ e, read (String.ofList (Text.normalizeQuotes t.toList)) = .ok e ↔ read t = .ok e := by
  have hscan : SameKinds (scan (String.ofList (Text.normalizeQuotes t.toList))) (scan t) := by
    rw [scan, scan, String.toList_ofList]
    exact scanFrom_requote t.toList 0 0
  refine ⟨?_, fun ts us hts hus => ?_, fun e =>
    ⟨read_eq_ok_of_sameKinds hscan.symm, read_eq_ok_of_sameKinds hscan⟩⟩
  · generalize scan (String.ofList _) = outcome at hscan
    generalize scan t = outcome' at hscan
    cases hscan with
    | ok => exact ⟨fun _ => ⟨_, rfl⟩, fun _ => ⟨_, rfl⟩⟩
    | error => exact ⟨nofun, nofun⟩
  · rw [hts, hus] at hscan
    cases hscan with
    | ok hkinds => exact hkinds

end Expr

end DynamicEval
