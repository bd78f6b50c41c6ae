import DynamicEval.Key
import Mathlib.Data.List.Nodup

/-!
# Places

The places of a map are ordered linearly. So the entries of a map are listed in an order that does
not depend on the order in which the places were filled. What is found at a place is one of the
entries.

## Main results

* `BareKey.before_total`, `BareKey.before_trans`, `BareKey.before_antisymm`: the order is linear.
* `Entries.map_fst_sorted_eq`: entries with the same keys are listed with their keys in one order.
-/

namespace DynamicEval

namespace BareKey

variable {a b c : BareKey}

theorem formRank_le (hab : a.before b = true) : a.formRank ≤ b.formRank := by
  cases a <;> cases b <;> first | exact Nat.le_refl _ | exact of_decide_eq_true hab

theorem before_of_formRank_lt (hlt : a.formRank < b.formRank) : a.before b = true := by
  cases a <;> cases b <;>
    first | exact absurd hlt (Nat.lt_irrefl _) | exact decide_eq_true (Nat.le_of_lt hlt)

theorem before_total (a b : BareKey) : (a.before b || b.before a) = true := by
  rcases Nat.lt_trichotomy a.formRank b.formRank with hlt | heq | hgt
  · rw [before_of_formRank_lt hlt, Bool.true_or]
  · cases a <;> cases b <;> try (cases heq; done)
    case bool.bool a b => cases a <;> cases b <;> rfl
    case int.int a b => simpa [before] using Int64.le_total a b
    case uint.uint a b => simpa [before] using UInt64.le_total a b
    case float.float a b => simpa [before] using UInt64.le_total a b
    case string.string a b => simpa [before] using String.le_total a b
  · rw [before_of_formRank_lt hgt, Bool.or_true]

theorem before_antisymm (hab : a.before b = true) (hba : b.before a = true) : a = b := by
  have heq := Nat.le_antisymm (formRank_le hab) (formRank_le hba)
  cases a <;> cases b <;> try (cases heq; done)
  case bool.bool a b => cases a <;> cases b <;> simp_all [before]
  case int.int a b =>
    exact congrArg int (Int64.le_antisymm (of_decide_eq_true hab) (of_decide_eq_true hba))
  case uint.uint a b =>
    exact congrArg uint (UInt64.le_antisymm (of_decide_eq_true hab) (of_decide_eq_true hba))
  case float.float a b =>
    exact congrArg float (UInt64.le_antisymm (of_decide_eq_true hab) (of_decide_eq_true hba))
  case string.string a b =>
    exact congrArg string (String.le_antisymm (of_decide_eq_true hab) (of_decide_eq_true hba))

theorem before_trans (hab : a.before b = true) (hbc : b.before c = true) : a.before c = true := by
  have hle := formRank_le hab
  have hle' := formRank_le hbc
  rcases Nat.lt_or_eq_of_le (Nat.le_trans hle hle') with hlt | heq
  · exact before_of_formRank_lt hlt
  -- All three places are of one form.
  have hb : a.formRank = b.formRank := by omega
  cases a <;> cases b <;> try (cases hb; done)
  all_goals cases c <;> try (cases heq; done)
  case bool.bool.bool a b c => cases a <;> cases b <;> simp_all [before]
  case int.int.int a b c =>
    exact decide_eq_true (Int64.le_trans (of_decide_eq_true hab) (of_decide_eq_true hbc))
  case uint.uint.uint a b c =>
    exact decide_eq_true (UInt64.le_trans (of_decide_eq_true hab) (of_decide_eq_true hbc))
  case float.float.float a b c =>
    exact decide_eq_true (UInt64.le_trans (of_decide_eq_true hab) (of_decide_eq_true hbc))
  case string.string.string a b c =>
    exact decide_eq_true (String.le_trans (of_decide_eq_true hab) (of_decide_eq_true hbc))

end BareKey

namespace Entries

variable {α β : Type} {es : List (Key × α)} {fs : List (Key × β)}

/-- The keys of sorted entries are in the order of their places. -/
theorem pairwise_map_fst_sorted (es : List (Key × α)) :
    ((sorted es).map Prod.fst).Pairwise fun j k => j.bare.before k.bare = true :=
  List.pairwise_map.mpr <|
    List.pairwise_mergeSort (fun x _ _ => BareKey.before_trans (a := x.1.bare))
      (fun x y => BareKey.before_total x.1.bare y.1.bare) es

/-- Entries with the same keys, no two of them at one place, are listed with their keys in one
order. -/
theorem map_fst_sorted_eq (hkeys : (es.map Prod.fst).Perm (fs.map Prod.fst))
    (hnodup : (es.map fun entry => entry.1.bare).Nodup) :
    (sorted es).map Prod.fst = (sorted fs).map Prod.fst := by
  have hes : ((sorted es).map Prod.fst).Perm (es.map Prod.fst) := (List.mergeSort_perm es _).map _
  have hfs : ((sorted fs).map Prod.fst).Perm (fs.map Prod.fst) := (List.mergeSort_perm fs _).map _
  refine List.Perm.eq_of_pairwise (fun j k hj hk hjk hkj => ?_) (pairwise_map_fst_sorted es)
    (pairwise_map_fst_sorted fs) (hes.trans (hkeys.trans hfs.symm))
  -- Two keys at one place would stand in the list of all keys.
  have hnodup : ((es.map Prod.fst).map Key.bare).Nodup := by rwa [List.map_map]
  exact List.inj_on_of_nodup_map hnodup (hes.subset hj)
    (hkeys.symm.subset (hfs.subset hk)) (BareKey.before_antisymm hjk hkj)

/-! ### What is found at a place -/

theorem exists_getElem?_of_find? {place : BareKey} {a : α} (ha : find? place es = some a) :
    ∃ (i : Nat) (k : Key), es[i]? = some (k, a) ∧ k.bare = place := by
  induction es with
  | nil => cases ha
  | cons entry es ih =>
    rw [find?] at ha
    split at ha
    · next hplace =>
      cases ha
      exact ⟨0, entry.1, rfl, hplace⟩
    · obtain ⟨i, k, hi, hk⟩ := ih ha
      exact ⟨i + 1, k, hi, hk⟩

/-- If no place is filled twice, every entry is found. -/
theorem find?_of_mem (hnodup : (es.map fun entry => entry.1.bare).Nodup) {x : Key × α}
    (hx : x ∈ es) : find? x.1.bare es = some x.2 := by
  induction es with
  | nil => cases hx
  | cons y es ih =>
    obtain ⟨hy, hnodup⟩ := List.nodup_cons.mp hnodup
    rw [find?]
    rcases List.mem_cons.mp hx with rfl | hx
    · exact if_pos rfl
    · rw [if_neg fun heq => hy (List.mem_map.mpr ⟨x, hx, heq.symm⟩)]
      exact ih hnodup hx

end Entries

end DynamicEval
