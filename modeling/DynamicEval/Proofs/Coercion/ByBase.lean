import DynamicEval.Proofs.Number

/-!
# Coercion by the base

Unless pointers or slots are wanted, coercion reads a value by what stands behind its pointers and
slots, however many of them there are. Nothing is the one exception: it is looked for before the
pointers are followed, and gives the zero of the type there. Nothing that is found behind a pointer
is no more than a base for which there are few rules.

## Main definitions

* `Ty.looksBehind`: whether coercion into a type asks for the base of a value.
* `Ty.fromHiddenNil`: what coercion makes of nothing behind a pointer.

## Main results

* `Ty.coerceBase_toOption`: what coercion by the base gives, if it gives anything.
* `Ty.coerce_of_base_eq`: values with one base are coerced alike, and what becomes of nothing.
-/

namespace DynamicEval

/-- Whether coercion into a type asks for the base of a value: not where a pointer or a slot is
wanted, and not without a type. -/
def Ty.looksBehind : Ty → Bool
  | invalid | any | pointer _ => false
  | _ => true

/-- What coercion into a type makes of nothing that stands behind a pointer: it is not true, and it
has a text. Other types have no rule for it. -/
def Ty.fromHiddenNil : Ty → Option Value
  | bool => some (.bool false)
  | string => some (.string "<nil>")
  | _ => none

namespace Ty

variable {t : Ty} {h : Heap} {v w : Value}

theorem exists_coerce_eq_coerceBase (ht : t.looksBehind = true) :
    ∃ convert, ∀ v, t.coerce v = t.coerceBase v convert := by
  cases t <;> first | exact ⟨_, fun _ => rfl⟩ | cases ht

/-- Coercion by the base reads no more of a value than whether it is nothing out of its slot, and
what its base is. -/
theorem coerceBase_toOption (t : Ty) (v : Value) (convert : Value → Option (HeapM Value))
    (h : Heap) :
    ((t.coerceBase v convert).run h).toOption =
      if v.peel.isNil then some (t.zero, h)
      else if (v.base h).ty == t then some (v.base h, h)
      else (convert (v.base h)).bind fun m => (m.run h).toOption := by
  rw [coerceBase, StateT.run_bind]
  show ((ite _ _ _ : HeapM Value).run h).toOption = _
  rw [Value.base_peel]
  split
  · rfl
  dsimp only
  split
  · rfl
  · cases convert (v.base h) <;> rfl

theorem coerce_toOption_congr (ht : t.looksBehind = true) (hb : v.base h = w.base h)
    (hnil : v.peel.isNil = w.peel.isNil) :
    ((t.coerce v).run h).toOption = ((t.coerce w).run h).toOption := by
  obtain ⟨convert, hconvert⟩ := exists_coerce_eq_coerceBase ht
  rw [hconvert, hconvert, coerceBase_toOption, coerceBase_toOption, hb, hnil]

/-- Only nothing is nothing out of its slot. -/
theorem isNil_peel_of_base_ne (hb : v.base h ≠ .invalid) : v.peel.isNil = false := by
  refine Bool.eq_false_iff.mpr fun hnil => hb ?_
  rw [← Value.base_peel, Value.base_of_isNil hnil]

theorem coerce_toOption_of_base_invalid (ht : t.looksBehind = true) (hb : v.base h = .invalid) :
    ((t.coerce v).run h).toOption =
      if v.peel.isNil then some (t.zero, h) else t.fromHiddenNil.map (·, h) := by
  have htext : Value.invalid.text h = "<nil>" := Heap.follow_eq_of_step fun _ => rfl
  cases t with
  | invalid | any | pointer => cases ht
  | string =>
    rw [coerce, coerceBase_toOption, hb]
    show (if _ then _ else some (Value.string (Value.invalid.text h), h)) = _
    rw [htext]
    rfl
  | _ =>
    rw [coerce, coerceBase_toOption, hb]
    rfl

/-- Values with one base are coerced alike: both fail, or both give the same value and the same
cells. Where there is nothing at the base, they are so if none or both of them are nothing out of
their slots: the one gives the zero of the type, and nothing behind a pointer its own result. -/
theorem coerce_of_base_eq (ht : t.looksBehind = true) (hb : v.base h = w.base h) :
    ((v.base h ≠ .invalid ∨ v.peel.isNil = w.peel.isNil) →
      ((t.coerce v).run h).toOption = ((t.coerce w).run h).toOption) ∧
    (v.base h = .invalid → ((t.coerce v).run h).toOption =
      if v.peel.isNil then some (t.zero, h) else t.fromHiddenNil.map (·, h)) := by
  refine ⟨fun hsame => coerce_toOption_congr ht hb ?_, coerce_toOption_of_base_invalid ht⟩
  rcases hsame with hne | hnil
  · rw [isNil_peel_of_base_ne hne, isNil_peel_of_base_ne (hb ▸ hne)]
  · exact hnil

/-- A cell with a list, a cell with a slot that holds a pointer to it, and one with a pointer to
nothing. -/
def behindPointers : Heap :=
  ⟨#[.list .any [.slot (.string "7"), .slot (.float .double (.ofInt 8))],
    .slot (.pointer (.list .any) (some 0)), .pointer (.int .word) none]⟩

/-- A list is coerced as it is behind two pointers and two slots; nothing behind a pointer is a
text. -/
theorem coerce_of_base_eq_behindPointers :
    let v := Value.slot (.pointer .any (some 1))
    let n := Value.pointer (.pointer (.int .word)) (some 2)
    (((Ty.list (.int .word)).coerce v).run behindPointers).toOption =
        some (.list (.int .word) [.int .word 7, .int .word 8], behindPointers) ∧
      ((Ty.string.coerce n).run behindPointers).toOption =
        some (.string "<nil>", behindPointers) := by
  intro v n
  have hlist : (((Ty.list (.int .word)).coerce v).run behindPointers).toOption =
      (((Ty.list (.int .word)).coerce (behindPointers.get 0)).run behindPointers).toOption :=
    (coerce_of_base_eq rfl rfl).1 (.inl nofun)
  exact ⟨hlist.trans (by rfl), (coerce_of_base_eq (w := n) rfl rfl).2 rfl⟩

/-- A pointer to nothing and a pointer to it have one base, but only the first is coerced into the
zero of a number. -/
theorem not_forall_coerce_toOption_eq :
    ¬∀ (t : Ty) (h : Heap) (v w : Value), t.looksBehind = true → h.WellFormed → h.Acyclic →
      v.WellFormed h → w.WellFormed h → v.base h = w.base h →
      ((t.coerce v).run h).toOption = ((t.coerce w).run h).toOption := by
  intro hall
  let nothing := Value.pointer (.int .word) none
  let h : Heap := (Heap.empty.alloc nothing).1
  have hempty := Heap.empty_wellFormed
  have hnothing : nothing.WellFormed .empty := .nil _
  have hh := hempty.alloc hnothing
  have hacyclic : h.Acyclic := Heap.empty_acyclic.alloc hempty.bounded hnothing.bounded
  have hpointer : (Value.pointer (.pointer (.int .word)) (some 0)).WellFormed h :=
    .pointer Nat.one_pos rfl
  nomatch hall (.int .word) h nothing _ rfl hh.wellFormed hacyclic (.nil _) hpointer rfl

end Ty

end DynamicEval
