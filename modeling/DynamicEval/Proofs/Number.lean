import DynamicEval.Proofs.Path.Slot
import DynamicEval.Proofs.Run

/-!
# Values read as numbers

A value is read as a number by its base: zero for nothing, the number that the scalar at the base is
converted to, and a failure for everything else. Whether a value counts as a number is decided by
the declared type behind its pointers, so the two agree only where something stands at the base.

## Main definitions

* `Value.readAs`: what a value is read as, by a conversion of its base.
* `Value.holdsNumber`: whether a number stands at the base of a value.

## Main results

* `Value.toInt64_eq`, `Value.toUInt64_eq`, `Value.toFloat_eq`: the three readings by the base.
* `Value.exists_readings`: nothing and a number at the base are read in every way.
-/

namespace DynamicEval

/-- What a value is read as: zero for nothing, what its base is converted to otherwise, and the
failure to coerce it into a type where there is no such conversion. -/
def Value.readAs {α : Type} (t : Ty) (zero : α) (convert : Value → Option α) (v : Value)
    (h : Heap) : Except Error α :=
  if v.peel.isNil then .ok zero
  else
    match convert (v.base h) with
    | some n => .ok n
    | none => .error (.cannotAssign v.peel.typeName t.text)

namespace Value

variable {h : Heap} {v : Value}

/-- A slot has the base of its content. -/
@[simp]
theorem base_peel (v : Value) (h : Heap) : v.peel.base h = v.base h := by
  rw [base, base, Heap.follow, Heap.follow]
  cases v <;> cases h.size <;> rfl

/-- Coercion by a conversion of the base to a number, which has to leave the numbers of the type as
they are. -/
theorem run_coerceBase {α : Type} {t : Ty} {zero : α} {convert : Value → Option α}
    {wrap : α → Value} {unwrap : Value → α} (hzero : unwrap t.zero = zero)
    (hwrap : ∀ n, unwrap (wrap n) = n)
    (hself : ∀ b : Value, (b.ty == t) = true → convert b = some (unwrap b)) :
    ((t.coerceBase v fun b => (convert b).map fun n => return wrap n).run' h).map unwrap =
      v.readAs t zero convert h := by
  rw [readAs, StateT.run'_eq, Ty.coerceBase, StateT.run_bind]
  show Except.map unwrap (Except.map Prod.fst ((ite _ _ _ : HeapM Value).run h)) = _
  rw [base_peel]
  split
  · exact congrArg Except.ok hzero
  · split
    · next hty => rw [hself _ hty]; rfl
    · cases convert (v.base h) with
      | none => rfl
      | some n => exact congrArg Except.ok (hwrap n)

theorem toInt64_eq : v.toInt64 h = v.readAs (.int .bits64) 0 asInt64? h := by
  refine run_coerceBase rfl (fun _ => rfl) fun b hb => ?_
  cases b <;> first | rfl | cases hb

theorem toUInt64_eq : v.toUInt64 h = v.readAs (.uint .bits64) 0 asUInt64? h := by
  refine run_coerceBase rfl (fun _ => rfl) fun b hb => ?_
  cases b <;> first | rfl | cases hb

theorem toFloat_eq : v.toFloat h = v.readAs (.float .double) .zero asFloat? h := by
  refine run_coerceBase rfl (fun _ => rfl) fun b hb => ?_
  cases b <;> first | rfl | cases hb

/-- A text is read as an integer by its numeral. -/
theorem toInt64_string (s : String) (h : Heap) : (string s).toInt64 h = .ok (readInt s) := by
  rw [toInt64_eq, readAs, base, Heap.follow_eq_of_step fun _ => rfl]
  rfl

/-- A text is read as a floating-point number by its numeral. -/
theorem toFloat_string (s : String) (h : Heap) : (string s).toFloat h = .ok (readFloat s) := by
  rw [toFloat_eq, readAs, base, Heap.follow_eq_of_step fun _ => rfl]
  rfl

/-- An unsigned integer is reduced to 64 bits with a sign. -/
theorem asInt64?_uint (w : IntWidth) (n : UInt64) : (uint w n).asInt64? = some (.ofInt n.toNat) :=
  congrArg some (Int64.toBitVec_inj.mp (by simp))

/-! ### Numbers at the base -/

/-- Whether a number stands at the base of a value. -/
def holdsNumber (v : Value) (h : Heap) : Bool := (v.base h).ty.kind.isNumber

/-- The base of a value with a number there has the type that the value counts as. -/
theorem baseTy_of_holdsNumber (hv : v.holdsNumber h = true) : v.baseTy h = (v.base h).ty := by
  refine baseTy_eq fun heq => ?_
  rw [holdsNumber, heq] at hv
  cases hv

/-- A number stands at the base where a value counts as a number and something stands there. -/
theorem holdsNumber_iff : v.holdsNumber h = true ↔ v.isNumber h = true ∧ v.base h ≠ .invalid := by
  constructor
  · intro hv
    refine ⟨?_, fun heq => ?_⟩
    · rwa [isNumber, baseKind, baseTy_of_holdsNumber hv]
    · rw [holdsNumber, heq] at hv
      cases hv
  · rintro ⟨hv, hne⟩
    rwa [isNumber, baseKind, baseTy_eq hne] at hv

theorem isSome_conversions {b : Value} (hb : b.ty.kind.isNumber = true) :
    b.asInt64?.isSome = true ∧ b.asUInt64?.isSome = true ∧ b.asFloat?.isSome = true := by
  cases b <;> first | exact ⟨rfl, rfl, rfl⟩ | cases hb

theorem exists_readAs {α : Type} {t : Ty} {zero : α} {convert : Value → Option α}
    (hv : v.peel.isNil = true ∨ (convert (v.base h)).isSome = true) :
    ∃ n, v.readAs t zero convert h = .ok n := by
  rw [readAs]
  split
  · exact ⟨zero, rfl⟩
  · next hnil =>
    obtain ⟨n, hn⟩ := Option.isSome_iff_exists.mp (hv.resolve_left hnil)
    exact ⟨n, by rw [hn]⟩

/-- Nothing and a number at the base can be read as a number of each kind. -/
theorem exists_readings (hv : v.peel.isNil = true ∨ v.holdsNumber h = true) :
    (∃ n, v.toInt64 h = .ok n) ∧ (∃ n, v.toUInt64 h = .ok n) ∧ ∃ x, v.toFloat h = .ok x := by
  have hread := hv.imp_right isSome_conversions
  rw [toInt64_eq, toUInt64_eq, toFloat_eq]
  exact ⟨exists_readAs (hread.imp_right (·.1)), exists_readAs (hread.imp_right (·.2.1)),
    exists_readAs (hread.imp_right (·.2.2))⟩

end Value

end DynamicEval
