import DynamicEval.Ty
import Mathlib.Data.List.Forall2

/-!
# Equality and acceptance of types

Types are one when they agree up to the methods of record types, so equality of types is an
equivalence. A destination of a type holds values of that type, except that a destination without a
type holds anything and a destination for callables may hold nothing.

## Main definitions

* `Ty.core`: a type without the methods of its record types.
* `Ty.Accepts`: whether a destination of a type may hold values of another.

## Main results

* `Ty.same_iff`: types are equal when their cores are.
* `Ty.Accepts.congr`: acceptance does not tell equal types apart.
-/

namespace DynamicEval

/-! ### Equality -/

mutual

/-- A type without the methods of the record types in it. -/
def Ty.core : Ty → Ty
  | .list e => .list e.core
  | .array e n => .array e.core n
  | .map k v => .map k.core v.core
  | .record ⟨name, fields, _⟩ => .record ⟨name, Ty.coreFields fields, []⟩
  | .pointer e => .pointer e.core
  | t => t
termination_by structural t => t

/-- Fields with the cores of their types. -/
def Ty.coreFields : List Field → List Field
  | [] => []
  | ⟨name, ty, exported⟩ :: fs => ⟨name, ty.core, exported⟩ :: Ty.coreFields fs
termination_by structural fs => fs

end

mutual

/-- Types are equal when they agree but for the methods of record types. -/
theorem Ty.same_iff (t u : Ty) : t.same u = true ↔ t.core = u.core := by
  match t with
  | .list e => cases u <;> simp [Ty.same, Ty.core, Ty.same_iff e]
  | .pointer e => cases u <;> simp [Ty.same, Ty.core, Ty.same_iff e]
  | .array e n => cases u <;> simp [Ty.same, Ty.core, Ty.same_iff e, and_comm]
  | .map k v => cases u <;> simp [Ty.same, Ty.core, Ty.same_iff k, Ty.same_iff v]
  | .record ⟨name, fields, _⟩ =>
    cases u <;> simp [Ty.same, Ty.core, Ty.sameFields_iff fields]
  | .invalid | .bool | .string | .func | .any | .int _ | .uint _ | .float _ =>
    cases u <;> simp [Ty.same, Ty.core]

theorem Ty.sameFields_iff (fs gs : List Field) :
    Ty.sameFields fs gs = true ↔ Ty.coreFields fs = Ty.coreFields gs := by
  match fs, gs with
  | [], [] => simp [Ty.sameFields]
  | [], _ :: _ => simp [Ty.sameFields, Ty.coreFields]
  | _ :: _, [] => simp [Ty.sameFields, Ty.coreFields]
  | ⟨name, ty, exported⟩ :: fs, ⟨name', ty', exported'⟩ :: gs =>
    simp only [Ty.sameFields, Ty.coreFields, Bool.and_eq_true, decide_eq_true_eq, Ty.same_iff ty,
      Ty.sameFields_iff fs, List.cons.injEq, FieldOf.mk.injEq]
    rw [and_right_comm (a := name = name'), and_assoc (a := name = name')]

end

theorem Ty.beq_iff {t u : Ty} : (t == u) = true ↔ t.core = u.core := Ty.same_iff t u

instance : EquivBEq Ty where
  rfl := by simp [Ty.beq_iff]
  symm h := Ty.beq_iff.mpr (Ty.beq_iff.mp h).symm
  trans h h' := Ty.beq_iff.mpr ((Ty.beq_iff.mp h).trans (Ty.beq_iff.mp h'))

namespace Ty

variable {t t' u u' : Ty}

theorem eq_any_of_beq (h : (u == any) = true) : u = any := by
  cases u <;> simp_all [beq_iff, core]

theorem eq_invalid_of_beq (h : (u == invalid) = true) : u = invalid := by
  cases u <;> simp_all [beq_iff, core]

theorem eq_func_of_beq (h : (u == func) = true) : u = func := by
  cases u <;> simp_all [beq_iff, core]

theorem eq_string_of_beq (h : (u == string) = true) : u = string := by
  cases u <;> simp_all [beq_iff, core]

theorem map_beq : (map t u == map t' u') = (t == t' && u == u') := rfl

theorem fields_beq_of_coreFields_eq {fs gs : List Field} (h : coreFields fs = coreFields gs) :
    List.Forall₂ (fun f g => (FieldOf.ty f == FieldOf.ty g) = true) fs gs := by
  induction fs generalizing gs with
  | nil =>
    cases gs with
    | nil => exact .nil
    | cons g gs => cases h
  | cons f fs ih =>
    cases gs with
    | nil => cases h
    | cons g gs =>
      obtain ⟨hfield, hfields⟩ := List.cons.inj h
      exact .cons (beq_iff.mpr (congrArg FieldOf.ty hfield)) (ih hfields)

/-- Records of equal types have fields with equal cores. -/
theorem coreFields_eq_of_record_beq {r r' : RecordType} (h : (record r == record r') = true) :
    coreFields r.fields = coreFields r'.fields := by
  obtain ⟨name, fs, methods⟩ := r
  obtain ⟨name', gs, methods'⟩ := r'
  have hcore := beq_iff.mp h
  simp only [core, record.injEq, RecordOf.mk.injEq] at hcore
  exact hcore.2.1

/-- Records of equal types have fields of equal types. -/
theorem fields_beq_of_record_beq {r r' : RecordType} (h : (record r == record r') = true) :
    List.Forall₂ (fun f f' => (FieldOf.ty f == FieldOf.ty f') = true) r.fields r'.fields :=
  fields_beq_of_coreFields_eq (coreFields_eq_of_record_beq h)

/-! ### Acceptance -/

/-- Whether a destination of a type may hold values of the type `u`. -/
def Accepts : Ty → Ty → Prop
  | invalid, _ => True
  | any, u => u = any
  | func, u => u = func ∨ u = invalid
  | t, u => (u == t) = true

theorem Accepts.of_beq (h : (u == t) = true) : t.Accepts u := by
  cases t with
  | invalid => exact trivial
  | any => exact eq_any_of_beq h
  | func => exact .inl (eq_func_of_beq h)
  | _ => exact h

theorem accepts_self (t : Ty) : t.Accepts t := .of_beq BEq.rfl

/-- A destination with a type that holds something holds values of its own type only. -/
theorem Accepts.beq (hu : t.Accepts u) (ht : t ≠ .invalid) (hne : u ≠ .invalid) :
    (t == u) = true := by
  cases t with
  | invalid => exact absurd rfl ht
  | any => exact hu ▸ BEq.rfl
  | func => exact hu.resolve_right hne ▸ BEq.rfl
  | _ => exact BEq.symm hu

/-- Only a destination for slots, or one without a type, holds slots. -/
theorem Accepts.eq_any (ht : t.Accepts any) (hne : t ≠ invalid) : t = any := by
  cases t with
  | invalid => exact absurd rfl hne
  | any => rfl
  | func => rcases ht with hty | hty <;> cases hty
  | _ => cases ht

/-- A destination that may hold values of a type may hold those of an equal type. -/
theorem Accepts.congr_right (ht : t.Accepts u) (h : (u' == u) = true) : t.Accepts u' := by
  cases t with
  | invalid => exact trivial
  | any =>
    cases ht
    exact eq_any_of_beq h
  | func =>
    rcases ht with rfl | rfl
    · exact .inl (eq_func_of_beq h)
    · exact .inr (eq_invalid_of_beq h)
  | _ => exact BEq.trans h ht

/-- Destinations of equal types may hold the same values. -/
theorem Accepts.congr_left (ht : t.Accepts u) (h : (t == t') = true) : t'.Accepts u := by
  cases t with
  | invalid =>
    cases eq_invalid_of_beq (BEq.symm h)
    exact trivial
  | any =>
    cases eq_any_of_beq (BEq.symm h)
    exact ht
  | func =>
    cases eq_func_of_beq (BEq.symm h)
    exact ht
  | _ => exact .of_beq (BEq.trans ht h)

/-- A destination may hold what a value that it may hold may be assigned to. -/
theorem Accepts.trans (ht : t.Accepts u) (hu : u.Accepts u') (hne : u ≠ invalid) :
    t.Accepts u' := by
  cases u with
  | invalid => exact absurd rfl hne
  | func =>
    rcases hu with rfl | rfl
    · exact ht
    · cases t with
      | invalid => exact trivial
      | func => exact .inr rfl
      | _ => cases ht
  | any => exact ht.congr_right (hu ▸ BEq.rfl)
  | _ => exact ht.congr_right hu

end Ty

end DynamicEval
