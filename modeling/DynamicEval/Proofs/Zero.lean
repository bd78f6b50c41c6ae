import DynamicEval.Proofs.Equality
import DynamicEval.Proofs.WellFormed.Merge

/-!
# Zeros

That a value is zero is said twice: by a test, which reads the value alone, and by the value that a
destination of its type starts with. The two agree: among the values that a destination of a type
may hold, those that pass the test are those that are equal to its zero, at every depth of arrays
and records, and whether or not a field is exported.

A place without a type is the one exception. It may hold the zero of any type, while its own zero is
the absent value. So the two agree for a type just if no such place is in its values themselves,
that is, in a field of a record or an item of an array. Lists, maps, pointers and slots are zero
only when there is nothing in them, and it does not matter what they may hold.

## Main definitions

* `Ty.isDeclared`: whether the missing type occurs nowhere in a type.
* `Ty.HasOpenPlace`: whether values of a type have in them a place without a type.

## Main results

* `Value.Fits.eq_zero`: a value of a type without open places is equal to its zero just if it is
  zero.
* `Ty.isZero_iff_eq_zero_iff`: test and zero agree for just the types without open places.
* `Ty.zero_agrees`: test and zero agree for every type in which no type is missing.
-/

namespace DynamicEval

/-! ### The zero passes the test -/

theorem Ty.zeroFields_eq_map (fs : List Field) : zeroFields fs = fs.map fun f => f.ty.zero := by
  induction fs with
  | nil => rfl
  | cons f fs ih => rw [zeroFields, ih, List.map_cons]

theorem Value.allZero_iff {vs : List Value} : allZero vs = true ↔ ∀ v ∈ vs, v.isZero = true := by
  induction vs with
  | nil => exact ⟨fun _ => List.forall_mem_nil _, fun _ => rfl⟩
  | cons v vs ih => rw [allZero, Bool.and_eq_true, ih, List.forall_mem_cons]

mutual

theorem Ty.isZero_zero (t : Ty) : t.zero.isZero = true := by
  match t with
  | .record ⟨_, fields, _⟩ => exact Ty.allZero_zeroFields fields
  | .array e n =>
    refine Value.allZero_iff.mpr fun v hv => ?_
    rw [List.eq_of_mem_replicate hv]
    exact Ty.isZero_zero e
  | .float .single | .float .double => rfl
  | .invalid | .bool | .string | .func | .any | .int _ | .uint _ | .pointer _ | .list _
  | .map _ _ => rfl

theorem Ty.allZero_zeroFields (fs : List Field) :
    Value.allZero (Ty.zeroFields fs) = true := by
  match fs with
  | [] => rfl
  | ⟨_, ty, _⟩ :: fs =>
    exact Bool.and_eq_true_iff.mpr ⟨Ty.isZero_zero ty, Ty.allZero_zeroFields fs⟩

end

/-! ### Places without a type -/

mutual

/-- Whether the missing type occurs nowhere in a type. -/
def Ty.isDeclared : Ty → Bool
  | .invalid => false
  | .list e | .array e _ | .pointer e => e.isDeclared
  | .map k e => k.isDeclared && e.isDeclared
  | .record ⟨_, fields, _⟩ => Ty.areDeclared fields
  | .bool | .int _ | .uint _ | .float _ | .string | .func | .any => true
termination_by structural t => t

/-- Whether the missing type occurs nowhere in the types of fields. -/
def Ty.areDeclared : List Field → Bool
  | [] => true
  | ⟨_, ty, _⟩ :: fs => ty.isDeclared && Ty.areDeclared fs
termination_by structural fs => fs

end

/-- Values of the type have in them a place without a type. What is in a list, a map, a cell or a
slot does not count, as nothing is there in a zero. -/
inductive Ty.HasOpenPlace : Ty → Prop where
  | invalid : HasOpenPlace .invalid
  | array {e : Ty} {n : Nat} (hn : n ≠ 0) (he : HasOpenPlace e) : HasOpenPlace (.array e n)
  | record {r : RecordType} {f : Field} (hf : f ∈ r.fields) (hty : HasOpenPlace f.ty) :
    HasOpenPlace (.record r)

namespace Ty

variable {t : Ty}

theorem areDeclared_iff {fs : List Field} :
    areDeclared fs = true ↔ ∀ f ∈ fs, f.ty.isDeclared = true := by
  induction fs with
  | nil => exact ⟨fun _ => List.forall_mem_nil _, fun _ => rfl⟩
  | cons f fs ih => rw [areDeclared, Bool.and_eq_true_iff, ih, List.forall_mem_cons]

theorem HasOpenPlace.isDeclared_eq_false (ht : t.HasOpenPlace) : t.isDeclared = false := by
  induction ht with
  | invalid => rfl
  | array _ _ ih => exact ih
  | record hf _ ih =>
    refine Bool.eq_false_iff.mpr fun hr => ?_
    rw [areDeclared_iff.mp hr _ hf] at ih
    cases ih

end Ty

/-! ### The zero of a type and the zeros that fit it -/

theorem Binary64.numEq_zero (x : Binary64) : x.numEq zero = x.isZero := by
  have hzero : zero.isNaN = false ∧ zero.rank = 0 := by decide
  refine Bool.eq_iff_iff.mpr (numEq_iff.trans ⟨fun ⟨_, _, hrank⟩ => ?_, fun hx => ?_⟩)
  · rw [hzero.2, rank] at hrank
    rw [isZero, beq_iff_eq]
    split at hrank <;> omega
  · have hpattern := beq_iff_eq.mp hx
    refine ⟨?_, hzero.1, ?_⟩
    · rw [isNaN, hpattern]
      rfl
    · rw [hzero.2, rank, hpattern]
      split <;> rfl

namespace Value

variable {h : Heap} {deref : Addr → Value → Bool} {v : Value} {t : Ty} {vs zs : List Value}

theorem eqItemsStep_eq_allZero
    (hvs : List.Forall₂ (fun v z => v.eqStep h deref z = v.isZero) vs zs) :
    eqItemsStep h deref vs zs = allZero vs := by
  induction hvs with
  | nil => rfl
  | cons hv _ ih => rw [eqItemsStep, allZero, hv, ih]

theorem eqStep_array_zero {e e' : Ty} {items : List Value} (he : (e' == e) = true)
    (hitems : ∀ x ∈ items, x.eqStep h deref e'.zero = x.isZero) :
    (array e items).eqStep h deref (Ty.array e' items.length).zero = allZero items := by
  have hzeros : List.Forall₂ (fun x z => x.eqStep h deref z = x.isZero) items
      (List.replicate items.length e'.zero) := by
    rw [← List.map_const', List.forall₂_map_right_iff, List.forall₂_same]
    exact hitems
  rw [← eqItemsStep_eq_allZero hzeros]
  exact (congrArg (· && _) (BEq.symm he)).trans (Bool.true_and _)

theorem eqStep_record_zero {r r' : RecordType} {fields : List Value}
    (hr : (Ty.record r' == Ty.record r) = true)
    (hfields : List.Forall₂ (fun (x : Value) (f : Field) =>
      x.eqStep h deref f.ty.zero = x.isZero) fields r'.fields) :
    (record r fields).eqStep h deref (Ty.record r').zero = allZero fields := by
  have hzeros : List.Forall₂ (fun x z => x.eqStep h deref z = x.isZero) fields
      (Ty.zeroFields r'.fields) := by
    rw [Ty.zeroFields_eq_map, List.forall₂_map_right_iff]
    exact hfields
  rw [← eqItemsStep_eq_allZero hzeros]
  exact (congrArg (· && _) (BEq.symm hr)).trans (Bool.true_and _)

/-- Among the values that fit a type without open places, the zeros are those that are equal to the
zero of the type. -/
theorem Fits.eqStep_zero {v : Value} {t : Ty} (hv : v.Fits t h) (ht : ¬t.HasOpenPlace) :
    v.eqStep h deref t.zero = v.isZero := by
  have hdeclared : t ≠ .invalid := fun hinvalid => ht (hinvalid ▸ .invalid)
  by_cases hnothing : v.ty = .invalid
  · obtain rfl := eq_invalid_of_ty hnothing
    cases t with
    | func => rfl
    | invalid => exact absurd rfl hdeclared
    | _ => cases hv.accepts
  have hty : (t == v.ty) = true := hv.accepts.beq hdeclared hnothing
  -- Equal types are of one form, so the form of the value leaves one form of the type.
  cases v with
  | invalid => exact absurd rfl hnothing
  | bool b =>
    cases t with
    | bool => cases b <;> rfl
    | _ => cases hty
  | int w n =>
    cases t with
    | int w' =>
      obtain rfl := of_decide_eq_true hty
      simp [Ty.zero, eqStep, unslot, isZero, beq_eq_decide]
    | _ => cases hty
  | uint w n =>
    cases t with
    | uint w' =>
      obtain rfl := of_decide_eq_true hty
      simp [Ty.zero, eqStep, unslot, isZero, beq_eq_decide]
    | _ => cases hty
  | float w x =>
    cases t with
    | float w' =>
      obtain rfl := of_decide_eq_true hty
      simp [Ty.zero, eqStep, unslot, isZero, Binary64.numEq_zero]
    | _ => cases hty
  | string s =>
    cases t with
    | string =>
      rw [Bool.eq_iff_iff, isZero, String.isEmpty_iff]
      exact beq_iff_eq
    | _ => cases hty
  | list e items =>
    cases t with
    | list e' =>
      have he : (e == e') = true := BEq.symm hty
      cases items <;> simp [Ty.zero, eqStep, unslot, eqItemsStep, isZero, he]
    | _ => cases hty
  | array e items =>
    cases t with
    | array e' n =>
      obtain ⟨hn, he⟩ := Bool.and_eq_true_iff.mp hty
      obtain rfl := of_decide_eq_true hn
      refine eqStep_array_zero he fun x hx => ?_
      obtain ⟨i, hi⟩ := List.mem_iff_getElem?.mp hx
      have hlt : sizeOf x < sizeOf (array e items) := sizeOf_of_partAt? (k := i) hi
      have hfits := wellFormed_array.mp hv.wellFormed x hx
      -- Some item is there, so an open place in items is one in the array.
      exact Fits.eqStep_zero ⟨hfits.wellFormed, hfits.accepts.congr_left (BEq.symm he)⟩
        fun hopen => ht (.array (Nat.ne_of_gt (List.length_pos_of_mem hx)) hopen)
    | _ => cases hty
  | map k e entries =>
    cases t with
    | map k' e' =>
      obtain ⟨hk, he⟩ := Bool.and_eq_true_iff.mp (Ty.map_beq ▸ hty)
      have hk : (k == k') = true := BEq.symm hk
      have he : (e == e') = true := BEq.symm he
      cases entries <;> simp [Ty.zero, eqStep, unslot, eqEntriesStep, isZero, hk, he]
    | _ => cases hty
  | record r fields =>
    cases t with
    | record r' =>
      have hfits := forall₂_fits_congr (Ty.fields_beq_of_record_beq hty)
        (wellFormed_record.mp hv.wellFormed)
      refine eqStep_record_zero hty (List.forall₂_iff_zip.mpr ⟨hfits.length_eq.symm, ?_⟩)
      intro x f hz
      obtain ⟨hx, hf⟩ := List.of_mem_zip hz
      obtain ⟨i, hi⟩ := List.mem_iff_getElem?.mp hx
      have hlt : sizeOf x < sizeOf (record r fields) := sizeOf_of_partAt? (k := i) hi
      exact Fits.eqStep_zero (List.forall₂_zip hfits.flip hz) fun hopen => ht (.record hf hopen)
    | _ => cases hty
  | func f =>
    cases t with
    | func => rfl
    | _ => cases hty
  | pointer e cell =>
    cases t with
    | pointer e' =>
      cases cell with
      | none => exact BEq.symm hty
      | some a => rfl
    | _ => cases hty
  | emptySlot =>
    obtain rfl := hv.accepts.eq_any hdeclared
    rfl
  | slot u =>
    obtain rfl := hv.accepts.eq_any hdeclared
    obtain ⟨filled, single, -⟩ := wellFormed_slot.mp hv.wellFormed
    cases u <;> first | rfl | exact absurd rfl filled | exact absurd rfl single
termination_by sizeOf v

theorem eq_of_eqStep {w : Value} {b : Bool} (hstep : ∀ deref, v.eqStep h deref w = b) :
    v.eq w h = b := by
  rw [eq, Heap.follow]
  cases h.size <;> exact hstep _

/-- A value that fits a type without open places is equal to the zero of the type just if it is
zero. -/
theorem Fits.eq_zero (hv : v.Fits t h) (ht : ¬t.HasOpenPlace) : v.eq t.zero h = v.isZero :=
  eq_of_eqStep fun _ => hv.eqStep_zero ht

end Value

namespace Ty

variable {t : Ty}

/-- An open place may hold a zero that is not the absent value. Then the whole is zero, but not
equal to the zero of its type. -/
theorem HasOpenPlace.exists_isZero (ht : t.HasOpenPlace) (h : Heap) :
    ∃ v : Value, v.Fits t h ∧ v.isZero = true ∧ ∀ deref, v.eqStep h deref t.zero = false := by
  induction ht with
  | invalid => exact ⟨.bool false, ⟨.bool false, trivial⟩, rfl, fun _ => rfl⟩
  | @array e n hn _ ih =>
    obtain ⟨v, hv, hzero, hne⟩ := ih
    refine ⟨.array e (List.replicate n v), ⟨Value.wellFormed_array.mpr fun w hw => ?_, ?_⟩,
      Value.allZero_iff.mpr fun w hw => ?_, fun deref => ?_⟩
    · exact List.eq_of_mem_replicate hw ▸ hv
    · rw [Value.ty, List.length_replicate]
      exact accepts_self _
    · exact List.eq_of_mem_replicate hw ▸ hzero
    · obtain ⟨n, rfl⟩ := Nat.exists_eq_succ_of_ne_zero hn
      simp [zero, Value.eqStep, Value.unslot, List.replicate_succ, Value.eqItemsStep, hne deref]
  | @record r f hf _ ih =>
    obtain ⟨v, hv, hzero, hne⟩ := ih
    obtain ⟨i, hi⟩ := List.mem_iff_getElem?.mp hf
    have hz : (zeroFields r.fields)[i]? = some f.ty.zero := by
      rw [zeroFields_eq_map, List.getElem?_map, hi, Option.map_some]
    refine ⟨.record r ((zeroFields r.fields).set i v),
      ⟨Value.wellFormed_record.mpr (forall₂_set (zeroFields_fit h r.fields) hi hv), accepts_self _⟩,
      Value.allZero_iff.mpr fun w hw => ?_, fun deref => Bool.eq_false_iff.mpr fun heq => ?_⟩
    · rcases List.mem_or_eq_of_mem_set hw with hw | rfl
      · exact Value.allZero_iff.mp (allZero_zeroFields r.fields) w hw
      · exact hzero
    · have hfields := Value.eqItemsStep_iff.mp (Bool.and_eq_true_iff.mp heq).2
      have hlt : i < (zeroFields r.fields).length := (List.getElem?_eq_some_iff.mp hz).1
      have hvz := forall₂_getElem? hfields (List.getElem?_set_self hlt) hz
      exact Bool.false_ne_true ((hne deref).symm.trans hvz)

/-- **The zero test and the zero of a type agree** on all values that fit the type just if there is
no open place in them. -/
theorem isZero_iff_eq_zero_iff (h : Heap) (t : Ty) :
    (∀ v : Value, v.Fits t h → (v.isZero = true ↔ v.eq t.zero h = true)) ↔ ¬t.HasOpenPlace := by
  constructor
  · intro hagree ht
    obtain ⟨v, hv, hzero, hne⟩ := ht.exists_isZero h
    exact Bool.false_ne_true ((Value.eq_of_eqStep hne).symm.trans ((hagree v hv).mp hzero))
  · intro ht v hv
    rw [hv.eq_zero ht]

/-- **The zero test and the zero of a type agree.** The zero of a type is zero and fits the type.
Where no type is missing, a value that fits the type is zero just if it is equal to that zero. -/
theorem zero_agrees (h : Heap) (t : Ty) :
    t.zero.isZero = true ∧ t.zero.Fits t h ∧
      (t.isDeclared = true → ∀ v : Value, v.Fits t h →
        (v.isZero = true ↔ v.eq t.zero h = true)) := by
  refine ⟨isZero_zero t, zero_fits h t, fun ht => (isZero_iff_eq_zero_iff h t).mpr fun hopen => ?_⟩
  rw [hopen.isDeclared_eq_false] at ht
  cases ht

/-- Two accounts with negative zeros, no tags and nothing else are zero and equal to the zero of
their type. If the one has a pointer in a field that is not exported, they are neither, though the
cell behind it holds a zero. -/
theorem zero_agrees_accounts :
    let r : RecordType := ⟨"Account", [⟨"Rates", .array (.float .double) 2, true⟩,
      ⟨"Tags", .map .string (.list .string), true⟩, ⟨"Note", .any, true⟩,
      ⟨"owner", .pointer (.int .word), false⟩, ⟨"audit", .func, false⟩], []⟩
    let account (owner : Option Addr) := Value.record r
      [.array (.float .double) [.float .double Binary64.zero.neg, .float .double .zero],
        .map .string (.list .string) [], .emptySlot, .pointer (.int .word) owner, .invalid]
    let t := Ty.array (.record r) 2
    let accounts (owner : Option Addr) := Value.array (.record r) [account none, account owner]
    let h : Heap := ⟨#[.int .word 0]⟩
    t.isDeclared = true ∧ (∀ owner, owner = none ∨ owner = some 0 → (accounts owner).Fits t h) ∧
      (accounts none).isZero = true ∧ (accounts none).eq t.zero h = true ∧
      (accounts (some 0)).isZero = false ∧ ¬(accounts (some 0)).eq t.zero h = true := by
  intro r account t accounts h
  have hrates : ∀ v ∈ [Value.float .double Binary64.zero.neg, .float .double .zero],
      v.Fits (.float .double) h :=
    List.forall_mem_cons.mpr ⟨⟨.float trivial, accepts_self _⟩,
      List.forall_mem_singleton.mpr ⟨.float trivial, accepts_self _⟩⟩
  have haccount (owner : Option Addr) (howner : owner = none ∨ owner = some 0) :
      (account owner).Fits (.record r) h := by
    have hpointer : (Value.pointer (.int .word) owner).WellFormed h := by
      rcases howner with rfl | rfl
      · exact .nil _
      · exact .pointer (by decide) (accepts_self _)
    exact ⟨Value.wellFormed_record.mpr (.cons ⟨Value.wellFormed_array.mpr hrates, accepts_self _⟩
      (.cons (zero_fits h (.map .string (.list .string))) (.cons (zero_fits h .any)
        (.cons ⟨hpointer, accepts_self _⟩ (.cons (zero_fits h .func) .nil))))), accepts_self _⟩
  have haccounts (owner : Option Addr) (howner : owner = none ∨ owner = some 0) :
      (accounts owner).Fits t h :=
    ⟨Value.wellFormed_array.mpr (List.forall_mem_cons.mpr ⟨haccount none (.inl rfl),
      List.forall_mem_singleton.mpr (haccount owner howner)⟩), accepts_self _⟩
  have hagree := (zero_agrees h t).2.2 rfl
  have hzero : (accounts none).isZero = true := by decide
  refine ⟨rfl, haccounts, hzero, (hagree _ (haccounts none (.inl rfl))).mp hzero, by decide, ?_⟩
  intro heq
  cases (hagree _ (haccounts (some 0) (.inr rfl))).mpr heq

end Ty

end DynamicEval
