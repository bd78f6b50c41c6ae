import DynamicEval.Proofs.Edit.Fills
import DynamicEval.Proofs.Merge.Halts

/-!
# How far a failed merge has come

A merge is done in place and is not undone when it fails. It is refused at once if the source does
not go into the base of the destination, and then nothing is changed. Otherwise it stops at a part
of the source. If that part cannot be coerced into the declared type of the parts, the merge leaves
what the parts before that one leave. If that part is itself merged into a part of the destination,
the same is said there of the merge of these.

A merge of a base is a change of the base of the destination, carried back through pointers and
slots. What is carried back is the same whether the change succeeds or fails, so that what the parts
before the last leave in a base can be compared to what they leave in the destination.

## Main definitions

* `Edit.withResult`: a change with another result.
* `Edit.Refused`: a change that is refused, and makes a base at most.
* `Value.carry`: a change of the base of a value, carried back to the value.
* `Value.MergeStops`: how far a failed merge has come.

## Main results

* `Value.carry_withResult`: what is carried back does not depend on the result of the change.
* `Value.mergeStep_eq_carry`: a merge of a base into a value is that into its base, carried back.
* `Value.merge_stops`: a merge that fails stops at a part of the source, or is refused.
-/

namespace DynamicEval

/-- The same change with another result. -/
def Edit.withResult {α : Type} (r : Edit α) (result : Except Error α) : Edit α := { r with result }

/-- A change that is refused: nothing is changed if the destination has a base, and otherwise
nothing but, maybe, that pointers to nothing on the way to the base have new cells with zeros. -/
structure Edit.Refused (r : Edit Unit) (h : Heap) (dest : Value) : Prop extends r.Fills h dest where
  /-- Nothing is changed if the destination has a base. -/
  unchanged : dest.base h ≠ .invalid → r.Unchanged h dest

theorem Edit.Refused.keep (h : Heap) (v : Value) (result : Except Error Unit) :
    (Edit.keep h v result).Refused h v :=
  ⟨.keep h v result, fun _ => .keep h v result⟩

namespace Value

/-! ### Changes carried back -/

/-- A change of the base of a value, carried back to the value. -/
def carry (v : Value) (h : Heap) (r : Edit Unit) : Edit Unit := v.change h fun _ _ => r

section

variable {h : Heap} {v : Value} {r : Edit Unit}

theorem change_eq_carry (v : Value) (h : Heap) (f : Heap → Value → Edit Unit) :
    v.change h f = v.carry h (f h (v.baseOrNew h)) := by
  obtain ⟨wrap, -, heq⟩ := exists_change_eq (α := Unit) v h
  rw [carry, heq, heq]

theorem changeNew_withResult (r : Edit Unit) (result : Except Error Unit) (e : Ty) (h : Heap) :
    changeNew (fun _ _ => r.withResult result) e h =
      (changeNew (fun _ _ => r) e h).withResult result := by
  match e with
  | .pointer e => exact congrArg (changeNew.store (.pointer e)) (changeNew_withResult r result e h)
  | .invalid | .bool | .int _ | .uint _ | .float _ | .string | .list _ | .array _ _ | .map _ _
  | .record _ | .func | .any => rfl

theorem changeStep_withResult {deref : Addr → Value}
    {enter enter' : Addr → Heap → Heap × Except Error Unit} {result : Except Error Unit}
    (henter : ∀ a, deref a ≠ .invalid → enter' a h = ((enter a h).1, result)) {v : Value}
    (hv : v.baseOrNewStep deref ≠ .invalid) :
    v.changeStep (fun _ _ => r.withResult result) enter' h =
      (v.changeStep (fun _ _ => r) enter h).withResult result := by
  match v with
  | .slot v => exact congrArg (Edit.within · slot) (changeStep_withResult henter (v := v) hv)
  | .pointer e none => exact changeNew_withResult r result e h
  | .pointer e (some a) =>
    rw [changeStep, henter a hv]
    rfl
  | .invalid => exact absurd rfl hv
  | .emptySlot | .bool _ | .int _ _ | .uint _ _ | .float _ _ | .string _ | .list _ _ | .array _ _
  | .map _ _ _ | .record _ _ | .func _ => rfl

/-- Where there is a base, what is carried back does not depend on the result of the change. -/
theorem carry_withResult (hv : v.baseOrNew h ≠ .invalid) (r : Edit Unit)
    (result : Except Error Unit) :
    v.carry h (r.withResult result) = (v.carry h r).withResult result := by
  suffices ∀ n v, h.unroll invalid baseOrNewStep n v ≠ .invalid →
      changeWithin (fun _ _ => r.withResult result) n v h =
        (changeWithin (fun _ _ => r) n v h).withResult result from this h.size v hv
  intro n
  induction n with
  | zero => exact fun v => changeStep_withResult fun a ha => absurd rfl ha
  | succ n ih =>
    refine fun v => changeStep_withResult fun a ha => ?_
    dsimp only
    rw [ih (h.get a) ha]
    rfl

/-- Where there is a base, the result of the change is carried back. -/
theorem carry_result (hv : v.baseOrNew h ≠ .invalid) (r : Edit Unit) :
    (v.carry h r).result = r.result := by
  show (v.carry h (r.withResult r.result)).result = r.result
  rw [carry_withResult hv]
  rfl

/-- A change that fails and leaves the base as it is makes a base at most. -/
theorem carry_keep_refused (hh : h.WellFormed) (hv : v.WellFormed h) (e : Error) :
    (v.carry h (Edit.keep h (v.baseOrNew h) (throw e))).Refused h v := by
  rw [← change_eq_carry v h fun h u => Edit.keep h u (throw e)]
  exact ⟨change_keep_fills hh hv _, fun hne => (change_unchanged hne rfl).2 (.keep h _ _)⟩

end

/-! ### Steps -/

section

variable {enter : Addr → Value → Heap → Edit Unit} {h : Heap} {source dest : Value}

/-- A change of bases that puts a source into a slot that holds nothing. -/
def fillEmpty (source : Value) (f : Heap → Value → Edit Unit) (h : Heap) : Value → Edit Unit
  | emptySlot => Edit.keep h source.boxed (return ())
  | base => f h base

/-- A step of a merge of a base changes the base of the destination, and leaves what has no type. -/
theorem exists_mergeStep_eq (enter : Addr → Value → Heap → Edit Unit) (hsource : source.IsBase)
    (hs : source ≠ .invalid) :
    ∃ f : Heap → Value → Edit Unit, (∀ h, ∃ e, f h .invalid = Edit.keep h .invalid (throw e)) ∧
      (∀ h, ∃ e, source.mergeStep enter .invalid h = Edit.keep h .invalid (throw e)) ∧
      ∀ dest h, dest ≠ .invalid → source.mergeStep enter dest h = dest.change h f := by
  have hinto {f : Heap → Value → Edit Unit}
      (hf : ∀ h, f h .invalid = mergeMismatch h .invalid source)
      (hstep : ∀ dest h, source.mergeStep enter dest h = intoBase source dest h f) :
      ∃ f : Heap → Value → Edit Unit, (∀ h, ∃ e, f h .invalid = Edit.keep h .invalid (throw e)) ∧
        (∀ h, ∃ e, source.mergeStep enter .invalid h = Edit.keep h .invalid (throw e)) ∧
        ∀ dest h, dest ≠ .invalid → source.mergeStep enter dest h = dest.change h f := by
    refine ⟨source.fillEmpty f, fun h => ⟨_, hf h⟩, fun h => ⟨_, hstep _ h⟩, fun dest h hdest => ?_⟩
    exact (hstep dest h).trans (if_neg (ne_true_of_eq_false (isInvalid_eq_false hdest)))
  cases source with
  | invalid => exact absurd rfl hs
  | emptySlot | slot => cases hsource.2
  | pointer => cases hsource.1
  | _ => exact hinto (fun h => rfl) fun dest h => rfl

/-- A slot that holds nothing takes any source. -/
theorem mergeStep_emptySlot (hsource : source.IsBase) :
    (source.mergeStep enter emptySlot h).result = .ok () := by
  have hinto {f : Heap → Value → Edit Unit} : (intoBase source emptySlot h f).result = .ok () := by
    rw [intoBase, show emptySlot.isInvalid = false from rfl, if_neg Bool.false_ne_true,
      Stops.change_eq (.inr rfl)]
    rfl
  cases source with
  | invalid => rfl
  | emptySlot | slot => cases hsource.2
  | pointer => cases hsource.1
  | _ => exact hinto

/-- What a step of a merge of a base does to a destination is what it does to its base, carried
back. -/
theorem mergeStep_eq_carry (hsource : source.IsBase) (hs : source ≠ .invalid)
    (hne : dest.baseOrNew h ≠ .invalid) :
    source.mergeStep enter dest h = dest.carry h (source.mergeStep enter (dest.baseOrNew h) h) := by
  obtain ⟨f, -, -, heq⟩ := exists_mergeStep_eq enter hsource hs
  have hdest : dest ≠ .invalid := by
    rintro rfl
    exact hne (Heap.follow_eq_of_step fun _ => rfl)
  rw [heq dest h hdest, heq _ h hne, change_eq_carry, (baseOrNew_stops dest h).change_eq]

/-- A merge into a destination without a base is refused. -/
theorem mergeStep_refused (hh : h.WellFormed) (hdest : dest.WellFormed h) (hsource : source.IsBase)
    (hs : source ≠ .invalid) (hinvalid : dest.baseOrNew h = .invalid) :
    (source.mergeStep enter dest h).Refused h dest := by
  obtain ⟨f, hf, hmissing, heq⟩ := exists_mergeStep_eq enter hsource hs
  by_cases hne : dest = .invalid
  · obtain ⟨e, he⟩ := hmissing h
    rw [hne, he]
    exact .keep h _ _
  · obtain ⟨e, he⟩ := hf h
    rw [heq dest h hne, change_eq_carry, hinvalid, he, ← hinvalid]
    exact carry_keep_refused hh hdest e

end

/-! ### Merges that stop -/

/-- How far a failed merge of a source into a destination has come, where `r` is its outcome and it
looks behind `n` pointers of the source in a row. It is refused, as the source does not go into the
base of the destination, if there is one; or it stops at the `k`th part of the source, as the merge
of the parts up to this one does, whereas that of the parts before this one succeeds. Then these
leave the same, and this one cannot be coerced into the declared type of the parts of the base; or
it is itself merged into a part of the base: there, that merge has failed likewise, and the rest is
the same. -/
inductive MergeStops : Nat → Value → Value → Heap → Edit Unit → Prop where
  | slot {n : Nat} {v dest : Value} {h : Heap} {r : Edit Unit} (hr : MergeStops n v dest h r) :
      MergeStops n (.slot v) dest h r
  | pointer {n : Nat} {e : Ty} {a : Addr} {dest : Value} {h : Heap} {r : Edit Unit}
      (hr : MergeStops n (h.get a) dest h r) : MergeStops (n + 1) (.pointer e (some a)) dest h r
  | refused {n : Nat} {source dest : Value} {h : Heap} {r : Edit Unit} (hs : source.IsBase)
      (hinto : ¬source.GoesInto (dest.baseOrNew h)) (hr : r.Refused h dest) :
      MergeStops n source dest h r
  | before {n : Nat} {source dest : Value} {h h₁ : Heap} {r : Edit Unit} {k : Nat}
      {base v : Value} {t : Ty} {e : Error}
      (hlast : mergeWithin n (source.beginning (k + 1)) dest h = r)
      (hfirst : mergeWithin n (source.beginning k) dest h = r.withResult (.ok ()))
      (hbase : mergeWithin n (source.beginning k) (dest.baseOrNew h) h = ⟨h₁, base, .ok ()⟩)
      (hv : source.partAt? k = some v) (ht : base.ty.elem? = some t)
      (hunfit : (t.coerce v.peel).run h₁ = .error e) (herr : r.result = .error e) :
      MergeStops n source dest h r
  | inside {n : Nat} {source dest : Value} {h h₁ : Heap} {r : Edit Unit} {k : Nat}
      {base v w : Value} {put : Value → Value}
      (hlast : mergeWithin n (source.beginning (k + 1)) dest h = dest.carry h (r.within put))
      (hfirst : mergeWithin n (source.beginning k) dest h = dest.carry h ⟨h₁, base, .ok ()⟩)
      (hdone : (mergeWithin n (source.beginning k) dest h).result = .ok ())
      (hbase : mergeWithin n (source.beginning k) (dest.baseOrNew h) h = ⟨h₁, base, .ok ()⟩)
      (hv : source.partAt? k = some v) (hw : Meets h₁ source k base w put)
      (hr : MergeStops n v w h₁ r) : MergeStops n source dest h (dest.carry h (r.within put))

section

variable {n : Nat} {source dest : Value} {h : Heap} {err : Error}

/-- Nothing goes into a destination without a base. -/
theorem not_goesInto_invalid (hs : source ≠ .invalid) : ¬source.GoesInto .invalid :=
  not_goesInto ⟨rfl, rfl⟩ (.inl rfl) fun hty =>
    hs (eq_invalid_of_ty (Ty.eq_invalid_of_beq (BEq.symm hty)))

/-- A merge of a base that fails stops if those of its parts do. -/
theorem mergeWithin_stops_of_isBase (hh : h.WellFormed) (hdest : dest.WellFormed h)
    (hsource : source.WellFormed h) (hs : source.IsBase) (hne : source ≠ .invalid)
    (hparts : ∀ {k v w h' err}, source.partAt? k = some v → h'.WellFormed → w.WellFormed h' →
      v.WellFormed h' → (mergeWithin n v w h').result = .error err →
      MergeStops n v w h' (mergeWithin n v w h'))
    (herr : (mergeWithin n source dest h).result = .error err) :
    MergeStops n source dest h (mergeWithin n source dest h) := by
  obtain ⟨enter, henter, hcells⟩ := exists_mergeWithin_eq n
  rw [henter] at hparts herr
  by_cases hu : dest.baseOrNew h = .invalid
  · rw [henter]
    refine .refused hs ?_ (mergeStep_refused hh hdest hs hne hu)
    rw [hu]
    exact not_goesInto_invalid hne
  -- The merge is that into the base, which fails as well.
  have hcarry {source : Value} (hs : source.IsBase ∧ source ≠ .invalid) :
      mergeWithin n source dest h = dest.carry h (source.mergeStep enter (dest.baseOrNew h) h) := by
    rw [henter]
    exact mergeStep_eq_carry hs.1 hs.2 hu
  rw [mergeStep_eq_carry hs hne hu, carry_result hu] at herr
  have hbase : (dest.baseOrNew h).IsBase := by
    refine (dest.baseOrNew_stops h).resolve_right fun hempty => ?_
    rw [hempty, mergeStep_emptySlot hs] at herr
    cases herr
  rw [hcarry ⟨hs, hne⟩]
  rcases mergeStep_halts hbase hu hs hsource herr with ⟨hinto, e, hkeep⟩ | halts
  · rw [hkeep]
    exact .refused hs hinto (carry_keep_refused hh hdest e)
  · have hlast (k : Nat) := hcarry (hs.beginning hne (k + 1))
    have hfirst (k : Nat) := hcarry (hs.beginning hne k)
    generalize source.mergeStep enter (dest.baseOrNew h) h = r at *
    cases halts with
    | @before k h₁ base v t e hfirst' hlast' hv ht hunfit =>
      refine .before ((hlast _).trans (congrArg (dest.carry h) hlast')) ?_ ?_ hv ht hunfit
        (carry_result hu _)
      · rw [hfirst, hfirst']
        exact carry_withResult hu ⟨h₁, base, .error e⟩ (.ok ())
      · rw [henter]
        exact hfirst'
    | @inside k h₁ base v w put e hfirst' hlast' hv hw hr =>
      have hkeeps := mergeStep_keeps hcells hh (hdest.baseOrNew hh) _ (hsource.beginning k)
      rw [hfirst'] at hkeeps
      have hdone := (hfirst k).trans (congrArg (dest.carry h) hfirst')
      refine .inside ((hlast k).trans (congrArg (dest.carry h) hlast')) hdone ?_ ?_ hv hw ?_
      · rw [hdone, carry_result hu]
      · rw [henter]
        exact hfirst'
      · exact hparts hv hkeeps.grows.wellFormed (hw.wellFormed hkeeps.wellFormed)
          ((wellFormed_of_partAt? hsource hv).mono hkeeps.grows.toExtends) hr

/-- A merge that fails stops. The parts of a source are smaller than the source, and what is behind
a pointer is left with one pointer less. -/
theorem mergeWithin_stops (n : Nat) (source : Value) {dest : Value} {h : Heap} {err : Error}
    (hh : h.WellFormed) (hdest : dest.WellFormed h) (hsource : source.WellFormed h)
    (herr : (mergeWithin n source dest h).result = .error err) :
    MergeStops n source dest h (mergeWithin n source dest h) := by
  have hbase (hs : source.IsBase) (hne : source ≠ .invalid) :
      MergeStops n source dest h (mergeWithin n source dest h) :=
    mergeWithin_stops_of_isBase hh hdest hsource hs hne
      (fun {_ v _ _ _} hv hh hw hvw herr =>
        have : sizeOf v < sizeOf source := sizeOf_of_partAt? hv
        mergeWithin_stops n v hh hw hvw herr) herr
  match n, source with
  | n, .slot v =>
    have heq : mergeWithin n (.slot v) dest h = mergeWithin n v dest h := by cases n <;> rfl
    rw [heq] at herr ⊢
    exact .slot (mergeWithin_stops n v hh hdest (wellFormed_slot.mp hsource).2.2 herr)
  | n + 1, .pointer e (some a) =>
    exact .pointer (mergeWithin_stops n (h.get a) hh hdest
      (hh a (wellFormed_pointer.mp hsource).1) herr)
  | 0, .pointer e (some a) => cases herr
  | n, .invalid | n, .emptySlot | n, .pointer e none => cases n <;> cases herr
  | n, .bool _ | n, .int _ _ | n, .uint _ _ | n, .float _ _ | n, .string _ | n, .list _ _
  | n, .array _ _ | n, .map _ _ _ | n, .record _ _ | n, .func _ => exact hbase ⟨rfl, rfl⟩ nofun
termination_by (n, sizeOf source)

/-- **A failed merge leaves what it has done.** It is refused, as the source does not go into the
destination, and changes nothing but, maybe, that pointers to nothing get cells; or it stops at a
part of the source that cannot be coerced, and leaves what the successful merge of the parts before
that one leaves; or at a part that is itself merged into a part of the destination, which is then
left as that failed merge leaves it. -/
theorem merge_stops (hh : h.WellFormed) (hdest : dest.WellFormed h) (hsource : source.WellFormed h)
    (herr : (dest.merge source h).result = .error err) :
    MergeStops h.size source dest h (dest.merge source h) :=
  mergeWithin_stops h.size source hh hdest hsource herr

/-- A list without numbers. -/
def noNumbers : Value := list (.int .word) []

/-- A number and something that is none. -/
def oneNumber : Value := list .any [slot (int .word 1), slot (list (.int .word) [])]

theorem oneNumber_wellFormed (h : Heap) : oneNumber.WellFormed h := by
  refine wellFormed_list.mpr ?_
  simp only [List.forall_mem_cons]
  refine ⟨⟨.slot nofun nofun (.int rfl), rfl⟩, ⟨.slot nofun nofun ?_, rfl⟩, List.forall_mem_nil _⟩
  exact wellFormed_list.mpr (List.forall_mem_nil _)

/-- The number is appended before the merge stops. -/
theorem merge_noNumbers :
    (noNumbers.merge oneNumber .empty).result = .error (.cannotAssign "[]int" "int") ∧
      (noNumbers.merge oneNumber .empty).value = list (.int .word) [int .word 1] ∧
      MergeStops 0 oneNumber noNumbers .empty (noNumbers.merge oneNumber .empty) :=
  ⟨rfl, rfl, merge_stops Heap.empty_wellFormed (wellFormed_list.mpr (List.forall_mem_nil _))
    (oneNumber_wellFormed _) rfl⟩

/-- A failed merge may have changed its destination. -/
theorem not_forall_merge_unchanged :
    ¬∀ (h : Heap) (dest source : Value) (err : Error), h.WellFormed → h.Acyclic →
      dest.WellFormed h → source.WellFormed h → (dest.merge source h).result = .error err →
      (dest.merge source h).value = dest ∧
        ∀ a, h.Reaches dest a → (dest.merge source h).heap.get a = h.get a := by
  intro hall
  obtain ⟨hvalue, -⟩ := hall .empty noNumbers oneNumber _ Heap.empty_wellFormed Heap.empty_acyclic
    (wellFormed_list.mpr (List.forall_mem_nil _)) (oneNumber_wellFormed _) rfl
  cases hvalue

end

end Value

end DynamicEval
