import DynamicEval.Assoc

/-!
# Entries of association lists

Where the entries come from that an association list has after a key was written or removed.

## Main results

* `Assoc.mem_of_find?_eq_some`: what is found under a key is stored there.
* `Assoc.mem_put`, `Assoc.mem_of_mem_erase`: no entries but the one that is written are new.
* `Assoc.find?_erase`, `Assoc.find?_put`, `Assoc.find?_append`: what is found after a key was removed
  or written, and in a longer list.
* `Assoc.exists_put_eq`, `Assoc.put_of_find?_eq_none`: where a key is written.
-/

namespace DynamicEval.Assoc

variable {κ α : Type} [DecidableEq κ] {k : κ} {a : α} {es : List (κ × α)} {x : κ × α}

theorem mem_of_find?_eq_some (ha : find? k es = some a) : (k, a) ∈ es := by
  induction es with
  | nil => cases ha
  | cons e es ih =>
    rw [find?] at ha
    split at ha
    · next heq =>
      cases ha
      exact heq ▸ List.mem_cons_self
    · exact List.mem_cons_of_mem _ (ih ha)

theorem mem_put (hx : x ∈ put k a es) : x = (k, a) ∨ x ∈ es := by
  induction es with
  | nil => exact .inl (List.mem_singleton.mp hx)
  | cons y es ih =>
    rw [put] at hx
    split at hx
    · exact (List.mem_cons.mp hx).imp_right (List.mem_cons_of_mem _)
    · rcases List.mem_cons.mp hx with rfl | hx
      · exact .inr List.mem_cons_self
      · exact (ih hx).imp_right (List.mem_cons_of_mem _)

theorem mem_of_mem_erase (hx : x ∈ erase k es) : x ∈ es := (List.mem_filter.mp hx).1

theorem fst_ne_of_mem_erase (hx : x ∈ erase k es) : x.1 ≠ k :=
  of_decide_eq_true (List.mem_filter.mp hx).2

theorem find?_eq_none_iff : find? k es = none ↔ k ∉ es.map Prod.fst := by
  induction es with
  | nil => simp [find?]
  | cons e es ih =>
    rw [find?, List.map_cons, List.mem_cons, not_or, ← ih]
    by_cases he : e.1 = k
    · simp [he]
    · simp [he, Ne.symm he]

/-- If no key stands in a list twice, all its entries are found. -/
theorem find?_of_mem (hnodup : (es.map Prod.fst).Nodup) (hx : x ∈ es) :
    find? x.1 es = some x.2 := by
  induction es with
  | nil => cases hx
  | cons e es ih =>
    obtain ⟨hne, hnodup⟩ := List.nodup_cons.mp hnodup
    rw [find?]
    rcases List.mem_cons.mp hx with rfl | hx
    · exact if_pos rfl
    · rw [if_neg, ih hnodup hx]
      intro heq
      exact hne (List.mem_map.mpr ⟨x, hx, heq.symm⟩)

theorem find?_erase (j k : κ) (es : List (κ × α)) :
    find? j (erase k es) = if j = k then none else find? j es := by
  induction es with
  | nil => simp [erase, find?]
  | cons e es ih =>
    rw [erase] at ih ⊢
    by_cases he : e.1 = k
    · rw [List.filter_cons_of_neg (by simpa using he), ih]
      by_cases hj : j = k
      · simp [hj]
      · simp [find?, he, hj, Ne.symm hj]
    · rw [List.filter_cons_of_pos (by simpa using he), find?, ih, find?]
      by_cases hj : j = k <;> simp [hj, he]

theorem find?_put (j k : κ) (a : α) (es : List (κ × α)) :
    find? j (put k a es) = if j = k then some a else find? j es := by
  induction es with
  | nil => simp [put, find?, eq_comm]
  | cons e es ih =>
    rw [put]
    by_cases he : e.1 = k
    · rw [if_pos he, find?, find?, he]
      by_cases hj : j = k <;> simp [hj, eq_comm]
    · rw [if_neg he, find?, find?, ih]
      by_cases hj : j = k
      · simp [hj, he]
      · simp [hj]

theorem find?_append (k : κ) (es fs : List (κ × α)) :
    find? k (es ++ fs) = (find? k es).or (find? k fs) := by
  induction es with
  | nil => rfl
  | cons e es ih =>
    rw [List.cons_append, find?, find?, ih]
    split <;> rfl

theorem erase_of_find?_eq_none (hk : find? k es = none) : erase k es = es := by
  refine List.filter_eq_self.mpr fun e he => decide_eq_true ?_
  rintro rfl
  exact find?_eq_none_iff.mp hk (List.mem_map_of_mem he)

/-- If no key stands in a list twice, the first key does not stand in the rest. -/
theorem erase_head (hnodup : ((x :: es).map Prod.fst).Nodup) : erase x.1 (x :: es) = es := by
  obtain ⟨hnew, -⟩ := List.nodup_cons.mp hnodup
  rw [erase, List.filter_cons_of_neg (by simp)]
  exact erase_of_find?_eq_none (find?_eq_none_iff.mpr hnew)

theorem find?_reverse (hnodup : (es.map Prod.fst).Nodup) : find? k es.reverse = find? k es := by
  induction es with
  | nil => rfl
  | cons e es ih =>
    obtain ⟨hnew, hnodup⟩ := List.nodup_cons.mp hnodup
    rw [List.reverse_cons, find?_append, ih hnodup]
    by_cases he : e.1 = k
    · rw [← he, find?_eq_none_iff.mpr hnew, Option.none_or]
      simp [find?]
    · simp [find?, he]

theorem erase_reverse : erase k es.reverse = (erase k es).reverse := List.filter_reverse

theorem map_fst_erase (k : κ) (es : List (κ × α)) :
    (erase k es).map Prod.fst = (es.map Prod.fst).filter (decide <| · ≠ k) := by
  rw [erase, List.filter_map]
  rfl

/-- A key that is found gets its value in place. -/
theorem exists_put_eq {b : α} (hb : find? k es = some b) (a : α) :
    ∃ fs gs, es = fs ++ (k, b) :: gs ∧ put k a es = fs ++ (k, a) :: gs := by
  induction es with
  | nil => cases hb
  | cons e es ih =>
    obtain ⟨j, c⟩ := e
    rw [find?] at hb
    by_cases hj : j = k
    · rw [if_pos hj] at hb
      cases hb
      exact ⟨[], es, by rw [hj, List.nil_append], if_pos hj⟩
    · rw [if_neg hj] at hb
      obtain ⟨fs, gs, hes, hput⟩ := ih hb
      refine ⟨(j, c) :: fs, gs, by rw [hes, List.cons_append], ?_⟩
      rw [put, if_neg hj, hput, List.cons_append]

/-- A new key is stored behind the others. -/
theorem put_of_find?_eq_none (hk : find? k es = none) (a : α) : put k a es = es ++ [(k, a)] := by
  induction es with
  | nil => rfl
  | cons e es ih =>
    obtain ⟨j, c⟩ := e
    rw [find?] at hk
    by_cases hj : j = k
    · rw [if_pos hj] at hk
      cases hk
    · rw [if_neg hj] at hk
      rw [put, if_neg hj, ih hk, List.cons_append]

end DynamicEval.Assoc
