import DynamicEval.Proofs.Cacheless.Eval
import DynamicEval.Proofs.Eval.Targets
import DynamicEval.Proofs.Eval.Texts
import DynamicEval.Proofs.Expr.Rendering
import DynamicEval.Proofs.Number
import DynamicEval.Proofs.WellFormed

/-!
# Integers as texts

A numeral of an integer of 64 bits is read as that integer, and has it as its value when it is
evaluated. There the sign is an operator and the digits alone are a literal, which may stand for an
integer out of range; reduced to 64 bits both ways agree. An integer of any type comes back from the
text that it is coerced to.

## Main results

* `Numeral.DenotesInt.exists_tree`: the tree of a numeral, and its value.
* `Value.run_coerce_string_coerce`: an integer comes back from the text that it is coerced to.
* `integer_roundTrip`: integers come back from their texts in all three ways.
-/

namespace DynamicEval

variable {cs : List Char}

/-! ### The tree of a numeral -/

theorem Value.base_int (width : IntWidth) (n : Int64) (h : Heap) :
    (int width n).base h = int width n :=
  Heap.follow_eq_of_step fun _ => rfl

theorem Value.isNumber_int (width : IntWidth) (n : Int64) (h : Heap) :
    (int width n).isNumber h = true := by
  rw [isNumber, baseKind, baseTy, Heap.follow_eq_of_step fun _ => rfl]
  cases width <;> rfl

/-- An operator before an integer literal. -/
theorem Expr.run_eval_unary_int {host : Host} {ctx : Context} {op : UnaryOp} {k : Int64} {v : Value}
    {w : World} (hv : op.apply (.int .bits64 k) w.heap = .ok v) :
    ((Expr.unary op (.int k)).eval host ctx).run.run w = (.ok v, w) := by
  rw [run_eval_eq_meaning]
  show ((MonadExcept.ofExcept (op.apply (.int .bits64 k) w.heap) : Action Value)).run.run w = _
  rw [hv]
  rfl

/-- A numeral is read as an integer literal, or as one behind a sign. In each case the value of the
tree is the integer that the numeral denotes, reduced to 64 bits. -/
theorem Numeral.DenotesInt.exists_tree {n : Int} (h : DenotesInt cs n) :
    ∃ e, Expr.read (String.ofList cs) = .ok e ∧
      ∀ host ctx w, (e.eval host ctx).run.run w = (.ok (.int .bits64 (.ofInt n)), w) := by
  have hheight : 1 ≤ maxNesting ∧ 2 ≤ maxNesting := by decide
  cases h with
  | bare h =>
    refine ⟨.int _, Expr.read_of_scans (.numeral h) trivial hheight.1, fun host ctx w => ?_⟩
    rw [Expr.run_eval_eq_meaning, readInt_of_denotesInt (.bare h)]
    rfl
  | @plus cs m h =>
    have hscans : Scans ('+' :: cs) [.operator .add, .integer (readInt (String.ofList cs)), .eof] :=
      .token (n := 0) rfl (.numeral h)
    rw [readInt_of_denotesInt (.bare h)] at hscans
    refine ⟨.unary .plus (.int _), Expr.read_of_scans hscans ⟨trivial, rfl⟩ hheight.2,
      fun host ctx w => Expr.run_eval_unary_int ?_⟩
    rw [UnaryOp.apply, Value.isNumber_int, if_pos rfl]
    rfl
  | @minus cs m h =>
    have hscans : Scans ('-' :: cs) [.operator .sub, .integer (readInt (String.ofList cs)), .eof] :=
      .token (n := 0) rfl (.numeral h)
    rw [readInt_of_denotesInt (.bare h)] at hscans
    refine ⟨.unary .neg (.int _), Expr.read_of_scans hscans ⟨trivial, rfl⟩ hheight.2,
      fun host ctx w => Expr.run_eval_unary_int ?_⟩
    rw [UnaryOp.apply, Value.base_int, Int64.ofInt_neg]
    rfl

/-! ### Evaluation -/

/-- A text without quotes is left alone. -/
theorem Text.normalizeQuotes_of_not_isQuote (hcs : ∀ c ∈ cs, isQuote c = false) :
    normalizeQuotes cs = cs := by
  have hnormal := requote_append (r := []) hcs
  rw [List.append_nil] at hnormal
  exact hnormal.trans (List.append_nil cs)

/-- Neither blanks nor quotes stand in numerals. -/
theorem Numeral.DenotesInt.not_isBlank_and_not_isQuote {n : Int} (h : DenotesInt cs n) :
    ∀ c ∈ cs, Text.isBlank c = false ∧ Text.isQuote c = false := by
  have hdigit {ds : List Char} {m : Nat} (hds : Denotes ds m) :
      ∀ c ∈ ds, Text.isBlank c = false ∧ Text.isQuote c = false := by
    intro c hc
    have halnum := hds.isAlphanum c hc
    exact of_ascii (p := fun c => c.isAlphanum = true → Text.isBlank c = false ∧
      Text.isQuote c = false) (by decide +kernel) (toNat_lt_of_isAlphanum halnum) halnum
  cases h with
  | bare h => exact hdigit h
  | plus h | minus h => exact List.forall_mem_cons.mpr ⟨by decide, hdigit h⟩

theorem Numeral.DenotesInt.ne_nil {n : Int} (h : DenotesInt cs n) : cs ≠ [] := by
  cases h with
  | bare h =>
    rintro rfl
    exact Digits.ne_nil h rfl
  | plus | minus => exact List.cons_ne_nil _ _

/-- The value of a numeral is the integer that it denotes, reduced to 64 bits. -/
theorem run_evalText_of_denotesInt (host : Host) {ctx : Context} {n : Int} {w : World}
    (h : Numeral.DenotesInt cs n)
    (hmemory : ∀ e, (ctx.remembered (String.ofList cs) w).1 = some e →
      Expr.read (String.ofList cs) = .ok e) :
    ((evalText host ctx (String.ofList cs)).run.run w).1 = .ok (.int .bits64 (.ofInt n)) := by
  obtain ⟨e, hread, heval⟩ := h.exists_tree
  have hchars := h.not_isBlank_and_not_isQuote
  have htrim : Text.trim (String.ofList cs).toList = cs := by
    rw [String.toList_ofList]
    exact Text.trim_eq_self (fun c hc => (hchars c (List.mem_of_mem_head? hc)).1)
      fun c hc => (hchars c (List.mem_of_getLast? hc)).1
  have hnormal := Text.normalizeQuotes_of_not_isQuote fun c hc => (hchars c hc).2
  obtain ⟨w', hw'⟩ := run_evalText_of_read host (by rw [htrim]; exact h.ne_nil)
    (by rw [htrim, hnormal]) hread hmemory
  rw [hw', heval]

/-! ### Coercion to a text and back -/

/-- Coercion of a value whose base is there and not of the type: the base is converted. -/
theorem Ty.run_coerceBase_of_ne {t : Ty} {v b : Value} {convert : Value → Option (HeapM Value)}
    {h : Heap} (hnil : v.peel.isNil = false) (hbase : v.base h = b) (hty : (b.ty == t) = false) :
    (t.coerceBase v convert).run h =
      match convert b with
      | some result => result.run h
      | none => .error (.cannotAssign v.peel.typeName t.text) := by
  rw [coerceBase, StateT.run_bind]
  show ((ite _ _ _ : HeapM Value).run h) = _
  rw [hnil, Value.base_peel, hbase, if_neg Bool.false_ne_true, hty, if_neg Bool.false_ne_true]
  cases convert b <;> rfl

theorem Ty.run_coerce_string {v b : Value} {h : Heap} (hnil : v.peel.isNil = false)
    (hbase : v.base h = b) (hty : (b.ty == .string) = false) :
    (Ty.string.coerce v).run h = .ok (.string (b.text h), h) := by
  rw [coerce, run_coerceBase_of_ne hnil hbase hty]
  rfl

theorem Ty.run_coerce_int {w : IntWidth} {s : String} {h : Heap} :
    ((Ty.int w).coerce (.string s)).run h = .ok (.int w (w.wrapSigned (readInt s)), h) := by
  rw [coerce, run_coerceBase_of_ne rfl (Heap.follow_eq_of_step fun _ => rfl) rfl]
  rfl

theorem Ty.run_coerce_uint {w : IntWidth} {s : String} {h : Heap} :
    ((Ty.uint w).coerce (.string s)).run h =
      .ok (.uint w (w.wrapUnsigned (readInt s).toUInt64), h) := by
  rw [coerce, run_coerceBase_of_ne rfl (Heap.follow_eq_of_step fun _ => rfl) rfl]
  rfl

theorem Value.text_int (w : IntWidth) (n : Int64) (h : Heap) :
    (int w n).text h = toString n.toInt :=
  Heap.follow_eq_of_step fun _ => rfl

theorem Value.text_uint (w : IntWidth) (n : UInt64) (h : Heap) :
    (uint w n).text h = toString (n.toNat : Int) :=
  Heap.follow_eq_of_step fun _ => rfl

/-- An integer of any type comes back from the text that it is coerced to. -/
theorem Value.run_coerce_string_coerce {v : Value} {h : Heap} (hv : v.WellFormed h)
    (hint : v.ty.kind.isGeneralInt = true) :
    (do let s ← Ty.string.coerce v; v.ty.coerce s).run h = .ok (v, h) := by
  cases v with
  | int w n =>
    cases hv with
    | int range =>
      rw [StateT.run_bind, Ty.run_coerce_string rfl (base_int w n h) rfl, text_int]
      show ((Ty.int w).coerce (.string (toString n.toInt))).run h = _
      rw [Ty.run_coerce_int, readInt_toString, Int64.ofInt_toInt, range]
  | uint w n =>
    cases hv with
    | uint range =>
      have hbase : (uint w n).base h = uint w n := Heap.follow_eq_of_step fun _ => rfl
      -- From the half of the range on, the text is read as a negative integer with the same bits.
      have hbits : (Int64.ofInt n.toNat).toUInt64 = n := by
        rw [Int64.ofInt_eq_ofNat, Int64.toUInt64_ofNat', UInt64.ofNat_toNat]
      rw [StateT.run_bind, Ty.run_coerce_string rfl hbase rfl, text_uint]
      show ((Ty.uint w).coerce (.string (toString (n.toNat : Int)))).run h = _
      rw [Ty.run_coerce_uint, readInt_toString, hbits, range]
  | float w x => cases w <;> cases hint
  | _ => cases hint

/-! ### Integers come back -/

/-- **Integers come back from their texts.** Every numeral of an integer of 64 bits is read as that
integer, and has it as its value where nothing but what it is read as is remembered for it; so it is
in every scope while the caches are faithful. An integer of any of the ten types comes back from the
text that it is coerced to. -/
theorem integer_roundTrip :
    (∀ (n : Int64) (cs : List Char), Numeral.DenotesInt cs n.toInt →
      readInt (String.ofList cs) = n ∧
        (∀ (host : Host) (ctx : Context) (w : World),
          (∀ e, (ctx.remembered (String.ofList cs) w).1 = some e →
            Expr.read (String.ofList cs) = .ok e) →
          ((evalText host ctx (String.ofList cs)).run.run w).1 = .ok (.int .bits64 n)) ∧
        ∀ (host : Host) (s : Scope) (w : World), w.Faithful →
          ((s.eval host (String.ofList cs)).run.run w).1 = .ok (.int .bits64 n)) ∧
      ∀ (h : Heap) (v : Value), v.WellFormed h → v.ty.kind.isGeneralInt = true →
        (do let s ← Ty.string.coerce v; v.ty.coerce s).run h = .ok (v, h) := by
  refine ⟨fun n cs hcs => ?_, fun h v hv hint => Value.run_coerce_string_coerce hv hint⟩
  have hread := readInt_of_denotesInt hcs
  rw [Int64.ofInt_toInt] at hread
  have heval (host : Host) (ctx : Context) (w : World)
      (hmemory : ∀ e, (ctx.remembered (String.ofList cs) w).1 = some e →
        Expr.read (String.ofList cs) = .ok e) :
      ((evalText host ctx (String.ofList cs)).run.run w).1 = .ok (.int .bits64 n) := by
    rw [run_evalText_of_denotesInt host hcs hmemory, Int64.ofInt_toInt]
  exact ⟨hread, heval, fun host s w hw =>
    heval host s.context w fun _ he => s.context_cacheless.remembered_eq hw he⟩

/-- The least signed integer in hexadecimal, and the greatest unsigned one. -/
theorem integer_roundTrip_extremes :
    let host : Host := fun _ _ _ => throw (.host "no routine")
    let least := String.ofList ('-' :: '0' :: 'X' :: '8' :: List.replicate 15 '0')
    let greatest := Value.uint .bits64 (-1)
    readInt least = Int64.minValue ∧
      ((evalText host (Scope.empty none).context least).run.run .empty).1 =
        .ok (.int .bits64 Int64.minValue) ∧
      (((Scope.empty none).eval host least).run.run .empty).1 =
        .ok (.int .bits64 Int64.minValue) ∧
      (do let s ← Ty.string.coerce greatest; greatest.ty.coerce s).run .empty =
        .ok (greatest, .empty) := by
  intro host least greatest
  have hdigits : Numeral.Digits 16 ('8' :: List.replicate 15 '0') (2 ^ 63) :=
    Numeral.digits_of_map_toLower_eq (by decide) (by decide)
  have hleast : Int64.minValue.toInt = -((2 ^ 63 : Nat) : Int) := by decide
  have hcs : Numeral.DenotesInt ('-' :: '0' :: 'X' :: '8' :: List.replicate 15 '0')
      Int64.minValue.toInt := hleast ▸ .minus hdigits
  obtain ⟨hread, heval, hscope⟩ := integer_roundTrip.1 _ _ hcs
  exact ⟨hread, heval host _ _ nofun, hscope host _ _ (World.faithful_of_caches rfl),
    integer_roundTrip.2 _ _ (.uint rfl) rfl⟩

end DynamicEval
