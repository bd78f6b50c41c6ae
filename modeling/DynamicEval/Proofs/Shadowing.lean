import DynamicEval.Proofs.Path.Slot
import DynamicEval.Proofs.WellFormed.Scope
import DynamicEval.World

/-!
# Names that are shadowed for a while

A name is shadowed by saving its binding, binding it anew, and putting the saved binding back in the
end. A scope saves one binding for every name, and only a plain one: what is put back is the binding
that was saved last. So a shadowing is undone if the name had a plain binding and no other shadowing
of it stands inside.

## Main definitions

* `Shadowing`: well-nested shadowings, and `Shadowing.run`, what they do to a scope.
* `Scope.binding`, `Shadowing.runAt`: what a scope has for one name, and what shadowings do to it.
* `Shadowing.Restores`: shadowings after which a name has its plain binding again.

## Main results

* `Shadowing.binding_run`: names are shadowed independently of each other.
* `Shadowing.lookup_run`: lookups give the same before and after.
-/

namespace DynamicEval

/-- Well-nested shadowings of names. -/
inductive Shadowing where
  /-- No shadowing. -/
  | nil
  /-- One after the other. -/
  | seq (first second : Shadowing)
  /-- A name is bound to a value while other shadowings take place. -/
  | shadow (name : String) (v : Value) (inner : Shadowing)

/-- What shadowings do to a scope. -/
def Shadowing.run (h : Heap) : Shadowing → Scope → Scope
  | nil, s => s
  | seq first second, s => second.run h (first.run h s)
  | shadow name v inner, s => (inner.run h ((s.backup name).bind name v h)).restore name

/-! ### What a scope has for a name -/

/-- What a scope has for one name. -/
structure Binding where
  /-- The plain binding, in its slot. -/
  plain : Option Value
  /-- The plain binding that was saved. -/
  saved : Option Value
  /-- The callable. -/
  caller : Option Value

namespace Binding

/-- Saves the plain binding, if there is one. -/
def backup (b : Binding) : Binding :=
  match b.plain with
  | some v => { b with saved := some v.peel }
  | none => b

/-- Binds the name. -/
def bind (b : Binding) (v : Value) (h : Heap) : Binding :=
  if v.isFunc h then { b with caller := some v.peel } else { b with plain := some v.boxed }

/-- Puts the saved binding back. -/
def restore (b : Binding) : Binding :=
  match b.saved with
  | some v => { b with plain := some v.boxed, saved := none }
  | none => b

variable {b : Binding} {v : Value}

theorem backup_of_plain (hb : b.plain = some v) : b.backup = { b with saved := some v.peel } := by
  rw [backup, hb]

theorem backup_of_not_plain (hb : b.plain = none) : b.backup = b := by rw [backup, hb]

theorem restore_of_saved (hb : b.saved = some v) :
    b.restore = { b with plain := some v.boxed, saved := none } := by
  rw [restore, hb]

theorem restore_of_not_saved (hb : b.saved = none) : b.restore = b := by rw [restore, hb]

theorem bind_of_isFunc {h : Heap} (hv : v.isFunc h = true) :
    b.bind v h = { b with caller := some v.peel } :=
  if_pos hv

@[simp]
theorem caller_backup (b : Binding) : b.backup.caller = b.caller := by
  rw [backup]
  split <;> rfl

@[simp]
theorem saved_bind (b : Binding) (v : Value) (h : Heap) : (b.bind v h).saved = b.saved := by
  rw [bind]
  split <;> rfl

@[simp]
theorem caller_restore (b : Binding) : b.restore.caller = b.caller := by
  rw [restore]
  split <;> rfl

end Binding

namespace Scope

/-- What a scope has for a name. -/
def binding (s : Scope) (name : String) : Binding :=
  ⟨Entries.find? (.string name) s.binds, Assoc.find? name s.saved, Assoc.find? name s.callers⟩

variable {h : Heap} (s : Scope) {n : String} (name : String) (v : Value)

theorem binding_backup :
    (s.backup name).binding n = if n = name then (s.binding n).backup else s.binding n := by
  rw [backup]
  by_cases hn : n = name
  · subst hn
    rw [if_pos rfl]
    cases hb : Entries.find? (.string n) s.binds with
    | some v =>
      rw [Binding.backup_of_plain hb]
      simp [binding, Assoc.find?_put]
    | none => rw [Binding.backup_of_not_plain hb]
  · rw [if_neg hn]
    split
    · simp [binding, Assoc.find?_put, hn]
    · rfl

theorem binding_putPlain : (s.putPlain name v).binding n =
    if n = name then { s.binding n with plain := some v.boxed } else s.binding n := by
  by_cases hn : n = name
  · subst hn
    rw [if_pos rfl, binding, putPlain, show BareKey.string n = (Key.string n).bare from rfl,
      Entries.find?_put]
    rfl
  · have hne : BareKey.string n ≠ (Key.string name).bare := fun heq => hn (BareKey.string.inj heq)
    rw [if_neg hn, binding, putPlain, Entries.find?_put_of_ne hne]
    rfl

theorem binding_bind : (s.bind name v h).binding n =
    if n = name then (s.binding n).bind v h else s.binding n := by
  rw [bind, Binding.bind]
  split
  · by_cases hn : n = name <;> simp [binding, Assoc.find?_put, hn]
  · exact binding_putPlain ..

theorem binding_restore :
    (s.restore name).binding n = if n = name then (s.binding n).restore else s.binding n := by
  rw [restore]
  by_cases hn : n = name
  · subst hn
    rw [if_pos rfl]
    cases hs : Assoc.find? n s.saved with
    | some v =>
      rw [Binding.restore_of_saved hs, binding_putPlain, if_pos rfl]
      simp [binding, Assoc.find?_erase]
    | none => rw [Binding.restore_of_not_saved hs]
  · rw [if_neg hn]
    split
    · rw [binding_putPlain, if_neg hn]
      simp [binding, Assoc.find?_erase, hn]
    · rfl

@[simp]
theorem vars_backup : (s.backup name).vars = s.vars := by
  rw [backup]
  split <;> rfl

@[simp]
theorem vars_bind : (s.bind name v h).vars = s.vars := by
  rw [bind]
  split <;> rfl

@[simp]
theorem vars_restore : (s.restore name).vars = s.vars := by
  rw [restore]
  split <;> rfl

@[simp]
theorem root_backup : (s.backup name).root = s.root := by
  rw [backup]
  split <;> rfl

@[simp]
theorem root_bind : (s.bind name v h).root = s.root := by
  rw [bind]
  split <;> rfl

@[simp]
theorem root_restore : (s.restore name).root = s.root := by
  rw [restore]
  split <;> rfl

theorem WellFormed.fits_of_plain {s : Scope} {name : String} {v : Value} (hs : s.WellFormed h)
    (hv : (s.binding name).plain = some v) : v.Fits .any h := by
  obtain ⟨entry, hentry, rfl⟩ := Entries.mem_of_find?_eq_some hv
  exact hs.binds.values entry hentry

end Scope

namespace Shadowing

/-- What shadowings do to what a scope has for one name. -/
def runAt (h : Heap) (n : String) : Shadowing → Binding → Binding
  | nil, b => b
  | seq first second, b => second.runAt h n (first.runAt h n b)
  | shadow name v inner, b =>
    if n = name then (inner.runAt h n (b.backup.bind v h)).restore else inner.runAt h n b

/-- Names are shadowed independently of each other. -/
theorem binding_run (h : Heap) (n : String) (W : Shadowing) (s : Scope) :
    (W.run h s).binding n = W.runAt h n (s.binding n) := by
  induction W generalizing s with
  | nil => rfl
  | seq first second ih₁ ih₂ => rw [run, runAt, ih₂, ih₁]
  | shadow name v inner ih =>
    rw [run, runAt, Scope.binding_restore, ih, Scope.binding_bind, Scope.binding_backup]
    split <;> rfl

/-! ### Names that have their binding again -/

/-- Some shadowing is one of the name. -/
def Shadows (n : String) : Shadowing → Prop
  | nil => False
  | seq first second => first.Shadows n ∨ second.Shadows n
  | shadow name _ inner => n = name ∨ inner.Shadows n

/-- Some shadowing of the name binds it to a plain value. -/
def BindsPlain (h : Heap) (n : String) : Shadowing → Prop
  | nil => False
  | seq first second => first.BindsPlain h n ∨ second.BindsPlain h n
  | shadow name v inner => (n = name ∧ v.isFunc h = false) ∨ inner.BindsPlain h n

/-- Some shadowing of the name binds it to a callable. -/
def BindsFunc (h : Heap) (n : String) : Shadowing → Prop
  | nil => False
  | seq first second => first.BindsFunc h n ∨ second.BindsFunc h n
  | shadow name v inner => (n = name ∧ v.isFunc h = true) ∨ inner.BindsFunc h n

/-- No shadowing of the name by a plain value has another shadowing of the name inside. -/
def Flat (h : Heap) (n : String) : Shadowing → Prop
  | nil => True
  | seq first second => first.Flat h n ∧ second.Flat h n
  | shadow name v inner =>
    (n = name → v.isFunc h = false → ¬inner.Shadows n) ∧ inner.Flat h n

/-- Shadowings after which a name has the plain binding that it had before, or none if it had none:
a plain binding is put back by shadowings that do not nest, and callables take its place nowhere. -/
def Restores (h : Heap) (n : String) (b : Binding) (W : Shadowing) : Prop :=
  (b.plain.isSome ∧ W.Flat h n) ∨ (b.plain = none ∧ b.saved = none ∧ ¬W.BindsPlain h n)

variable {h : Heap} {n : String} {W : Shadowing} {b : Binding} {v : Value}

theorem runAt_of_not_shadows (hW : ¬W.Shadows n) : W.runAt h n b = b := by
  induction W generalizing b with
  | nil => rfl
  | seq first second ih₁ ih₂ =>
    obtain ⟨h₁, h₂⟩ := not_or.mp hW
    rw [runAt, ih₁ h₁, ih₂ h₂]
  | shadow name w inner ih =>
    obtain ⟨hname, hinner⟩ := not_or.mp hW
    rw [runAt, if_neg hname, ih hinner]

/-- A plain binding is put back. What is saved afterwards is what was saved before, or nothing, or
the binding. -/
theorem plain_runAt_of_flat (hW : W.Flat h n) (hv : v.peel.boxed = v) (hb : b.plain = some v) :
    (W.runAt h n b).plain = some v ∧ ((W.runAt h n b).saved = b.saved ∨
      (W.runAt h n b).saved = none ∨ (W.runAt h n b).saved = some v.peel) := by
  induction W generalizing b with
  | nil => exact ⟨hb, .inl rfl⟩
  | seq first second ih₁ ih₂ =>
    obtain ⟨hplain₁, hsaved₁⟩ := ih₁ hW.1 hb
    obtain ⟨hplain₂, hsaved₂⟩ := ih₂ hW.2 hplain₁
    refine ⟨hplain₂, ?_⟩
    rcases hsaved₂ with hsaved₂ | hsaved₂
    · rwa [runAt, hsaved₂]
    · exact .inr hsaved₂
  | shadow name w inner ih =>
    rw [runAt]
    split
    · next hname =>
      -- The binding is still saved in the end, or it was put back already and is in its place.
      have hinner : (inner.runAt h n (b.backup.bind w h)).saved = some v.peel ∨
          (inner.runAt h n (b.backup.bind w h)).saved = none ∧
            (inner.runAt h n (b.backup.bind w h)).plain = some v := by
        have hbackup := Binding.backup_of_plain hb
        have hsaved : (b.backup.bind w h).saved = some v.peel := by rw [Binding.saved_bind, hbackup]
        cases hfunc : w.isFunc h with
        | false =>
          rw [runAt_of_not_shadows (hW.1 hname hfunc)]
          exact .inl hsaved
        | true =>
          have hplain : (b.backup.bind w h).plain = some v := by
            rw [Binding.bind_of_isFunc hfunc, hbackup]
            exact hb
          obtain ⟨hplain, hsaved' | hsaved' | hsaved'⟩ := ih hW.2 hplain
          · exact .inl (hsaved'.trans hsaved)
          · exact .inr ⟨hsaved', hplain⟩
          · exact .inl hsaved'
      rcases hinner with hsaved | ⟨hsaved, hplain⟩
      · rw [Binding.restore_of_saved hsaved]
        exact ⟨congrArg some hv, .inr (.inl rfl)⟩
      · rw [Binding.restore_of_not_saved hsaved]
        exact ⟨hplain, .inr (.inl hsaved)⟩
    · exact ih hW.2 hb

/-- Callables leave a name without a plain binding. -/
theorem runAt_of_not_bindsPlain (hW : ¬W.BindsPlain h n) (hb : b.plain = none)
    (hsaved : b.saved = none) :
    (W.runAt h n b).plain = none ∧ (W.runAt h n b).saved = none := by
  induction W generalizing b with
  | nil => exact ⟨hb, hsaved⟩
  | seq first second ih₁ ih₂ =>
    obtain ⟨h₁, h₂⟩ := not_or.mp hW
    obtain ⟨hplain₁, hsaved₁⟩ := ih₁ h₁ hb hsaved
    exact ih₂ h₂ hplain₁ hsaved₁
  | shadow name w inner ih =>
    obtain ⟨hw, hinner⟩ := not_or.mp hW
    rw [runAt]
    split
    · next hname =>
      have hfunc : w.isFunc h = true := by simpa [hname] using hw
      rw [Binding.backup_of_not_plain hb]
      have hbind : (b.bind w h).plain = none := by
        rw [Binding.bind_of_isFunc hfunc]
        exact hb
      obtain ⟨hplain, hsaved'⟩ := ih hinner hbind (by rw [Binding.saved_bind, hsaved])
      rw [Binding.restore_of_not_saved hsaved']
      exact ⟨hplain, hsaved'⟩
    · exact ih hinner hb hsaved

/-- The callable of a name stays if no other one is bound to it. -/
theorem caller_runAt (hW : ¬W.BindsFunc h n) : (W.runAt h n b).caller = b.caller := by
  induction W generalizing b with
  | nil => rfl
  | seq first second ih₁ ih₂ =>
    obtain ⟨h₁, h₂⟩ := not_or.mp hW
    rw [runAt, ih₂ h₂, ih₁ h₁]
  | shadow name w inner ih =>
    obtain ⟨hw, hinner⟩ := not_or.mp hW
    rw [runAt]
    split
    · next hname =>
      have hfunc : ¬w.isFunc h = true := fun hfunc => hw ⟨hname, hfunc⟩
      rw [Binding.caller_restore, ih hinner, Binding.bind, if_neg hfunc, Binding.caller_backup]
    · exact ih hinner

theorem Restores.plain_eq (hW : W.Restores h n b)
    (hb : ∀ v, b.plain = some v → v.peel.boxed = v) : (W.runAt h n b).plain = b.plain := by
  rcases hW with ⟨hsome, hflat⟩ | ⟨hnone, hsaved, hplain⟩
  · obtain ⟨v, hv⟩ := Option.isSome_iff_exists.mp hsome
    rw [(plain_runAt_of_flat hflat (hb v hv) hv).1, hv]
  · rw [(runAt_of_not_bindsPlain hplain hnone hsaved).1, hnone]

end Shadowing

/-! ### Lookups -/

/-- The content of a slot put into a slot again is the slot. -/
theorem Value.Fits.boxed_peel {v : Value} {h : Heap} (hv : v.Fits .any h) : v.peel.boxed = v := by
  have hty : v.ty = .any := hv.accepts
  cases v with
  | slot v =>
    obtain ⟨hfilled, hsingle, -⟩ := Value.wellFormed_slot.mp hv.wellFormed
    cases v <;> first | rfl | exact absurd rfl hfilled | exact absurd rfl hsingle
  | emptySlot => rfl
  | _ => cases hty

namespace Scope

/-- The names among the bindings that the lookup of a possibly dotted name may read: the name as a
whole and its first segment. -/
def lookupNames (name : String) : List String := name :: (Text.segments name).head?.toList

variable {h : Heap} {s s' : Scope} {name : String}

theorem baseTy_bindsMap : s.bindsMap.baseTy h = bindsTy := Heap.follow_eq_of_step fun _ => rfl

theorem isBasic_bindsMap : s.bindsMap.isBasic h = false := by
  rw [Value.isBasic, Value.baseKind, baseTy_bindsMap]
  rfl

theorem isMap_bindsMap : s.bindsMap.isMap h = true := by
  rw [Value.isMap, Value.baseKind, baseTy_bindsMap]
  rfl

/-- A segment selects the plain binding of its name. -/
theorem part?_bindsMap (s : Scope) (n : String) :
    s.bindsMap.part? (.string n) h = (s.binding n).plain := by
  have hbase : s.bindsMap.base h = s.bindsMap := Heap.follow_eq_of_step fun _ => rfl
  have hplace : Key.place? .string (.string n) h = some (.string n) :=
    Key.place?_value (Ty.acceptsKey_string n)
  rw [Value.part?, hbase]
  show (Key.place? .string (.string n) h).bind (fun place => Entries.find? place s.binds) = _
  rw [hplace]
  rfl

/-- Only the plain binding of the first segment counts for a path. -/
theorem propAt?_bindsMap_congr (path : List String)
    (hsame : ∀ n ∈ path.head?, (s'.binding n).plain = (s.binding n).plain) :
    s'.bindsMap.propAt? (path.map .string) h = s.bindsMap.propAt? (path.map .string) h := by
  rw [Value.propAt?, Value.propAt?, Value.fieldAt?, Value.fieldAt?, isBasic_bindsMap,
    isBasic_bindsMap]
  cases path with
  | nil => rfl
  | cons n path =>
    rw [List.map_cons, Value.walk?, Value.walk?, part?_bindsMap, part?_bindsMap, hsame n rfl]
    rfl

/-- Only the plain bindings of the names that are looked up count for a lookup. -/
theorem propById?_bindsMap_congr
    (hsame : ∀ n ∈ lookupNames name, (s'.binding n).plain = (s.binding n).plain) :
    s'.bindsMap.propById? name h = s.bindsMap.propById? name h := by
  have hpath : s'.bindsMap.propAt? (pathOf name) h = s.bindsMap.propAt? (pathOf name) h :=
    propAt?_bindsMap_congr (Text.segments name) fun n hn =>
      hsame n (List.mem_cons_of_mem _ (Option.mem_toList.mpr hn))
  have hwhole : s'.bindsMap.propAt? [.string name] h = s.bindsMap.propAt? [.string name] h :=
    propAt?_bindsMap_congr [name] fun n hn => by
      cases hn
      exact hsame name List.mem_cons_self
  rw [Value.propById?, Value.propById?, isBasic_bindsMap, isBasic_bindsMap, isMap_bindsMap,
    isMap_bindsMap, hpath, hwhole]
  rfl

end Scope

namespace Shadowing

variable {h : Heap} {n : String}

theorem vars_run (W : Shadowing) (s : Scope) : (W.run h s).vars = s.vars := by
  induction W generalizing s with
  | nil => rfl
  | seq first second ih₁ ih₂ => rw [run, ih₂, ih₁]
  | shadow name v inner ih => rw [run, Scope.vars_restore, ih, Scope.vars_bind, Scope.vars_backup]

theorem root_run (W : Shadowing) (s : Scope) : (W.run h s).root = s.root := by
  induction W generalizing s with
  | nil => rfl
  | seq first second ih₁ ih₂ => rw [run, ih₂, ih₁]
  | shadow name v inner ih => rw [run, Scope.root_restore, ih, Scope.root_bind, Scope.root_backup]

/-- After well-nested shadowings, the value of a name is what it was if the shadowings put back the
plain bindings that its lookup may read, and its method is what it was if no callable was bound to
it, or if a linked object has the method anyway. -/
theorem lookup_run {w : World} {s : Scope} (hs : s.WellFormed w.heap) (W : Shadowing)
    (name : String) :
    ((∀ n ∈ Scope.lookupNames name, W.Shadows n → W.Restores w.heap n (s.binding n)) →
      w.value? (W.run w.heap s) name = w.value? s name) ∧
    ((W.BindsFunc w.heap name → ∃ v ∈ s.vars, (v.methodById? name w.heap).isSome) →
      w.method? (W.run w.heap s) name = w.method? s name) := by
  refine ⟨fun hW => ?_, fun hW => ?_⟩
  · have hplain : ∀ n ∈ Scope.lookupNames name,
        ((W.run w.heap s).binding n).plain = (s.binding n).plain := by
      intro n hn
      rw [binding_run]
      by_cases hshadows : W.Shadows n
      · exact (hW n hn hshadows).plain_eq fun v hv => (hs.fits_of_plain hv).boxed_peel
      · rw [runAt_of_not_shadows hshadows]
    rw [World.value?, World.value?, Scope.ownValue?, Scope.ownValue?,
      Scope.propById?_bindsMap_congr hplain, vars_run, root_run]
  · rw [World.method?, World.method?, Scope.ownMethod?, Scope.ownMethod?, vars_run, root_run]
    by_cases hfunc : W.BindsFunc w.heap name
    · obtain ⟨v, hv, hsome⟩ := hW hfunc
      cases hfound : s.vars.findSome? fun v => v.methodById? name w.heap with
      | some m => rfl
      | none => rw [List.findSome?_eq_none_iff.mp hfound v hv] at hsome; cases hsome
    · have hcaller : Assoc.find? name (W.run w.heap s).callers = Assoc.find? name s.callers :=
        (congrArg Binding.caller (binding_run w.heap name W s)).trans (caller_runAt hfunc)
      rw [hcaller]

/-- A shadowing that binds a callable inside one by a plain value. -/
theorem lookup_run_item :
    let s := (Scope.empty none).bind "item" (.int .word 1) .empty
    let W := shadow "item" (.int .word 2) (shadow "f" (.func ⟨0, "f", none, .plain "", []⟩) nil)
    World.empty.value? (W.run World.empty.heap s) "item" = some (.int .word 1) ∧
      World.empty.method? (W.run World.empty.heap s) "item" = none := by
  intro s W
  have hs : s.WellFormed World.empty.heap := (Scope.WellFormed.empty none).bind _ (.int rfl) _
  obtain ⟨hvalue, hmethod⟩ := lookup_run (w := World.empty) hs W "item"
  have hnames : ∀ n ∈ Scope.lookupNames "item", n = "item" := by decide
  refine ⟨hvalue fun n hn _ => ?_, hmethod fun hfunc => ?_⟩
  · rw [hnames n hn]
    exact .inl ⟨rfl, fun _ _ hinner => by simp [Shadows] at hinner, by simp [Flat]⟩
  · rcases hfunc with ⟨-, hfunc⟩ | ⟨hname, -⟩ | hfunc
    · cases hfunc
    · exact absurd hname (by decide)
    · cases hfunc

/-- Every lookup gives the same before and after. -/
def Undone (w : World) (s : Scope) (W : Shadowing) : Prop :=
  ∀ name, w.value? (W.run w.heap s) name = w.value? s name ∧
    w.method? (W.run w.heap s) name = w.method? s name

/-- A name without a plain binding keeps the one that shadows it, a shadowing inside another one of
the same name takes the saved binding away, and a callable stays bound. -/
theorem not_undone :
    let s := (Scope.empty none).bind "x" (.int .word 0) .empty
    let inner := shadow "x" (.int .word 2) nil
    ¬Undone .empty (.empty none) (shadow "x" (.int .word 1) nil) ∧
      ¬Undone .empty s (shadow "x" (.int .word 1) inner) ∧
      ¬Undone .empty s (shadow "x" (.func ⟨0, "f", none, .plain "", []⟩) nil) := by
  refine ⟨fun hundone => ?_, fun hundone => ?_, fun hundone => ?_⟩
  · exact absurd (hundone "x").1 nofun
  · exact absurd (hundone "x").1 nofun
  · exact absurd (hundone "x").2 nofun

end Shadowing

end DynamicEval
