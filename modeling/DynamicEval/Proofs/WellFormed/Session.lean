import DynamicEval.Proofs.WellFormed.Copy
import DynamicEval.Proofs.WellFormed.Eval

/-!
# Sessions keep what is well-formed

A session holds values in registers and scopes beside a world, and applies operations to them one
after the other. An operation may fail, and what it did until then stays. Whatever is applied in
whatever order, all values, scopes and cells stay well-formed.

## Main definitions

* `Session`, `Operation`: the state, and what can be done to it.
* `Session.step`, `Session.run`: one operation, and several.
* `Session.WellFormed`: the invariant.

## Main results

* `Session.step_wellFormed`: an operation keeps the invariant.
* `Session.run_wellFormed`: a run keeps it.
-/

namespace DynamicEval

/-- Registers and scopes beside a world. -/
structure Session where
  /-- The values in registers. -/
  values : List Value
  /-- The scopes beside the top scopes of roots. -/
  scopes : List Scope
  /-- The world. -/
  world : World

/-- A scope of a session: one of its own or the top scope of a root. -/
inductive ScopeRef where
  | own (i : Nat)
  | top (r : RootId)

/-- What can be done in a session. Values are named by their registers; a value that an operation
gives goes into a new register. -/
inductive Operation where
  /-- The zero of a type. -/
  | zero (t : Ty)
  /-- A new value of a type. -/
  | fresh (t : Ty)
  /-- The value of a document. -/
  | document (d : Document)
  /-- A value coerced into a type. -/
  | coerce (t : Ty) (v : Nat)
  /-- A deep copy of a value. -/
  | deepCopy (v : Nat)
  /-- The value at a path. -/
  | read (v : Nat) (path : List Nat)
  /-- Assigns a value. -/
  | assign (dest v : Nat)
  /-- Appends a value to a list or an array. -/
  | push (dest v : Nat)
  /-- Stores an entry in a map. -/
  | insert (dest k v : Nat)
  /-- Removes an entry of a map, which gives the value it had. -/
  | remove (dest k : Nat)
  /-- Assigns a value to a field of a record. -/
  | setField (dest : Nat) (name : String) (v : Nat)
  /-- Writes a value at a path. -/
  | set (dest v : Nat) (path : List Nat)
  /-- Writes a value at a dotted identifier. -/
  | setById (dest v : Nat) (ident : String)
  /-- Merges a value into another one. -/
  | merge (dest source : Nat)
  /-- Copies a value into another one. -/
  | cloneFrom (dest v : Nat)
  /-- A new root. -/
  | newRoot (config : RootConfig)
  /-- A new scope. -/
  | newScope (root : Option RootId)
  /-- Binds a name. -/
  | bind (s : ScopeRef) (name : String) (v : Nat)
  /-- Removes the bindings of a name. -/
  | unbind (s : ScopeRef) (name : String)
  /-- Saves the binding of a name. -/
  | backup (s : ScopeRef) (name : String)
  /-- Puts back the saved binding of a name. -/
  | restore (s : ScopeRef) (name : String)
  /-- Links a value. -/
  | link (s : ScopeRef) (v : Nat)
  /-- Removes a linked value. -/
  | unlink (s : ScopeRef) (v : Nat)
  /-- Takes a value in. -/
  | absorb (s : ScopeRef) (v : Nat)
  /-- Takes another scope in. -/
  | absorbScope (s other : ScopeRef)
  /-- The value of a text in a scope. -/
  | eval (s : ScopeRef) (text : String)
  /-- The value of a text in the top scope of a root. -/
  | evalTop (r : RootId) (text : String)

namespace Session

variable (s : Session)

/-- The cells of a session. -/
def heap : Heap := s.world.heap

/-- The value in a register; an unused register holds the absent value. -/
def value (i : Nat) : Value := s.values.getD i .invalid

/-- A scope, if there is one. -/
def scope? : ScopeRef → Option Scope
  | .own i => s.scopes[i]?
  | .top r => s.world.top? r

/-- A value in a new register, on a later heap. -/
def add (r : Heap × Value) : Session :=
  { s with values := s.values ++ [r.2], world := { s.world with heap := r.1 } }

/-- A value in a new register, if there is one. -/
def add? (v : Option Value) : Session :=
  match v with
  | some v => s.add (s.heap, v)
  | none => s

/-- The value that a computation gives in a new register, unless it fails. -/
def compute (m : HeapM Value) : Session :=
  match m.run s.heap with
  | .ok (v, h) => s.add (h, v)
  | .error _ => s

/-- The content of a register after a change in place. -/
def edit {α : Type} (i : Nat) (r : Edit α) : Session :=
  { s with values := s.values.set i r.value, world := { s.world with heap := r.heap } }

/-- The value that an action gives in a new register, unless it fails, and the world after it. -/
def act (a : Action Value) : Session :=
  match a.run.run s.world with
  | (.ok v, w) => { s with values := s.values ++ [v], world := w }
  | (.error _, w) => { s with world := w }

/-- Another scope in the place of one, on a later heap. -/
def putScope (ref : ScopeRef) (h : Heap) (scope : Scope) : Session :=
  let w := { s.world with heap := h }
  match ref with
  | .own i => { s with scopes := s.scopes.set i scope, world := w }
  | .top r => { s with world := w.modifyTop r fun _ => scope }

/-- A change of a scope, if it is there. -/
def modifyScope (ref : ScopeRef) (f : Scope → Heap × Scope) : Session :=
  match s.scope? ref with
  | some scope => s.putScope ref (f scope).1 (f scope).2
  | none => s

/-- What an operation makes of a session. -/
def step (host : Host) : Operation → Session
  | .zero t => s.add (s.heap, t.zero)
  | .fresh t => s.add ((t.fresh s.heap).2, (t.fresh s.heap).1)
  | .document d => s.add (s.heap, .ofDocument d)
  | .coerce t v => s.compute (t.coerce (s.value v))
  | .deepCopy v => s.add ((s.value v).deepCopy s.heap)
  | .read v path => s.add? ((s.value v).fieldAt? (path.map s.value) s.heap)
  | .assign dest v => s.edit dest ((s.value dest).assign (s.value v) s.heap)
  | .push dest v => s.edit dest ((s.value dest).push (s.value v) s.heap)
  | .insert dest k v => s.edit dest ((s.value dest).insert (s.value k) (s.value v) s.heap)
  | .remove dest k =>
    let r := (s.value dest).remove (s.value k) s.heap
    (s.edit dest r).add? (r.result.toOption.join)
  | .setField dest name v => s.edit dest ((s.value dest).setField name (s.value v) s.heap)
  | .set dest v path =>
    s.edit dest ((s.value dest).set (s.value v) (path.map s.value) s.heap)
  | .setById dest v ident => s.edit dest ((s.value dest).setById (s.value v) ident s.heap)
  | .merge dest source => s.edit dest ((s.value dest).merge (s.value source) s.heap)
  | .cloneFrom dest v => s.edit dest ((s.value dest).cloneFrom (s.value v) s.heap)
  | .newRoot config => { s with world := (s.world.newRoot config).2 }
  | .newScope root => { s with scopes := s.scopes ++ [.empty root] }
  | .bind ref name v =>
    s.modifyScope ref fun scope => (s.heap, scope.bind name (s.value v) s.heap)
  | .unbind ref name => s.modifyScope ref fun scope => (s.heap, scope.unbind name)
  | .backup ref name => s.modifyScope ref fun scope => (s.heap, scope.backup name)
  | .restore ref name => s.modifyScope ref fun scope => (s.heap, scope.restore name)
  | .link ref v => s.modifyScope ref fun scope => (s.heap, scope.link [s.value v])
  | .unlink ref v => s.modifyScope ref fun scope => (s.heap, scope.unlink (s.value v) s.heap)
  | .absorb ref v => s.modifyScope ref fun scope =>
    let r := scope.absorb (s.value v) s.heap
    (r.1, r.2.1)
  | .absorbScope ref other =>
    match s.scope? other with
    | some other => s.modifyScope ref fun scope =>
      let r := scope.absorbScope other s.heap
      (r.1, r.2.1)
    | none => s
  | .eval ref text =>
    match s.scope? ref with
    | some scope => s.act (scope.eval host text)
    | none => s
  | .evalTop r text => s.act (DynamicEval.evalTop host r text)

/-- What operations make of a session one after the other. -/
def run (host : Host) (s : Session) (ops : List Operation) : Session :=
  ops.foldl (fun s op => s.step host op) s

/-- A session with well-formed values, scopes and cells. -/
structure WellFormed : Prop where
  /-- The world is well-formed. -/
  world : s.world.WellFormed
  /-- The values in registers are well-formed. -/
  values : ∀ v ∈ s.values, v.WellFormed s.heap
  /-- The scopes are well-formed. -/
  scopes : ∀ scope ∈ s.scopes, scope.WellFormed s.heap

namespace WellFormed

variable {s}

theorem value (hs : s.WellFormed) (i : Nat) : (s.value i).WellFormed s.heap := by
  rw [Session.value, List.getD_eq_getElem?_getD]
  cases hv : s.values[i]? with
  | none => exact .invalid
  | some v => exact hs.values v (List.mem_of_getElem? hv)

theorem path (hs : s.WellFormed) (path : List Nat) :
    ∀ v ∈ path.map s.value, v.WellFormed s.heap := by
  intro v hv
  obtain ⟨i, -, rfl⟩ := List.mem_map.mp hv
  exact hs.value i

theorem scope? (hs : s.WellFormed) {ref : ScopeRef} {scope : Scope}
    (hscope : s.scope? ref = some scope) : scope.WellFormed s.heap := by
  cases ref with
  | own i => exact hs.scopes scope (List.mem_of_getElem? hscope)
  | top r => exact hs.world.tops r scope hscope

/-- Another world with other registers and scopes. -/
theorem of_grows (hs : s.WellFormed) {w : World} {values : List Value} {scopes : List Scope}
    (hw : s.world.Grows w) (hvalues : ∀ v ∈ values, v ∈ s.values ∨ v.WellFormed w.heap)
    (hscopes : ∀ scope ∈ scopes, scope ∈ s.scopes ∨ scope.WellFormed w.heap) :
    WellFormed ⟨values, scopes, w⟩ where
  world := hw.wellFormed
  values v hv := (hvalues v hv).elim (fun hv => (hs.values v hv).mono hw.heap) id
  scopes scope hscope :=
    (hscopes scope hscope).elim (fun hscope => (hs.scopes scope hscope).mono hw.heap) id

theorem add (hs : s.WellFormed) {r : Heap × Value} (hh : s.heap.Grows r.1)
    (hv : r.2.WellFormed r.1) : (s.add r).WellFormed := by
  refine hs.of_grows (hs.world.withHeap hh) (fun v hv' => ?_) fun _ => .inl
  rcases List.mem_append.mp hv' with hv' | hv'
  · exact .inl hv'
  · exact .inr (List.mem_singleton.mp hv' ▸ hv)

theorem add? (hs : s.WellFormed) {o : Option Value} (ho : ∀ v, o = some v → v.WellFormed s.heap) :
    (s.add? o).WellFormed := by
  cases o with
  | none => exact hs
  | some v => exact hs.add hs.world.heap.grows (ho v rfl)

theorem compute (hs : s.WellFormed) {m : HeapM Value}
    (hm : m.Keeps s.heap fun h v => v.WellFormed h) : (s.compute m).WellFormed := by
  rw [Session.compute]
  split
  · next v h hrun =>
    obtain ⟨hgrows, hv⟩ := hm v h hrun
    exact hs.add hgrows hv
  · exact hs

theorem edit {α : Type} (hs : s.WellFormed) (i : Nat) {r : Edit α} (hr : r.Sound s.heap) :
    (s.edit i r).WellFormed := by
  refine hs.of_grows (hs.world.withHeap hr.grows) (fun v hv => ?_) fun _ => .inl
  rcases List.mem_or_eq_of_mem_set hv with hv | rfl
  · exact .inl hv
  · exact .inr hr.wellFormed

theorem act (hs : s.WellFormed) {a : Action Value} (ha : a.GivesValue s.world) :
    (s.act a).WellFormed := by
  obtain ⟨hgrows, hv⟩ := ha
  rw [Session.act]
  split
  · next v w hrun =>
    rw [hrun] at hgrows hv
    refine hs.of_grows hgrows (fun u hu => ?_) fun _ => .inl
    rcases List.mem_append.mp hu with hu | hu
    · exact .inl hu
    · exact .inr (List.mem_singleton.mp hu ▸ hv v rfl)
  · next w hrun =>
    rw [hrun] at hgrows
    exact hs.of_grows hgrows (fun _ => .inl) fun _ => .inl

theorem putScope (hs : s.WellFormed) (ref : ScopeRef) {h : Heap} {scope : Scope}
    (hh : s.heap.Grows h) (hscope : scope.WellFormed h) : (s.putScope ref h scope).WellFormed := by
  have hw := hs.world.withHeap hh
  cases ref with
  | own i =>
    refine hs.of_grows hw (fun _ => .inl) fun sc hsc => ?_
    rcases List.mem_or_eq_of_mem_set hsc with hsc | rfl
    · exact .inl hsc
    · exact .inr hscope
  | top r =>
    have htop := hw.wellFormed.modifyTop r fun _ _ => hscope
    exact hs.of_grows (hw.trans htop) (fun _ => .inl) fun _ => .inl

theorem modifyScope (hs : s.WellFormed) (ref : ScopeRef) {f : Scope → Heap × Scope}
    (hf : ∀ scope, scope.WellFormed s.heap → s.heap.Grows (f scope).1 ∧
      (f scope).2.WellFormed (f scope).1) : (s.modifyScope ref f).WellFormed := by
  rw [Session.modifyScope]
  split
  · next scope hscope =>
    obtain ⟨hh, hscope'⟩ := hf scope (hs.scope? hscope)
    exact hs.putScope ref hh hscope'
  · exact hs

/-- A change of a scope that leaves the heap as it is. -/
theorem changeScope (hs : s.WellFormed) (ref : ScopeRef) {f : Scope → Scope}
    (hf : ∀ scope, scope.WellFormed s.heap → (f scope).WellFormed s.heap) :
    (s.modifyScope ref fun scope => (s.heap, f scope)).WellFormed :=
  hs.modifyScope ref fun scope hscope => ⟨hs.world.heap.grows, hf scope hscope⟩

end WellFormed

variable {s} {host : Host}

/-- Every operation keeps values, scopes and cells well-formed. -/
theorem step_wellFormed (hhost : host.Sound) (hs : s.WellFormed) (op : Operation) :
    (s.step host op).WellFormed := by
  have hh := hs.world.heap
  cases op with
  | zero t => exact hs.add hh.grows (t.zero_fits s.heap).wellFormed
  | fresh t =>
    obtain ⟨hgrows, hfits⟩ := t.fresh_fits hh
    exact hs.add hgrows hfits.wellFormed
  | document d => exact hs.add hh.grows (Value.ofDocument_wellFormed d)
  | coerce t v =>
    exact hs.compute ((t.coerce_keeps hh (hs.value v)).imp fun _ _ _ hw => hw.wellFormed)
  | deepCopy v =>
    have hr := Value.deepCopy_copied hh (hs.value v)
    exact hs.add hr.grows hr.wellFormed
  | read v path => exact hs.add? fun _ hw => Value.fieldAt?_wellFormed hh (hs.value v) hw
  | assign dest v => exact hs.edit dest (Value.assign_fits hh (hs.value dest) (hs.value v)).toSound
  | push dest v => exact hs.edit dest (Value.push_sound hh (hs.value dest) (hs.value v))
  | insert dest k v =>
    exact hs.edit dest
      (Value.insert_keeps hh (hs.value dest) (hs.value k) (hs.value v)).toSound
  | remove dest k =>
    obtain ⟨hr, hresult⟩ := Value.remove_keeps (k := s.value k) hh (hs.value dest)
    refine (hs.edit dest hr.toSound).add? fun w hw => (hresult w ?_).mono hr.grows.toExtends
    cases hremoved : ((s.value dest).remove (s.value k) s.heap).result with
    | error e =>
      rw [hremoved] at hw
      cases hw
    | ok o =>
      rw [hremoved] at hw
      exact hremoved.trans (congrArg Except.ok hw)
  | setField dest name v =>
    exact hs.edit dest (Value.setField_keeps hh (hs.value dest) (hs.value v)).toSound
  | set dest v path =>
    exact hs.edit dest (Value.set_fits hh (hs.value dest) (hs.value v) (hs.path path)).toSound
  | setById dest v ident =>
    exact hs.edit dest (Value.setById_fits hh (hs.value dest) (hs.value v)).toSound
  | merge dest source =>
    exact hs.edit dest (Value.merge_keeps hh (hs.value dest) (hs.value source)).toSound
  | cloneFrom dest v =>
    exact hs.edit dest (Value.cloneFrom_fits hh (hs.value dest) (hs.value v)).toSound
  | newRoot config =>
    exact hs.of_grows (hs.world.newRoot config) (fun _ => .inl) fun _ => .inl
  | newScope root =>
    refine hs.of_grows hs.world.grows (fun _ => .inl) fun scope hscope => ?_
    rcases List.mem_append.mp hscope with hscope | hscope
    · exact .inl hscope
    · exact .inr (List.mem_singleton.mp hscope ▸ .empty root)
  | bind ref name v =>
    exact hs.changeScope ref fun scope hscope => hscope.bind name (hs.value v) s.heap
  | unbind ref name => exact hs.changeScope ref fun scope hscope => hscope.unbind name
  | backup ref name => exact hs.changeScope ref fun scope hscope => hscope.backup name
  | restore ref name => exact hs.changeScope ref fun scope hscope => hscope.restore name
  | link ref v =>
    refine hs.changeScope ref fun scope hscope => hscope.link fun w hw => ?_
    exact List.mem_singleton.mp hw ▸ hs.value v
  | unlink ref v =>
    exact hs.changeScope ref fun scope hscope => hscope.unlink (s.value v) s.heap
  | absorb ref v =>
    refine hs.modifyScope ref fun scope hscope => ?_
    have hr := Scope.absorb_absorbed hh hscope (hs.value v)
    exact ⟨hr.grows, hr.wellFormed⟩
  | absorbScope ref other =>
    rw [step]
    split
    · next other hother =>
      refine hs.modifyScope ref fun scope hscope => ?_
      have hr := Scope.absorbScope_absorbed hh hscope (hs.scope? hother)
      exact ⟨hr.grows, hr.wellFormed⟩
    · exact hs
  | eval ref text =>
    rw [step]
    split
    · next scope hscope => exact hs.act (Scope.eval_keeps hhost hs.world (hs.scope? hscope) text)
    · exact hs
  | evalTop r text => exact hs.act (evalTop_keeps hhost hs.world r text)

/-- Whatever operations are applied in whatever order, on a host that keeps what is well-formed, all
values, scopes and cells of a session stay well-formed. -/
theorem run_wellFormed (hhost : host.Sound) (hs : s.WellFormed) (ops : List Operation) :
    (s.run host ops).WellFormed := by
  induction ops generalizing s with
  | nil => exact hs
  | cons op ops ih => exact ih (step_wellFormed hhost hs op)

/-- A session without registers, scopes and roots. -/
def empty : Session := ⟨[], [], .empty⟩

theorem empty_wellFormed : empty.WellFormed where
  world := ⟨nofun, nofun⟩
  values := nofun
  scopes := nofun

end Session

/-- A host that answers every call by its first argument. -/
def Host.first : Host := fun _ _ args => return args.headD .invalid

theorem Host.first_sound : Host.first.Sound := by
  intro routine held args w hw _ hargs
  refine .pure hw ?_
  cases args with
  | nil => exact .invalid
  | cons v args => exact hargs v List.mem_cons_self

/-- A value that is written through a new pointer to a map, and read again by an expression. -/
theorem Session.run_first_wellFormed :
    Host.first.Sound ∧ Session.empty.WellFormed ∧
      (Session.empty.run .first [.fresh (.pointer (.map .string .any)), .document (.string "a"),
        .set 0 1 [1, 1], .newScope none, .bind (.own 0) "x" 0, .eval (.own 0) "x.a.a"]).WellFormed :=
  ⟨Host.first_sound, empty_wellFormed, run_wellFormed Host.first_sound empty_wellFormed _⟩

end DynamicEval
