import DynamicEval.Proofs.Cacheless.HostCode
import DynamicEval.Proofs.WellFormed.Session

/-!
# Sessions without caches

The cache of expressions cannot be observed. A session whose operations may evaluate texts, while
caches are resized between them and by the callables that they call, keeps its caches faithful and
gives the same answers as one that reads every text anew, with the same calls. So it does not matter
which capacities and policies caches have, and when they are resized.

## Main definitions

* `Session.Move`, `Session.move`, `Session.play`: runs with answers, on a library.
* `Session.Move.bare?`, `Session.bare`: moves and sessions without what has to do with caches.

## Main results

* `Session.move_caching`: with caches, an operation does what `Session.step` says.
* `Session.move_mirrors`: a move does the same with caches and without.
* `Session.play_mirrors`: so does a run.
* `Session.play_faithful`: caches stay faithful in a run.
* `Session.play_caching`: the cache of expressions cannot be observed.
-/

namespace DynamicEval

/-- Whether an operation has nothing to do with caches: it is no evaluation and makes no root. -/
def Operation.sparesCaches : Operation → Bool
  | newRoot _ | eval _ _ | evalTop _ _ => false
  | _ => true

namespace Session

/-- What is done in a run: an operation, or a cache is resized. -/
inductive Move where
  | operation (op : Operation)
  | resize (r : RootId) (capacity : Nat)

section

variable (lib : Library) (host : Host) (s : Session)

/-- An evaluation with its answer. -/
def answer (a : Action Value) : List (Except Error Value) × Session :=
  ([(a.run.run s.world).1], s.act a)

/-- A move on a library, with its answer if it is an evaluation. -/
def move : Move → List (Except Error Value) × Session
  | .operation (.eval ref text) =>
    match s.scope? ref with
    | some scope => s.answer (lib.eval host scope.context text)
    | none => ([], s)
  | .operation (.evalTop r text) => s.answer (lib.evalTop host r text)
  | .operation (.newRoot config) =>
    ([], { s with world := (lib.newRoot config s.world).2 })
  | .operation op => ([], s.step host op)
  | .resize r capacity => ([], { s with world := lib.resize r capacity s.world })

/-- Moves one after the other, with the answers to all evaluations. -/
def play (s : Session) : List Move → List (Except Error Value) × Session
  | [] => ([], s)
  | m :: moves =>
    let first := s.move lib host m
    let rest := first.2.play moves
    (first.1 ++ rest.1, rest.2)

variable {lib host s} in
theorem move_of_sparesCaches {op : Operation} (hop : op.sparesCaches = true) :
    s.move lib host (.operation op) = ([], s.step host op) := by
  cases op with
  | newRoot _ | eval _ _ | evalTop _ _ => cases hop
  | _ => rfl

/-- With caches, an operation does what a step does. -/
theorem move_caching (op : Operation) :
    (s.move .caching host (.operation op)).2 = s.step host op := by
  cases op with
  | eval ref text =>
    rw [move, step]
    cases s.scope? ref <;> rfl
  | _ => rfl

end

/-- A session without its caches. -/
def bare (s : Session) : Session := { s with world := s.world.bare }

/-- A move without what has to do with caches, unless there is nothing else to it. -/
def Move.bare? : Move → Option Move
  | operation (.newRoot _) => some (operation (.newRoot {}))
  | operation op => some (operation op)
  | resize _ _ => none

/-! ### Operations that use no caches -/

/-- From `s` to `t` no cache is changed, and `t'` is `t` without caches. -/
structure Spares (s t t' : Session) : Prop where
  /-- The caches are the same. -/
  caches : t.world.caches = s.world.caches
  /-- The other session is the same but for caches. -/
  bare : t' = t.bare

section

variable {s : Session}

@[simp] theorem bare_scope? (s : Session) (ref : ScopeRef) : s.bare.scope? ref = s.scope? ref := by
  cases ref with
  | own i => rfl
  | top r => exact congrFun s.world.bare_top? r

theorem Spares.add? (o : Option Value) : s.Spares (s.add? o) (s.bare.add? o) := by
  cases o <;> exact ⟨rfl, rfl⟩

theorem Spares.compute (m : HeapM Value) : s.Spares (s.compute m) (s.bare.compute m) := by
  have hheap : s.bare.heap = s.heap := rfl
  rw [Session.compute, Session.compute, hheap]
  split <;> exact ⟨rfl, rfl⟩

theorem Spares.modifyScope (ref : ScopeRef) (f : Scope → Heap × Scope) :
    s.Spares (s.modifyScope ref f) (s.bare.modifyScope ref f) := by
  rw [Session.modifyScope, Session.modifyScope, bare_scope?]
  split
  · next scope _ =>
    cases ref with
    | own i => exact ⟨rfl, rfl⟩
    | top r =>
      refine ⟨rfl, congrArg (Session.mk s.values s.scopes) ?_⟩
      exact (World.bare_modifyTop { s.world with heap := (f scope).1 } r _).symm
  · exact ⟨rfl, rfl⟩

/-- An operation that has nothing to do with caches changes none, and does the same without them. -/
theorem step_spares (s : Session) (host host' : Host) {op : Operation}
    (hop : op.sparesCaches = true) : s.Spares (s.step host op) (s.bare.step host' op) := by
  cases op with
  | newRoot _ | eval _ _ | evalTop _ _ => cases hop
  | read v path => exact .add? _
  | coerce t v => exact .compute _
  | remove dest k =>
    let r := (s.value dest).remove (s.value k) s.heap
    obtain ⟨hcaches, hbare⟩ := Spares.add? (s := s.edit dest r) r.result.toOption.join
    exact ⟨hcaches, hbare⟩
  | bind ref _ _ | unbind ref _ | backup ref _ | restore ref _ | link ref _ | unlink ref _
  | absorb ref _ => exact .modifyScope ref _
  | absorbScope ref other =>
    rw [step, step, bare_scope?]
    split
    · exact .modifyScope ref _
    · exact ⟨rfl, rfl⟩
  | _ => exact ⟨rfl, rfl⟩

end

/-! ### Moves and runs -/

section

variable {host host' : Host} {s : Session}

/-- An evaluation gives the same answer with caches and without. -/
theorem answer_mirrors {a b : Action Value} (hab : a.Mirrors b) (hs : s.world.Faithful) :
    (s.answer a).2.world.Faithful ∧ s.bare.answer b = ((s.answer a).1, (s.answer a).2.bare) := by
  obtain ⟨hfaithful, hrun⟩ := hab s.world hs
  have hb : b.run.run s.bare.world = ((a.run.run s.world).1, (a.run.run s.world).2.bare) := hrun
  rw [answer, answer, act, act, hb]
  generalize a.run.run s.world = r at hfaithful ⊢
  rcases r with ⟨e | v, w⟩ <;> exact ⟨hfaithful, rfl⟩

/-- A move gives the same answer with caches and without, and keeps them faithful. -/
theorem move_mirrors (alarm : World → Bool) (hhost : host.Mirrors host') (hs : s.world.Faithful)
    (m : Move) :
    (s.move (.alarmed alarm) host m).2.world.Faithful ∧ s.bare.move .cacheless host' m =
      ((s.move (.alarmed alarm) host m).1, (s.move (.alarmed alarm) host m).2.bare) := by
  cases m with
  | resize r capacity =>
    refine ⟨hs.setCacheSize r capacity, congrArg (fun w => ([], { s with world := w })) ?_⟩
    exact (s.world.bare_setCacheSize r capacity).symm
  | operation op =>
    by_cases hop : op.sparesCaches = true
    · obtain ⟨hcaches, hbare⟩ := s.step_spares host host' hop
      rw [move_of_sparesCaches hop, move_of_sparesCaches hop, hbare]
      exact ⟨by rwa [World.Faithful, hcaches], rfl⟩
    cases op with
    | eval ref text =>
      rw [move, move, bare_scope?]
      split
      · next scope _ =>
        exact answer_mirrors (evalText_mirrors hhost scope.context_cacheless text) hs
      · exact ⟨hs, rfl⟩
    | evalTop r text => exact answer_mirrors (Library.evalTop_mirrors hhost r text) hs
    | newRoot config =>
      have hroot : s.bare.world.addRoot.2 = (s.world.newRoot config).2.bare :=
        congrArg Prod.snd (s.world.bare_newRoot config)
      refine ⟨hs.newRoot config, ?_⟩
      rw [move, Library.cacheless, hroot]
      rfl
    | _ => exact absurd rfl hop

/-- A run gives the same answers with caches and without, and keeps them faithful. -/
theorem play_mirrors (alarm : World → Bool) (hhost : host.Mirrors host') (hs : s.world.Faithful)
    (moves : List Move) :
    (s.play (.alarmed alarm) host moves).2.world.Faithful ∧
      s.bare.play .cacheless host' moves = ((s.play (.alarmed alarm) host moves).1,
        (s.play (.alarmed alarm) host moves).2.bare) := by
  induction moves generalizing s with
  | nil => exact ⟨hs, rfl⟩
  | cons m moves ih =>
    obtain ⟨hfaithful, hmove⟩ := move_mirrors alarm hhost hs m
    obtain ⟨hfaithful, hrest⟩ := ih hfaithful
    refine ⟨hfaithful, ?_⟩
    rw [play, play, hmove, hrest]

end

/-- Without caches the moves that have to do with them do nothing. -/
theorem play_bare (host : Host) (s : Session) (moves : List Move) :
    s.play .cacheless host (moves.filterMap Move.bare?) = s.play .cacheless host moves := by
  induction moves generalizing s with
  | nil => rfl
  | cons m moves ih =>
    cases m with
    | resize r capacity => exact ih s
    | operation op =>
      have hrest (op : Operation) (hop : Move.bare? (.operation op) = some (.operation op)) :
          s.play .cacheless host ((Move.operation op :: moves).filterMap Move.bare?) =
            s.play .cacheless host (.operation op :: moves) := by
        rw [List.filterMap_cons_some hop, play, play, ih]
      cases op with
      | newRoot config =>
        rw [List.filterMap_cons_some (rfl : Move.bare? _ = some _), play, play, ih]
        rfl
      | _ => exact hrest _ rfl

/-- In a run with caches they stay faithful. -/
theorem play_faithful {s : Session} (hs : s.world.Faithful) (code : HostCode) (n : Nat)
    (moves : List Move) :
    (s.play .caching (code.host .caching n) moves).2.world.Faithful := by
  have hsilent : World.Silent fun _ => false := fun _ _ => rfl
  exact (play_mirrors (fun _ => false) (code.host_mirrors hsilent n) hs moves).1

/-- **The cache of expressions cannot be observed.** In a run with faithful caches every cached
expression stays what its text is read as, and the answers to all evaluations, the calls that are
logged and all that is left are those of a run that reads every text anew. An alarm that rings only
when a cache is not faithful is never heard, also not by host code. Two runs that differ only in the
capacities and policies of caches, in their contents and in when they are resized give the same
answers. -/
theorem play_caching {s : Session} (hs : s.world.Faithful) (code : HostCode) (n : Nat)
    (moves : List Move) :
    let r := s.play .caching (code.host .caching n) moves
    r.2.world.Faithful ∧
      s.bare.play .cacheless (code.host .cacheless n) moves = (r.1, r.2.bare) ∧
      (∀ alarm, World.Silent alarm →
        let r' := s.play (.alarmed alarm) (code.host (.alarmed alarm) n) moves
        r'.1 = r.1 ∧ r'.2.bare = r.2.bare) ∧
      ∀ (code' : HostCode) (s' : Session) (moves' : List Move), s'.world.Faithful →
        code'.bare = code.bare → s'.bare = s.bare →
        moves'.filterMap Move.bare? = moves.filterMap Move.bare? →
        let r' := s'.play .caching (code'.host .caching n) moves'
        r'.1 = r.1 ∧ r'.2.bare = r.2.bare := by
  have hplay {alarm : World → Bool} (halarm : World.Silent alarm) {s : Session}
      (hs : s.world.Faithful) (code : HostCode) (moves : List Move) :=
    play_mirrors alarm (code.host_mirrors halarm n) hs moves
  have hsilent : World.Silent fun _ => false := fun _ _ => rfl
  obtain ⟨hfaithful, hrun⟩ := hplay hsilent hs code moves
  refine ⟨hfaithful, hrun, fun alarm halarm => ?_, fun code' s' moves' hs' hcode hbare hmoves => ?_⟩
  · obtain ⟨-, hrun'⟩ := hplay halarm hs code moves
    exact Prod.mk.inj (hrun'.symm.trans hrun)
  · obtain ⟨-, hrun'⟩ := hplay hsilent hs' code' moves'
    -- Without caches both runs are that of the same moves and the same code from the same session.
    rw [← play_bare, ← code'.bare_host, hcode, hbare, hmoves, code.bare_host, play_bare] at hrun'
    exact Prod.mk.inj (hrun'.symm.trans hrun)

/-- Code whose routines evaluate a text twice and replace the cache in between. -/
def evaluatesTwice (capacity : Nat) : HostCode where
  note _ _ _ := "call"
  script _ _ _ :=
    .ask (.evalTop 0 "1 + 1") fun _ => .ask (.resize 0 capacity) fun _ =>
      .ask (.evalTop 0 "1 + 1") fun result => .done result

/-- A session with a callable and a scope. -/
def withCallable : Session :=
  ⟨[.func ⟨0, "f", none, .plain "f", []⟩], [.empty (some 0)], .empty⟩

/-- Two calls of the callable, one of them within a sum. -/
def calls (config : RootConfig) : List Move :=
  [.operation (.newRoot config), .operation (.bind (.own 0) "f" 0),
    .operation (.eval (.own 0) "f() + 1"), .operation (.eval (.own 0) "f()")]

/-- An alarm that rings when a text in a cache cannot be read. -/
def unreadable (w : World) : Bool :=
  w.caches.any fun c => c.entries.any fun e => (Expr.read e.1).toOption.isNone

theorem unreadable_silent : World.Silent unreadable := by
  intro w hw
  refine Array.any_eq_false.mpr fun i hi hrings => ?_
  obtain ⟨e, he, hnone⟩ := List.any_eq_true.mp hrings
  rw [hw _ (Array.getElem_mem hi) e he] at hnone
  cases hnone

/-- The callable is called twice, whatever the sizes and policies of the caches. -/
theorem play_calls :
    withCallable.world.Faithful ∧
      let r := withCallable.play .caching ((evaluatesTwice 1).host .caching 2) (calls ⟨1, .fifo⟩)
      r.2.world.log = ["call", "call"] ∧
        r.2.world.Faithful ∧
        withCallable.bare.play .cacheless ((evaluatesTwice 1).host .cacheless 2)
          (calls ⟨1, .fifo⟩) = (r.1, r.2.bare) ∧
        (let r' := withCallable.play (.alarmed unreadable)
          ((evaluatesTwice 1).host (.alarmed unreadable) 2) (calls ⟨1, .fifo⟩)
        r'.1 = r.1 ∧ r'.2.bare = r.2.bare) ∧
        let r' := withCallable.play .caching ((evaluatesTwice 0).host .caching 2)
          (.resize 0 7 :: calls ⟨0, .lru⟩)
        r'.1 = r.1 ∧ r'.2.bare = r.2.bare := by
  have hs : withCallable.world.Faithful := nofun
  obtain ⟨hfaithful, hrun, halarm, halike⟩ :=
    play_caching hs (evaluatesTwice 1) 2 (calls ⟨1, .fifo⟩)
  refine ⟨hs, by decide +kernel, hfaithful, hrun, halarm _ unreadable_silent, ?_⟩
  exact halike (evaluatesTwice 0) withCallable (.resize 0 7 :: calls ⟨0, .lru⟩) hs rfl rfl rfl

end Session

end DynamicEval
