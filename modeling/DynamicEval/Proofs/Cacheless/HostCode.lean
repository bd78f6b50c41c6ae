import DynamicEval.Proofs.Cacheless.Eval

/-!
# Host code that evaluates

A routine behind a callable may itself evaluate texts, call callables, make roots and resize caches.
We describe it by a script: a tree of requests, each with a continuation for every answer to it. A
library serves the requests, with caches or without. How deeply calls are nested is bounded, as
nested calls need not come to an end.

Host code sees neither caches nor the log, to which a line is added for every call. An alarm may be
set that looks at the whole world whenever host code gets control, and then logs a line.

## Main definitions

* `Library`: what evaluation offers to host code; `Library.caching` and `Library.cacheless`.
* `Library.alarmed`: a library with an alarm.
* `Request`, `Script`, `HostCode`: what routines do.
* `HostCode.host`: the host of some code on a library.
* `Script.bare`, `HostCode.bare`: code without what has to do with caches.

## Main results

* `Request.serve_mirrors`, `Script.run_mirrors`: requests and scripts with caches and without.
* `HostCode.host_mirrors`: the hosts of the same code mirror each other.
* `HostCode.bare_host`: configurations and sizes of caches play no part without caches.
-/

namespace DynamicEval

/-! ### Libraries -/

/-- What evaluation offers to host code. -/
structure Library where
  /-- The value of a text. -/
  eval : Host → Context → String → Action Value
  /-- A new root. -/
  newRoot : RootConfig → World → RootId × World
  /-- Another cache for a root, of the given capacity. -/
  resize : RootId → Nat → World → World
  /-- What happens when host code gets control. -/
  watch : World → World

namespace Library

/-- Evaluation as it is. -/
def caching : Library where
  eval := evalText
  newRoot config w := w.newRoot config
  resize r capacity w := w.setCacheSize r capacity
  watch w := w

/-- Evaluation that remembers nothing. -/
def cacheless : Library where
  eval := evalAnew
  newRoot _ w := w.addRoot
  resize _ _ w := w
  watch w := w

/-- Evaluation as it is, with an alarm that is logged when it rings. -/
def alarmed (alarm : World → Bool) : Library :=
  { caching with watch := fun w => if alarm w then { w with log := w.log ++ ["alarm"] } else w }

variable (lib : Library)

/-- The value of a text in the top scope of a root, as it is before the evaluation. -/
def evalTop (host : Host) (r : RootId) (text : String) : Action Value := do
  let top := ((← get).top? r).getD (.empty none)
  lib.eval host (topContext r top) text

end Library

/-! ### Scripts -/

/-- What host code may ask for. -/
inductive Request where
  /-- Reads the world, as far as host code sees it. -/
  | look
  /-- Changes cells, the identity of the next callable and the tally. -/
  | store (heap : Heap) (nextIdentity tally : Nat)
  /-- Logs a line. -/
  | print (line : String)
  /-- Replaces the top scope of a root. -/
  | putTop (r : RootId) (top : Scope)
  /-- Makes a root. -/
  | newRoot (config : RootConfig)
  /-- Replaces the cache of a root. -/
  | resize (r : RootId) (capacity : Nat)
  /-- Evaluates a text in a scope. -/
  | eval (s : Scope) (text : String)
  /-- Evaluates a text in the top scope of a root. -/
  | evalTop (r : RootId) (text : String)
  /-- Calls a callable. -/
  | call (f : Callable) (args : List Value)

/-- What is answered to a request. -/
def Request.Answer : Request → Type
  | look => World
  | newRoot _ => RootId
  | eval _ _ | evalTop _ _ | call _ _ => Except Error Value
  | store _ _ _ | print _ | putTop _ _ | resize _ _ => Unit

/-- What a routine does: it ends with a value or a failure, or goes on after a request. -/
inductive Script where
  | done (result : Except Error Value)
  | ask (q : Request) (next : q.Answer → Script)

/-- The world as host code sees it. -/
def World.shown (w : World) : World := { w.bare with log := [] }

/-- The result of an action, which may be a failure, as a value. -/
def Action.attempt {α : Type} (a : Action α) : Action (Except Error α) := ExceptT.lift a.run

section

variable (lib : Library) (host : Host)

/-- What a library does on a request. -/
def Request.serve : (q : Request) → Action q.Answer
  | look => do return (← get).shown
  | store heap nextIdentity tally =>
    modify fun w => { w with heap := heap, nextIdentity := nextIdentity, tally := tally }
  | print line => modify fun w => { w with log := w.log ++ [line] }
  | putTop r top => modify fun w => w.modifyTop r fun _ => top
  | newRoot config => modifyGet (lib.newRoot config)
  | resize r capacity => modify (lib.resize r capacity)
  | eval s text => (lib.eval host s.context text).attempt
  | evalTop r text => (lib.evalTop host r text).attempt
  | call f args => (f.call host args).attempt

/-- A script as an action. -/
def Script.run : Script → Action Value
  | done result => do
    modify lib.watch
    MonadExcept.ofExcept result
  | ask q next => do
    modify lib.watch
    let a ← q.serve lib host
    (next a).run

end

/-- A script without the requests that have to do with caches. -/
def Script.bare : Script → Script
  | done result => done result
  | ask (.resize _ _) next => (next ()).bare
  | ask (.newRoot _) next => ask (.newRoot {}) fun r => (next r).bare
  | ask q next => ask q fun a => (next a).bare

/-- The code of all routines, with the line that is logged when a routine is called. -/
structure HostCode where
  /-- The line for a call. -/
  note : Routine → List Value → List Value → String
  /-- What a routine does on the values held ready for it and on arguments. -/
  script : Routine → List Value → List Value → Script

namespace HostCode

/-- The host of some code on a library, for so many nested calls. -/
def host (code : HostCode) (lib : Library) : Nat → Host
  | 0, _, _, _ => throw (.host "Calls are nested too deeply")
  | n + 1, routine, held, args => do
    modify fun w => { w with log := w.log ++ [code.note routine held args] }
    (code.script routine held args).run lib (code.host lib n)

/-- The code without what has to do with caches. -/
def bare (code : HostCode) : HostCode where
  note := code.note
  script routine held args := (code.script routine held args).bare

end HostCode

/-! ### Host code with and without caches -/

theorem World.bare_shown (w : World) : w.bare.shown = w.shown := by
  rw [shown, bare_bare]
  rfl

theorem Action.Mirrors.attempt {α : Type} {a b : Action α} (hab : a.Mirrors b) :
    a.attempt.Mirrors b.attempt := by
  intro w hw
  obtain ⟨hfaithful, hrun⟩ := hab w hw
  exact ⟨hfaithful, congrArg (fun r : Except Error α × World => (Except.ok r.1, r.2)) hrun⟩

/-- A change of the world that does not fail and gives nothing. -/
theorem Action.Mirrors.change {f g : World → World} (hf : ∀ w, w.Faithful → (f w).Faithful)
    (hg : ∀ w, w.Faithful → g w.bare = (f w).bare) :
    Action.Mirrors (modify f) (modify g) :=
  .modifyGet hf fun w hw => congrArg (Prod.mk ()) (hg w hw)

theorem Action.Mirrors.log (line : String) : Action.Mirrors
    (modify fun w => { w with log := w.log ++ [line] })
    (modify fun w => { w with log := w.log ++ [line] }) :=
  .change (fun _ hw => hw) fun _ _ => rfl

section

variable {alarm : World → Bool} {host host' : Host}

/-- An alarm does not ring in worlds with faithful caches. -/
def World.Silent (alarm : World → Bool) : Prop := ∀ w : World, w.Faithful → alarm w = false

theorem Library.alarmed_watch (halarm : World.Silent alarm) {w : World} (hw : w.Faithful) :
    (alarmed alarm).watch w = w := by
  simp only [alarmed, halarm w hw, Bool.false_eq_true, if_false]

theorem Library.watch_mirrors (halarm : World.Silent alarm) :
    Action.Mirrors (modify (alarmed alarm).watch) (modify cacheless.watch) :=
  .change (fun w hw => by rwa [alarmed_watch halarm hw]) fun w hw => by
    rw [alarmed_watch halarm hw]
    rfl

theorem Library.evalTop_mirrors (hhost : host.Mirrors host') (r : RootId) (text : String) :
    ((alarmed alarm).evalTop host r text).Mirrors (cacheless.evalTop host' r text) := by
  refine .get_bind (k := fun w => (w.top? r).getD (.empty none))
    (f := fun top => evalText host (topContext r top) text)
    (g := fun top => evalAnew host' (topContext r top) text) (fun w => ?_) fun top => ?_
  · rw [World.bare_top?]
  · exact evalText_mirrors hhost (topContext_cacheless r top) text

/-- Requests are served alike with caches and without. -/
theorem Request.serve_mirrors (hhost : host.Mirrors host') (q : Request) :
    (q.serve (.alarmed alarm) host).Mirrors (q.serve .cacheless host') := by
  cases q with
  | look => exact .get_bind World.bare_shown .pure
  | store heap nextIdentity tally => exact .change (fun _ hw => hw) fun _ _ => rfl
  | print line => exact .log line
  | putTop r top => exact .change (fun _ hw => hw) fun w _ => (w.bare_modifyTop r _).symm
  | newRoot config =>
    exact .modifyGet (fun _ hw => hw.newRoot config) fun w _ => w.bare_newRoot config
  | resize r capacity =>
    exact .change (fun _ hw => hw.setCacheSize r capacity) fun w _ =>
      (w.bare_setCacheSize r capacity).symm
  | eval s text => exact (evalText_mirrors hhost s.context_cacheless text).attempt
  | evalTop r text => exact (Library.evalTop_mirrors hhost r text).attempt
  | call f args => exact (CallableOf.call_mirrors hhost f args).attempt

/-- Scripts do the same with caches and without, and a silent alarm is not heard. -/
theorem Script.run_mirrors (halarm : World.Silent alarm) (hhost : host.Mirrors host')
    (script : Script) :
    (script.run (.alarmed alarm) host).Mirrors (script.run .cacheless host') := by
  induction script with
  | done result => exact (Library.watch_mirrors halarm).bind fun _ => .ofExcept result
  | ask q next ih =>
    exact (Library.watch_mirrors halarm).bind fun _ => (Request.serve_mirrors hhost q).bind ih

/-- Calls do the same with caches and without, however deeply they are nested. -/
theorem HostCode.host_mirrors (code : HostCode) (halarm : World.Silent alarm) (n : Nat) :
    (code.host (.alarmed alarm) n).Mirrors (code.host .cacheless n) := by
  induction n with
  | zero => exact fun _ _ _ => .throw _
  | succ n ih =>
    intro routine held args
    exact (Action.Mirrors.log _).bind fun _ =>
      Script.run_mirrors halarm ih (code.script routine held args)

end

/-! ### Code without caches -/

/-- Without caches the requests that have to do with them do nothing. -/
theorem Script.bare_run (host : Host) (script : Script) :
    script.bare.run .cacheless host = script.run .cacheless host := by
  induction script with
  | done result => rfl
  | ask q next ih =>
    have hbind {α : Type} (a : Action α) {f g : α → Action Value} (hfg : ∀ x, f x = g x) :
        (a >>= f) = a >>= g := congrArg _ (funext hfg)
    cases q with
    | resize r capacity => exact (ih ()).trans rfl
    | newRoot config => exact hbind _ fun _ => hbind _ ih
    | look | store _ _ _ | print _ | putTop _ _ | eval _ _ | evalTop _ _ | call _ _ =>
      exact hbind _ fun _ => hbind _ ih

theorem HostCode.bare_host (code : HostCode) (n : Nat) :
    code.bare.host .cacheless n = code.host .cacheless n := by
  induction n with
  | zero => rfl
  | succ n ih =>
    funext routine held args
    rw [host, host, ih, bare, Script.bare_run]

end DynamicEval
