import DynamicEval.Proofs.Cacheless.Session
import DynamicEval.Proofs.Eval.Targets
import DynamicEval.Proofs.Eval.Texts
import DynamicEval.Proofs.Expr.Rendering
import DynamicEval.Proofs.Token.Literals
import DynamicEval.Root

/-!
# Literals as values

However a text is written as a literal, the literal is scanned as one token for the text, before and
after its rewriting into double quotes, and evaluates to the text.

## Main results

* `Expr.read_of_written`: a literal is read as a tree for its text.
* `World.Faithful.eval_of_written`: its value in a world with faithful caches.
* `Text.literal_carries`: literals carry all texts through scanning and evaluation.
-/

namespace DynamicEval

open Text (isQuote Written protect normalizeQuotes)

variable {q : Char} {s body : List Char}

theorem Expr.read_of_written (hq : isQuote q = true) (h : Written q s body) :
    read (String.ofList (q :: (body ++ [q]))) = .ok (.string (String.ofList s)) := by
  have hheight : (Expr.string (String.ofList s)).height = 1 := rfl
  exact read_of_scans (fun p => ⟨_, h.scanFrom hq p, rfl⟩) trivial (hheight ▸ by decide)

theorem Text.not_isBlank_of_isQuote (hq : isQuote q = true) : isBlank q = false := by
  rcases Lexer.eq_of_isQuote hq with rfl | rfl <;> decide

/-- The value of a literal is its text, if nothing else is remembered for it. -/
theorem run_evalText_of_written (host : Host) {ctx : Context} {w : World} (hq : isQuote q = true)
    (h : Written q s body)
    (hmemory : ∀ e, (ctx.remembered (String.ofList (normalizeQuotes (q :: (body ++ [q])))) w).1 =
      some e → Expr.read (String.ofList (normalizeQuotes (q :: (body ++ [q])))) = .ok e) :
    ((evalText host ctx (String.ofList (q :: (body ++ [q])))).run.run w).1 =
      .ok (.string (String.ofList s)) := by
  obtain ⟨body', hnormal, h'⟩ := h.normalizeQuotes hq
  have hlast : ∀ c, (q :: (body ++ [q])).getLast? = some c → c = q := by
    intro c hc
    rw [List.getLast?_cons, List.getLast?_concat] at hc
    exact (Option.some.inj hc).symm
  have htrim : Text.trim (String.ofList (q :: (body ++ [q]))).toList = q :: (body ++ [q]) := by
    rw [String.toList_ofList]
    exact Text.trim_eq_self (fun c hc => Option.some.inj hc ▸ Text.not_isBlank_of_isQuote hq)
      fun c hc => hlast c hc ▸ Text.not_isBlank_of_isQuote hq
  have hread : Expr.read (String.ofList (normalizeQuotes (q :: (body ++ [q])))) =
      .ok (.string (String.ofList s)) := by
    rw [hnormal]
    exact Expr.read_of_written rfl h'
  obtain ⟨w', hw'⟩ := run_evalText_of_read host (by rw [htrim]; exact List.cons_ne_nil _ _)
    (by rw [htrim]) hread hmemory
  rw [hw', Expr.run_eval_eq_meaning]
  rfl

/-- So it is in every scope and in every root while the caches are faithful. -/
theorem World.Faithful.eval_of_written {w : World} (hw : w.Faithful) (host : Host)
    (hq : isQuote q = true) (h : Written q s body) :
    (∀ scope : Scope, ((scope.eval host (String.ofList (q :: (body ++ [q])))).run.run w).1 =
        .ok (.string (String.ofList s))) ∧
      ∀ r, ((evalTop host r (String.ofList (q :: (body ++ [q])))).run.run w).1 =
        .ok (.string (String.ofList s)) := by
  have heval {ctx : Context} (hctx : ctx.Cacheless) :=
    run_evalText_of_written host hq h fun _ he => hctx.remembered_eq hw he
  refine ⟨fun scope => heval scope.context_cacheless, fun r => ?_⟩
  have hget : (get : Action World).run.run w = (.ok w, w) := rfl
  rw [evalTop, run_bind_run, hget]
  exact heval (topContext_cacheless r _)

/-- **Literals carry all texts.** Every text can be written in quotes of either style, with a
backslash before the backslashes and the quotes in it. However it is written, what stands in quotes
is scanned as one token for the text, also when it is rewritten into double quotes. It evaluates to
the text wherever nothing but what it is read as is remembered for it, and so in every scope and in
every root of a session that starts without caches, whatever is done in it before. -/
theorem Text.literal_carries (hq : isQuote q = true) (s : List Char) :
    Written q s (protect q s) ∧
      ∀ body, Written q s body →
        let text := q :: (body ++ [q])
        (∀ text' ∈ [text, normalizeQuotes text], scan (String.ofList text') =
          .ok [⟨.string (String.ofList s), String.ofList text', 0⟩, ⟨.eof, "", text'.length⟩]) ∧
        (∀ (host : Host) (ctx : Context) (w : World),
          (∀ e, (ctx.remembered (String.ofList (normalizeQuotes text)) w).1 = some e →
            Expr.read (String.ofList (normalizeQuotes text)) = .ok e) →
          ((evalText host ctx (String.ofList text)).run.run w).1 =
            .ok (.string (String.ofList s))) ∧
        ∀ (session : Session) (code : HostCode) (n : Nat) (moves : List Session.Move) (host : Host),
          session.world.caches = #[] →
          let w := (session.play .caching (code.host .caching n) moves).2.world
          (∀ scope : Scope, ((scope.eval host (String.ofList text)).run.run w).1 =
              .ok (.string (String.ofList s))) ∧
            ∀ r, ((evalTop host r (String.ofList text)).run.run w).1 =
              .ok (.string (String.ofList s)) := by
  refine ⟨written_protect hq s, fun body h => ⟨?_, fun host ctx w hmemory =>
    run_evalText_of_written host hq h hmemory, fun session code n moves host hcaches =>
    (Session.play_faithful (World.faithful_of_caches hcaches) code n moves).eval_of_written host hq
      h⟩⟩
  have hscan {q : Char} {body : List Char} (hq : isQuote q = true) (h : Written q s body) :
      scan (String.ofList (q :: (body ++ [q]))) =
        .ok [⟨.string (String.ofList s), String.ofList (q :: (body ++ [q])), 0⟩,
          ⟨.eof, "", (q :: (body ++ [q])).length⟩] := by
    rw [scan, String.toList_ofList, h.scanFrom hq, Nat.zero_add]
  obtain ⟨body', hnormal, h'⟩ := h.normalizeQuotes hq
  rw [hnormal]
  exact List.forall_mem_cons.mpr ⟨hscan hq h, List.forall_mem_singleton.mpr (hscan rfl h')⟩

/-- A text with both quotes, a backslash, a line break and the character zero in single quotes. -/
theorem Text.literal_carries_quotes :
    let s := ['i', 't', '\'', 's', ' ', '"', '\\', '\n', '\x00']
    let body := ['i', 't', '\\', '\'', 's', ' ', '"', '\\', '\\', '\\', 'n', '\x00']
    let text := '\'' :: (body ++ ['\''])
    let host : Host := fun _ _ _ => throw (.host "no routine")
    isQuote '\'' = true ∧ Written '\'' s body ∧
      scan (String.ofList text) =
        .ok [⟨.string (String.ofList s), String.ofList text, 0⟩, ⟨.eof, "", 14⟩] ∧
      ((evalText host (Scope.empty none).context (String.ofList text)).run.run .empty).1 =
        .ok (.string (String.ofList s)) := by
  intro s body text host
  have hbody : Written '\'' s body :=
    .bare (by decide) (by decide) <| .bare (by decide) (by decide) <| .escaped (by decide) <|
    .bare (by decide) (by decide) <| .bare (by decide) (by decide) <|
    .bare (by decide) (by decide) <| .escaped (by decide) <| .escaped (by decide) <|
    .bare (by decide) (by decide) .nil
  obtain ⟨-, hcarries⟩ := Text.literal_carries (q := '\'') rfl s
  obtain ⟨hscan, heval, -⟩ := hcarries body hbody
  exact ⟨rfl, hbody, hscan text List.mem_cons_self, heval host _ _ nofun⟩

end DynamicEval
