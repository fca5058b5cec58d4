import Hsm.Proofs.Routing
/-!
# What running content leaves

A run of content stops at its first failing command, leaving the bag and outbox of the commands
before it (`Run.Follows`, `execute_follows`); a session routes the outbox only when the whole list
succeeded (`Engine.eval_exec`).
-/

namespace Hsm

namespace Command

/-- What a command does to the data bag, or how it fails. -/
def apply (hooks : Hooks) (e : Event) (d : Data) : Command → Except ContentError Data
  | .assign a =>
    match a.update.apply d e with
    | .ok d' => .ok d'
    | .error reason => .error (.assignFailed a.location reason)
  | .script src =>
    match hooks.script? src with
    | none => .error (.unknownScript src)
    | some none => .ok d
    | some (some reason) => .error (.scriptFailed src reason)
  | _ => .ok d

/-- What a command puts in the outbox of session `session`: a raise an internal event from the
session, a send the action's external event from the session, for the action's target. -/
def outgoing (session : String) : Command → List Outgoing
  | .raise name => [.raise { name, kind := .internal, origin := some session }]
  | .send action => [.send (action.toEvent session) action.target]
  | _ => []

end Command

/-- What running the list `L` from the bag `d` must leave: when no command fails, no failure, the
bag after all the commands in order and the outbox of all of them in order; when one fails, its
failure, and the bag and the outbox that the commands before it leave. -/
def Run.Follows (r : Run) (hooks : Hooks) (session : String) (e : Event) (L : List Command)
    (d : Data) : Prop :=
  (r.error = none ∧ L.foldlM (fun d c => c.apply hooks e d) d = .ok r.data ∧
      r.outbox = L.flatMap (Command.outgoing session)) ∨
    ∃ pre c post err, L = pre ++ c :: post ∧
      pre.foldlM (fun d c => c.apply hooks e d) d = .ok r.data ∧
      c.apply hooks e r.data = .error err ∧ r.error = some err ∧
      r.outbox = pre.flatMap (Command.outgoing session)

section Execute
variable {hooks : Hooks} {session : String} {e : Event}

/-- A command that succeeds: the run goes on from the bag it leaves, after its outgoing events. -/
theorem execute_cons_ok {c : Command} {d d' : Data} (h : c.apply hooks e d = .ok d')
    (cs : List Command) :
    (execute hooks session e (c :: cs) d).error = (execute hooks session e cs d').error ∧
      (execute hooks session e (c :: cs) d).data = (execute hooks session e cs d').data ∧
      (execute hooks session e (c :: cs) d).outbox =
        c.outgoing session ++ (execute hooks session e cs d').outbox := by
  cases c with
  | assign a =>
    simp only [Command.apply] at h
    split at h
    · rename_i hu
      cases h
      simp [execute, hu, Command.outgoing]
    · cases h
  | script src =>
    simp only [Command.apply] at h
    split at h
    · cases h
    · rename_i hs
      cases h
      simp [execute, hs, Command.outgoing]
    · cases h
  | send action => cases h; simp [execute, Command.outgoing]
  | raise name => cases h; simp [execute, Command.outgoing]
  | log label => cases h; simp [execute, Command.outgoing]

/-- A command that fails stops the run: its failure, the bag before it, and nothing more sent. -/
theorem execute_cons_error {c : Command} {d : Data} {err : ContentError}
    (h : c.apply hooks e d = .error err) (cs : List Command) :
    (execute hooks session e (c :: cs) d).error = some err ∧
      (execute hooks session e (c :: cs) d).data = d ∧
      (execute hooks session e (c :: cs) d).outbox = [] := by
  cases c with
  | assign a =>
    simp only [Command.apply] at h
    split at h
    · cases h
    · rename_i reason hu
      cases h
      simp [execute, hu]
  | script src =>
    simp only [Command.apply] at h
    split at h
    · rename_i hs
      cases h
      simp [execute, hs]
    · cases h
    · rename_i reason hs
      cases h
      simp [execute, hs]
  | send action => cases h
  | raise name => cases h
  | log label => cases h

/-- Running content stops at the first failing command, with the bag and the outbox of the
commands before it; without a failure it leaves the bag and the outbox of every command, in
order. -/
theorem execute_follows (L : List Command) (d : Data) :
    (execute hooks session e L d).Follows hooks session e L d := by
  induction L generalizing d with
  | nil => exact .inl ⟨rfl, rfl, rfl⟩
  | cons c cs ih =>
    cases h : c.apply hooks e d with
    | error err =>
      obtain ⟨herr, hd, hout⟩ := @execute_cons_error hooks session e _ _ _ h cs
      refine .inr ⟨[], c, cs, err, rfl, by rw [hd]; rfl, by rw [hd]; exact h, herr, ?_⟩
      rw [hout]
      rfl
    | ok d' =>
      obtain ⟨herr, hd, hout⟩ := @execute_cons_ok hooks session e _ _ _ h cs
      rcases ih d' with ⟨hnone, hfold, hrest⟩ | ⟨pre, c', post, err, hL, hfold, hc, hfail, hrest⟩
      · -- no command fails: the first one's bag and events come before the others'
        refine .inl ⟨herr.trans hnone, ?_, ?_⟩
        · rw [List.foldlM_cons, h, hd]
          exact hfold
        · rw [hout, hrest, List.flatMap_cons]
      · -- a later command fails: the first one joins the commands before it
        refine .inr ⟨c :: pre, c', post, err, by rw [hL, List.cons_append], ?_, hd ▸ hc,
          herr.trans hfail, ?_⟩
        · rw [List.foldlM_cons, h, hd]
          exact hfold
        · rw [hout, hrest, List.flatMap_cons]

end Execute

namespace Engine

/-- Running content for session `me` against the bag of session `owner`: the host sees the
content's effects and the owner's bag is what the content left, then the outbox is routed if no
command failed; if one failed, the step fails with it and nothing is routed. -/
theorem eval_runOn (me owner : Nat) (e : Event) (cmds : List Command) (w : World) :
    let r := execute w.registry.hooks (w.session me).config.name e cmds (w.session owner).data
    let w₁ := { w with effects := w.effects ++ r.effects.toArray }.modifySession owner
      fun o => { o with data := r.data }
    eval (runOn me owner e cmds) w = match r.error with
      | some err => (.error (.content err), w₁)
      | none => (.ok (), r.outbox.foldl (fun u o => u.routeItem me o) w₁) := by
  intro r w₁
  unfold runOn
  rw [eval_bind, eval_get]
  dsimp only
  rw [eval_bind, eval_set]
  dsimp only
  cases r.error with
  | some err => rfl
  | none => exact eval_route me _ _

/-- What a session's content step does: nothing for no commands; otherwise the commands run on
the session's bag for its current event, and their outbox is routed only if none failed. -/
theorem eval_exec (me : Nat) (cmds : List Command) (w : World) :
    eval (exec me cmds) w =
      if cmds = [] then (.ok (), w) else eval (runOn me me (w.session me).event cmds) w := by
  unfold exec
  cases cmds with
  | nil => rfl
  | cons c cs =>
    simp only [List.isEmpty_cons, Bool.false_eq_true, ↓reduceIte, reduceCtorEq]
    rw [eval_bind, eval_current]

theorem internal_modifySession_data (w : World) (me i : Nat) (d : Data) :
    ((w.modifySession me fun o => { o with data := d }).session i).internal =
      (w.session i).internal := by
  by_cases hi : i < w.sessions.size
  · rw [World.session_modifySession w _ _ hi]
    split <;> rfl
  · rw [World.session_modifySession_of_le (Nat.le_of_not_lt hi)]

/-- Content runs its commands in order and stops at the first that fails: the data bag then holds
exactly what the assignments before it wrote, and the outbox exactly what the commands before it
produced; without a failure every assignment has been applied, in order, and the outbox holds an
internal event from the session for each raise and the action's external event from the session,
for its target, for each send, in command order. A session routes the outbox of its content only
when no command failed, item by item; a failing list fails the step and leaves every mailbox and
every internal queue as it was, so nothing it produced is delivered. -/
theorem content_stops_at_first_failure (hooks : Hooks) (session : String) (e : Event)
    (L : List Command) (d : Data) :
    (execute hooks session e L d).Follows hooks session e L d ∧
    (∀ (me : Nat) (w : World),
      let r := execute w.registry.hooks (w.session me).config.name (w.session me).event L
        (w.session me).data
      let w₁ := { w with effects := w.effects ++ r.effects.toArray }.modifySession me
        fun o => { o with data := r.data }
      eval (exec me L) w = if L = [] then (.ok (), w) else match r.error with
        | some err => (.error (.content err), w₁)
        | none => (.ok (), r.outbox.foldl (fun u o => u.routeItem me o) w₁)) ∧
    ∀ (me : Nat) (w w' : World) (err : SessionError), eval (exec me L) w = (.error err, w') →
      w'.mailboxes = w.mailboxes ∧ ∀ i, (w'.session i).internal = (w.session i).internal := by
  refine ⟨execute_follows L d, fun me w => by rw [eval_exec, eval_runOn], ?_⟩
  intro me w w' err h
  rw [eval_exec, eval_runOn] at h
  split at h
  · cases h
  · -- only a failing list fails the step, and it has routed nothing
    split at h
    · cases h
      exact ⟨rfl, fun i => internal_modifySession_data _ me i _⟩
    · cases h

end Engine
end Hsm
