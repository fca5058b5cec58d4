import Hsm.Proofs.Macrostep
import Hsm.Request.Session
/-!
# Host calls leave a session stable

A session is stable when, if it runs, no internal event is queued and no eventless transition is
enabled (`World.Stable`). Every host call keeps it (`HostCall.stable_step`), so an external event
is only ever taken with no internal work pending (`HostCall.stable_run`).
-/

namespace Hsm
namespace Engine
variable {α β : Type} {me : Nat}

theorem stopped_of_keepsStatus {x : Engine α} (hx : Keeps (World.keepsStatus me) x) {w : World}
    (hm : me < w.sessions.size) (hs : (w.session me).isRunning = false) :
    ((eval x w).2.session me).isRunning = false := by
  rw [Session.isRunning, (hx w hm).2]
  exact hs

/-- Failing marks the session failed: after that first change, failing keeps the status. -/
theorem status_fail (err : SessionError) {w : World} (hm : me < w.sessions.size) :
    ((eval (fail me err) w).2.session me).status = .failed := by
  unfold fail
  rw [eval_bind, eval_update]
  rw [((?_ : Keeps (World.keepsStatus me) _) _ (by simpa using hm)).2,
    World.session_modifySession_self _ _ hm]
  refine Keeps.bind (World.keepsStatus me).refl fun s => ?_
  refine Keeps.bind (Keeps.forM fun c _ => keeps_cancelChild _).status fun _ => ?_
  refine Keeps.bind (keepsStatus_update _ fun _ => rfl) fun _ => ?_
  refine Keeps.bind (World.keepsStatus me).refl fun s' => ?_
  have tail : Keeps (World.keepsStatus me) (publish me >>= fun _ => pure err) :=
    Keeps.bind (keeps_publish _).status fun _ => Keeps.pure _
  dsimp only
  split
  · exact Keeps.bind (keeps_modify fun w => World.keeps_sendQuiet w _ _).status fun _ => tail
  · exact tail

theorem stopped_fail (err : SessionError) (w : World) :
    ((eval (fail me err) w).2.session me).isRunning = false := by
  rcases Nat.lt_or_ge me w.sessions.size with h | h
  · simp [Session.isRunning, status_fail err h]
  · simp [fail, eval_bind, World.modifySession_of_le h, World.session_of_le h, publish]

theorem stopped_teardown {w : World} (h : (w.session me).isRunning = false) :
    ((eval (teardown me) w).2.session me).isRunning = false := by
  rcases Nat.lt_or_ge me w.sessions.size with hm | hm
  · exact stopped_of_keepsStatus keepsStatus_teardown hm h
  · simp [teardown, eval_bind, World.modifySession_of_le hm, World.session_of_le hm, publish, sortBy]

theorem stopped_fail_throw (err : SessionError) (w : World) :
    ((eval (fail me err >>= fun e => throw e : Engine Unit) w).2.session me).isRunning = false := by
  have h := @stopped_fail me err w
  rw [eval_bind]
  rcases hf : eval (fail me err) w with ⟨_ | _, w'⟩ <;> simp_all

/-- Settling a step leaves its session stable, provided the step itself did when it succeeded:
a failure stops the session, and so does a stop. -/
theorem settle_stable (r : Except SessionError Unit) {w : World} (hr : r = .ok () → w.Stable me) :
    (eval (settle me r) w).2.Stable me := by
  unfold settle
  cases r with
  | error e => exact World.Stable.of_not_running (stopped_fail_throw e w)
  | ok u =>
    rw [eval_bind, eval_current]
    dsimp only
    split
    · exact hr rfl
    · rename_i hs
      have hd := @stopped_teardown me w (by simpa using hs)
      rw [eval_bind, eval_observe]
      rcases ht : eval (teardown me) w with ⟨_ | _, w'⟩
      · exact World.Stable.of_not_running (stopped_fail_throw _ w')
      · rw [ht] at hd
        exact World.Stable.of_not_running hd

def EndsStable (me : Nat) (x : Engine α) : Prop := ∀ w a w', eval x w = (.ok a, w') → w'.Stable me

theorem EndsStable.bind {x : Engine α} {f : α → Engine β} (hf : ∀ a, EndsStable me (f a)) :
    EndsStable me (x >>= f) := by
  intro w a w' h
  rw [eval_bind] at h
  rcases hx : eval x w with ⟨_ | b, w₁⟩ <;> rw [hx] at h
  · cases h
  · exact hf b w₁ a w' h

theorem endsStable_macrostep : EndsStable me (macrostep me) := by
  intro w a w' h
  have hs := @macrostep_stable me w (by rw [h])
  rwa [h] at hs

theorem endsStable_processExternal (e : Event) : EndsStable me (processExternal me e) := by
  have last (enabled : OrderedSet Nat) : EndsStable me
      (if (!enabled.isEmpty) = true then microstep me enabled.items >>= fun _ => macrostep me
        else macrostep me) := by
    split
    · exact EndsStable.bind fun _ => endsStable_macrostep
    · exact endsStable_macrostep
  unfold processExternal
  dsimp only
  split
  · split
    · exact .bind fun _ => .bind fun _ => .bind fun _ => .bind last
    · exact .bind fun _ => .bind fun _ => .bind last
  · exact .bind fun _ => .bind fun _ => .bind last

theorem endsStable_enterInitial : EndsStable me (enterInitial me) := by
  unfold enterInitial
  refine EndsStable.bind fun s => ?_
  dsimp only
  split
  · exact EndsStable.bind fun _ => endsStable_macrostep
  · exact endsStable_macrostep

theorem stable_settle_observe {x : Engine Unit} (hx : EndsStable me x) (w : World) :
    (eval (observe x >>= settle me) w).2.Stable me := by
  rw [eval_bind, eval_observe]
  exact settle_stable _ fun h => hx w () _ (Prod.ext h rfl)

theorem stable_start (data : Data) {w : World} (hs : w.Stable me) : (eval (start me data) w).2.Stable me := by
  unfold start
  rw [eval_bind, eval_current]
  dsimp only
  split
  · exact hs
  · rw [eval_bind, eval_update]
    exact stable_settle_observe endsStable_enterInitial _

theorem stable_handle (env : Envelope) {w : World} (hs : w.Stable me) :
    (eval (handle me env) w).2.Stable me := by
  unfold handle
  rw [eval_bind, eval_current]
  dsimp only
  split
  · exact hs
  · rename_i hr
    have hm : me < w.sessions.size := World.lt_of_isRunning (by simpa using hr)
    split
    · rw [eval_bind, eval_update]
      exact settle_stable _ fun _ => World.Stable.of_not_running (by simp [hm, Session.isRunning])
    · exact stable_settle_observe (endsStable_processExternal _) _

end Engine

def World.steady (me : Nat) : WorldOrder where
  rel w w' := w.Stable me → w'.Stable me
  refl _ := id
  trans h₁ h₂ := h₂ ∘ h₁

namespace World
variable {me : Nat}

theorem steady_wake (w : World) (t : Nat) : (World.steady me).rel w (w.wake t) := by
  intro hs
  unfold wake
  split
  · have h := hs.modifySession (i := t) (f := fun s => { s with drive := .ready }) fun _ hr => ⟨hr, id⟩
    simpa [Stable, session] using h
  · exact hs

theorem steady_post {w w' : World} {m : Nat} {env : Envelope} (h : w.post m env = .ok w') :
    (World.steady me).rel w w' := by
  unfold post at h
  dsimp only at h
  split at h
  · cases h
  · split at h <;> cases h
    · exact fun hs => steady_wake _ _ hs
    · exact id

end World

namespace Engine
variable {me : Nat}

theorem steady_post (m : Nat) (env : Envelope) : Keeps (World.steady me) (post m env) := by
  intro w
  simp only [post, eval_bind, eval_get]
  split
  · exact World.steady_post ‹_›
  · exact id

theorem steady_deliver (e : Event) {target : Option String} (ht : target ≠ some "_internal") :
    Keeps (World.steady me) (deliver me e target) := by
  intro w
  rcases deliver_cases me e ht w with ⟨m, env, h⟩ | ⟨link, h⟩ | ⟨err, h⟩ <;> rw [h]
  · exact steady_post m env w
  · split
    · exact World.steady_post ‹_›
    · exact id
  · exact id

theorem stable_sendTo (e : Event) (target : String) {w : World} (hs : w.Stable me) :
    (eval (sendTo me e target) w).2.Stable me := by
  unfold sendTo
  rw [eval_bind]
  by_cases hi : target = "_internal"
  · subst hi
    rw [eval_deliver_internal, raiseInternal, eval_update]
    dsimp only
    rw [eval_bind, eval_current]
    dsimp only
    split
    · exact stable_settle_observe endsStable_macrostep _
    · rename_i hr
      exact World.Stable.of_not_running (by simpa using hr)
  · have hd : (eval (deliver me e (some target)) w).2.Stable me :=
      steady_deliver e (by simpa using hi) w hs
    rcases h : eval (deliver me e (some target)) w with ⟨_ | _, w'⟩
    · rwa [h] at hd
    · rw [h] at hd
      simp [hi, hd]

theorem stable_runQueued (n : Nat) {w : World} (hs : w.Stable me) :
    (eval (runQueued me n) w).2.Stable me := by
  induction n generalizing w with
  | zero => exact hs
  | succ n ih =>
    unfold runQueued
    rw [eval_bind, eval_current]
    dsimp only
    split
    · exact hs
    · simp only [eval_bind, eval_get, eval_current, eval_set]
      have ht : (w.take (w.session me).mailbox).2.Stable me := by
        simpa [World.Stable, World.session_take] using hs
      split
      · exact ht
      · rw [eval_bind]
        have hh := stable_handle ‹Envelope› ht
        rcases h : eval (handle me _) _ with ⟨_ | _, w'⟩ <;> rw [h] at hh
        · exact hh
        · exact ih hh

theorem stable_runPending {w : World} (hs : w.Stable me) : (eval (runPending me) w).2.Stable me := by
  have he : (eval (ensureStarted me) w).2 = w := by
    simp only [ensureStarted, eval_bind, eval_current]
    split <;> rfl
  unfold runPending
  rw [eval_bind]
  rcases h : eval (ensureStarted me) w with ⟨_ | _, w'⟩ <;> rw [h] at he <;> subst he
  · exact hs
  · exact stable_runQueued _ hs

theorem steady_send (e : Event) : Keeps (World.steady me) (send me e) :=
  Keeps.bind (World.steady me).refl fun _ => steady_post _ _

theorem steady_cancel : Keeps (World.steady me) (cancel me) :=
  Keeps.bind (World.steady me).refl fun _ => steady_post _ _

end Engine

/-- The calls a host makes on a session it drives: start it, queue an event or the request to
stop, handle what is queued, handle one envelope it received, or route an event as content
would. -/
inductive HostCall where
  | start (data : Data)
  | send (e : Event)
  | cancel
  | runPending
  | handle (env : Envelope)
  | sendTo (e : Event) (target : String)

namespace HostCall
open Engine
variable {me : Nat}

/-- The step a host call takes on session `me`. -/
def step (me : Nat) : HostCall → Engine Unit
  | .start data => Engine.start me data
  | .send e => Engine.send me e
  | .cancel => Engine.cancel me
  | .runPending => Engine.runPending me
  | .handle env => Engine.handle me env
  | .sendTo e target => Engine.sendTo me e target

/-- The world after a sequence of host calls; a call that fails returns its error to the host,
which goes on with the next. -/
def run (me : Nat) : List HostCall → World → World
  | [], w => w
  | c :: cs, w => run me cs (eval (c.step me) w).2

theorem stable_step (c : HostCall) {w : World} (hs : w.Stable me) : (eval (c.step me) w).2.Stable me := by
  cases c with
  | start data => exact stable_start data hs
  | send e => exact steady_send e w hs
  | cancel => exact steady_cancel w hs
  | runPending => exact stable_runPending hs
  | handle env => exact stable_handle env hs
  | sendTo e target => exact stable_sendTo e target hs

theorem stable_run (cs : List HostCall) {w : World} (hs : w.Stable me) : (run me cs w).Stable me := by
  induction cs generalizing w with
  | nil => exact hs
  | cons c cs ih => exact ih (c.stable_step hs)

end HostCall

/-- A document of two states under the root: the event `go` takes `a` to `b`, and `b` falls
back to `a` at once by an eventless transition. -/
def bounceDoc : Document :=
  ⟨#[{ id := "$root", mode := .compound, order := 0, depth := -1, children := [1, 2],
        descendants := [1, 2], initial := some 0 },
      { id := "a", mode := .atomic, order := 1, depth := 0, parent := some 0, ancestors := [0],
        transitions := [1] },
      { id := "b", mode := .atomic, order := 3, depth := 0, parent := some 0, ancestors := [0],
        transitions := [2] }],
    #[{ source := 0, targets := [1], events := [], kind := .external, cond := none, content := [],
        order := 0 },
      { source := 1, targets := [2], events := ["go"], kind := .external, cond := none, content := [],
        order := 2 },
      { source := 2, targets := [1], events := [], kind := .external, cond := none, content := [],
        order := 4 }],
    #[]⟩

namespace Engine

/-- A macrostep fires at most its budget of microsteps: it fails on its limit exactly when its loop
would fire one more; it succeeds exactly when the loop comes to rest within the budget, leaving a
running session with no internal event queued and no eventless transition enabled; it fails
otherwise only on a guard or content. So every run of host calls from a stable session, one that
does not run yet among them, leaves it stable after every call. -/
theorem macrostep_settles_within_budget (me : Nat) (w : World) :
    ((eval (macrostep me) w).1 = .error (.microstepLimit (w.session me).config.maxMicrosteps) ↔
      ∃ w₁ en w₂, Turns me w (w.session me).config.maxMicrosteps w₁ ∧ Look me w₁ (.fire en w₂)) ∧
    ((eval (macrostep me) w).1 = .ok () ↔
      ∃ n ≤ (w.session me).config.maxMicrosteps, ∃ w₁ b w₂, Turns me w n w₁ ∧ Look me w₁ (.rest b w₂)) ∧
    (∀ e, (eval (macrostep me) w).1 = .error e →
      e = .microstepLimit (w.session me).config.maxMicrosteps ∨ e.IsGuard ∨ e.IsContent) ∧
    ((eval (macrostep me) w).1 = .ok () → (eval (macrostep me) w).2.Stable me) ∧
    (∀ cs, w.Stable me → (HostCall.run me cs w).Stable me) :=
  ⟨macrostep_limit_iff w, macrostep_ok_iff w, fun _ => macrostep_error w, macrostep_stable w,
    fun cs => HostCall.stable_run cs⟩

/-- The host's session on `bounceDoc`, started and sent `go` twice (queued, then raised
internally), is running in `a` again at the end, and stable. -/
theorem bounce_session_stable_after_calls :
    let w := HostCall.run 0 [.start {}, .send { name := "go" }, .runPending,
      .sendTo { name := "go" } "_internal"] (Request.hostWorld bounceDoc { name := "bounce" } {} false)
    (w.session 0).status = .running ∧ (w.session 0).configuration.items = [1] ∧ w.Stable 0 :=
  ⟨by decide +kernel, by decide +kernel,
    (macrostep_settles_within_budget 0 _).2.2.2.2 _ (World.Stable.of_not_running rfl)⟩

end Engine
end Hsm
