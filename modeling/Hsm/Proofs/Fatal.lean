import Hsm.Proofs.Link
/-!
# Refused calls and fatal errors

A refused host call leaves the world as it was (`SessionCall.refused_changes_nothing`); any other
error fails the session as the call's last act and tells the invoking session once, after what
content had sent it (`SessionCall.fatal_fails_session`). A stopped session stays as it is
(`SessionCall.keeps_run_stopped`).
-/

namespace Hsm

def SessionError.isRefusal : SessionError → Bool
  | .notStarted | .alreadyStarted | .closed | .undeliverable _ => true
  | _ => false

/-- Errors that stop a session: failing content, a failing guard, too many microsteps. -/
def SessionError.IsFatal (e : SessionError) : Prop :=
  e.IsContent ∨ e.IsGuard ∨ ∃ n, e = .microstepLimit n

theorem SessionError.IsFatal.not_refusal {e : SessionError} (h : e.IsFatal) : e.isRefusal = false := by
  rcases h with ⟨c, rfl⟩ | ⟨st, r, rfl⟩ | ⟨n, rfl⟩ <;> rfl

theorem World.lt_of_status_ne_idle {w : World} {me : Nat} (h : (w.session me).status ≠ .idle) :
    me < w.sessions.size := by
  rcases Nat.lt_or_ge me w.sessions.size with h' | h'
  · exact h'
  · simp [World.session_of_le h', default] at h

namespace Engine
variable {me : Nat} {D : Document} {α : Type}

/-- The session failed with error `e` as the last act of a step from `w` to `w'`: the error is
fatal, and `fail` ran on a world that the link reached keeping to what content sent. -/
def FailedFrom (me : Nat) (w : World) (e : SessionError) (w' : World) : Prop :=
  e.IsFatal ∧ ∃ w₁, (World.linkSends me (w.session me).doc).rel w w₁ ∧ eval (fail me e) w₁ = (.ok e, w')

def FailsVia (me : Nat) (x : Engine α) : Prop :=
  ∀ w e w', eval x w = (.error e, w') → FailedFrom me w e w'

/-- Every error of the step either refuses it, leaving the world as it was, or fails the session
as its last act. -/
def Answers (me : Nat) (x : Engine α) : Prop :=
  ∀ w e w', eval x w = (.error e, w') → (e.isRefusal = true ∧ w' = w) ∨ FailedFrom me w e w'

theorem finalizeAndForward_fatal (e : Event) :
    FailsWith SessionError.IsFatal (finalizeAndForward me e) := by
  unfold finalizeAndForward
  refine FailsWith.bind (failsWith_current _) fun s => FailsWith.forM fun st _ => FailsWith.forM fun n _ => ?_
  split
  · rename_i node _
    have forward : FailsWith SessionError.IsFatal
        (if node.autoforward = true then autoforward me node.id e else pure ()) := by
      split
      · unfold autoforward
        refine FailsWith.bind (failsWith_current _) fun s => ?_
        split
        · split
          · exact FailsWith.modify _
          · exact FailsWith.pure _
        · exact FailsWith.pure _
      · exact FailsWith.pure _
    dsimp only
    split
    · refine FailsWith.bind ?_ fun _ => forward
      unfold applyFinalize
      split
      · exact FailsWith.pure _
      · refine FailsWith.bind (failsWith_current _) fun s => ?_
        split
        · exact failsWith_update _ _
        · exact (runOn_error _ _ _ _).mono fun _ h => .inl h
    · exact forward
  · exact FailsWith.pure _

theorem macrostep_fatal : FailsWith SessionError.IsFatal (macrostep me) := by
  intro w e w' h
  rcases @macrostep_error me w e (by rw [h]) with h | h | h
  · exact .inr (.inr ⟨_, h⟩)
  · exact .inr (.inl h)
  · exact .inl h

theorem processExternal_fatal (e : Event) : FailsWith SessionError.IsFatal (processExternal me e) := by
  have rest : FailsWith SessionError.IsFatal (do
      update me fun s => { s with event := e }
      finalizeAndForward me e
      let enabled ← selectCurrent me
      if !enabled.isEmpty then microstep me enabled.items
      macrostep me) := by
    refine FailsWith.bind (failsWith_update _ _) fun _ => FailsWith.bind
      (finalizeAndForward_fatal _) fun _ => FailsWith.bind
      ((selectCurrent_error _).mono fun _ h => .inr (.inl h)) fun en => ?_
    split
    · exact FailsWith.bind ((microstep_error _ _).mono fun _ h => .inl h) fun _ => macrostep_fatal
    · exact macrostep_fatal
  unfold processExternal
  split
  · split
    · exact FailsWith.bind (failsWith_update _ _) fun _ => rest
    · exact rest
  · exact rest

theorem enterInitial_fatal : FailsWith SessionError.IsFatal (enterInitial me) := by
  unfold enterInitial
  refine FailsWith.bind (failsWith_current _) fun s => ?_
  split
  · exact FailsWith.bind ((microstep_error _ _).mono fun _ h => .inl h) fun _ => macrostep_fatal
  · exact macrostep_fatal


/-! ### Failing as the last act -/

theorem eval_fail_fst (err : SessionError) (w : World) : (eval (fail me err) w).1 = .ok err := by
  unfold fail
  simp only [eval_bind, eval_update, eval_current, eval_cancelAll]
  split <;> simp [eval_bind, publish, Except.map]

theorem eval_fail_throw (err : SessionError) (w : World) :
    eval (fail me err >>= fun e => throw e : Engine Unit) w = (.error err, (eval (fail me err) w).2) := by
  have h := @eval_fail_fst me err w
  rw [eval_bind]
  rcases hf : eval (fail me err) w with ⟨r, w'⟩
  rw [hf] at h
  subst h
  rfl

theorem FailsVia.of_never {x : Engine α} (h : FailsWith (fun _ => False) x) : FailsVia me x :=
  fun w e w' hx => (h w e w' hx).elim

theorem FailedFrom.of_linkSends {w w₁ w' : World} {e : SessionError}
    (h₀ : (World.linkSends me (w.session me).doc).rel w w₁) (h : FailedFrom me w₁ e w') : FailedFrom me w e w' := by
  obtain ⟨hfat, w₂, hr, hw⟩ := h
  exact ⟨hfat, w₂, World.linkSends_own_trans h₀ hr, hw⟩

theorem FailsVia.bind {β : Type} {x : Engine α} {f : α → Engine β}
    (hk : ∀ D, Keeps (World.linkSends me D) x) (hx : FailsVia me x) (hf : ∀ a, FailsVia me (f a)) :
    FailsVia me (x >>= f) := by
  intro w e w' h
  rcases eval_bind_error h with h | ⟨a, w₁, h₁, h₂⟩
  · exact hx w e w' h
  · exact (hf a w₁ e w' h₂).of_linkSends (Keeps.of_eval (hk _) h₁)

/-- Settling fails only by failing the session: on the step's own error, or on an error of the
teardown, which only exit content raises. -/
theorem failsVia_settle (r : Except SessionError Unit) (hr : ∀ e, r = .error e → e.IsFatal) :
    FailsVia me (settle me r) := by
  intro w e w' h
  unfold settle at h
  cases r with
  | error e₀ =>
    rw [eval_fail_throw] at h
    simp only [Prod.mk.injEq, Except.error.injEq] at h
    obtain ⟨rfl, rfl⟩ := h
    exact ⟨hr _ rfl, w, (World.linkSends me _).refl w, Prod.ext (eval_fail_fst _ _) rfl⟩
  | ok u =>
    rw [eval_bind, eval_current] at h
    dsimp only at h
    split at h
    · cases h
    · rw [eval_bind, eval_observe] at h
      dsimp only at h
      split at h
      · cases h
      · rename_i e₀ he₀
        rw [eval_fail_throw] at h
        simp only [Prod.mk.injEq, Except.error.injEq] at h
        obtain ⟨rfl, rfl⟩ := h
        obtain ⟨hr₀, hc⟩ := teardown_error
          (Prod.ext he₀ rfl : eval (teardown me) w = (.error e₀, (eval (teardown me) w).2))
        exact ⟨.inl hc, _, hr₀, Prod.ext (eval_fail_fst _ _) rfl⟩

theorem failsVia_settle_observe {x : Engine Unit} (hk : ∀ D, Keeps (World.linkSends me D) x)
    (hf : FailsWith SessionError.IsFatal x) : FailsVia me (observe x >>= settle me) := by
  intro w e w' h
  rw [eval_bind, eval_observe] at h
  exact (failsVia_settle _ (fun e' he' => hf w e' _ (Prod.ext he' rfl)) _ e w' h).of_linkSends (hk _ w)

/-- Settling leaves the session running only when it did nothing. -/
theorem settle_ok_running {r : Except SessionError Unit} {w w' : World}
    (h : eval (settle me r) w = (.ok (), w')) (hr : (w'.session me).isRunning = true) : w' = w := by
  unfold settle at h
  cases r with
  | error e₀ => rw [eval_fail_throw] at h; cases h
  | ok u =>
    rw [eval_bind, eval_current] at h
    dsimp only at h
    split at h
    · exact (Prod.mk.inj h).2.symm
    · rename_i hs
      rw [eval_bind, eval_observe] at h
      dsimp only at h
      split at h
      · -- the teardown ran: the session is stopped after it
        rename_i he₀
        have hd := @stopped_teardown me w (by simpa using hs)
        rw [show w' = (eval (teardown me) w).2 from (Prod.mk.inj h).2.symm, hd] at hr
        cases hr
      · rw [eval_fail_throw] at h; cases h

/-- Handling an envelope that leaves the session running only ran content. -/
theorem linkSends_handle_running {env : Envelope} {w w' : World} (h : eval (handle me env) w = (.ok (), w'))
    (hr : (w'.session me).isRunning = true) : (World.linkSends me D).rel w w' := by
  unfold handle at h
  rw [eval_bind, eval_current] at h
  dsimp only at h
  split at h
  · rw [← (Prod.mk.inj h).2]
    exact (World.linkSends me D).refl w
  · rename_i hrun
    have hm : me < w.sessions.size := World.lt_of_isRunning (by simpa using hrun)
    split at h
    · -- a stop request stops the session, so settling tore it down
      rw [eval_bind, eval_update] at h
      have := settle_ok_running h hr
      subst this
      simp [World.session_modifySession_self _ _ hm, Session.isRunning] at hr
    · rw [eval_bind, eval_observe] at h
      rw [settle_ok_running h hr]
      exact keepsLink_processExternal _ w

theorem failsVia_handle (env : Envelope) : FailsVia me (handle me env) := by
  unfold handle
  refine FailsVia.bind (fun D w => (World.linkSends me D).refl w) (.of_never (failsWith_current _)) fun s => ?_
  split
  · exact .of_never (FailsWith.pure _)
  · split
    · exact FailsVia.bind (fun _ => keepsLink_update _ fun _ => ⟨rfl, rfl, rfl, rfl, fun c hc => ⟨c, hc, rfl⟩⟩)
        (.of_never (failsWith_update _ _)) fun _ => failsVia_settle _ fun _ h => by cases h
    · exact failsVia_settle_observe (fun _ => keepsLink_processExternal _) (processExternal_fatal _)

theorem running_of_runQueued_error {n : Nat} {w w' : World} {e : SessionError}
    (h : eval (runQueued me n) w = (.error e, w')) : (w.session me).isRunning = true := by
  cases n with
  | zero => cases h
  | succ n =>
    unfold runQueued at h
    rw [eval_bind, eval_current] at h
    dsimp only at h
    split at h
    · cases h
    · simpa using ‹¬(!(w.session me).isRunning) = true›

theorem failsVia_runQueued (n : Nat) : FailsVia me (runQueued me n) := by
  induction n with
  | zero => exact .of_never (FailsWith.pure _)
  | succ n ih =>
    intro w e w' h
    unfold runQueued at h
    rw [eval_bind, eval_current] at h
    dsimp only at h
    split at h
    · cases h
    · simp only [eval_bind, eval_get, eval_current, eval_set] at h
      -- the envelope comes off the session's own mailbox, which is off the link
      have ht : (World.linkSends me (w.session me).doc).rel w _ := World.linkSends_take w (World.OffLink.own w me)
      generalize (w.take (w.session me).mailbox) = t at ht h
      obtain ⟨env, w₁⟩ := t
      split at h
      · cases h
      · rcases eval_bind_error h with h | ⟨u, w₂, h₂, h₃⟩
        · exact (failsVia_handle _ w₁ e w' h).of_linkSends ht
        · exact ((ih w₂ e w' h₃).of_linkSends
            (linkSends_handle_running h₂ (running_of_runQueued_error h₃))).of_linkSends ht

theorem eval_ensureStarted (w : World) :
    eval (ensureStarted me) w = if (w.session me).status == .idle then (.error .notStarted, w) else (.ok (), w) := by
  simp only [ensureStarted, eval_bind, eval_current]
  split <;> rfl

/-! ### Refusals -/

theorem FailsVia.answers {x : Engine α} (h : FailsVia me x) : Answers me x :=
  fun w e w' hx => .inr (h w e w' hx)

theorem Answers.bind {β : Type} {x : Engine α} {f : α → Engine β}
    (hx : ∀ w, (∃ a, eval x w = (.ok a, w)) ∨ ∃ e, e.isRefusal = true ∧ eval x w = (.error e, w))
    (hf : ∀ a, FailsVia me (f a)) : Answers me (x >>= f) := by
  intro w e w' h
  rw [eval_bind] at h
  rcases hx w with ⟨a, ha⟩ | ⟨e₀, he₀, ha⟩ <;> rw [ha] at h
  · exact .inr (hf a w e w' h)
  · simp only [Prod.mk.injEq, Except.error.injEq] at h
    obtain ⟨rfl, rfl⟩ := h
    exact .inl ⟨he₀, rfl⟩

theorem answers_ensureStarted {β : Type} {f : Unit → Engine β} (hf : ∀ a, FailsVia me (f a)) :
    Answers me (ensureStarted me >>= f) :=
  Answers.bind (fun w => by rw [eval_ensureStarted]; split <;> simp [SessionError.isRefusal]) hf

theorem post_refused {m : Nat} {env : Envelope} {w w' : World} {e : SessionError}
    (h : eval (post m env) w = (.error e, w')) : e.isRefusal = true ∧ w' = w := by
  rw [eval_post] at h
  split at h
  · cases h
  · rename_i err hp
    simp only [Prod.mk.injEq, Except.error.injEq] at h
    obtain ⟨rfl, rfl⟩ := h
    unfold World.post at hp
    dsimp only at hp
    split at hp
    · cases hp; exact ⟨rfl, rfl⟩
    · split at hp <;> cases hp

/-- Routing an event is refused, changing nothing, when its target cannot be reached. -/
theorem deliver_refused {ev : Event} {target : Option String} {w w' : World} {e : SessionError}
    (h : eval (deliver me ev target) w = (.error e, w')) : e.isRefusal = true ∧ w' = w := by
  unfold deliver at h
  rw [eval_bind, eval_current] at h
  dsimp only at h
  split at h
  · exact post_refused h
  · split at h
    · exact post_refused h
    · split at h
      · cases h
      · split at h
        · split at h
          · rw [eval_bind, eval_get] at h
            dsimp only at h
            split at h
            · cases h
            · rename_i err hs
              simp only [eval_throw, Prod.mk.injEq, Except.error.injEq] at h
              obtain ⟨rfl, rfl⟩ := h
              exact post_refused (by rw [eval_post, World.send] at *; rw [hs])
          · simp only [eval_throw, Prod.mk.injEq, Except.error.injEq] at h
            obtain ⟨rfl, rfl⟩ := h
            exact ⟨rfl, rfl⟩
        · split at h
          · exact post_refused h
          · split at h
            · exact post_refused h
            · simp only [eval_throw, Prod.mk.injEq, Except.error.injEq] at h
              obtain ⟨rfl, rfl⟩ := h
              exact ⟨rfl, rfl⟩

theorem answers_start (data : Data) : Answers me (start me data) := by
  intro w e w' h
  unfold start at h
  rw [eval_bind, eval_current] at h
  dsimp only at h
  split at h
  · rw [eval_bind, eval_throw] at h
    simp only [Prod.mk.injEq, Except.error.injEq] at h
    obtain ⟨rfl, rfl⟩ := h
    exact .inl ⟨rfl, rfl⟩
  · refine .inr (FailsVia.bind ?_ (.of_never (failsWith_update _ _)) (fun _ => ?_) w e w' h)
    · exact fun _ => keepsLink_update _ fun _ => ⟨rfl, rfl, rfl, rfl, fun c hc => ⟨c, hc, rfl⟩⟩
    · exact failsVia_settle_observe (fun _ => keepsLink_enterInitial) enterInitial_fatal

theorem answers_send (ev : Event) : Answers me (send me ev) := by
  intro w e w' h
  rw [send, eval_bind, eval_current] at h
  exact .inl (post_refused h)

theorem answers_cancel : Answers me (cancel me) := by
  intro w e w' h
  rw [cancel, eval_bind, eval_current] at h
  exact .inl (post_refused h)

theorem answers_runPending : Answers me (runPending me) :=
  answers_ensureStarted fun _ => failsVia_runQueued _

theorem answers_processNext (env : Envelope) : Answers me (processNext me env) :=
  answers_ensureStarted fun _ => failsVia_handle env

/-- Routing from the host is refused when the target cannot be reached; an event raised
internally is then processed, and that fails only by failing the session. -/
theorem answers_sendTo (ev : Event) (target : String) : Answers me (sendTo me ev target) := by
  intro w e w' h
  unfold sendTo at h
  by_cases hi : target = "_internal"
  · subst hi
    rw [eval_bind, eval_deliver_internal, raiseInternal, eval_update] at h
    dsimp only at h
    rw [eval_bind, eval_current] at h
    dsimp only at h
    split at h
    · exact .inr (FailedFrom.of_linkSends (keepsLink_raiseInternal me _ w)
        (failsVia_settle_observe (fun _ => keepsLink_macrostep) macrostep_fatal _ e w' h))
    · cases h
  · rcases eval_bind_error h with h | ⟨u, w₁, -, h₂⟩
    · exact .inl (deliver_refused h)
    · rw [eval_bind, eval_current] at h₂
      simp [hi] at h₂

/-- After the session failed as a step's last act, it is failed and holds no invocation, and its
link's mailbox, while open, grew by what content sent and then by one `error.execution`. -/
theorem FailedFrom.outcome {w w' : World} {e : SessionError} (h : FailedFrom me w e w')
    (hm : me < w.sessions.size) (ha : w.LinkApart me) :
    (w'.session me).status = .failed ∧ (w'.session me).children = [] ∧
      ∀ link, (w.session me).parent = some link → (w.mailbox link.mailbox).live = true →
        ∃ P, (w.session me).doc.Sent (w.session me).config.name P ∧ (w'.mailbox link.mailbox).queue =
          (w.mailbox link.mailbox).queue ++ (P ++ [Event.errorExecution e.message]).map link.stamp := by
  obtain ⟨-, w₁, hr, hw⟩ := h
  obtain ⟨P, hP, g₁⟩ := hr hm ha rfl
  obtain ⟨w₂, h₂, hs, hc, -, hQ₂⟩ := eval_fail e g₁.lt g₁.apart
  obtain rfl : w₂ = w' := (Prod.mk.inj (h₂.symm.trans hw)).2
  refine ⟨hs, hc, fun link hl hlive => ?_⟩
  have hA := g₁.appended link hl
  obtain ⟨Q, hQ, hQA⟩ := hQ₂ link (g₁.parent.trans hl)
  -- the link's mailbox neither opened nor closed while content ran
  rw [if_pos (hA.1.trans hlive)] at hQA
  rw [g₁.doc, g₁.config] at hQ
  refine ⟨P ++ Q, hP.append hQ, ?_⟩
  rw [(hA.trans hQA).2, List.append_assoc]

/-! ### A failed session -/

theorem eval_handle_stopped (env : Envelope) {w : World} (h : (w.session me).isRunning = false) :
    eval (handle me env) w = (.ok (), w) := by
  simp [handle, eval_bind, h]

theorem eval_runQueued_stopped (n : Nat) {w : World} (h : (w.session me).isRunning = false) :
    eval (runQueued me n) w = (.ok (), w) := by
  cases n with
  | zero => rfl
  | succ n => simp [runQueued, eval_bind, h]

theorem eval_ensureStarted_ok {w : World} (h : (w.session me).status ≠ .idle) :
    eval (ensureStarted me) w = (.ok (), w) := by
  rw [eval_ensureStarted]
  simp [h]

end Engine

/-- The calls a host makes on a session: those it makes on a session it drives (`HostCall`), and
waiting for one envelope and handling it (`env`, the one that arrives), which a session never
started refuses. -/
inductive SessionCall where
  | host (c : HostCall)
  | processNext (env : Envelope)

namespace SessionCall
open Engine
variable {me : Nat}

def step (me : Nat) : SessionCall → Engine Unit
  | host c => c.step me
  | processNext env => Engine.processNext me env

/-- The world after a sequence of calls; a call that fails returns its error to the host, which
goes on with the next. -/
def run (me : Nat) : List SessionCall → World → World
  | [], w => w
  | c :: cs, w => run me cs (eval (c.step me) w).2

theorem answers_step (c : SessionCall) : Answers me (c.step me) := by
  cases c with
  | host c =>
    cases c with
    | start data => exact answers_start data
    | send e => exact answers_send e
    | cancel => exact answers_cancel
    | runPending => exact answers_runPending
    | handle env => exact (failsVia_handle env).answers
    | sendTo e target => exact answers_sendTo e target
  | processNext env => exact answers_processNext env

/-- A session that stopped is left as it is by any call: it is neither to be started nor running,
so only the queueing calls and routing do anything, and they leave it alone. -/
theorem keeps_step_stopped (c : SessionCall) {w : World} (hi : (w.session me).status ≠ .idle)
    (hr : (w.session me).isRunning = false) : (World.keeps me).rel w (eval (c.step me) w).2 := by
  cases c with
  | host c =>
    cases c with
    | start data =>
      simp only [step, HostCall.step, start, eval_bind, eval_current]
      simp [hi, (World.keeps me).refl w]
    | send e => exact Keeps.current_bind (fun w => keeps_post _ _ w) w
    | cancel => exact Keeps.current_bind (fun w => keeps_post _ _ w) w
    | runPending =>
      simp only [step, HostCall.step, runPending, eval_bind, eval_ensureStarted_ok hi,
        eval_runQueued_stopped _ hr]
      exact (World.keeps me).refl w
    | handle env =>
      simp only [step, HostCall.step, eval_handle_stopped env hr]
      exact (World.keeps me).refl w
    | sendTo e target =>
      simp only [step, HostCall.step, sendTo, eval_bind]
      have hd := (keeps_deliver me e (some target) : Keeps (World.keeps me) _) w
      rcases h : eval (deliver me e (some target)) w with ⟨_ | _, w₁⟩ <;> rw [h] at hd
      · exact hd
      · -- routing kept the session stopped, so nothing is processed after it
        have hm : me < w.sessions.size := World.lt_of_status_ne_idle hi
        have hr₁ : (w₁.session me).isRunning = false := by
          rw [Session.isRunning, (hd hm).2.1]
          exact hr
        simp [hr₁]
        exact hd
  | processNext env =>
    simp only [step, Engine.processNext, eval_bind, eval_ensureStarted_ok hi, eval_handle_stopped env hr]
    exact (World.keeps me).refl w

theorem keeps_run_stopped (cs : List SessionCall) {w : World} (hi : (w.session me).status ≠ .idle)
    (hr : (w.session me).isRunning = false) : (World.keeps me).rel w (run me cs w) := by
  induction cs generalizing w with
  | nil => exact (World.keeps me).refl w
  | cons c cs ih =>
    have h₁ := c.keeps_step_stopped hi hr
    have hm : me < w.sessions.size := World.lt_of_status_ne_idle hi
    have hs := (h₁ hm).2.1
    exact (World.keeps me).trans h₁ (ih (by rw [hs]; exact hi) (by rw [Session.isRunning, hs]; exact hr))

theorem keeps_run_failed (cs : List SessionCall) {w : World} (hf : (w.session me).status = .failed) :
    (World.keeps me).rel w (run me cs w) :=
  keeps_run_stopped cs (by simp [hf]) (by simp [Session.isRunning, hf])

theorem refused_changes_nothing (c : SessionCall) {w w' : World} {e : SessionError}
    (h : eval (c.step me) w = (.error e, w')) (hr : e.isRefusal = true) : w' = w := by
  rcases c.answers_step w e w' h with ⟨-, hw⟩ | hf
  · exact hw
  · rw [hf.1.not_refusal] at hr
    cases hr

theorem fatal_fails_session (c : SessionCall) {w w' : World} {e : SessionError}
    (h : eval (c.step me) w = (.error e, w')) (hr : e.isRefusal = false) : FailedFrom me w e w' := by
  rcases c.answers_step w e w' h with ⟨hr', -⟩ | hf
  · rw [hr] at hr'
    cases hr'
  · exact hf

/-- A host call on a session either is refused, and changes nothing at all, or fails the session:
the error is fatal (content, a guard, the microstep limit), the session is failed and holds no
invocation, and the session that invoked it, while it listens, received after what content sent
exactly one notification, `error.execution`. Through any later calls, a failed session keeps
its status, configuration, data bag and history. -/
theorem errors_refuse_or_fail_for_good (me : Nat) (c : SessionCall) (w w' : World) (e : SessionError)
    (cs : List SessionCall) :
    (eval (c.step me) w = (.error e, w') → e.isRefusal = true → w' = w) ∧
    (eval (c.step me) w = (.error e, w') → e.isRefusal = false → me < w.sessions.size → w.LinkApart me →
      e.IsFatal ∧ (w'.session me).status = .failed ∧ (w'.session me).children = [] ∧
        ∀ link, (w.session me).parent = some link → (w.mailbox link.mailbox).live = true →
          ∃ P, (∀ e ∈ P, e.kind = .external) ∧ (w'.mailbox link.mailbox).queue =
            (w.mailbox link.mailbox).queue ++ (P ++ [Event.errorExecution e.message]).map link.stamp) ∧
    ((w.session me).status = .failed →
      ((run me cs w).session me).status = .failed ∧
      ((run me cs w).session me).configuration = (w.session me).configuration ∧
      ((run me cs w).session me).data = (w.session me).data ∧
      ((run me cs w).session me).history = (w.session me).history) := by
  refine ⟨fun h hr => c.refused_changes_nothing h hr, fun h hr hm ha => ?_, fun hf => ?_⟩
  · have hf := c.fatal_fails_session h hr
    obtain ⟨hs, hc, hP⟩ := hf.outcome hm ha
    refine ⟨hf.1, hs, hc, fun link hl hlive => ?_⟩
    obtain ⟨P, hPs, hq⟩ := hP link hl hlive
    exact ⟨P, hPs.external, hq⟩
  · obtain ⟨-, hs, -, -, hc, hh, hd, -, -⟩ :=
      keeps_run_failed cs hf (World.lt_of_status_ne_idle (by simp [hf]))
    exact ⟨hs.trans hf, hc, hd, hh⟩

/-- A child session whose document's first content calls a script the host does not have. -/
def scriptlessChild : World :=
  let doc : Document :=
    ⟨#[{ id := "$root", mode := .compound, order := 0, depth := -1, children := [1], descendants := [1],
          initial := some 0 },
        { id := "a", mode := .atomic, order := 1, depth := 0, parent := some 0, ancestors := [0] }],
      #[{ source := 0, targets := [1], events := [], kind := .external, cond := none,
          content := [.script "missing"], order := 0 }],
      #[]⟩
  { sessions := #[{ doc, config := { name := "parent" }, mailbox := 0 },
      { doc, config := { name := "child" }, mailbox := 1, parent := some ⟨0, "job"⟩ }],
    mailboxes := #[{}, {}] }

/-- Starting that child fails it on the unknown script and tells its parent; waiting on it
before it started is refused; once failed, it stays as it is. -/
theorem scriptless_child_fails_once :
    let w' := (eval ((SessionCall.host (.start {})).step 1) scriptlessChild).2
    let e := SessionError.content (.unknownScript "missing")
    (eval ((SessionCall.processNext .cancel).step 1) scriptlessChild = (.error .notStarted, scriptlessChild) ∧
      SessionError.notStarted.isRefusal = true) ∧
    (eval ((SessionCall.host (.start {})).step 1) scriptlessChild = (.error e, w') ∧ e.isRefusal = false ∧
      1 < scriptlessChild.sessions.size ∧ scriptlessChild.LinkApart 1 ∧
      (e.IsFatal ∧ (w'.session 1).status = .failed ∧ (w'.session 1).children = [] ∧
        ∀ link, (scriptlessChild.session 1).parent = some link →
          (scriptlessChild.mailbox link.mailbox).live = true →
          ∃ P, (∀ e ∈ P, e.kind = .external) ∧ (w'.mailbox link.mailbox).queue =
            (scriptlessChild.mailbox link.mailbox).queue ++
              (P ++ [Event.errorExecution e.message]).map link.stamp)) ∧
    ((w'.session 1).status = .failed ∧
      ((run 1 [.processNext (.event {}), .host .runPending] w').session 1).status = .failed) := by
  intro w' e
  have hstart : eval ((SessionCall.host (.start {})).step 1) scriptlessChild = (.error e, w') :=
    Prod.ext (by decide +kernel) rfl
  have hf : (w'.session 1).status = .failed := by decide +kernel
  have ha : scriptlessChild.LinkApart 1 := by
    intro link hl
    cases hl
    exact ⟨by decide, by decide, fun c hc => by cases hc⟩
  refine ⟨⟨rfl, rfl⟩, ⟨hstart, rfl, by decide, ha, ?_⟩, hf, ?_⟩
  · exact (errors_refuse_or_fail_for_good 1 _ _ _ e []).2.1 hstart rfl (by decide) ha
  · exact ((errors_refuse_or_fail_for_good 1 (.host .cancel) w' w' e
      [.processNext (.event {}), .host .runPending]).2.2 hf).1

end SessionCall
end Hsm
