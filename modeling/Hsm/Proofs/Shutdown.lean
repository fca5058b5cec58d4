import Hsm.Proofs.Teardown
import Hsm.Proofs.Transcript
/-!
# A session stops for good

Every successful host call leaves a live session as it was or stops and tears it down
(`SessionCall.ends_step`), so along any run a session is live or stopped for good
(`SessionCall.liveOrStopped_run`, `SessionCall.stop_tears_down_for_good`). The steps keep
`World.Intact` along the way.
-/

namespace Hsm

namespace Session
variable {D : Document} {s s' : Session}

/-- A session on `D` that has not stopped: not started yet, or running with no top-level final
state active. -/
def Live (D : Document) (s : Session) : Prop := s.Unstarted D ∨ s.Calm D

theorem Unstarted.of_shape (h : s.Unstarted D) (hs : s.SameShape s') : s'.Unstarted D := by
  obtain ⟨h₁, h₂, h₃⟩ := hs
  exact ⟨h₂ ▸ h.1, h₁ ▸ h.2.1, h₃ ▸ h.2.2⟩

theorem Live.of_shape (h : s.Live D) (hs : s.SameShape s') : s'.Live D :=
  h.imp (·.of_shape hs) (·.of_shape hs)

theorem Live.calm (h : s.Live D) (hr : s.isRunning = true) : s.Calm D := by
  rcases h with ⟨-, hidle, -⟩ | hc
  · simp [isRunning, hidle] at hr
  · exact hc

theorem Live.status (h : s.Live D) : s.status = .idle ∨ s.status = .running :=
  h.imp (·.2.1) (·.2.1)

end Session

namespace World
variable {me m : Nat} {w w' : World}

/-- Session `me` is in place, its books in order, with no done data yet and its link apart from
its own mailboxes. -/
structure Intact (me : Nat) (w : World) : Prop where
  size : me < w.sessions.size
  books : w.Books me
  fresh : (w.session me).doneData = none
  apart : w.LinkApart me

def intact (me : Nat) : WorldOrder where
  rel w w' := w.Intact me → w'.Intact me
  refl _ := id
  trans h₁ h₂ := h₂ ∘ h₁

theorem intact_of (hb : (keepsBooks me).rel w w') (hl : (linkSends me (w.session me).doc).rel w w') :
    (intact me).rel w w' := fun h => by
  obtain ⟨hm, hd, hbk⟩ := hb h.size h.books
  obtain ⟨_, _, g⟩ := hl h.size h.apart rfl
  exact ⟨hm, hbk, hd.trans h.fresh, g.apart⟩

theorem intact_post {env : Envelope} (h : w.post m env = .ok w') : (intact me).rel w w' := by
  intro hI
  obtain ⟨-, hmb, hsize, hses⟩ := post_ok h
  obtain ⟨hm, hd, hbk⟩ := keepsBooks_post h hI.size hI.books
  refine ⟨hm, hbk, hd.trans hI.fresh, fun link hl => ?_⟩
  rw [hses me] at hl ⊢
  obtain ⟨h₁, h₂, h₃⟩ := hI.apart link hl
  exact ⟨by simpa [hmb] using h₁, h₂, h₃⟩

/-- `w` is what tearing session `me` down from `w₀` left, where the session had stopped, done or
cancelled, intact. -/
def TornDownFrom (me : Nat) (D : Document) (w₀ w : World) : Prop :=
  w₀.Intact me ∧ (w₀.session me).Settling D ∧ (w₀.session me).isRunning = false ∧ TornDown me w₀ w

theorem TornDownFrom.stopped {D : Document} {w₀ : World} (h : TornDownFrom me D w₀ w) :
    (w.session me).status ≠ .idle ∧ (w.session me).isRunning = false := by
  obtain ⟨-, hS, hr, hT⟩ := h
  rw [Session.isRunning, hT.status]
  refine ⟨fun hidle => ?_, hr⟩
  rcases hS with (⟨-, hst, -⟩ | ⟨-, hst, -⟩) | ⟨-, hst, -⟩ <;> rw [hst] at hidle <;> cases hidle

end World

namespace Engine
variable {α : Type} {me : Nat} {D : Document}

theorem Keeps.intact {x : Engine α} (hb : Keeps (World.keepsBooks me) x)
    (hl : ∀ D, Keeps (World.linkSends me D) x) : Keeps (World.intact me) x := fun w =>
  World.intact_of (hb w) (hl _ w)

theorem intact_update {f : Session → Session}
    (hf : ∀ s, (f s).configuration = s.configuration ∧ (f s).children = s.children ∧
      (f s).parent = s.parent ∧ (f s).mailbox = s.mailbox ∧ (f s).doneData = s.doneData ∧
      (f s).doc = s.doc ∧ (f s).config = s.config) :
    Keeps (World.intact me) (update me f) := by
  refine Keeps.intact (keepsBooks_update me fun s => ?_) fun _ => keepsLink_update me fun s => ?_
  · obtain ⟨h₁, h₂, -, -, h₅, -⟩ := hf s
    exact ⟨h₅, fun h => h₁ ▸ h, h₂ ▸ .refl _⟩
  · obtain ⟨-, h₂, h₃, h₄, -, h₆, h₇⟩ := hf s
    exact ⟨h₃, h₄, h₆, h₇, fun c hc => ⟨c, h₂ ▸ hc, rfl⟩⟩

theorem intact_evalPost (m : Nat) (env : Envelope) : Keeps (World.intact me) (post m env) := by
  intro w
  rw [eval_post]
  split
  · exact World.intact_post ‹_›
  · exact (World.intact me).refl w

/-- Delivering any event keeps the session intact: it goes to a queue of the session, to an
invocation, or through the link, and no handle or link changes. -/
theorem intact_deliver (e : Event) (target : Option String) :
    Keeps (World.intact me) (deliver me e target) := by
  intro w
  unfold deliver
  rw [eval_bind, eval_current]
  dsimp only
  split
  · exact intact_evalPost _ _ w
  · split
    · exact intact_evalPost _ _ w
    · split
      · exact Keeps.intact (keepsBooks_raiseInternal me _) (fun _ => keepsLink_raiseInternal me _) w
      · split
        · split
          · rw [eval_bind, eval_get]
            dsimp only
            split
            · exact World.intact_post ‹_›
            · exact (World.intact me).refl w
          · exact (World.intact me).refl w
        · split
          · exact intact_evalPost _ _ w
          · split
            · exact intact_evalPost _ _ w
            · exact (World.intact me).refl w

/-- From a world `w` where session `me` on `D` is intact and satisfies `P`, the step, whenever it
succeeds, leaves it intact and satisfying `Q`, or has stopped it in a world `w₀` that `S` relates
to `w` and torn it down from there. -/
def Ends (me : Nat) (D : Document) (P Q : Session → Prop) (S : World → World → Prop)
    (x : Engine Unit) : Prop :=
  ∀ w w', w.Intact me → P (w.session me) → eval x w = (.ok (), w') →
    (w'.Intact me ∧ Q (w'.session me)) ∨ ∃ w₀, S w w₀ ∧ World.TornDownFrom me D w₀ w'

namespace Ends
variable {P Q : Session → Prop} {S : World → World → Prop} {x : Engine Unit}

theorem mono {P' Q' : Session → Prop} (h : Ends me D P Q S x) (hP : ∀ s, P' s → P s)
    (hQ : ∀ s, Q s → Q' s) : Ends me D P' Q' S x := fun w w' hI hp hx =>
  (h w w' hI (hP _ hp) hx).imp_left fun ⟨hI', hq⟩ => ⟨hI', hQ _ hq⟩

theorem of_keeps (hs : Keeps (World.keepsShape me) x) (hi : Keeps (World.intact me) x)
    (hP : ∀ s s', P s → s.SameShape s' → Q s') : Ends me D P Q S x := by
  intro w w' hI hp hx
  exact .inl ⟨Keeps.of_eval hi hx hI, hP _ _ hp (Keeps.of_eval hs hx hI.size).2⟩

theorem live (hu : Ends me D (Session.Unstarted D) Q S x) (hc : Ends me D (Session.Calm D) Q S x) :
    Ends me D (Session.Live D) Q S x := fun w w' hI hp =>
  hp.elim (hu w w' hI) (hc w w' hI)

theorem unstarted_refuses {f : Unit → Engine Unit} :
    Ends me D (Session.Unstarted D) Q S (ensureStarted me >>= f) := by
  rintro w w' - ⟨-, hidle, -⟩ h
  rw [eval_bind, eval_ensureStarted] at h
  simp [hidle] at h

theorem ensureStarted {f : Unit → Engine Unit} (h : Ends me D (Session.Calm D) Q S (f ())) :
    Ends me D (Session.Calm D) Q S (ensureStarted me >>= f) := by
  intro w w' hI hc hx
  rw [eval_bind, eval_ensureStarted_ok (by simp [hc.2.1])] at hx
  exact h w w' hI hc hx

end Ends

/-- Settling a step that ran its content: a calm session goes on, and one that stopped, done or
cancelled, is torn down from where it is; a teardown that fails fails the whole step. -/
theorem ends_settle_ok :
    Ends me D (Session.Settling D) (Session.Calm D) (fun w w₀ => w₀ = w) (settle me (.ok ())) := by
  intro w w' hI hS h
  unfold settle at h
  rw [eval_bind, eval_current] at h
  dsimp only at h
  split at h
  · -- still running, so calm: nothing happens
    rename_i hr
    cases h
    refine .inl ⟨hI, ?_⟩
    rcases hS with hp | ⟨-, hst, -⟩
    · exact hp.running hr
    · simp [Session.isRunning, hst] at hr
  · rename_i hr
    rw [eval_bind, eval_observe] at h
    dsimp only at h
    split at h
    · rename_i he
      cases h
      exact .inr ⟨w, rfl, hI, hS, by simpa using hr,
        eval_teardown_tornDown hI.size hI.books hI.fresh (Prod.ext he rfl)⟩
    · rw [eval_fail_throw] at h
      cases h

theorem ends_settle_observe {P : Session → Prop} {x : Engine Unit}
    (hb : Keeps (World.keepsBooks me) x) (hl : ∀ D, Keeps (World.linkSends me D) x)
    (hx : Lands me P (Session.Poised D) x) :
    Ends me D P (Session.Calm D) (fun w w₀ => eval x w = (.ok (), w₀)) (observe x >>= settle me) := by
  intro w w' hI hP h
  rw [eval_bind, eval_observe] at h
  dsimp only at h
  rcases hx' : eval x w with ⟨_ | ⟨⟩, w₁⟩ <;> rw [hx'] at h
  · unfold settle at h
    rw [eval_fail_throw] at h
    cases h
  · obtain ⟨-, hp₁⟩ := hx w () w₁ hI.size hP hx'
    refine (ends_settle_ok w₁ w' (Keeps.of_eval (Keeps.intact hb hl) hx' hI) (.inl hp₁) h).imp_right ?_
    rintro ⟨w₀, rfl, hT⟩
    exact ⟨w₀, hx', hT⟩

/-- What handling the envelope `env` runs from `w` before the step is settled, leaving `w₀`: a
`Cancel` cancels the session, and an event is processed. -/
def Handled (me : Nat) : Envelope → World → World → Prop
  | .cancel, w, w₀ => w₀ = w.modifySession me fun s => { s with status := .cancelled }
  | .event e, w, w₀ => eval (processExternal me e) w = (.ok (), w₀)

/-- Handling an envelope in a calm session: a `Cancel` cancels it, an event is processed, and
either way the step is settled. -/
theorem ends_handle (hD : D.FinalsParented) (env : Envelope) :
    Ends me D (Session.Calm D) (Session.Calm D) (Handled me env) (handle me env) := by
  intro w w' hI hc h
  unfold handle at h
  rw [eval_bind, eval_current] at h
  dsimp only at h
  rw [if_neg (by simp [Session.isRunning, hc.2.1])] at h
  cases env with
  | cancel =>
    rw [eval_bind, eval_update] at h
    have hI₁ := Keeps.of_eval (intact_update (f := fun s => { s with status := .cancelled })
      fun _ => ⟨rfl, rfl, rfl, rfl, rfl, rfl, rfl⟩) (eval_update me _ w) hI
    refine ends_settle_ok _ w' hI₁ ?_ h
    rw [World.session_modifySession_self _ _ hI.size]
    exact .inr ⟨hc.1, rfl, hc.2.2⟩
  | event e =>
    exact ends_settle_observe (keepsBooks_processExternal e) (fun _ => keepsLink_processExternal e)
      (lands_processExternal hD e) w w' hI hc h

theorem eval_runQueued_none {w w₁ : World} (hr : (w.session me).isRunning = true) (n : Nat)
    (ht : w.take (w.session me).mailbox = (none, w₁)) : eval (runQueued me (n + 1)) w = (.ok (), w₁) := by
  rw [runQueued, eval_bind, eval_current]
  dsimp only
  rw [if_neg (by simp [hr])]
  simp only [eval_bind, eval_get, eval_current, eval_set, ht]
  rfl

theorem eval_runQueued_some {w w₁ : World} {env : Envelope} (hr : (w.session me).isRunning = true)
    (n : Nat) (ht : w.take (w.session me).mailbox = (some env, w₁)) :
    eval (runQueued me (n + 1)) w = eval (handle me env >>= fun _ => runQueued me n) w₁ := by
  rw [runQueued, eval_bind, eval_current]
  dsimp only
  rw [if_neg (by simp [hr])]
  simp only [eval_bind, eval_get, eval_current, eval_set, ht]

/-- Where handling queued envelopes from `w` stopped the session: after `k` envelopes that left it
running, in `w₂`, the next one, `env`, was taken, leaving `w₃`, and its handling left `w₀`. -/
def QueueStop (me : Nat) (w w₀ : World) : Prop :=
  ∃ k w₂ env w₃, eval (runQueued me k) w = (.ok (), w₂) ∧ (w₂.session me).isRunning = true ∧
    w₂.take (w₂.session me).mailbox = (some env, w₃) ∧ Handled me env w₃ w₀

/-- Handling queued envelopes in a calm session: each one handled leaves it calm, or stopped and
torn down, after which nothing more is handled. The induction is on the fuel, one envelope a
step. -/
theorem ends_runQueued (hD : D.FinalsParented) :
    ∀ n, Ends me D (Session.Calm D) (Session.Calm D) (QueueStop me) (runQueued me n)
  | 0 => fun w w' hI hc h => by
    rw [runQueued, eval_pure] at h
    cases h
    exact .inl ⟨hI, hc⟩
  | n + 1 => by
    intro w w' hI hc h
    have hr : (w.session me).isRunning = true := by simp [Session.isRunning, hc.2.1]
    -- taking from the session's own mailbox keeps it intact and calm
    have hI₁ := World.intact_of (World.keepsBooks_take w (w.session me).mailbox)
      (World.linkSends_take w (World.OffLink.own w me)) hI
    have hc₁ : ((w.take (w.session me).mailbox).2.session me).Calm D := by
      rw [World.session_take]
      exact hc
    rcases ht : w.take (w.session me).mailbox with ⟨_ | env, w₃⟩ <;> rw [ht] at hI₁ hc₁
    · rw [eval_runQueued_none hr n ht] at h
      cases h
      exact .inl ⟨hI₁, hc₁⟩
    · rw [eval_runQueued_some hr n ht] at h
      obtain ⟨⟨⟩, w₄, h₄, h₅⟩ := eval_bind_ok h
      rcases ends_handle hD env w₃ w₄ hI₁ hc₁ h₄ with ⟨hI₄, hc₄⟩ | ⟨w₀, hH, hT⟩
      · -- the envelope left the session calm: whatever stops it comes later
        rcases ends_runQueued hD n w₄ w' hI₄ hc₄ h₅ with hk | ⟨w₀, ⟨k, w₂, env', w₅, hq, hr₂, ht₂, hH⟩, hT⟩
        · exact .inl hk
        · refine .inr ⟨w₀, ⟨k + 1, w₂, env', w₅, ?_, hr₂, ht₂, hH⟩, hT⟩
          rw [eval_runQueued_some hr k ht, eval_bind, h₄]
          exact hq
      · -- this envelope stopped it, and nothing more is handled
        rw [eval_runQueued_stopped n hT.stopped.2] at h₅
        cases h₅
        exact .inr ⟨w₀, ⟨0, w, env, w₃, rfl, hr, ht, hH⟩, hT⟩

theorem ends_handle_live (hD : D.FinalsParented) (env : Envelope) :
    Ends me D (Session.Live D) (Session.Live D) (Handled me env) (handle me env) := by
  refine Ends.live (fun w w' hI hu h => ?_) ((ends_handle hD env).mono (fun _ h => h) fun _ h => .inr h)
  rw [eval_handle_stopped env (by simp [Session.isRunning, hu.2.1])] at h
  cases h
  exact .inl ⟨hI, .inl hu⟩

/-- Starting a session not started yet: it runs, enters its initial configuration, and the step
is settled. A session already started refuses. -/
theorem ends_start (hD : D.FinalsParented) (data : Data) :
    Ends me D (Session.Live D) (Session.Calm D)
      (fun w w₀ => eval (enterInitial me) (w.modifySession me fun s => { s with data, status := .running }) =
        (.ok (), w₀))
      (start me data) := by
  refine Ends.live (fun w w' hI ⟨hd, hidle, hnone⟩ h => ?_) (fun w w' _ hc h => ?_)
  · unfold start at h
    rw [eval_bind, eval_current] at h
    dsimp only at h
    rw [if_neg (by simp [hidle]), eval_bind, eval_update] at h
    have hI₁ := Keeps.of_eval (intact_update (f := fun s => { s with data := data, status := .running })
      fun _ => ⟨rfl, rfl, rfl, rfl, rfl, rfl, rfl⟩) (eval_update me _ w) hI
    refine ends_settle_observe keepsBooks_enterInitial (fun _ => keepsLink_enterInitial) (lands_enterInitial hD)
      _ w' hI₁ ?_ h
    rw [World.session_modifySession_self _ _ hI.size]
    exact ⟨hd, rfl, hnone⟩
  · unfold start at h
    rw [eval_bind, eval_current] at h
    dsimp only at h
    rw [if_pos (by simp [hc.2.1]), eval_bind, eval_throw] at h
    cases h

theorem ends_postOwn (env : Envelope) {S : World → World → Prop} :
    Ends me D (Session.Live D) (Session.Live D) S (current me >>= fun s => post s.mailbox env) :=
  Ends.of_keeps (Keeps.shape (Keeps.current_bind fun w => keeps_post _ _ w))
    (Keeps.current_bind fun w => intact_evalPost _ _ w) fun _ _ h hs => h.of_shape hs

theorem ends_runPending (hD : D.FinalsParented) :
    Ends me D (Session.Live D) (Session.Calm D) (QueueStop me) (runPending me) :=
  Ends.live Ends.unstarted_refuses (Ends.ensureStarted (ends_runQueued hD queueBudget))

theorem ends_processNext (hD : D.FinalsParented) (env : Envelope) :
    Ends me D (Session.Live D) (Session.Calm D) (Handled me env) (processNext me env) :=
  Ends.live Ends.unstarted_refuses (Ends.ensureStarted (ends_handle hD env))

/-- Routing an event from the host leaves the session as it was, and an event raised on its
internal queue while it runs is processed at once and settled. -/
theorem ends_sendTo (hD : D.FinalsParented) (e : Event) (target : String) :
    Ends me D (Session.Live D) (Session.Live D)
      (fun w w₀ => ∃ w₁, eval (deliver me e (some target)) w = (.ok (), w₁) ∧
        eval (macrostep me) w₁ = (.ok (), w₀))
      (sendTo me e target) := by
  intro w w' hI hL h
  unfold sendTo at h
  obtain ⟨⟨⟩, w₁, h₁, h⟩ := eval_bind_ok h
  have hI₁ := Keeps.of_eval (intact_deliver e (some target)) h₁ hI
  have hL₁ := hL.of_shape
    (Keeps.of_eval (Keeps.shape (keeps_deliver me e (some target) : Keeps (World.keeps me) _)) h₁ hI.size).2
  rw [eval_bind, eval_current] at h
  dsimp only at h
  split at h
  · rename_i hrun
    have hc := hL₁.calm (Bool.and_eq_true_iff.1 hrun).2
    refine ((ends_settle_observe keepsBooks_macrostep (fun _ => keepsLink_macrostep)
      ((lands_macrostep hD).mono (fun _ h => Session.Calm.poised h) fun _ h => h)) w₁ w' hI₁ hc h).imp
      (fun ⟨hI', hc'⟩ => ⟨hI', .inr hc'⟩) ?_
    rintro ⟨w₀, h₀, hT⟩
    exact ⟨w₀, ⟨w₁, h₁, h₀⟩, hT⟩
  · rw [eval_pure] at h
    cases h
    exact .inl ⟨hI₁, hL₁⟩

end Engine

namespace World

/-- Session `me` on `D` has not stopped and is intact, or has stopped: done, cancelled or
failed. -/
def LiveOrStopped (me : Nat) (D : Document) (w : World) : Prop :=
  (w.Intact me ∧ (w.session me).Live D) ∨
    ((w.session me).status ≠ .idle ∧ (w.session me).isRunning = false)

end World

namespace SessionCall
open Engine
variable {me : Nat} {D : Document}

/-- Where the call stops session `me` from `w`: the world `w₀` that the content of the turn that
stopped it left, where the session is torn down. Queueing calls never stop it. -/
def StopsAt (me : Nat) : SessionCall → World → World → Prop
  | host (.start data), w, w₀ =>
    eval (enterInitial me) (w.modifySession me fun s => { s with data, status := .running }) = (.ok (), w₀)
  | host (.send _), _, _ => False
  | host .cancel, _, _ => False
  | host .runPending, w, w₀ => QueueStop me w w₀
  | host (.handle env), w, w₀ => Handled me env w w₀
  | host (.sendTo e target), w, w₀ =>
    ∃ w₁, eval (deliver me e (some target)) w = (.ok (), w₁) ∧ eval (macrostep me) w₁ = (.ok (), w₀)
  | processNext env, w, w₀ => Handled me env w w₀

theorem ends_step (hD : D.FinalsParented) (c : SessionCall) :
    Ends me D (Session.Live D) (Session.Live D) (c.StopsAt me) (c.step me) := by
  cases c with
  | host c =>
    cases c with
    | start data => exact (ends_start hD data).mono (fun _ h => h) fun _ h => .inr h
    | send e => exact ends_postOwn (.event e)
    | cancel => exact ends_postOwn .cancel
    | runPending => exact (ends_runPending hD).mono (fun _ h => h) fun _ h => .inr h
    | handle env => exact ends_handle_live hD env
    | sendTo e target => exact ends_sendTo hD e target
  | processNext env => exact (ends_processNext hD env).mono (fun _ h => h) fun _ h => .inr h

/-- A call on a session that has not stopped either is refused and changes nothing, fails the
session, or ends as `ends_step` says; a call on a session that stopped leaves it stopped. -/
theorem liveOrStopped_step (hD : D.FinalsParented) (c : SessionCall) {w : World}
    (h : w.LiveOrStopped me D) : (eval (c.step me) w).2.LiveOrStopped me D := by
  rcases h with ⟨hI, hL⟩ | ⟨hi, hr⟩
  · rcases hx : eval (c.step me) w with ⟨_ | ⟨⟩, w'⟩
    · rcases c.answers_step w _ w' hx with ⟨-, rfl⟩ | hf
      · exact .inl ⟨hI, hL⟩
      · have hst := (hf.outcome hI.size hI.apart).1
        exact .inr ⟨by simp [hst], by simp [Session.isRunning, hst]⟩
    · rcases c.ends_step hD w w' hI hL hx with ⟨hI', hL'⟩ | ⟨_, -, hT⟩
      · exact .inl ⟨hI', hL'⟩
      · exact .inr hT.stopped
  · have hs := (c.keeps_step_stopped hi hr (World.lt_of_status_ne_idle hi)).2.1
    refine .inr ⟨?_, ?_⟩
    · rw [hs]
      exact hi
    · rw [Session.isRunning, hs]
      exact hr

theorem liveOrStopped_run (hD : D.FinalsParented) (cs : List SessionCall) {w : World}
    (h : w.LiveOrStopped me D) : (run me cs w).LiveOrStopped me D := by
  induction cs generalizing w with
  | nil => exact h
  | cons c cs ih => exact ih (c.liveOrStopped_step hD h)

/-- A call that stops a session not stopped before, done or cancelled, tears it down for good.
From the world `w₀` where the content of the turn that stopped it left it (`StopsAt`), with its
books in order: it holds no active state, no
queued internal event, no invocation to start and no handle; the exit content of the states
active in `w₀` ran, each state once, in exit order, as one run; each invocation still running
got exactly one `Cancel`; it keeps done data, that of a top-level final state active in `w₀`,
exactly when it is done, and the session that invoked it heard `done.invoke` with that data
exactly then, after what exit content sent; and no call afterwards changes its status,
configuration, data bag or history. -/
theorem stop_tears_down_for_good {ds : DocumentSchema} (hb : ds.build = .ok D) {w w' : World}
    (hw : w.Intact me)
    (hu : (w.session me).Unstarted D) (cs : List SessionCall) (c : SessionCall)
    (hlive : ((run me cs w).session me).status = .idle ∨ ((run me cs w).session me).status = .running)
    (hc : eval (c.step me) (run me cs w) = (.ok (), w'))
    (hstop : (w'.session me).status = .done ∨ (w'.session me).status = .cancelled) :
    ∃ w₀, c.StopsAt me (run me cs w) w₀ ∧ (w₀.session me).isRunning = false ∧
      World.TornDown me w₀ w' ∧ (w₀.session me).configuration.items.Nodup ∧
      ((w'.session me).status = .cancelled ∧ (w'.session me).doneData = none ∨
        (w'.session me).status = .done ∧ ∃ st ∈ (w₀.session me).configuration.items, D.TopFinal st ∧
          (w'.session me).doneData = some ((D.state st).doneData.getD .null)) ∧
      (∀ ch ∈ (w₀.session me).children, ch.2.status = .invoked →
        (w₀.mailbox ch.2.mailbox).live = true →
        ∃ A, (w'.mailbox ch.2.mailbox).queue = (w₀.mailbox ch.2.mailbox).queue ++ A ∧
          A.countP Envelope.isCancel = 1) ∧
      (∀ link, (w₀.session me).parent = some link → ∃ P, (∀ e ∈ P, e.kind = .external) ∧
        World.Reports me link w₀ w'
          (P ++ w₀.delivered link ((w'.session me).doneData.map (Event.doneInvoke link.invokeId)).toList)) ∧
      ∀ cs', (World.keeps me).rel w' (run me cs' w') := by
  have hD := DocumentSchema.finalsParented_of_build hb
  have hst' : (w'.session me).status ≠ .idle ∧ (w'.session me).isRunning = false := by
    rcases hstop with h | h <;> simp [Session.isRunning, h]
  -- before the call the session had not stopped, so the call stopped it and tore it down
  rcases liveOrStopped_run hD cs (.inl ⟨hw, .inl hu⟩) with ⟨hI, hL⟩ | ⟨hi, hr⟩
  swap
  · exfalso
    rcases hlive with h | h
    · exact hi h
    · simp [Session.isRunning, h] at hr
  rcases c.ends_step hD _ w' hI hL hc with ⟨-, hL'⟩ | ⟨w₀, hat, hI₀, hS₀, hr₀, hT⟩
  · exfalso
    rcases hL'.status with h | h
    · exact hst'.1 h
    · simp [Session.isRunning, h] at hst'
  refine ⟨w₀, hat, hr₀, hT, hI₀.books.1, ?_, fun ch hch hinv hlv => ?_, fun link hl => ?_,
    fun cs' => keeps_run_stopped cs' hst'.1 hst'.2⟩
  · -- done with a top-level final state active, or cancelled with none
    rw [hT.doneData, hT.status]
    rcases hS₀ with (hcalm | ⟨hd, hdone, hx⟩) | ⟨hd, hcan, hnone⟩
    · simp [Session.isRunning, hcalm.2.1] at hr₀
    · obtain ⟨st, hst, htop, hfd⟩ := Session.finalData_of_topFinal (hd ▸ hx)
      rw [hd] at htop hfd
      exact .inr ⟨hdone, st, hst, htop, hfd⟩
    · exact .inl ⟨hcan, Session.finalData_eq_none (hd ▸ hnone)⟩
  · exact hT.cancels.one_each hI₀.books.2.2.1 hch hinv (hI₀.books.2.2.2 ch hch) hlv
  · rw [hT.doneData]
    obtain ⟨P, hP, r⟩ := hT.link link hl hI₀.apart
    exact ⟨P, hP.external, r⟩

/-- Starting the child that `spawnedChild` holds, on the document `finishingChart` compiles
to, stops it at once, done, and tears it down for good. -/
theorem finishing_child_stops_for_good :
    finishingChart.Builds fun d =>
      let w' := (eval ((SessionCall.host (.start {})).step 1) (spawnedChild d)).2
      (spawnedChild d).Intact 1 ∧ ((spawnedChild d).session 1).Unstarted d ∧
      eval ((SessionCall.host (.start {})).step 1) (run 1 [] (spawnedChild d)) = (.ok (), w') ∧
      (w'.session 1).status = .done ∧
      ∃ w₀, (SessionCall.host (.start {})).StopsAt 1 (run 1 [] (spawnedChild d)) w₀ ∧
        (w₀.session 1).isRunning = false ∧
        World.TornDown 1 w₀ w' ∧ (w₀.session 1).configuration.items.Nodup ∧
        ((w'.session 1).status = .cancelled ∧ (w'.session 1).doneData = none ∨
          (w'.session 1).status = .done ∧ ∃ st ∈ (w₀.session 1).configuration.items,
            d.TopFinal st ∧ (w'.session 1).doneData = some ((d.state st).doneData.getD .null)) ∧
        (∀ ch ∈ (w₀.session 1).children, ch.2.status = .invoked →
          (w₀.mailbox ch.2.mailbox).live = true →
          ∃ A, (w'.mailbox ch.2.mailbox).queue = (w₀.mailbox ch.2.mailbox).queue ++ A ∧
            A.countP Envelope.isCancel = 1) ∧
        (∀ link, (w₀.session 1).parent = some link → ∃ P, (∀ e ∈ P, e.kind = .external) ∧
          World.Reports 1 link w₀ w'
            (P ++ w₀.delivered link ((w'.session 1).doneData.map (Event.doneInvoke link.invokeId)).toList)) ∧
        ∀ cs', (World.keeps 1).rel w' (run 1 cs' w') := by
  have hstart : finishingChart.Builds fun d =>
      (eval ((SessionCall.host (.start {})).step 1) (spawnedChild d)).1 = .ok () ∧
      ((eval ((SessionCall.host (.start {})).step 1) (spawnedChild d)).2.session 1).status = .done := by
    decide +kernel
  refine hstart.imp fun d hb hs => ?_
  intro w'
  have hI : (spawnedChild d).Intact 1 := by
    have ht := spawnedChild_tracks d
    refine ⟨ht.lt, ?_, rfl, ht.apart⟩
    simp [World.Books, spawnedChild, World.session]
  have hu : ((spawnedChild d).session 1).Unstarted d := ⟨rfl, rfl, fun st hst => by cases hst⟩
  have hc : eval ((SessionCall.host (.start {})).step 1) (run 1 [] (spawnedChild d)) = (.ok (), w') :=
    Prod.ext hs.1 rfl
  exact ⟨hI, hu, hc, hs.2, stop_tears_down_for_good hb hI hu [] _ (.inl rfl) hc (.inl hs.2)⟩

end SessionCall
end Hsm
