import Hsm.Proofs.Stopping
import Hsm.Proofs.Legal
import Hsm.Session.Task
/-!
# What an invoked session sends to the session that invoked it

Over any run of an invoked session's task among other tasks, the link's mailbox receives what
content sent to `_parent`, whole blocks in order, then at most one notification of how the session
stopped (`World.TaskRun.link_hears_content_then_outcome`). The run is an induction over the task's
turns, each of which signs off (`Engine.SignsOff`).
-/

namespace Hsm

theorem DocumentSchema.Lowered.finalsParented {ds : DocumentSchema} {d : Document}
    (h : ds.Lowered d) : d.FinalsParented := by
  intro st hmode
  rcases Nat.eq_zero_or_pos st with rfl | hpos
  · rw [h.root_mode] at hmode
    unfold Document.closedMode at hmode
    split at hmode <;> simp_all
  · rcases Nat.lt_or_ge st d.size with hlt | hge
    · obtain ⟨p, hp, -⟩ := h.parent hpos hlt
      simp [hp]
    · have : d.state st = default := by simp [Document.state, Array.getD, Document.size] at hge ⊢; omega
      rw [this] at hmode
      cases hmode

theorem DocumentSchema.finalsParented_of_build {ds : DocumentSchema} {d : Document}
    (hb : ds.build = .ok d) : d.FinalsParented :=
  (lowered_of_build hb).finalsParented

namespace Session
variable {D : Document} {link : ParentLink} {s : Session} {T : List Event}

/-- While a session has not stopped, it runs `D` with no top-level final state active. -/
def Unfinished (D : Document) (s : Session) : Prop :=
  s.status = .idle ∨ s.status = .running →
    s.doc = D ∧ ∀ st ∈ s.configuration.items, ¬ D.TopFinal st

/-- What the session that invoked a session on `D` through `link` has heard of how it ended,
after what content sent: nothing while the session has not stopped or when it was cancelled;
`done.invoke` with the done data of a top-level final state when it is done; `error.execution`
with the error its task ended on when it failed. -/
inductive Notified (link : ParentLink) (D : Document) (s : Session) : List Event → Prop
  | quiet : s.status ≠ .done → s.status ≠ .failed → Notified link D s []
  | done (st : Nat) : s.status = .done → D.TopFinal st →
      s.doneData = some ((D.state st).doneData.getD .null) →
      Notified link D s [Event.doneInvoke link.invokeId ((D.state st).doneData.getD .null)]
  | failed (e : SessionError) : s.status = .failed → s.drive = .finished (.error e) →
      Notified link D s [Event.errorExecution e.message]

theorem Calm.unfinished (h : s.Calm D) : s.Unfinished D := fun _ => ⟨h.1, h.2.2⟩

theorem Unfinished.unstarted (h : s.Unfinished D) (hs : s.status = .idle) : s.Unstarted D :=
  ⟨(h (.inl hs)).1, hs, (h (.inl hs)).2⟩

theorem Unfinished.calm (h : s.Unfinished D) (hs : s.status = .running) : s.Calm D :=
  ⟨(h (.inr hs)).1, hs, (h (.inr hs)).2⟩

theorem Notified.quiet_of (hs : s.status = .idle ∨ s.status = .running) : s.Notified link D [] := by
  refine .quiet ?_ ?_ <;> rcases hs with hs | hs <;> simp [hs]

theorem Notified.eq_nil (h : s.Notified link D T) (hs : s.status = .idle ∨ s.status = .running) :
    T = [] := by
  cases h with
  | quiet => rfl
  | done _ hd => rcases hs with hs | hs <;> simp [hs] at hd
  | failed _ hf => rcases hs with hs | hs <;> simp [hs] at hf

theorem Notified.congr {s' : Session} (h : s.Notified link D T) (hst : s'.status = s.status)
    (hdd : s'.doneData = s.doneData) (hdr : s.status = .failed → s'.drive = s.drive) :
    s'.Notified link D T := by
  cases h with
  | quiet h₁ h₂ => exact .quiet (hst ▸ h₁) (hst ▸ h₂)
  | done st h₁ h₂ h₃ => exact .done st (hst ▸ h₁) h₂ (hdd ▸ h₃)
  | failed e h₁ h₂ => exact .failed e (hst ▸ h₁) ((hdr h₁).trans h₂)

theorem Notified.finished_of_failed (h : s.Notified link D T) (hf : s.status = .failed) :
    ∃ e, s.drive = .finished (.error e) := by
  cases h with
  | quiet _ h₂ => exact absurd hf h₂
  | done _ hd => simp [hd] at hf
  | failed e _ hdr => exact ⟨e, hdr⟩

theorem Farewell.notified_error {e : SessionError} (h : s.Farewell link D (.error e) T) :
    ({ s with drive := .finished (.error e) } : Session).Notified link D T := by
  cases h with
  | failed _ hf => exact .failed e hf rfl

theorem Farewell.notified_ok (h : s.Farewell link D (.ok ()) T) (d : Drive) :
    ({ s with drive := d } : Session).Notified link D T := by
  cases h with
  | running hc => exact .quiet (by simp [hc.2.1]) (by simp [hc.2.1])
  | cancelled hc => exact .quiet (by simp [hc]) (by simp [hc])
  | done st hd htop hdd => exact .done st hd htop hdd

theorem Farewell.unfinished {r : Except SessionError Unit} (h : s.Farewell link D r T) :
    s.Unfinished D := by
  cases h with
  | running hc => exact hc.unfinished
  | cancelled hc => intro hs; rcases hs with hs | hs <;> simp [hs] at hc
  | done _ hd => intro hs; rcases hs with hs | hs <;> simp [hs] at hd
  | failed _ hf => intro hs; rcases hs with hs | hs <;> simp [hs] at hf

theorem Farewell.of_running (h : s.Farewell link D (.ok ()) T) (hr : s.isRunning = true) :
    T = [] ∧ s.Calm D := by
  cases h with
  | running hc => exact ⟨rfl, hc⟩
  | cancelled hc => simp [isRunning, hc] at hr
  | done _ hd => simp [isRunning, hd] at hr

end Session

namespace World
variable {me : Nat} {link : ParentLink} {D : Document} {w w' : World}

/-- Session `me` of `w` runs `D` as a task linked to `link`, kept apart, with no top-level final
state active while it has not stopped. -/
structure Tracks (me : Nat) (link : ParentLink) (D : Document) (w : World) : Prop where
  lt : me < w.sessions.size
  apart : w.LinkApart me
  parent : (w.session me).parent = some link
  unfinished : (w.session me).Unfinished D

/-- From `w` to `w'` session `me`'s link heard what content sent and then, while its mailbox is
open, what `Session.Notified` says of the session at `w'`, which has not stopped or has
stopped. -/
def Told (me : Nat) (link : ParentLink) (D : Document) (w w' : World) : Prop :=
  ∃ Q T, (w.session me).Sent Q ∧ Reports me link w w' (Q ++ w.delivered link T) ∧
    (w'.session me).Notified link D T ∧ (w'.session me).Unfinished D

theorem Told.of_reports {w₁ : World} {Q₁ : List Event} (hQ₁ : (w.session me).Sent Q₁)
    (r₁ : Reports me link w w₁ Q₁) (h : Told me link D w₁ w') : Told me link D w w' := by
  obtain ⟨Q, T, hQ, r₂, hN, hu⟩ := h
  obtain ⟨hs, r⟩ := r₁.then hQ₁ hQ r₂
  exact ⟨_, T, hs, r, hN, hu⟩

theorem Told.of_quiet (hr : Reports me link w w' []) (hs : (w'.session me).status = .idle ∨
    (w'.session me).status = .running) (hu : (w'.session me).Unfinished D) : Told me link D w w' :=
  ⟨[], [], .nil, by simpa [delivered] using hr, .quiet_of hs, hu⟩

theorem reports_modifyMailbox {m : Nat} (f : Mailbox → Mailbox) (hne : m ≠ link.mailbox)
    (hm : me < w.sessions.size) (ha : w.LinkApart me) (hl : (w.session me).parent = some link) :
    Reports me link w { w with mailboxes := w.mailboxes.modify m f } [] := by
  refine ⟨hm, fun link' hl' => ?_, hl, rfl, rfl, ?_⟩
  · obtain ⟨h₁, h₂, h₃⟩ := ha link' hl'
    exact ⟨by simpa using h₁, h₂, h₃⟩
  · simp only [Appended, List.map_nil, List.append_nil]
    rw [mailbox_modify _ _ _ _ (ha link hl).1, if_neg hne]
    exact ⟨rfl, rfl⟩

theorem reports_take {m : Nat} (hne : m ≠ link.mailbox) (hm : me < w.sessions.size)
    (ha : w.LinkApart me) (hl : (w.session me).parent = some link) :
    Reports me link w (w.take m).2 [] := by
  unfold take
  split
  · exact Reports.refl hm ha hl
  · exact reports_modifyMailbox _ hne hm ha hl

end World

namespace Engine
variable {me : Nat} {link : ParentLink} {D : Document}

theorem run_serve_zero {w : World} (hr : (w.session me).isRunning = true) :
    ((serve me 0).run w).2 = ((defer me).run w).2 := by
  simp [serve, StateT.run_bind, StateT.run_get, hr]

theorem run_serve_stopped (b : Nat) {w : World} (hr : (w.session me).isRunning = false) :
    ((serve me b).run w).2 = ((finish me (.ok (w.session me).outcome)).run w).2 := by
  cases b <;> simp [serve, StateT.run_bind, StateT.run_get, hr]

theorem run_serve_waits (b : Nat) {w : World} (hr : (w.session me).isRunning = true)
    (ht : (w.take (w.session me).mailbox).1 = none) :
    ((serve me (b + 1)).run w).2 =
      (w.take (w.session me).mailbox).2.modifySession me fun s => { s with drive := .waiting } := by
  simp only [serve, StateT.run_bind, StateT.run_get, pure_bind, hr, Bool.not_true, Bool.false_eq_true,
    if_false, ht]
  rfl

theorem run_serve_handles (b : Nat) {w : World} {env : Envelope} (hr : (w.session me).isRunning = true)
    (ht : (w.take (w.session me).mailbox).1 = some env) :
    ((serve me (b + 1)).run w).2 =
      ((match (eval (handle me env) (w.take (w.session me).mailbox).2).1 with
        | .error e => finish me (.error e)
        | .ok () => serve me b).run (eval (handle me env) (w.take (w.session me).mailbox).2).2).2 := by
  simp only [serve, StateT.run_bind, StateT.run_get, pure_bind, hr, Bool.not_true, Bool.false_eq_true,
    if_false, ht]
  rfl

theorem run_poll_fresh (b : Nat) {w : World} {data : Data} (hd : (w.session me).drive = .fresh data) :
    ((poll b me).run w).2 =
      ((match (eval (start me data) (w.modifySession me fun s => { s with drive := .ready })).1 with
        | .error e => finish me (.error e)
        | .ok () => serve me b).run
          (eval (start me data) (w.modifySession me fun s => { s with drive := .ready })).2).2 := by
  simp only [poll, StateT.run_bind, StateT.run_get, pure_bind, hd]
  rfl

theorem run_poll_ready (b : Nat) {w : World} (hd : (w.session me).drive = .ready) :
    ((poll b me).run w).2 = ((serve me b).run w).2 := by
  simp only [poll, StateT.run_bind, StateT.run_get, pure_bind, hd]

theorem run_poll_idle (b : Nat) {w : World} (hd : ∀ data, (w.session me).drive ≠ .fresh data)
    (hr : (w.session me).drive ≠ .ready) : ((poll b me).run w).2 = w := by
  simp only [poll, StateT.run_bind, StateT.run_get, pure_bind]
  rfl

theorem reports_finish (result : Except SessionError Outcome) {w : World} (hm : me < w.sessions.size)
    (ha : w.LinkApart me) (hl : (w.session me).parent = some link) :
    World.Reports me link w ((finish me result).run w).2 [] ∧
      ((finish me result).run w).2.session me = { w.session me with drive := .finished result } := by
  have r₁ := World.reports_drive (.finished result) hm ha hl
  have r₂ := World.reports_modifyMailbox (fun mb => { mb with queue := [], live := false })
    (Ne.symm (ha link hl).2.1) r₁.lt r₁.apart r₁.parent
  have r := r₁.trans r₂
  rw [List.append_nil] at r
  exact ⟨r, World.session_modifySession_self _ _ hm⟩

theorem reports_defer {w : World} (hm : me < w.sessions.size) (ha : w.LinkApart me)
    (hl : (w.session me).parent = some link) :
    World.Reports me link w ((defer me).run w).2 [] ∧
      ((defer me).run w).2.session me = { w.session me with drive := .ready } := by
  have r := World.reports_drive .ready hm ha hl
  -- the task list is not part of what the link reports
  exact ⟨⟨r.lt, r.apart, r.parent, r.doc, r.config, r.appended⟩, World.session_modifySession_self _ _ hm⟩

/-- After a step that signed off, the task goes on serving while its session runs, and
otherwise ends on the step's result: either way the link heard what content sent and then what
`Session.Notified` says. -/
theorem told_continue (b : Nat)
    (hserve : ∀ w, World.Tracks me link D w → (w.session me).Calm D →
      World.Told me link D w ((serve me b).run w).2)
    {w₀ w : World} {r : Except SessionError Unit} {Q T : List Event}
    (hQ : (w₀.session me).Sent Q) (hrep : World.Reports me link w₀ w (Q ++ w₀.delivered link T))
    (hF : (w.session me).Farewell link D r T) :
    World.Told me link D w₀
      ((match r with | .error e => finish me (.error e) | .ok () => serve me b).run w).2 := by
  cases r with
  | error e =>
    obtain ⟨r', hs⟩ := reports_finish (.error e) hrep.lt hrep.apart hrep.parent
    refine ⟨Q, T, hQ, by simpa using hrep.trans r', ?_, ?_⟩
    · rw [hs]
      exact hF.notified_error
    · rw [hs]
      exact hF.unfinished
  | ok u =>
    cases u
    by_cases hr : (w.session me).isRunning
    · -- the session runs calm: the task serves on
      obtain ⟨rfl, hc⟩ := hF.of_running hr
      exact (hserve w ⟨hrep.lt, hrep.apart, hrep.parent, hc.unfinished⟩ hc).of_reports hQ
        (by simpa [World.delivered] using hrep)
    · -- the session stopped: the task ends with its outcome
      dsimp only
      rw [run_serve_stopped b (by simpa using hr)]
      obtain ⟨r', hs⟩ := reports_finish (.ok (w.session me).outcome) hrep.lt hrep.apart hrep.parent
      refine ⟨Q, T, hQ, by simpa using hrep.trans r', ?_, ?_⟩
      · rw [hs]
        exact hF.notified_ok _
      · rw [hs]
        exact hF.unfinished

/-- Serving a calm task: the link hears what content sent and then, if the session stops, what
`Session.Notified` says. -/
theorem told_serve (hD : D.FinalsParented) (b : Nat) {w : World} (hI : World.Tracks me link D w)
    (hc : (w.session me).Calm D) : World.Told me link D w ((serve me b).run w).2 := by
  have hr : (w.session me).isRunning = true := by simp [Session.isRunning, hc.2.1]
  induction b generalizing w with
  | zero =>
    rw [run_serve_zero hr]
    obtain ⟨r, hs⟩ := reports_defer hI.lt hI.apart hI.parent
    refine World.Told.of_quiet r ?_ ?_ <;> rw [hs]
    · exact .inr hc.2.1
    · exact hc.unfinished
  | succ b ih =>
    have r₁ := World.reports_take (Ne.symm (hI.apart link hI.parent).2.1) hI.lt hI.apart hI.parent
    have hs₁ : (w.take (w.session me).mailbox).2.session me = w.session me := World.session_take _
    rcases ht : (w.take (w.session me).mailbox).1 with _ | env
    · -- nothing queued: the task waits
      rw [run_serve_waits b hr ht]
      have r₂ := World.reports_drive .waiting r₁.lt r₁.apart r₁.parent
      refine World.Told.of_quiet (by simpa using r₁.trans r₂) ?_ ?_ <;>
        rw [World.session_modifySession_self _ _ r₁.lt, hs₁]
      · exact .inr hc.2.1
      · exact hc.unfinished
    · -- an envelope: handled, then the task goes on or ends
      rw [run_serve_handles b hr ht]
      rcases he : eval (handle me env) (w.take (w.session me).mailbox).2 with ⟨r, w₂⟩
      obtain ⟨Q, T, hQe, r₂, hF⟩ :=
        signsOff_handle hD env _ r w₂ r₁.lt r₁.apart r₁.parent (by rw [hs₁]; exact hc) he
      exact (told_continue b (fun w' hI' hc' => ih hI' hc' (by simp [Session.isRunning, hc'.2.1]))
        hQe r₂ hF).of_reports .nil r₁

/-- A session already started is not started again, and nothing changes. -/
theorem eval_start_started (data : Data) {w : World} (h : (w.session me).status ≠ .idle) :
    eval (start me data) w = (.error .alreadyStarted, w) := by
  simp [start, eval_bind, h]

/-- A turn of a task whose session has not stopped: a fresh task starts and then serves, a ready
one serves, and one that waits stays as it is. -/
theorem told_poll (hD : D.FinalsParented) (b : Nat) {w : World} (hI : World.Tracks me link D w)
    (hu : (w.session me).status = .idle ∨ (w.session me).status = .running) :
    World.Told me link D w ((poll b me).run w).2 := by
  have quiet : World.Told me link D w w :=
    World.Told.of_quiet (World.Reports.refl hI.lt hI.apart hI.parent) hu hI.unfinished
  rcases hd : (w.session me).drive with _ | data | _ | _ | result
  · rwa [run_poll_idle b (by simp [hd]) (by simp [hd])]
  · rw [run_poll_fresh b hd]
    have r₁ := World.reports_drive .ready hI.lt hI.apart hI.parent
    have hs₁ : (w.modifySession me fun s => { s with drive := .ready }).session me =
        { w.session me with drive := .ready } := World.session_modifySession_self _ _ hI.lt
    rcases hu with hidle | hrun
    · -- a fresh task starts its session, then serves it
      rcases he : eval (start me data) (w.modifySession me fun s => { s with drive := .ready })
        with ⟨r, w₂⟩
      obtain ⟨Q, T, hQe, r₂, hF⟩ := signsOff_start hD data _ r w₂ r₁.lt r₁.apart r₁.parent
        (by rw [hs₁]; exact hI.unfinished.unstarted hidle) he
      exact (told_continue b (fun w' hI' hc' => told_serve hD b hI' hc')
        hQe r₂ hF).of_reports .nil r₁
    · -- a running session is not started again: the task ends on the refusal
      rw [eval_start_started data (by simp [hs₁, hrun])]
      obtain ⟨r₂, hs₂⟩ := reports_finish (.error .alreadyStarted) r₁.lt r₁.apart r₁.parent
      refine World.Told.of_quiet (by simpa using r₁.trans r₂) ?_ ?_ <;> rw [hs₂, hs₁]
      · exact .inr hrun
      · exact hI.unfinished
  · rw [run_poll_ready b hd]
    rcases hu with hidle | hrun
    · -- a session never started is not served: the task ends
      rw [run_serve_stopped _ (by simp [Session.isRunning, hidle])]
      obtain ⟨r₂, hs₂⟩ := reports_finish (.ok (w.session me).outcome) hI.lt hI.apart hI.parent
      refine World.Told.of_quiet r₂ ?_ ?_ <;> rw [hs₂]
      · exact .inl hidle
      · exact hI.unfinished
    · exact told_serve hD b hI (hI.unfinished.calm hrun)
  · rwa [run_poll_idle b (by simp [hd]) (by simp [hd])]
  · rwa [run_poll_idle b (by simp [hd]) (by simp [hd])]

/-- A turn of a task whose session stopped adds nothing to the link, and keeps what it heard:
the session changes at most in how its task is driven, and not at all once it failed. -/
theorem poll_stopped (b : Nat) {w : World} {T : List Event} (hI : World.Tracks me link D w)
    (hs : ¬ ((w.session me).status = .idle ∨ (w.session me).status = .running))
    (hN : (w.session me).Notified link D T) :
    World.Tracks me link D ((poll b me).run w).2 ∧ World.Reports me link w ((poll b me).run w).2 [] ∧
      (((poll b me).run w).2.session me).Notified link D T := by
  have hr : (w.session me).isRunning = false := by
    simp only [not_or] at hs
    simp [Session.isRunning, hs.2]
  -- a failed session's task has ended, so its drive stays as it is
  have hdrive (d : Drive) (hd : (w.session me).drive = d) (hnf : ∀ e, d ≠ .finished (.error e)) :
      (w.session me).status ≠ .failed := fun hf => by
    obtain ⟨e, he⟩ := hN.finished_of_failed hf
    exact hnf e (hd ▸ he)
  have ends (result : Except SessionError Outcome) (w₁ : World)
      (r₁ : World.Reports me link w w₁ []) (hs₁ : (w₁.session me).status = (w.session me).status)
      (hd₁ : (w₁.session me).doneData = (w.session me).doneData)
      (hnf : (w.session me).status ≠ .failed) :
      World.Tracks me link D ((finish me result).run w₁).2 ∧
        World.Reports me link w ((finish me result).run w₁).2 [] ∧
        (((finish me result).run w₁).2.session me).Notified link D T := by
    obtain ⟨r₂, hs₂⟩ := reports_finish result r₁.lt r₁.apart r₁.parent
    refine ⟨⟨r₂.lt, r₂.apart, r₂.parent, ?_⟩, by simpa using r₁.trans r₂, ?_⟩
    · rw [hs₂]
      intro hu
      exact absurd (hs₁ ▸ hu) hs
    · rw [hs₂]
      exact hN.congr hs₁ hd₁ fun hf => absurd hf hnf
  rcases hd : (w.session me).drive with _ | data | _ | _ | result
  · rw [run_poll_idle b (by simp [hd]) (by simp [hd])]
    exact ⟨hI, World.Reports.refl hI.lt hI.apart hI.parent, hN⟩
  · -- a stopped session is not started again: the task ends on the refusal
    rw [run_poll_fresh b hd]
    have r₁ := World.reports_drive .ready hI.lt hI.apart hI.parent
    have hs₁ : (w.modifySession me fun s => { s with drive := .ready }).session me =
        { w.session me with drive := .ready } := World.session_modifySession_self _ _ hI.lt
    rw [eval_start_started data (by rw [hs₁]; exact fun h => hs (.inl h))]
    exact ends _ _ r₁ (by rw [hs₁]) (by rw [hs₁]) (hdrive _ hd fun _ h => by cases h)
  · rw [run_poll_ready b hd, run_serve_stopped _ hr]
    exact ends _ _ (World.Reports.refl hI.lt hI.apart hI.parent) rfl rfl
      (hdrive _ hd fun _ h => by cases h)
  · rw [run_poll_idle b (by simp [hd]) (by simp [hd])]
    exact ⟨hI, World.Reports.refl hI.lt hI.apart hI.parent, hN⟩
  · rw [run_poll_idle b (by simp [hd]) (by simp [hd])]
    exact ⟨hI, World.Reports.refl hI.lt hI.apart hI.parent, hN⟩

end Engine

namespace World
variable {me : Nat} {link : ParentLink} {D : Document} {w w' : World}

def added (w w' : World) (m : Nat) : List Envelope :=
  (w'.mailbox m).queue.drop (w.mailbox m).queue.length

theorem Appended.added {Q : List Event} (h : Appended w w' link Q) :
    w.added w' link.mailbox = Q.map link.stamp := by
  simp [World.added, h.2]

/-- What the rest of the world may do between two turns of session `me`'s task: add sessions and
mailboxes, change the session's data bag (as finalize content of the session that invoked it
does) and wake it up, and close the link's mailbox, which then stays closed. -/
def Rely (me : Nat) (link : ParentLink) (w w' : World) : Prop :=
  w.sessions.size ≤ w'.sessions.size ∧ w.mailboxes.size ≤ w'.mailboxes.size ∧
    (∃ data drive, w'.session me = { w.session me with data := data, drive := drive } ∧
      (drive = (w.session me).drive ∨ (w.session me).drive = .waiting ∧ drive = .ready)) ∧
    ((w'.mailbox link.mailbox).live = true → (w.mailbox link.mailbox).live = true)

theorem Tracks.rely (h : Tracks me link D w) (hr : Rely me link w w') : Tracks me link D w' := by
  obtain ⟨hsz, hmsz, ⟨data, drive, hs, -⟩, -⟩ := hr
  refine ⟨Nat.lt_of_lt_of_le h.lt hsz, fun link' hl' => ?_, by rw [hs]; exact h.parent,
    by rw [hs]; exact h.unfinished⟩
  rw [hs] at hl' ⊢
  obtain ⟨h₁, h₂, h₃⟩ := h.apart link' hl'
  exact ⟨Nat.lt_of_lt_of_le h₁ hmsz, h₂, h₃⟩

theorem notified_rely {T : List Event} (hN : (w.session me).Notified link D T)
    (hr : Rely me link w w') : (w'.session me).Notified link D T := by
  obtain ⟨-, -, ⟨data, drive, hs, hd⟩, -⟩ := hr
  rw [hs]
  refine hN.congr rfl rfl fun hf => ?_
  obtain ⟨e, he⟩ := hN.finished_of_failed hf
  rcases hd with hd | ⟨hw, -⟩
  · exact hd
  · rw [he] at hw
    cases hw

/-- The runs of the world from `w₀` in which session `me` takes its turns as a task: `Y` is what
its turns added to the mailbox of `link`, and between turns the rest of the world does what
`World.Rely` allows. -/
inductive TaskRun (me : Nat) (link : ParentLink) (w₀ : World) : List Envelope → World → Prop
  | nil : TaskRun me link w₀ [] w₀
  | poll {w : World} {Y : List Envelope} (b : Nat) : TaskRun me link w₀ Y w →
      TaskRun me link w₀ (Y ++ w.added ((Engine.poll b me).run w).2 link.mailbox)
        ((Engine.poll b me).run w).2
  | rely {w w' : World} {Y : List Envelope} : TaskRun me link w₀ Y w → Rely me link w w' →
      TaskRun me link w₀ Y w'

/-- Along a run the session stays tracked, and what its turns added to the link is, while the
link's mailbox is open, what content sent followed by what the link has heard. The induction is
on the run; a turn of a session that has not stopped tells what it did (`Engine.told_poll`), one
of a stopped session adds nothing (`Engine.poll_stopped`). -/
theorem TaskRun.told (hD : D.FinalsParented) {w₀ w : World} {Y : List Envelope}
    (hrun : TaskRun me link w₀ Y w) (h₀ : Tracks me link D w₀)
    (hq : (w₀.session me).Notified link D []) :
    Tracks me link D w ∧ (w.session me).doc = (w₀.session me).doc ∧
      (w.session me).config = (w₀.session me).config ∧
      ∃ P T, (w₀.session me).Sent P ∧ (w.session me).Notified link D T ∧
        ((w.mailbox link.mailbox).live = true → Y = (P ++ T).map link.stamp) := by
  induction hrun with
  | nil => exact ⟨h₀, rfl, rfl, [], [], .nil, hq, fun _ => rfl⟩
  | @poll w Y b _ ih =>
    obtain ⟨hI, hd, hc, P, T, hP, hN, hY⟩ := ih
    by_cases hu : (w.session me).status = .idle ∨ (w.session me).status = .running
    · -- nothing has been heard yet, and the turn tells what it did
      obtain rfl := hN.eq_nil hu
      obtain ⟨Q, T', hQ, r, hN', hu'⟩ := Engine.told_poll hD b hI hu
      refine ⟨⟨r.lt, r.apart, r.parent, hu'⟩, r.doc.trans hd, r.config.trans hc, P ++ Q, T',
        hP.append (hQ.of_eq hd hc), hN', fun hlive => ?_⟩
      have hlive₁ : (w.mailbox link.mailbox).live = true := r.appended.1 ▸ hlive
      rw [hY hlive₁, r.appended.added, World.delivered, if_pos hlive₁]
      simp
    · obtain ⟨hI', r, hN'⟩ := Engine.poll_stopped _ hI hu hN
      refine ⟨hI', r.doc.trans hd, r.config.trans hc, P, T, hP, hN', fun hlive => ?_⟩
      rw [hY (r.appended.1 ▸ hlive), r.appended.added]
      simp
  | rely _ hr ih =>
    obtain ⟨hI, hd, hc, P, T, hP, hN, hY⟩ := ih
    -- the rest of the world changes only the session's data bag and how its task is driven
    obtain ⟨data, drive, hs, -⟩ := hr.2.2.1
    refine ⟨hI.rely hr, ?_, ?_, P, T, hP, notified_rely hN hr, fun hlive => hY (hr.2.2.2 hlive)⟩
    · rw [hs]
      exact hd
    · rw [hs]
      exact hc

/-- Over every run of an invoked session's task from its start, what its turns sent through its
link, while the link's mailbox stays open, is: the events its content sent to `_parent`, whole
blocks of content of its document `D` each in its own order, from its own name, and stamped with
the link's invoke id; then at most one notification of how it ended (`Session.Notified`):
`done.invoke` with the done data of a top-level final state exactly when it is done,
`error.execution` with the error its task ended on exactly when it failed, and nothing while it
has not stopped or once it was cancelled. Nothing follows the notification. -/
theorem TaskRun.link_hears_content_then_outcome {ds : DocumentSchema} (hb : ds.build = .ok D)
    {w₀ w : World} {Y : List Envelope} (hrun : TaskRun me link w₀ Y w) (h₀ : Tracks me link D w₀)
    (hidle : (w₀.session me).status = .idle) (hlive : (w.mailbox link.mailbox).live = true) :
    ∃ P T, D.Sent (w₀.session me).config.name P ∧ Y = (P ++ T).map link.stamp ∧
      (w.session me).Notified link D T := by
  obtain ⟨-, -, -, P, T, hP, hN, hY⟩ :=
    hrun.told (DocumentSchema.finalsParented_of_build hb) h₀ (.quiet_of (.inl hidle))
  -- the session runs `D` from its start
  have hd : (w₀.session me).doc = D := (h₀.unfinished (.inl hidle)).1
  unfold Session.Sent at hP
  rw [hd] at hP
  exact ⟨P, T, hP, hY hlive, hN⟩

end World

def finishingChart : DocumentSchema :=
  { states := [{ id := "a", transitions := [{ targets := ["end"] }] }, { id := "end", kind := .final }] }

/-- A session that invoked the document `d` as "job", and the child it spawned, not yet started. -/
def spawnedChild (d : Document) : World :=
  let handle : ChildHandle := { invokeId := "job", mailbox := 1, session := some 1 }
  let parent : Session :=
    { doc := d, config := { name := "parent" }, mailbox := 0, children := [("job", handle)] }
  let child : Session :=
    { doc := d, config := { name := "job" }, mailbox := 1, parent := some ⟨0, "job"⟩,
      drive := .fresh {} }
  { sessions := #[parent, child], mailboxes := #[{ owner := some 0 }, { owner := some 1 }] }

theorem spawnedChild_tracks (d : Document) : World.Tracks 1 ⟨0, "job"⟩ d (spawnedChild d) := by
  refine ⟨by simp [spawnedChild], fun link hl => ?_, rfl, fun _ => ⟨rfl, fun st hst => by cases hst⟩⟩
  cases hl
  exact ⟨by simp [spawnedChild], by simp [spawnedChild, World.session],
    fun c hc => by simp [spawnedChild, World.session] at hc⟩

/-- The child's first turn starts it on the document `finishingChart` compiles to: what reached
its parent is content's sends and then at most the one notification of how it ended. -/
theorem spawnedChild_first_turn_told :
    finishingChart.Builds fun d =>
      let w := ((Engine.poll Runtime.host.pollBudget 1).run (spawnedChild d)).2
      World.Tracks 1 ⟨0, "job"⟩ d (spawnedChild d) ∧ ((spawnedChild d).session 1).status = .idle ∧
        (w.mailbox 0).live = true ∧
        ∃ P T, d.Sent ((spawnedChild d).session 1).config.name P ∧
          [] ++ (spawnedChild d).added w 0 = (P ++ T).map (ParentLink.stamp ⟨0, "job"⟩) ∧
          (w.session 1).Notified ⟨0, "job"⟩ d T := by
  have hok : finishingChart.Builds fun _ => True := by decide +kernel
  refine hok.imp fun d hb _ => ?_
  intro w
  have h₀ := spawnedChild_tracks d
  -- the turn reports through the link, so the link's mailbox stays open
  have hlive : (w.mailbox 0).live = true := by
    obtain ⟨_, _, _, r, _⟩ := Engine.told_poll (DocumentSchema.finalsParented_of_build hb) _ h₀ (.inl rfl)
    exact r.appended.1
  exact ⟨h₀, rfl, hlive, World.TaskRun.link_hears_content_then_outcome hb (.poll _ .nil) h₀ rfl hlive⟩

end Hsm
