import Hsm.Proofs.Microstep
import Hsm.Proofs.Completion
import Hsm.Proofs.InsertionOrder
import Hsm.Proofs.Invocations
/-!
# Running sessions keep legal configurations

A session on a compiled, orderly document runs only in legal configurations (`Document.Legal`).
The invariant carried between calls is `Session.Sound`: a microstep fires transitions that may
fire together and keeps history records spread, and every other step keeps the session's shape.
-/

namespace Hsm

namespace Session
variable {D : Document} {s s' : Session}

/-- A session on `D` in order: its history records are spread, and its configuration lists each
state once and is legal. -/
structure InOrder (D : Document) (s : Session) : Prop where
  doc : s.doc = D
  records : s.history.Spreads D
  nodup : s.configuration.items.Nodup
  legal : D.Legal s.configuration.items

def Started (D : Document) (s : Session) : Prop :=
  s.status ≠ .idle ∧ (s.status = .running → s.InOrder D)

/-- A session sound on `D`: not started, it is on `D` with spread records and holds no state;
running, it is in order. -/
structure Sound (D : Document) (s : Session) : Prop where
  idle : s.status = .idle → s.doc = D ∧ s.history.Spreads D ∧ s.configuration.items = []
  running : s.status = .running → s.InOrder D

theorem InOrder.of_shape (h : s.InOrder D) (hs : s.SameShape s') (hh : s'.history = s.history) :
    s'.InOrder D := by
  obtain ⟨-, hdoc, hconf⟩ := hs
  exact ⟨hdoc.trans h.doc, hh ▸ h.records, hconf ▸ h.nodup, hconf ▸ h.legal⟩

theorem Started.of_shape (h : s.Started D) (hs : s.SameShape s') (hh : s'.history = s.history) :
    s'.Started D := by
  refine ⟨hs.1 ▸ h.1, fun hr => (h.2 (hs.1 ▸ hr)).of_shape hs hh⟩

theorem Started.sound (h : s.Started D) : s.Sound D := ⟨fun hi => absurd hi h.1, h.2⟩

theorem Started.running (h : s.Started D) (hr : s.isRunning = true) : s.status = .running ∧ s.InOrder D := by
  have hst : s.status = .running := by simpa [isRunning] using hr
  exact ⟨hst, h.2 hst⟩

theorem started_of_running (hr : s.status = .running) (h : s.InOrder D) : s.Started D :=
  ⟨by rw [hr]; decide, fun _ => h⟩

theorem sound_of_stopped (hi : s.status ≠ .idle) (hr : s.status ≠ .running) : s.Sound D :=
  ⟨fun h => absurd h hi, fun h => absurd h hr⟩

theorem Sound.of_agrees (h : s.Sound D) (ha : s.Agrees s') : s'.Sound D := by
  obtain ⟨hst, hdoc, -, hconf, hhist, -⟩ := ha
  refine ⟨fun hi => ?_, fun hr => (h.running (hst ▸ hr)).of_shape ⟨hst, hdoc, hconf⟩ hhist⟩
  obtain ⟨h₁, h₂, h₃⟩ := h.idle (hst ▸ hi)
  exact ⟨hdoc.trans h₁, hhist ▸ h₂, hconf ▸ h₃⟩

end Session

/-- Session `me` stays in place and keeps its status, its document and its history records. -/
def World.keepsRecords (me : Nat) : WorldOrder where
  rel w w' := me < w.sessions.size → me < w'.sessions.size ∧
    (w'.session me).status = (w.session me).status ∧ (w'.session me).doc = (w.session me).doc ∧
      (w'.session me).history = (w.session me).history
  refl _ h := ⟨h, rfl, rfl, rfl⟩
  trans h₁ h₂ h := by
    obtain ⟨h₁', a₁, b₁, c₁⟩ := h₁ h
    obtain ⟨h₂', a₂, b₂, c₂⟩ := h₂ h₁'
    exact ⟨h₂', a₂.trans a₁, b₂.trans b₁, c₂.trans c₁⟩

namespace World
variable {me i : Nat} {w w' : World} {f : Session → Session}

theorem keepsRecords_of_keeps (h : (keeps me).rel w w') : (keepsRecords me).rel w w' := fun hm =>
  ⟨(h hm).1, (h hm).2.1, (h hm).2.2.1, (h hm).2.2.2.2.2.1⟩

theorem keepsRecords_of_appends (h : (appends me).rel w w') : (keepsRecords me).rel w w' :=
  fun hm => ⟨(h hm).1, (h hm).2.1.1, (h hm).2.1.2.1, (h hm).2.2.1⟩

theorem keepsRecords_modifySession (w : World)
    (hf : ∀ s : Session, (f s).status = s.status ∧ (f s).doc = s.doc ∧ (f s).history = s.history) :
    (keepsRecords me).rel w (w.modifySession i f) := by
  intro h
  refine ⟨by simpa using h, ?_⟩
  rw [session_modifySession _ _ _ h]
  split
  · exact hf _
  · exact ⟨rfl, rfl, rfl⟩

theorem keepsRecords_contentSafe (me : Nat) : (keepsRecords me).ContentSafe where
  data w i d := keepsRecords_of_appends ((appends_contentSafe me).data w i d)
  internal w i e := keepsRecords_of_appends ((appends_contentSafe me).internal w i e)
  effects w es := keepsRecords_of_appends ((appends_contentSafe me).effects w es)
  post h := keepsRecords_of_appends ((appends_contentSafe me).post h)

end World

namespace WorldOrder.ContentSafe
open Engine
variable {R : WorldOrder} {me : Nat}

/-! An order content keeps is kept by finalizing and forwarding an event too: that runs content on
a child's data bag, queues an event, or posts to a child's mailbox. -/

theorem keeps_postQuiet (hR : R.ContentSafe) (w : World) (m : Nat) (env : Envelope) :
    R.rel w (w.postQuiet m env) := by
  unfold World.postQuiet
  split
  · exact hR.post ‹_›
  · exact R.refl w

theorem keeps_autoforward (hR : R.ContentSafe) (invokeId : String) (e : Event) :
    Keeps R (autoforward me invokeId e) := by
  unfold autoforward
  refine Keeps.bind R.refl fun s => ?_
  split
  · split
    · exact fun w => hR.keeps_postQuiet w _ _
    · exact Keeps.pure _
  · exact Keeps.pure _

theorem keeps_applyFinalize (hR : R.ContentSafe) (node : InvokeNode Document) (e : Event) :
    Keeps R (applyFinalize me node e) := by
  unfold applyFinalize
  split
  · exact Keeps.pure _
  · refine Keeps.bind R.refl fun s => ?_
    split
    · exact hR.keeps_raiseInternal _ _
    · exact hR.keeps_runOn _ _ _ _

theorem keeps_finalizeAndForward (hR : R.ContentSafe) (e : Event) :
    Keeps R (finalizeAndForward me e) := by
  unfold finalizeAndForward
  refine Keeps.bind R.refl fun s => Keeps.forM fun st _ => Keeps.forM fun n _ => ?_
  split
  · rename_i node _
    have forward : Keeps R (if node.autoforward = true then autoforward me node.id e else pure ()) := by
      split
      · exact hR.keeps_autoforward _ _
      · exact Keeps.pure _
    dsimp only
    split
    · exact Keeps.bind (hR.keeps_applyFinalize _ _) fun _ => forward
    · exact forward
  · exact Keeps.pure _

end WorldOrder.ContentSafe

namespace Engine
variable {α : Type} {me : Nat} {D : Document}

theorem keepsRecords_update {f : Session → Session}
    (hf : ∀ s : Session, (f s).status = s.status ∧ (f s).doc = s.doc ∧ (f s).history = s.history) :
    Keeps (World.keepsRecords me) (update me f) := fun w => World.keepsRecords_modifySession w hf

theorem keepsRecords_exec (cmds : List Command) : Keeps (World.keepsRecords me) (exec me cmds) :=
  (World.keepsRecords_contentSafe me).keeps_exec me cmds

theorem keepsRecords_nextEnabled (q : List Event) : Keeps (World.keepsRecords me) (nextEnabled me q) :=
  fun w hm => by
    obtain ⟨hsize, q', ev, hs, -⟩ := eval_nextEnabled q w hm
    exact ⟨hsize ▸ hm, by rw [hs], by rw [hs], by rw [hs]⟩

theorem keepsRecords_startInvokes : Keeps (World.keepsRecords me) (startInvokes me) := fun w =>
  (World.keepsRecords me).trans
    (World.keepsRecords_modifySession (i := me) (f := fun s => { s with toInvoke := {} }) w
      fun _ => ⟨rfl, rfl, rfl⟩)
    (World.keepsRecords_of_keeps (keeps_startInvokes w))

theorem lands_started {x : Engine α} (hs : Keeps (World.keepsShape me) x)
    (hr : Keeps (World.keepsRecords me) x) : Lands me (Session.Started D) (Session.Started D) x := by
  intro w a w' hm hL h
  obtain ⟨hm', hshape⟩ := Keeps.of_eval hs h hm
  exact ⟨hm', hL.of_shape hshape (Keeps.of_eval hr h hm).2.2.2⟩

theorem lands_running {x : Engine α} (hs : Keeps (World.keepsShape me) x)
    (hr : Keeps (World.keepsRecords me) x) :
    Lands me (fun s => s.status = .running ∧ s.InOrder D)
      (fun s => s.status = .running ∧ s.InOrder D) x := by
  intro w a w' hm hP h
  obtain ⟨hrun, hIO⟩ := hP
  obtain ⟨hm', hshape⟩ := Keeps.of_eval hs h hm
  exact ⟨hm', hshape.1.trans hrun, hIO.of_shape hshape (Keeps.of_eval hr h hm).2.2.2⟩

end Engine

theorem Document.Shaped.legal_nil {d : Document} (hs : d.Shaped) (hi : (d.state 0).initial = none) :
    d.Legal [] where
  mem _ h := absurd h List.not_mem_nil
  parent_mem _ h := absurd h List.not_mem_nil
  one_child s hs' hc := by
    obtain rfl : s = 0 := List.mem_singleton.1 hs'
    have hsome := (hs.initial_iff hs.size_pos).2 (by simpa [Document.isCompound] using hc)
    rw [hi] at hsome
    cases hsome
  all_children _ h := absurd h List.not_mem_nil
  legalSet := rfl

namespace Engine
variable {me : Nat} {D : Document}

theorem keepsRecords_exit (cmds : List Command) (d : Document) (st : Nat) :
    Keeps (World.keepsRecords me) (do
      exec me cmds
      cancelInvokesOf me d st
      update me fun s => { s with configuration := s.configuration.erase st } : Engine Unit) :=
  Keeps.bind (keepsRecords_exec cmds) fun _ =>
    Keeps.bind ((keeps_cancelInvokesOf me d st).mono fun _ _ => World.keepsRecords_of_keeps) fun _ =>
      keepsRecords_update fun _ => ⟨rfl, rfl, rfl⟩

/-- Exiting the states the transitions `ts` leave, from a configuration that lists each state
once: the records of the history pseudo-states of the exited states are made from the
configuration before the exits, and the exited states leave the configuration; the status and the
document stay. -/
theorem eval_exitStates {ts : List Nat} {w w' : World} (hm : me < w.sessions.size)
    (hnd : (w.session me).configuration.items.Nodup) (h : eval (exitStates me ts) w = (.ok (), w')) :
    me < w'.sessions.size ∧ (w'.session me).status = (w.session me).status ∧
      (w'.session me).doc = (w.session me).doc ∧
      (w'.session me).history =
        (w.session me).history.recordAll ((w.session me).selector.exitRecords ts) ∧
      (w'.session me).configuration.items =
        (w.session me).configuration.items.filter (· ∉ ((w.session me).selector.exitSet ts).items) := by
  unfold exitStates at h
  rw [eval_bind, eval_current] at h
  dsimp only at h
  rw [eval_bind, eval_update] at h
  dsimp only at h
  have hm₁ : me < (w.modifySession me fun s => { s with
      toInvoke := ((w.session me).selector.exitSet ts).items.foldl OrderedSet.erase s.toInvoke
      history := ((w.session me).selector.exitRecords ts).foldl
        (fun t r => t.record r.1 r.2.1 r.2.2) s.history }).sessions.size := by simpa using hm
  -- the exits, state after state, keep what the records made
  obtain ⟨hm', hst, hdoc, hhist⟩ :=
    Keeps.of_eval (Keeps.forM fun st _ => keepsRecords_exit _ _ st) h hm₁
  -- and take the exited states out
  have hx := eval_forM_accumulates (fun st => [st])
    (fun st pre u u' (hq : Exiting me (w.session me).doc _ pre u) hstep => hq.step (by
      rw [World.session_modifySession_self _ _ hm]
      exact hnd) hstep) _ (Exiting.start hm₁) h
  simp only [List.nil_append, List.flatMap_singleton'] at hx
  rw [World.session_modifySession_self _ _ hm] at hst hdoc hhist
  refine ⟨hm', hst, hdoc, hhist, ?_⟩
  rw [hx.active, World.session_modifySession_self _ _ hm]
  refine List.filter_congr fun x _ => ?_
  simp only [mem_sortBy]

/-- Entering states leaves a started session started. -/
theorem awake_enterStates (ts : List Nat) : Keeps (World.awake me) (enterStates me ts) := by
  unfold enterStates
  have hexec (cmds : List Command) : Keeps (World.awake me) (exec me cmds) :=
    (keepsShape_exec me cmds).mono fun _ _ => World.awake_of_keepsShape
  refine Keeps.bind (World.awake me).refl fun s => Keeps.forM fun st _ => ?_
  refine Keeps.bind (awake_update me fun _ hi => hi) fun _ => Keeps.bind (hexec _) fun _ => ?_
  dsimp only
  have last : Keeps (World.awake me)
      (if s.doc.isFinal st = true then enterFinal me st else pure () : Engine Unit) := by
    split
    · exact awake_enterFinal st
    · exact Keeps.pure _
  split
  on_goal 1 => split
  on_goal 1 => refine Keeps.bind (hexec _) fun _ => ?_
  all_goals
    split
    · exact Keeps.bind (hexec _) fun _ => last
    · exact last

theorem awake_microstep (ts : List Nat) : Keeps (World.awake me) (microstep me ts) := by
  unfold microstep
  refine Keeps.bind ((shrinks_exitStates ts).mono fun _ _ h hi => ?_) fun _ =>
    Keeps.bind (World.awake me).refl fun _ => Keeps.bind (Keeps.forM fun _ _ =>
      (keepsShape_exec me _).mono fun _ _ => World.awake_of_keepsShape) fun _ => awake_enterStates ts
  rw [(h (World.lt_of_status_ne_idle hi)).2.1]
  exact hi

theorem eval_microstep_phases {ts : List Nat} {w w' : World}
    (h : eval (microstep me ts) w = (.ok (), w')) :
    ∃ w₁ w₂, eval (exitStates me ts) w = (.ok (), w₁) ∧
      eval (ts.forM fun t => exec me ((w₁.session me).doc.transition t).content) w₁ = (.ok (), w₂) ∧
      eval (enterStates me ts) w₂ = (.ok (), w') := by
  unfold microstep at h
  obtain ⟨_, w₁, h₁, h⟩ := eval_bind_ok h
  rw [eval_bind, eval_current] at h
  obtain ⟨_, w₂, h₂, h₃⟩ := eval_bind_ok h
  exact ⟨w₁, w₂, h₁, h₂, h₃⟩

/-- A microstep on a session whose configuration lists each state once: exiting makes the records
and takes the exited states out, which leaves the selector `sel₁`; the states that the entry walk
on `sel₁` collects then join the configuration in entry order. The document stays. -/
theorem eval_microstep {ts : List Nat} {w w' : World} (hm : me < w.sessions.size)
    (hnd : (w.session me).configuration.items.Nodup) (h : eval (microstep me ts) w = (.ok (), w')) :
    ∃ sel₁ : Selector, sel₁.doc = (w.session me).doc ∧
      sel₁.configuration.items = (w.session me).configuration.items.filter
        (· ∉ ((w.session me).selector.exitSet ts).items) ∧
      sel₁.history = (w.session me).history.recordAll ((w.session me).selector.exitRecords ts) ∧
      me < w'.sessions.size ∧ (w'.session me).doc = sel₁.doc ∧
      (w'.session me).history = sel₁.history ∧
      (w'.session me).configuration =
        sel₁.configuration.union (sortBy sel₁.doc.entryCmp (sel₁.entrySet ts).states.items) := by
  obtain ⟨w₁, w₂, h₁, h₂, h₃⟩ := eval_microstep_phases h
  obtain ⟨hm₁, -, hdoc₁, hhist₁, hconf₁⟩ := eval_exitStates hm hnd h₁
  -- the content of the transitions keeps what the exits left
  obtain ⟨hm₂, -, hdoc₂, hconf₂⟩ := Keeps.of_eval (Keeps.forM fun _ _ => keepsShape_exec me _) h₂ hm₁
  have hhist₂ := (Keeps.of_eval (Keeps.forM fun _ _ => keepsRecords_exec _) h₂ hm₁).2.2.2
  have hE := eval_enterStates hm₂ h₃
  refine ⟨(w₂.session me).selector, hdoc₂.trans hdoc₁, ?_, hhist₂.trans hhist₁, hE.size, hE.doc,
    hE.history, hE.configuration⟩
  show (w₂.session me).configuration.items = _
  rw [hconf₂, hconf₁]

end Engine

namespace Engine
variable {β : Type} {me : Nat} {D : Document}

/-! ### What selection finds may fire together -/

theorem selectEventless_fires {w w' : World} {r : OrderedSet Nat}
    (h : eval (selectEventless me) w = (.ok r, w')) : w' = w ∧ (w.session me).selector.Fires r.items := by
  rw [eval_selectEventless] at h
  split at h
  · obtain ⟨h, rfl⟩ := Prod.mk.inj h
    cases h
    exact ⟨rfl, Selector.fires_of_select ‹_›⟩
  · cases h

theorem selectCurrent_fires {w w' : World} {r : OrderedSet Nat}
    (h : eval (selectCurrent me) w = (.ok r, w')) : w' = w ∧ (w.session me).selector.Fires r.items := by
  rw [eval_selectCurrent] at h
  split at h
  · obtain ⟨h, rfl⟩ := Prod.mk.inj h
    cases h
    exact ⟨rfl, Selector.fires_of_select ‹_›⟩
  · cases h

/-- The transitions the search for enabled transitions finds were selected on the session it
leaves, so they may fire together from there. -/
theorem nextEnabled_fires (q : List Event) {w w' : World} {en : OrderedSet Nat}
    (h : eval (nextEnabled me q) w = (.ok (some en), w')) : (w'.session me).selector.Fires en.items := by
  induction q generalizing w with
  | nil =>
    unfold nextEnabled at h
    obtain ⟨_, w₁, -, h₁⟩ := eval_bind_ok h
    obtain ⟨r, w₂, h₂, h₃⟩ := eval_bind_ok h₁
    obtain ⟨rfl, hf⟩ := selectEventless_fires h₂
    split at h₃
    · obtain ⟨h₄, rfl⟩ := Prod.mk.inj h₃
      cases h₄
      exact hf
    · cases h₃
  | cons e rest ih =>
    unfold nextEnabled at h
    obtain ⟨_, w₁, -, h₁⟩ := eval_bind_ok h
    obtain ⟨r, w₂, h₂, h₃⟩ := eval_bind_ok h₁
    obtain ⟨rfl, hf⟩ := selectEventless_fires h₂
    split at h₃
    · obtain ⟨h₄, rfl⟩ := Prod.mk.inj h₃
      cases h₄
      exact hf
    · -- nothing eventless: the next event of the queue is tried
      obtain ⟨_, w₃, -, h₄⟩ := eval_bind_ok h₃
      obtain ⟨r', w₄, h₅, h₆⟩ := eval_bind_ok h₄
      obtain ⟨rfl, hf'⟩ := selectCurrent_fires h₅
      split at h₆
      · obtain ⟨h₇, rfl⟩ := Prod.mk.inj h₆
        cases h₇
        exact hf'
      · exact ih h₆

theorem Lands.selectCurrent_bind {P Q : Session → Prop} {k : OrderedSet Nat → Engine β}
    (h : ∀ en, Lands me (fun s => P s ∧ s.selector.Fires en.items) Q (k en)) :
    Lands me P Q (selectCurrent me >>= k) := by
  intro w b w' hm hP hx
  rw [eval_bind] at hx
  rcases hs : eval (selectCurrent me) w with ⟨_ | en, w₁⟩ <;> rw [hs] at hx
  · cases hx
  · obtain ⟨rfl, hf⟩ := selectCurrent_fires hs
    exact h en _ b w' hm ⟨hP, hf⟩ hx

/-! ### Microsteps keep a running session in order -/

section
variable (hD : D.Shaped) (hDo : D.Orderly)
include hD hDo

/-- Firing transitions that may fire together from a session in order leaves it in order: the
records exiting makes stay spread, and the configuration after is legal. -/
theorem inOrder_fired {ts : List Nat} {w w' : World} (hm : me < w.sessions.size)
    (hIO : (w.session me).InOrder D) (hf : (w.session me).selector.Fires ts)
    (h : eval (microstep me ts) w = (.ok (), w')) :
    me < w'.sessions.size ∧ (w'.session me).InOrder D := by
  obtain ⟨sel₁, hdoc₁, hconf₁, hhist₁, hm', hdoc', hhist', hconf'⟩ := eval_microstep hm hIO.nodup h
  have hsel : (w.session me).selector.doc = D := hIO.doc
  have ho : (w.session me).selector.Orderly :=
    ⟨by rw [hsel]; exact hD, by rw [hsel]; exact hDo, by rw [hsel]; exact hIO.records⟩
  have hL : (w.session me).selector.doc.Legal (w.session me).selector.configuration.items := by
    rw [hsel]
    exact hIO.legal
  -- the records exiting makes are spread
  have hrec : ((w.session me).history.recordAll ((w.session me).selector.exitRecords ts)).Spreads D := by
    have := Selector.spreads_recordAll ho.shaped ho.orderly hL ho.records ts
    rwa [hsel] at this
  have ho₁ : sel₁.Orderly := ⟨by rw [hdoc₁, hIO.doc]; exact hD, by rw [hdoc₁, hIO.doc]; exact hDo,
    by rw [hhist₁, hdoc₁, hIO.doc]; exact hrec⟩
  have hmem : ∀ x, x ∈ (w'.session me).configuration.items ↔
      (x ∈ (w.session me).selector.configuration.items ∧
        x ∉ ((w.session me).selector.exitSet ts).items) ∨ x ∈ (sel₁.entrySet ts).states.items := by
    intro x
    rw [hconf', OrderedSet.mem_union, hconf₁, List.mem_filter, mem_sortBy, decide_eq_true_iff]
    rfl
  refine ⟨hm', hdoc'.trans (hdoc₁.trans hIO.doc), by rw [hhist', hhist₁]; exact hrec, ?_, ?_⟩
  · rw [hconf']
    exact OrderedSet.nodup_union (by rw [hconf₁]; exact hIO.nodup.filter _) _
  · have := hf.legal_step ho hL ho₁ hdoc₁ hmem
    rwa [hsel] at this

theorem lands_fired {ts : List Nat} :
    Lands me (fun s => s.status = .running ∧ s.InOrder D ∧ s.selector.Fires ts) (Session.Started D)
      (microstep me ts) := by
  intro w a w' hm hP h
  obtain ⟨hrun, hIO, hf⟩ := hP
  obtain ⟨hm', hIO'⟩ := inOrder_fired hD hDo hm hIO hf h
  have hst : (w'.session me).status ≠ .idle :=
    Keeps.of_eval (awake_microstep ts) h (by rw [hrun]; decide)
  exact ⟨hm', hst, fun _ => hIO'⟩

/-- Entering the root's default targets from no state leaves the session started and in order:
nothing exits, so no record is made, and what the entry walk collects is legal. -/
theorem lands_initial {i : Nat} (hi : (D.state 0).initial = some i) :
    Lands me (fun s => s.status = .running ∧ s.doc = D ∧ s.history.Spreads D ∧
      s.configuration.items = []) (Session.Started D) (microstep me [i]) := by
  intro w a w' hm hP h
  obtain ⟨hrun, hdoc, hrec, hnil⟩ := hP
  obtain ⟨sel₁, hdoc₁, hconf₁, hhist₁, hm', hdoc', hhist', hconf'⟩ :=
    eval_microstep hm (by rw [hnil]; exact List.nodup_nil) h
  have hst : (w'.session me).status ≠ .idle :=
    Keeps.of_eval (awake_microstep [i]) h (by rw [hrun]; decide)
  have hexit : ((w.session me).selector.exitSet [i]).items = [] :=
    List.eq_nil_iff_forall_not_mem.2 fun x hx => by
      have hxC : x ∈ (w.session me).configuration.items := Selector.mem_configuration_of_mem_exitSet hx
      rw [hnil] at hxC
      exact List.not_mem_nil hxC
  have hnil₁ : sel₁.configuration.items = [] := by rw [hconf₁, hnil]; rfl
  have hhist₁' : sel₁.history = (w.session me).history := by
    rw [hhist₁, Selector.exitRecords, hexit]
    rfl
  have ho₁ : sel₁.Orderly := ⟨by rw [hdoc₁, hdoc]; exact hD, by rw [hdoc₁, hdoc]; exact hDo,
    by rw [hhist₁', hdoc₁, hdoc]; exact hrec⟩
  have hmem : ∀ x, x ∈ (w'.session me).configuration.items ↔ x ∈ (sel₁.entrySet [i]).states.items := by
    intro x
    rw [hconf', OrderedSet.mem_union, hnil₁, mem_sortBy]
    simp
  refine ⟨hm', hst, fun _ => ⟨hdoc'.trans (hdoc₁.trans hdoc), by rw [hhist', hhist₁']; exact hrec,
    ?_, ?_⟩⟩
  · rw [hconf']
    exact OrderedSet.nodup_union (by rw [hnil₁]; exact List.nodup_nil) _
  · have := ho₁.legal_initial (by rw [hdoc₁, hdoc]; exact hi) hmem
    rwa [hdoc₁, hdoc] at this

end

/-- Searching for enabled transitions from a running session in order: what follows starts from a
running session in order, from which what was found may fire. -/
theorem Lands.nextEnabled_bind {q : List Event} {Q : Session → Prop}
    {k : Option (OrderedSet Nat) → Engine β}
    (h : ∀ r, Lands me (fun s => s.status = .running ∧ s.InOrder D ∧
      ∀ en, r = some en → s.selector.Fires en.items) Q (k r)) :
    Lands me (fun s => s.status = .running ∧ s.InOrder D) Q (nextEnabled me q >>= k) := by
  intro w b w' hm hP hx
  rw [eval_bind] at hx
  rcases hn : eval (nextEnabled me q) w with ⟨_ | r, w₁⟩ <;> rw [hn] at hx
  · cases hx
  · obtain ⟨hm₁, hrun, hIO⟩ :=
      lands_running (keepsShape_nextEnabled me q) (keepsRecords_nextEnabled q) w _ w₁ hm hP hn
    refine h r w₁ b w' hm₁ ⟨hrun, hIO, fun en hen => ?_⟩ hx
    subst hen
    exact nextEnabled_fires q hn

section
variable (hD : D.Shaped) (hDo : D.Orderly)
include hD hDo

/-- Draining keeps a started session in order while it runs: each microstep fires what selection
picked on the running session. -/
theorem inOrder_drain (limit : Nat) :
    ∀ left, Lands me (Session.Started D) (Session.Started D) (drain me limit left) := by
  intro left
  induction left with
  | zero =>
    unfold drain
    refine Lands.current_bind fun s => ?_
    split
    · exact Lands.pure _ fun _ h => h.1
    · rename_i hr
      refine Lands.mono (P := fun s => s.status = .running ∧ s.InOrder D) ?_
        (fun s' h => h.1.running (by rw [h.2]; simpa using hr)) fun _ h => h
      refine Lands.current_bind_of fun _ => Lands.nextEnabled_bind fun r => ?_
      split
      · exact Lands.pure _ fun _ h => Session.started_of_running h.1 h.2.1
      · exact Lands.throw _
  | succ k ih =>
    unfold drain
    refine Lands.current_bind fun s => ?_
    split
    · exact Lands.pure _ fun _ h => h.1
    · rename_i hr
      refine Lands.mono (P := fun s => s.status = .running ∧ s.InOrder D) ?_
        (fun s' h => h.1.running (by rw [h.2]; simpa using hr)) fun _ h => h
      refine Lands.current_bind_of fun _ => Lands.nextEnabled_bind fun r => ?_
      split
      · exact Lands.pure _ fun _ h => Session.started_of_running h.1 h.2.1
      · exact Lands.bind ((lands_fired hD hDo).mono (fun _ h => ⟨h.1, h.2.1, h.2.2 _ rfl⟩)
          fun _ h => h) fun _ => ih

theorem inOrder_rounds (limit : Nat) :
    ∀ fuel left, Lands me (Session.Started D) (Session.Started D) (rounds me limit fuel left)
  | 0, _ => Lands.pure _ fun _ h => h
  | fuel + 1, left => by
    unfold rounds
    refine Lands.bind (inOrder_drain hD hDo limit left) fun left' => Lands.current_bind_of fun s => ?_
    split
    · exact Lands.pure _ fun _ h => h
    · refine Lands.bind (lands_started keepsShape_startInvokes keepsRecords_startInvokes) fun _ =>
        Lands.current_bind_of fun s' => ?_
      split
      · exact Lands.pure _ fun _ h => h
      · exact inOrder_rounds limit fuel left'

theorem inOrder_macrostep : Lands me (Session.Started D) (Session.Started D) (macrostep me) := by
  unfold macrostep
  refine Lands.current_bind_of fun s => Lands.bind (inOrder_rounds hD hDo _ _ _) fun b => ?_
  split
  · exact lands_started (keeps_publish _).shape ((keeps_publish me).mono fun _ _ => World.keepsRecords_of_keeps)
  · exact Lands.pure _ fun _ h => h

/-- Processing an external event from a running session in order leaves it started and in order
while it runs. -/
theorem inOrder_processExternal (e : Event) :
    Lands me (fun s => s.status = .running ∧ s.InOrder D) (Session.Started D) (processExternal me e) := by
  have last (enabled : OrderedSet Nat) : Lands me
      (fun s => (s.status = .running ∧ s.InOrder D) ∧ s.selector.Fires enabled.items) (Session.Started D)
      (if (!enabled.isEmpty) = true then microstep me enabled.items >>= fun _ => macrostep me
        else macrostep me) := by
    split
    · exact Lands.bind ((lands_fired hD hDo).mono (fun _ h => ⟨h.1.1, h.1.2, h.2⟩) fun _ h => h)
        fun _ => inOrder_macrostep hD hDo
    · exact (inOrder_macrostep hD hDo).mono (fun _ h => Session.started_of_running h.1.1 h.1.2) fun _ h => h
  have keepEvent : Lands me (fun s => s.status = .running ∧ s.InOrder D)
      (fun s => s.status = .running ∧ s.InOrder D) (update me fun s => { s with event := e }) :=
    lands_running (keepsShape_update _ fun _ => ⟨rfl, rfl, rfl⟩) (keepsRecords_update fun _ => ⟨rfl, rfl, rfl⟩)
  have rest : Lands me (fun s => s.status = .running ∧ s.InOrder D) (Session.Started D) (do
      update me fun s => { s with event := e }
      finalizeAndForward me e
      let enabled ← selectCurrent me
      if !enabled.isEmpty then microstep me enabled.items
      macrostep me) :=
    keepEvent.bind fun _ => Lands.bind (lands_running (keepsShape_finalizeAndForward _)
      ((World.keepsRecords_contentSafe me).keeps_finalizeAndForward _)) fun _ =>
        Lands.selectCurrent_bind last
  unfold processExternal
  split
  · split
    · exact Lands.bind (lands_running (keepsShape_update _ fun _ => ⟨rfl, rfl, rfl⟩)
        (keepsRecords_update fun _ => ⟨rfl, rfl, rfl⟩)) fun _ => rest
    · exact rest
  · exact rest

/-- Entering the initial configuration from a running session on `D` that holds no state and has
spread records leaves it started and in order while it runs. -/
theorem inOrder_enterInitial :
    Lands me (fun s => s.status = .running ∧ s.doc = D ∧ s.history.Spreads D ∧
      s.configuration.items = []) (Session.Started D) (enterInitial me) := by
  unfold enterInitial
  refine Lands.current_bind fun s => ?_
  split
  · rename_i i hi
    refine Lands.bind ?_ fun _ => inOrder_macrostep hD hDo
    intro w a w' hm hP h
    obtain ⟨hP, rfl⟩ := hP
    exact lands_initial hD hDo (by rw [← hP.2.1]; exact hi) w a w' hm hP h
  · -- without a default transition the root is atomic, and no state is legal
    rename_i hnone
    refine (inOrder_macrostep hD hDo).mono (fun s' h => ?_) fun _ h => h
    obtain ⟨⟨hrun, hdoc, hrec, hnil⟩, rfl⟩ := h
    have hi : (D.state 0).initial = none := by
      rw [← hdoc]
      cases h : (s'.doc.state 0).initial with
      | none => rfl
      | some i => exact (hnone i h).elim
    exact Session.started_of_running hrun
      ⟨hdoc, hrec, by rw [hnil]; exact List.nodup_nil, by rw [hnil]; exact hD.legal_nil hi⟩

end

end Engine

/-- Between two calls, session `me` is in place and sound on `D`, with its books in order while it
is not started or runs. -/
structure World.Sound (D : Document) (w : World) (me : Nat) : Prop where
  size : me < w.sessions.size
  session : (w.session me).Sound D
  books : (w.session me).status = .idle ∨ (w.session me).status = .running → w.Books me

namespace World
variable {D : Document} {me : Nat} {w w' : World}

theorem sound_of_stopped (hi : (w.session me).status ≠ .idle)
    (hr : (w.session me).status ≠ .running) : w.Sound D me :=
  ⟨lt_of_status_ne_idle hi, Session.sound_of_stopped hi hr, fun h => (h.elim hi hr).elim⟩

theorem Sound.of_keeps (h : w.Sound D me) (hk : (keeps me).rel w w') (hb : (keepsBooks me).rel w w') :
    w'.Sound D me := by
  obtain ⟨hm', ha⟩ := hk h.size
  refine ⟨hm', h.session.of_agrees ha, fun hs => (hb h.size (h.books ?_)).2.2⟩
  rwa [ha.1] at hs

end World

namespace Engine
variable {me : Nat} {D : Document}

/-! ### Host calls keep a session sound -/

theorem sound_fail_throw (err : SessionError) {w : World} (hm : me < w.sessions.size) :
    (eval (fail me err >>= fun e => throw e : Engine Unit) w).2.Sound D me := by
  rw [eval_fail_throw]
  have hst := status_fail err hm
  exact World.sound_of_stopped (by rw [hst]; decide) (by rw [hst]; decide)

/-- Settling a step that succeeded: a session that runs stays as the step left it, and one that
stopped is torn down, or fails, and stays stopped. -/
theorem sound_settle_ok {w : World} (hm : me < w.sessions.size) (hb : w.Books me)
    (hL : (w.session me).Started D) : (eval (settle me (.ok ())) w).2.Sound D me := by
  unfold settle
  rw [eval_bind, eval_current]
  dsimp only
  split
  · exact ⟨hm, hL.sound, fun _ => hb⟩
  · rename_i hr
    rw [eval_bind, eval_observe]
    rcases htd : eval (teardown me) w with ⟨_ | _, w₁⟩
    · -- the teardown failed, and so does the session
      exact sound_fail_throw _ (Keeps.of_eval keepsStatus_teardown htd hm).1
    · -- the teardown keeps the status of a session that stopped
      have hst := (Keeps.of_eval keepsStatus_teardown htd hm).2
      have hs : w₁.Sound D me := World.sound_of_stopped (by rw [hst]; exact hL.1)
        (by rw [hst]; simpa [Session.isRunning] using hr)
      exact hs

/-- Settling a step that keeps the books and, whenever it succeeds, leaves the session started and
in order while it runs: a failure fails the session for good. -/
theorem sound_settle_observe {x : Engine Unit} {P : Session → Prop} (hx : Lands me P (Session.Started D) x)
    (hb : Keeps (World.keepsBooks me) x) {w : World} (hm : me < w.sessions.size) (hbooks : w.Books me)
    (hP : P (w.session me)) : (eval (observe x >>= settle me) w).2.Sound D me := by
  rw [eval_bind, eval_observe]
  rcases h : eval x w with ⟨_ | ⟨⟩, w₁⟩
  · unfold settle
    exact sound_fail_throw _ (Keeps.of_eval hb h hm hbooks).1
  · obtain ⟨hm₁, hL₁⟩ := hx w () w₁ hm hP h
    exact sound_settle_ok hm₁ (Keeps.of_eval hb h hm hbooks).2.2 hL₁

theorem sound_post (env : Envelope) {w : World} (h : w.Sound D me) :
    (eval (current me >>= fun s => post s.mailbox env) w).2.Sound D me := by
  rw [eval_bind, eval_current]
  exact h.of_keeps (keeps_post _ _ w) (keepsBooks_post _ _ w)

section
variable (hD : D.Shaped) (hDo : D.Orderly)
include hD hDo

theorem sound_start (data : Data) {w : World} (h : w.Sound D me) :
    (eval (start me data) w).2.Sound D me := by
  unfold start
  rw [eval_bind, eval_current]
  dsimp only
  split
  · exact h
  · rename_i hidle
    have hidle' : (w.session me).status = .idle := by simpa using hidle
    obtain ⟨hdoc, hrec, hnil⟩ := h.session.idle hidle'
    rw [eval_bind, eval_update]
    -- the session runs now, from no state
    refine sound_settle_observe (inOrder_enterInitial hD hDo) keepsBooks_enterInitial
      (by simpa using h.size)
      (World.keepsBooks_modifySession w (f := fun s => { s with data, status := .running })
        (fun _ => ⟨rfl, id, .refl _⟩) h.size (h.books (.inl hidle'))).2.2 ?_
    rw [World.session_modifySession_self _ _ h.size]
    exact ⟨rfl, hdoc, hrec, hnil⟩

theorem sound_handle (env : Envelope) {w : World} (h : w.Sound D me) :
    (eval (handle me env) w).2.Sound D me := by
  unfold handle
  rw [eval_bind, eval_current]
  dsimp only
  split
  · exact h
  · rename_i hr
    have hrun : (w.session me).status = .running := by simpa [Session.isRunning] using hr
    have hb := h.books (.inr hrun)
    split
    · -- a stop request cancels the session, which settling tears down
      rw [eval_bind, eval_update]
      refine sound_settle_ok (by simpa using h.size)
        (World.keepsBooks_modifySession w (f := fun s => { s with status := .cancelled })
          (fun _ => ⟨rfl, id, .refl _⟩) h.size hb).2.2 ?_
      rw [World.session_modifySession_self _ _ h.size]
      exact ⟨by simp, fun hc => by simp at hc⟩
    · exact sound_settle_observe (inOrder_processExternal hD hDo _) (keepsBooks_processExternal _)
        h.size hb ⟨hrun, h.session.running hrun⟩

theorem sound_runQueued (n : Nat) {w : World} (h : w.Sound D me) :
    (eval (runQueued me n) w).2.Sound D me := by
  induction n generalizing w with
  | zero => exact h
  | succ n ih =>
    unfold runQueued
    rw [eval_bind, eval_current]
    dsimp only
    split
    · exact h
    · simp only [eval_bind, eval_get, eval_current, eval_set]
      -- taking an envelope leaves every session as it was
      have ht : (w.take (w.session me).mailbox).2.Sound D me := by
        refine h.of_keeps (fun hm => ⟨?_, ?_⟩) (World.keepsBooks_take w _)
        · unfold World.take
          split <;> exact hm
        · rw [World.session_take]
          exact Session.Agrees.refl _
      split
      · exact ht
      · rw [eval_bind]
        have hh := sound_handle hD hDo ‹Envelope› ht
        rcases h' : eval (handle me _) _ with ⟨_ | _, w'⟩ <;> rw [h'] at hh
        · exact hh
        · exact ih hh

theorem sound_sendTo (e : Event) (target : String) {w : World} (h : w.Sound D me) :
    (eval (sendTo me e target) w).2.Sound D me := by
  unfold sendTo
  rw [eval_bind]
  have hd : (eval (deliver me e (some target)) w).2.Sound D me :=
    h.of_keeps (keeps_deliver me e _ w) (keepsBooks_deliver me e _ w)
  rcases hdl : eval (deliver me e (some target)) w with ⟨_ | _, w₁⟩ <;> rw [hdl] at hd
  · exact hd
  · dsimp only
    rw [eval_bind, eval_current]
    dsimp only
    split
    · -- an event raised on the internal queue of a running session is processed at once
      rename_i hrun
      have hr : (w₁.session me).status = .running := by
        simpa [Session.isRunning] using (Bool.and_eq_true_iff.1 hrun).2
      exact sound_settle_observe (inOrder_macrostep hD hDo) keepsBooks_macrostep hd.size
        (hd.books (.inr hr)) (Session.started_of_running hr (hd.session.running hr))
    · exact hd

end

end Engine

namespace SessionCall
open Engine
variable {me : Nat} {D : Document}

/-- Every call keeps a session sound. -/
theorem sound_step (hD : D.Shaped) (hDo : D.Orderly) (c : SessionCall) {w : World}
    (h : w.Sound D me) : (eval (c.step me) w).2.Sound D me := by
  cases c with
  | host c =>
    cases c with
    | start data => exact sound_start hD hDo data h
    | send e => exact sound_post _ h
    | cancel => exact sound_post _ h
    | runPending =>
      by_cases hidle : (w.session me).status = .idle
      · simpa [step, HostCall.step, runPending, eval_bind, eval_ensureStarted, hidle] using h
      · simp only [step, HostCall.step, runPending, eval_bind, eval_ensureStarted_ok hidle]
        exact sound_runQueued hD hDo _ h
    | handle env => exact sound_handle hD hDo env h
    | sendTo e target => exact sound_sendTo hD hDo e target h
  | processNext env =>
    by_cases hidle : (w.session me).status = .idle
    · simpa [step, Engine.processNext, eval_bind, eval_ensureStarted, hidle] using h
    · simp only [step, Engine.processNext, eval_bind, eval_ensureStarted_ok hidle]
      exact sound_handle hD hDo env h

theorem sound_run (hD : D.Shaped) (hDo : D.Orderly) (cs : List SessionCall) {w : World}
    (h : w.Sound D me) : (run me cs w).Sound D me := by
  induction cs generalizing w with
  | nil => exact h
  | cons c cs ih => exact ih (c.sound_step hD hDo h)

/-- A session on a compiled, orderly document runs only in legal configurations. From a session
not started, on a document that `ds` builds and that is orderly, holding no state, no history
record and no handle, along any run of calls, whenever the session runs between two calls it is on
that document and its configuration is legal: no active state is the root or a history
pseudo-state, the parent of every active state below the top level is active, the root (when it
has child states) and every active compound state have exactly one active child, every active
parallel state has all its children active, and any two active states are compatible. -/
theorem running_configuration_legal {ds : DocumentSchema} (me : Nat) (w : World)
    (hm : me < w.sessions.size) (hb : ds.build = .ok (w.session me).doc)
    (ho : (w.session me).doc.Orderly) (hidle : (w.session me).status = .idle)
    (hc : (w.session me).configuration.items = []) (hh : (w.session me).history = {})
    (hch : (w.session me).children = []) (cs : List SessionCall) :
    let s := (run me cs w).session me
    s.isRunning = true → s.doc = (w.session me).doc ∧ s.doc.Legal s.configuration.items := by
  intro s hr
  -- a session not started, with no state, record or handle, is sound, and every call keeps it so
  have h₀ : w.Sound (w.session me).doc me := by
    refine ⟨hm, ⟨fun _ => ⟨rfl, by rw [hh]; exact HistoryTable.spreads_empty, hc⟩, fun h => ?_⟩,
      fun _ => ⟨by simp [hc], by simp [hch], by simp [hch], by simp [hch]⟩⟩
    rw [hidle] at h
    cases h
  have hS := sound_run (DocumentSchema.shaped_of_build hb) ho cs h₀
  obtain ⟨hdoc, -, -, hL⟩ := hS.session.running (by simpa [Session.isRunning] using hr)
  exact ⟨hdoc, by rw [hdoc]; exact hL⟩

end SessionCall

/-- A compound state `work` with a compound child `step`, which has a shallow history
pseudo-state `sh`, a parallel child `both`, and a deep history pseudo-state `wh`; `idle` beside
it. The transitions move inside `step`, into `both`, out of `work`, and back through `wh`. -/
def roundTripChart : DocumentSchema :=
  { states := [
      { id := "work"
        transitions := [{ events := ["leave"], targets := ["idle"] }]
        children := [
          { id := "step"
            transitions := [{ events := ["split"], targets := ["both"] }]
            children := [
              { id := "s1", transitions := [{ events := ["next"], targets := ["s2"] }] },
              { id := "s2" },
              { id := "sh", kind := .history .shallow }] },
          { id := "both", kind := .parallel, children := [{ id := "left" }, { id := "right" }] },
          { id := "wh", kind := .history .deep }] },
      { id := "idle", transitions := [{ events := ["back"], targets := ["wh"] }] }] }

def freshSession (d : Document) : World :=
  { sessions := #[{ doc := d, config := { name := "main" }, mailbox := 0 }],
    mailboxes := #[{ owner := some 0 }] }

/-- `roundTripChart` compiles to an orderly document, on which a session runs only in legal
configurations, along any run of calls. -/
theorem roundTrip_runs_legal :
    roundTripChart.Builds fun d => d.Orderly ∧ ∀ cs : List SessionCall,
      let s := (SessionCall.run 0 cs (freshSession d)).session 0
      s.isRunning = true → s.doc = d ∧ s.doc.Legal s.configuration.items := by
  have ho : roundTripChart.Builds Document.Orderly := by decide +kernel
  exact ho.imp fun d hb hod => ⟨hod, fun cs =>
    SessionCall.running_configuration_legal 0 (freshSession d) Nat.zero_lt_one hb hod rfl rfl rfl rfl cs⟩

end Hsm
