import Hsm.Proofs.Entry
import Hsm.Proofs.Handles
import Hsm.Proofs.Outbox
/-!
# Completion events

Entering a final state below the root appends `done.state` of its parent, and of its grandparent
when that is parallel and complete (`Engine.eval_enterFinal_below`). Content puts no such event on
an internal queue (`World.contentOnly`), so entering states in order reports exactly what
`Selector.reports` counts (`Engine.eval_enterStates`).
-/

namespace Hsm

def Event.isDoneState (id : String) (e : Event) : Bool :=
  e.kind == .platform && e.name == Event.doneStatePrefix ++ id

/-- What content puts on an internal queue: an event it raises or sends to `_internal`, or the
`error.communication` of a send it could not deliver. -/
def Event.FromContent (e : Event) : Prop := e.kind = .internal ∨ e.name = "error.communication"

theorem Event.FromContent.isDoneState {e : Event} (h : e.FromContent) (id : String) :
    e.isDoneState id = false := by
  rcases h with hk | hn
  · simp [Event.isDoneState, hk]
  · simp only [Event.isDoneState, hn, Bool.and_eq_false_iff, beq_eq_false_iff_ne, ne_eq]
    refine .inr fun h => ?_
    have := congrArg String.toList h
    simp [Event.doneStatePrefix] at this

theorem countP_isDoneState_eq_zero {Q : List Event} (hQ : ∀ e ∈ Q, e.FromContent) (id : String) :
    Q.countP (Event.isDoneState id) = 0 :=
  List.countP_eq_zero.2 fun e he => by simp [(hQ e he).isDoneState id]

namespace Selector

/-- The completion events entering the final state `st` raises once it is active: `done.state` of
its parent, with the final state's done data, and of its grandparent when that is parallel and
complete. -/
def completions (sel : Selector) (st : Nat) : List Event :=
  let parent := (sel.doc.state st).parent.getD 0
  Event.doneState (sel.doc.name parent) ((sel.doc.state st).doneData.getD .null) ::
    match (sel.doc.state parent).parent with
    | some gp =>
      if sel.doc.isParallel gp && sel.isInFinalState gp then [Event.doneState (sel.doc.name gp) .null]
      else []
    | none => []

/-- How many `done.state.<id>` events entering `st`, once active, reports: none unless `st` is final
below the top level, where entering a final state ends the session instead. -/
def reportsAt (id : String) (sel : Selector) (st : Nat) : Nat :=
  if sel.doc.isFinal st = true ∧ (sel.doc.state st).parent.getD 0 ≠ 0 then
    (sel.completions st).countP (Event.isDoneState id)
  else 0

/-- How many `done.state.<id>` events entering the states `L` one after another reports. -/
def reports (id : String) (sel : Selector) : List Nat → Nat
  | [] => 0
  | st :: L =>
    let sel' : Selector := { sel with configuration := sel.configuration.add st }
    sel'.reportsAt id st + sel'.reports id L

end Selector

namespace Engine
variable {me : Nat}

/-- Entering a final state below the root only appends its completions to the internal queue. -/
theorem eval_enterFinal_below {w : World} (hm : me < w.sessions.size) {st : Nat}
    (hp : ((w.session me).doc.state st).parent.getD 0 ≠ 0) :
    eval (enterFinal me st) w = (.ok (), w.modifySession me fun s =>
      { s with internal := s.internal ++ (w.session me).selector.completions st }) := by
  unfold enterFinal raiseInternal Selector.completions
  simp only [eval_bind, eval_current, beq_iff_eq, hp, if_false, eval_update, Session.selector]
  -- the grandparent is checked on the session the parent's event leaves, whose selector is the
  -- one before
  cases hg : ((w.session me).doc.state (((w.session me).doc.state st).parent.getD 0)).parent with
  | none => simp
  | some gp =>
    simp only [eval_bind, eval_current, World.session_modifySession_self _ _ hm]
    by_cases hc : ((w.session me).doc.isParallel gp &&
        (⟨(w.session me).doc, (w.session me).configuration, (w.session me).history⟩ : Selector).isInFinalState gp) = true
    · simp [hc, World.modifySession_modifySession, Function.comp_def]
    · simp [hc]

end Engine

/-! ### Completeness of a parallel state -/

theorem Document.lt_size_of_isParallel {d : Document} {s : Nat} (h : d.isParallel s = true) :
    s < d.size := by
  refine Nat.lt_of_not_le fun hs => ?_
  have hout : ¬ s < d.states.size := Nat.not_lt.2 hs
  simp only [Document.isParallel, Document.state, Array.getD, hout, dite_false] at h
  cases h

namespace Selector
variable {sel : Selector}

theorem isInFinalState_iff_of_regions {G : Nat} (hG : sel.doc.isParallel G = true)
    (hR : ∀ R ∈ (sel.doc.state G).children, sel.doc.isCompound R = true) :
    sel.isInFinalState G = true ↔ ∀ R ∈ (sel.doc.state G).children,
      ∃ c ∈ (sel.doc.state R).children, sel.doc.isFinal c = true ∧ c ∈ sel.configuration.items := by
  obtain ⟨k, hk⟩ : ∃ k, sel.doc.size = k + 1 :=
    ⟨sel.doc.size - 1, by have := Document.lt_size_of_isParallel hG; omega⟩
  have hpar : (sel.doc.state G).mode = .parallel := by simpa [Document.isParallel] using hG
  unfold isInFinalState
  rw [hk, completeWithin]
  simp only [hpar, beq_iff_eq, reduceCtorEq, ↓reduceIte, List.all_eq_true]
  refine forall₂_congr fun R hRc => ?_
  have hcomp : (sel.doc.state R).mode = .compound := by
    simpa [Document.isCompound] using hR R hRc
  rw [completeWithin]
  simp [hcomp, OrderedSet.contains]

end Selector

/-- Session `me` stays in place with its status, document, configuration and history, and its
internal queue only grows at the end. -/
def World.appends (me : Nat) : WorldOrder where
  rel w w' := me < w.sessions.size → me < w'.sessions.size ∧
    (w.session me).SameShape (w'.session me) ∧ (w'.session me).history = (w.session me).history ∧
      (w.session me).internal <+: (w'.session me).internal
  refl _ h := ⟨h, ⟨rfl, rfl, rfl⟩, rfl, List.prefix_refl _⟩
  trans h₁ h₂ h := by
    obtain ⟨h₁', ⟨a₁, b₁, c₁⟩, d₁, e₁⟩ := h₁ h
    obtain ⟨h₂', ⟨a₂, b₂, c₂⟩, d₂, e₂⟩ := h₂ h₁'
    exact ⟨h₂', ⟨a₂.trans a₁, b₂.trans b₁, c₂.trans c₁⟩, d₂.trans d₁, e₁.trans e₂⟩

/-- Content only appends to internal queues. -/
theorem World.appends_contentSafe (me : Nat) : (World.appends me).ContentSafe where
  data w i d hm := by
    refine ⟨by simpa using hm, ?_⟩
    rw [World.session_modifySession _ _ _ hm]
    split <;> exact ⟨⟨rfl, rfl, rfl⟩, rfl, List.prefix_refl _⟩
  internal w i e hm := by
    refine ⟨by simpa using hm, ?_⟩
    rw [World.session_modifySession _ _ _ hm]
    split
    · exact ⟨⟨rfl, rfl, rfl⟩, rfl, List.prefix_append _ _⟩
    · exact ⟨⟨rfl, rfl, rfl⟩, rfl, List.prefix_refl _⟩
  effects w es hm := ⟨hm, ⟨rfl, rfl, rfl⟩, rfl, List.prefix_refl _⟩
  post h hm := by
    obtain ⟨-, -, hsize, hses⟩ := World.post_ok h
    refine ⟨hsize ▸ hm, ?_⟩
    rw [hses me]
    exact ⟨⟨rfl, rfl, rfl⟩, rfl, List.prefix_refl _⟩

/-! ### Content reports no completion -/

/-- Session `me` stays, and what joins its internal queue is content's. -/
def World.contentOnly (me : Nat) : WorldOrder where
  rel w w' := me < w.sessions.size → me < w'.sessions.size ∧
    ∃ Q, (w'.session me).internal = (w.session me).internal ++ Q ∧ ∀ e ∈ Q, e.FromContent
  refl _ h := ⟨h, [], by simp, by simp⟩
  trans h₁ h₂ h := by
    obtain ⟨h₁', Q₁, hq₁, hc₁⟩ := h₁ h
    obtain ⟨h₂', Q₂, hq₂, hc₂⟩ := h₂ h₁'
    refine ⟨h₂', Q₁ ++ Q₂, by rw [hq₂, hq₁, List.append_assoc], fun e he => ?_⟩
    rcases List.mem_append.1 he with he | he
    · exact hc₁ e he
    · exact hc₂ e he

namespace World
variable {me : Nat} {w w' : World}

theorem contentOnly_of_internal
    (h : me < w.sessions.size → me < w'.sessions.size ∧ (w'.session me).internal = (w.session me).internal) :
    (contentOnly me).rel w w' := fun hm =>
  ⟨(h hm).1, [], by rw [(h hm).2, List.append_nil], by simp⟩

theorem contentOnly_modifySession (w : World) (i : Nat) {f : Session → Session}
    (hf : ∀ s, (f s).internal = s.internal) : (contentOnly me).rel w (w.modifySession i f) :=
  contentOnly_of_internal fun hm => ⟨by simpa using hm, by
    rw [World.session_modifySession _ _ _ hm]
    split
    · exact hf _
    · rfl⟩

theorem contentOnly_enqueueInternal (w : World) {e : Event} (he : e.FromContent) :
    (contentOnly me).rel w (w.enqueueInternal me e) := fun hm =>
  ⟨by simpa [enqueueInternal] using hm, [e], by simp [enqueueInternal, hm], by simpa using he⟩

theorem contentOnly_post {m : Nat} {env : Envelope} (h : w.post m env = .ok w') :
    (contentOnly me).rel w w' := by
  obtain ⟨-, -, hsize, hses⟩ := World.post_ok h
  exact contentOnly_of_internal fun hm => ⟨hsize ▸ hm, by rw [hses me]⟩

theorem contentOnly_postQuiet (w : World) (m : Nat) (env : Envelope) :
    (contentOnly me).rel w (w.postQuiet m env) := by
  unfold postQuiet
  split
  · exact contentOnly_post ‹_›
  · exact (contentOnly me).refl w

/-- Routing an item of content's outbox appends at most one event of content to the internal
queue of `me`: a raised one, one sent to `_internal`, or the failure of a send. -/
theorem contentOnly_routeItem (w : World) {o : Outgoing} (ho : ∀ e, o = .raise e → e.kind = .internal) :
    (contentOnly me).rel w (w.routeItem me o) := by
  cases o with
  | raise e => exact contentOnly_enqueueInternal w (.inl (ho e rfl))
  | send e target =>
    have hfail : (contentOnly me).rel w
        (w.enqueueInternal me (Event.errorCommunication (target.getD "_self") e.name)) :=
      contentOnly_enqueueInternal w (.inr rfl)
    simp only [routeItem]
    split
    · exact contentOnly_enqueueInternal w (.inl rfl)
    · rename_i m _
      cases h : w.post m (.event e) with
      | ok w₁ => exact contentOnly_post h
      | error _ => exact hfail
    · rename_i link _
      cases h : w.send link e with
      | ok w₁ => exact contentOnly_post h
      | error _ => exact hfail
    · exact hfail

theorem contentOnly_foldl_routeItem {out : List Outgoing}
    (hout : ∀ o ∈ out, ∀ e, o = .raise e → e.kind = .internal) (w : World) :
    (contentOnly me).rel w (out.foldl (fun u o => u.routeItem me o) w) := by
  induction out generalizing w with
  | nil => exact (contentOnly me).refl w
  | cons o out ih =>
    exact (contentOnly me).trans (contentOnly_routeItem w (hout o List.mem_cons_self))
      (ih (fun o' ho' => hout o' (List.mem_cons_of_mem _ ho')) _)

end World

theorem Command.kind_of_mem_outgoing {session : String} {c : Command} {e : Event}
    (h : Outgoing.raise e ∈ c.outgoing session) : e.kind = .internal := by
  cases c <;> simp [Command.outgoing] at h
  rw [h]

namespace Engine
variable {me : Nat}

theorem contentOnly_exec (me : Nat) (cmds : List Command) : Keeps (World.contentOnly me) (exec me cmds) := by
  intro w
  rw [eval_exec]
  split
  · exact (World.contentOnly me).refl w
  rw [eval_runOn]
  generalize hr : execute _ _ _ _ _ = r
  -- the host's effects and the bag change first; the outbox holds what the commands run raise
  have h₁ : (World.contentOnly me).rel w ({ w with effects := w.effects ++ r.effects.toArray }.modifySession me
      fun o => { o with data := r.data }) :=
    (World.contentOnly me).trans (World.contentOnly_of_internal fun hm => ⟨hm, rfl⟩)
      (World.contentOnly_modifySession _ me fun _ => rfl)
  have hout : ∀ o ∈ r.outbox, ∀ e, o = .raise e → e.kind = .internal := by
    have hf := @execute_follows w.registry.hooks (w.session me).config.name (w.session me).event cmds
      (w.session me).data
    rw [hr] at hf
    obtain ⟨L, hL⟩ : ∃ L : List Command, r.outbox = L.flatMap (Command.outgoing (w.session me).config.name) := by
      rcases hf with ⟨-, -, h⟩ | ⟨pre, -, -, -, -, -, -, -, h⟩
      · exact ⟨cmds, h⟩
      · exact ⟨pre, h⟩
    rintro o ho e rfl
    rw [hL, List.mem_flatMap] at ho
    obtain ⟨c, -, hc⟩ := ho
    exact Command.kind_of_mem_outgoing hc
  split
  · exact h₁
  · exact (World.contentOnly me).trans h₁ (World.contentOnly_foldl_routeItem hout _)

theorem contentOnly_update {f : Session → Session} (hf : ∀ s, (f s).internal = s.internal) :
    Keeps (World.contentOnly me) (update me f) := fun w => by
  rw [eval_update]
  exact World.contentOnly_modifySession w me hf

theorem contentOnly_cancelInvokesOf (doc : Document) (st : Nat) :
    Keeps (World.contentOnly me) (cancelInvokesOf me doc st) := by
  unfold cancelInvokesOf
  refine Keeps.forM fun n _ => ?_
  split
  · unfold cancelInvoke
    refine Keeps.bind (fun w => by rw [eval_current]; exact (World.contentOnly me).refl w) fun s => ?_
    split
    · refine Keeps.bind (contentOnly_update fun _ => rfl) fun _ => ?_
      unfold cancelChild
      split
      · exact fun w => by rw [eval_modify]; exact World.contentOnly_postQuiet w _ _
      · exact Keeps.pure _
    · exact Keeps.pure _
  · exact Keeps.pure _

theorem contentOnly_exitStates (ts : List Nat) : Keeps (World.contentOnly me) (exitStates me ts) := by
  unfold exitStates
  refine Keeps.bind (fun w => by rw [eval_current]; exact (World.contentOnly me).refl w) fun s => ?_
  refine Keeps.bind (contentOnly_update fun _ => rfl) fun _ => Keeps.forM fun st _ => ?_
  exact Keeps.bind (contentOnly_exec me _) fun _ =>
    Keeps.bind (contentOnly_cancelInvokesOf _ _) fun _ => contentOnly_update fun _ => rfl

end Engine

/-! ### Entering states, with the completions reported -/

namespace Session

/-- A session with document `D`, configuration `K` and history `H`, whose internal queue is `q`
followed by events of which `c id` are `done.state.<id>`. -/
def Holds (D : Document) (K : OrderedSet Nat) (H : HistoryTable) (q : List Event) (c : String → Nat)
    (s : Session) : Prop :=
  s.doc = D ∧ s.configuration = K ∧ s.history = H ∧
    ∃ Q, s.internal = q ++ Q ∧ ∀ id, Q.countP (Event.isDoneState id) = c id

end Session

namespace Engine
variable {me : Nat} {D : Document} {K : OrderedSet Nat} {H : HistoryTable} {q : List Event}
  {c : String → Nat}

theorem lands_holds_exec (cmds : List Command) :
    Lands me (Session.Holds D K H q c) (Session.Holds D K H q c) (exec me cmds) := by
  intro w a w' hm hP h
  obtain ⟨hm', hs, hh, -⟩ := Keeps.of_eval ((World.appends_contentSafe me).keeps_exec me cmds) h hm
  obtain ⟨-, Q₂, hq₂, hc₂⟩ := Keeps.of_eval (contentOnly_exec me cmds) h hm
  obtain ⟨hdoc, hconf, hhist, Q, hq, hc⟩ := hP
  refine ⟨hm', hs.2.1.trans hdoc, hs.2.2.trans hconf, hh.trans hhist, Q ++ Q₂,
    by rw [hq₂, hq, List.append_assoc], fun id => ?_⟩
  rw [List.countP_append, hc, countP_isDoneState_eq_zero hc₂, Nat.add_zero]

theorem lands_holds_add (st : Nat) :
    Lands me (Session.Holds D K H q c) (Session.Holds D (K.add st) H q c)
      (update me fun s =>
        { s with configuration := s.configuration.add st, toInvoke := s.toInvoke.add st }) := by
  intro w a w' hm hP h
  rw [eval_update] at h
  obtain ⟨-, rfl⟩ := Prod.mk.inj h
  refine ⟨by simpa using hm, ?_⟩
  rw [World.session_modifySession_self _ _ hm]
  exact ⟨hP.1, by rw [hP.2.1], hP.2.2.1, hP.2.2.2⟩

/-- What entering a state does once it is active: a final state below the top level appends its
completions, a top-level one ends the session, and nothing else changes. -/
theorem lands_reported (st : Nat) :
    Lands me (Session.Holds D (K.add st) H q c)
      (Session.Holds D (K.add st) H q fun id => c id + (⟨D, K.add st, H⟩ : Selector).reportsAt id st)
      (if D.isFinal st = true then enterFinal me st else pure ()) := by
  intro w a w' hm hP h
  obtain ⟨hdoc, hconf, hhist, Q, hq, hc⟩ := hP
  have hsel : (w.session me).selector = ⟨D, K.add st, H⟩ := by
    simp only [Session.selector, hdoc, hconf, hhist]
  split at h
  · rename_i hfinal
    by_cases hp0 : ((w.session me).doc.state st).parent.getD 0 = 0
    · -- a top-level final state only ends the session
      have hnone : ∀ id, (⟨D, K.add st, H⟩ : Selector).reportsAt id st = 0 := fun id => by
        rw [hdoc] at hp0
        simp [Selector.reportsAt, hp0]
      unfold enterFinal at h
      rw [eval_bind, eval_current] at h
      simp only [hp0, beq_self_eq_true, if_true, eval_update] at h
      obtain ⟨-, rfl⟩ := Prod.mk.inj h
      refine ⟨by simpa using hm, ?_⟩
      rw [World.session_modifySession_self _ _ hm]
      exact ⟨hdoc, hconf, hhist, Q, hq, fun id => by simp only [hc, hnone, Nat.add_zero]⟩
    · rw [eval_enterFinal_below hm hp0] at h
      obtain ⟨-, rfl⟩ := Prod.mk.inj h
      refine ⟨by simpa using hm, ?_⟩
      rw [World.session_modifySession_self _ _ hm]
      refine ⟨hdoc, hconf, hhist, Q ++ (w.session me).selector.completions st,
        by rw [hq, List.append_assoc], fun id => ?_⟩
      rw [List.countP_append, hc, hsel]
      rw [hdoc] at hp0
      simp [Selector.reportsAt, hfinal, hp0]
  · rename_i hfinal
    obtain ⟨-, rfl⟩ := Prod.mk.inj h
    exact ⟨hm, hdoc, hconf, hhist, Q, hq, fun id => by simp [Selector.reportsAt, hfinal, hc]⟩

/-- What entering the states `L` in order did, from `w` to `w'`: session `me` stays in place with
its document and history, the states join its configuration in order, and its internal queue
grows by events of which as many are `done.state.<id>` as `Selector.reports` counts. -/
structure EntersAll (me : Nat) (L : List Nat) (w w' : World) : Prop where
  size : me < w'.sessions.size
  doc : (w'.session me).doc = (w.session me).doc
  configuration : (w'.session me).configuration = (w.session me).configuration.union L
  history : (w'.session me).history = (w.session me).history
  raised : ∃ Q, (w'.session me).internal = (w.session me).internal ++ Q ∧
    ∀ id, Q.countP (Event.isDoneState id) = (w.session me).selector.reports id L

namespace EntersAll

theorem nil {w : World} (hm : me < w.sessions.size) : EntersAll me [] w w where
  size := hm
  doc := rfl
  configuration := rfl
  history := rfl
  raised := ⟨[], by simp, fun _ => rfl⟩

theorem single {st : Nat} {w w' : World} (hm : me < w'.sessions.size)
    (hH : Session.Holds (w.session me).doc ((w.session me).configuration.add st) (w.session me).history
      (w.session me).internal (fun id => 0 + (⟨(w.session me).doc, (w.session me).configuration.add st,
        (w.session me).history⟩ : Selector).reportsAt id st) (w'.session me)) :
    EntersAll me [st] w w' where
  size := hm
  doc := hH.1
  configuration := hH.2.1
  history := hH.2.2.1
  raised := by
    obtain ⟨Q, hq, hc⟩ := hH.2.2.2
    exact ⟨Q, hq, fun id => by simp [hc, Selector.reports, Session.selector]⟩

theorem cons {st : Nat} {L : List Nat} {w w₁ w₂ : World} (h₁ : EntersAll me [st] w w₁)
    (h₂ : EntersAll me L w₁ w₂) : EntersAll me (st :: L) w w₂ where
  size := h₂.size
  doc := h₂.doc.trans h₁.doc
  configuration := by rw [h₂.configuration, h₁.configuration]; rfl
  history := h₂.history.trans h₁.history
  raised := by
    obtain ⟨Q₁, hq₁, hc₁⟩ := h₁.raised
    obtain ⟨Q₂, hq₂, hc₂⟩ := h₂.raised
    refine ⟨Q₁ ++ Q₂, by rw [hq₂, hq₁, List.append_assoc], fun id => ?_⟩
    -- the states after the first are entered from the selector the first one leaves
    have hsel : (w₁.session me).selector =
        { (w.session me).selector with configuration := (w.session me).configuration.add st } := by
      simp only [Session.selector, h₁.doc, h₁.configuration, h₁.history]
      rfl
    rw [List.countP_append, hc₁, hc₂, hsel]
    simp only [Selector.reports, Nat.add_zero]
    rfl

end EntersAll

/-- Entering states one after another, each as the step says, enters them all in order. -/
theorem eval_forM_entersAll {body : Nat → Engine PUnit}
    (hbody : ∀ st (s₀ : Session), Lands me
      (Session.Holds D s₀.configuration s₀.history s₀.internal fun _ => 0)
      (Session.Holds D (s₀.configuration.add st) s₀.history s₀.internal
        fun id => 0 + (⟨D, s₀.configuration.add st, s₀.history⟩ : Selector).reportsAt id st) (body st))
    {L : List Nat} {w w' : World} (hm : me < w.sessions.size) (hD : (w.session me).doc = D)
    (h : eval (L.forM body) w = (.ok (), w')) : EntersAll me L w w' := by
  induction L generalizing w with
  | nil =>
    cases h
    exact .nil hm
  | cons st L ih =>
    rw [forM_cons] at h
    obtain ⟨_, w₁, h₁, h⟩ := eval_bind_ok h
    obtain ⟨hm₁, hH⟩ := hbody st (w.session me) w _ w₁ hm
      ⟨hD, rfl, rfl, [], by simp, fun _ => rfl⟩ h₁
    rw [← hD] at hH
    have hst : EntersAll me [st] w w₁ := .single hm₁ hH
    exact hst.cons (ih hst.size (hst.doc.trans hD) h)

/-- Entering states enters them in entry order, as `EntersAll` says. -/
theorem eval_enterStates {ts : List Nat} {w w' : World} (hm : me < w.sessions.size)
    (h : eval (enterStates me ts) w = (.ok (), w')) :
    EntersAll me (sortBy (w.session me).doc.entryCmp
      ((w.session me).selector.entrySet ts).states.items) w w' := by
  unfold enterStates at h
  rw [eval_bind, eval_current] at h
  refine eval_forM_entersAll (fun st s₀ => ?_) hm rfl h
  -- the state joins the configuration, its content runs, then a final state reports
  refine Lands.bind (lands_holds_add st) fun _ => (lands_holds_exec _).bind fun _ => ?_
  dsimp only
  split
  on_goal 1 => split
  on_goal 1 => refine (lands_holds_exec _).bind fun _ => ?_
  all_goals
    split
    · exact (lands_holds_exec _).bind fun _ => lands_reported st
    · exact lands_reported st

end Engine

end Hsm
