import Hsm.Proofs.Poised
/-!
# How a session stops, and what the link hears of it

`World.Reports` says what goes through the link from one world to another. Each step that ends the
handling of an envelope, or starts a session, reports what content sent and then at most one
notification (`Engine.signsOff_handle`, `Engine.signsOff_start`).
-/

namespace Hsm

theorem mem_sortBy {α : Type} {cmp : α → α → Ordering} {xs : List α} {a : α} :
    a ∈ sortBy cmp xs ↔ a ∈ xs :=
  List.mem_mergeSort

theorem nodup_sortBy {α : Type} {cmp : α → α → Ordering} {xs : List α} (h : xs.Nodup) :
    (sortBy cmp xs).Nodup :=
  (List.mergeSort_perm _ _).nodup_iff.2 h

namespace Document
variable {d : Document} {st : Nat}

/-- Teardown's choice of done data as state `st` exits: a top-level final state's done data,
`null` when it has none, replaces what was chosen before. -/
def doneStep (d : Document) (done : Option Json.Value) (st : Nat) : Option Json.Value :=
  if (d.state st).mode == .final && (d.state st).parent == some 0 then
    some ((d.state st).doneData.getD .null)
  else done

theorem doneStep_of_topFinal (h : d.TopFinal st) (done : Option Json.Value) :
    d.doneStep done st = some ((d.state st).doneData.getD .null) := by
  simp [doneStep, h.1, h.2]

theorem doneStep_of_not_topFinal (h : ¬ d.TopFinal st) (done : Option Json.Value) :
    d.doneStep done st = done := by
  unfold doneStep
  rw [if_neg]
  simpa [TopFinal] using h

theorem foldl_doneStep_of_forall {L : List Nat} (h : ∀ st ∈ L, ¬ d.TopFinal st)
    (done : Option Json.Value) : L.foldl d.doneStep done = done := by
  induction L generalizing done with
  | nil => rfl
  | cons x L ih =>
    rw [List.foldl_cons, doneStep_of_not_topFinal (h x List.mem_cons_self)]
    exact ih (fun st hst => h st (List.mem_cons_of_mem _ hst)) done

theorem foldl_doneStep_of_exists {L : List Nat} (h : ∃ st ∈ L, d.TopFinal st)
    (done : Option Json.Value) :
    ∃ st ∈ L, d.TopFinal st ∧ L.foldl d.doneStep done = some ((d.state st).doneData.getD .null) := by
  induction L generalizing done with
  | nil => simp at h
  | cons x L ih =>
    by_cases hL : ∃ st ∈ L, d.TopFinal st
    · obtain ⟨st, hst, htop, heq⟩ := ih hL (d.doneStep done x)
      exact ⟨st, List.mem_cons_of_mem _ hst, htop, heq⟩
    · -- no later state is a top-level final state, so `x` is the one
      simp only [not_exists, not_and] at hL
      obtain ⟨st, hst, htop⟩ := h
      rcases List.mem_cons.1 hst with rfl | hst
      · refine ⟨st, List.mem_cons_self, htop, ?_⟩
        rw [List.foldl_cons, foldl_doneStep_of_forall hL, doneStep_of_topFinal htop]
      · exact absurd htop (hL st hst)

end Document

namespace Session
variable {s : Session}

/-- The done data a session reports when it is torn down: that of the last of its active
top-level final states to exit, `null` when that state has none; none when no top-level final
state is active. -/
def finalData (s : Session) : Option Json.Value :=
  (sortBy s.doc.exitCmp s.configuration.items).foldl s.doc.doneStep none

theorem finalData_eq_none (h : ∀ st ∈ s.configuration.items, ¬ s.doc.TopFinal st) :
    s.finalData = none :=
  Document.foldl_doneStep_of_forall (fun st hst => h st (mem_sortBy.1 hst)) none

theorem finalData_of_topFinal (h : ∃ st ∈ s.configuration.items, s.doc.TopFinal st) :
    ∃ st ∈ s.configuration.items, s.doc.TopFinal st ∧
      s.finalData = some ((s.doc.state st).doneData.getD .null) := by
  obtain ⟨st, hst, htop⟩ := h
  obtain ⟨st', hst', htop', heq⟩ :=
    Document.foldl_doneStep_of_exists ⟨st, mem_sortBy.2 hst, htop⟩ none
  exact ⟨st', mem_sortBy.1 hst', htop', heq⟩

variable {s' : Session} {P Q : List Event}

/-- What session `s` may have sent to the session that invoked it: the sends to `_parent` of
whole blocks of its document's content, from its own name. -/
def Sent (s : Session) (P : List Event) : Prop := s.doc.Sent s.config.name P

theorem Sent.nil : s.Sent [] := Document.Sent.nil

theorem Sent.append (hP : s.Sent P) (hQ : s.Sent Q) : s.Sent (P ++ Q) := Document.Sent.append hP hQ

theorem Sent.external (h : s.Sent P) : ∀ e ∈ P, e.kind = .external := Document.Sent.external h

theorem Sent.of_eq (h : s'.Sent P) (hd : s'.doc = s.doc) (hc : s'.config = s.config) : s.Sent P := by
  unfold Sent at h ⊢
  rwa [hd, hc] at h

end Session

namespace World
variable {me i : Nat} {link : ParentLink} {w w' : World}

/-- The events of `T` that reach the link's mailbox: all of them while it is open, none once it
closed. -/
def delivered (w : World) (link : ParentLink) (T : List Event) : List Event :=
  if (w.mailbox link.mailbox).live then T else []

theorem Appended.delivered {Q : List Event} (h : Appended w w' link Q) (T : List Event) :
    w'.delivered link T = w.delivered link T := by
  simp [World.delivered, h.1]

/-- From `w` to `w'` session `me` kept its link to `link` apart, its document and its
configuration, and the link's mailbox grew by the events `Q`, stamped, neither opening nor
closing. -/
structure Reports (me : Nat) (link : ParentLink) (w w' : World) (Q : List Event) : Prop where
  lt : me < w'.sessions.size
  apart : w'.LinkApart me
  parent : (w'.session me).parent = some link
  doc : (w'.session me).doc = (w.session me).doc
  config : (w'.session me).config = (w.session me).config
  appended : Appended w w' link Q

theorem Reports.trans {w₁ w₂ w₃ : World} {Q₁ Q₂ : List Event} (h₁ : Reports me link w₁ w₂ Q₁)
    (h₂ : Reports me link w₂ w₃ Q₂) : Reports me link w₁ w₃ (Q₁ ++ Q₂) :=
  ⟨h₂.lt, h₂.apart, h₂.parent, h₂.doc.trans h₁.doc, h₂.config.trans h₁.config,
    h₁.appended.trans h₂.appended⟩

theorem Reports.refl (hm : me < w.sessions.size) (ha : w.LinkApart me)
    (hl : (w.session me).parent = some link) : Reports me link w w [] :=
  ⟨hm, ha, hl, rfl, rfl, Appended.nil w link⟩

/-- What content sent before a report, followed by a report of what content sent and then `T`,
is one report of both sends and then `T`; the later sends are read against the session as it
was before both. -/
theorem Reports.then {w₁ w₂ : World} {Q₁ Q T : List Event} (r₁ : Reports me link w w₁ Q₁)
    (hQ₁ : (w.session me).Sent Q₁) (hQ : (w₁.session me).Sent Q)
    (r₂ : Reports me link w₁ w₂ (Q ++ w₁.delivered link T)) :
    (w.session me).Sent (Q₁ ++ Q) ∧ Reports me link w w₂ (Q₁ ++ Q ++ w.delivered link T) := by
  refine ⟨hQ₁.append (hQ.of_eq r₁.doc r₁.config), ?_⟩
  rw [← r₁.appended.delivered]
  simpa using r₁.trans r₂

theorem Grows.reports {P : List Event} (g : Grows me w w' P) (hl : (w.session me).parent = some link) :
    Reports me link w w' P :=
  ⟨g.lt, g.apart, g.parent.trans hl, g.doc, g.config, g.appended link hl⟩

theorem reports_of_linkSends (h : (linkSends me (w.session me).doc).rel w w') (hm : me < w.sessions.size)
    (ha : w.LinkApart me) (hl : (w.session me).parent = some link) :
    ∃ P, (w.session me).Sent P ∧ Reports me link w w' P := by
  obtain ⟨P, hP, g⟩ := h hm ha rfl
  exact ⟨P, hP, g.reports hl⟩

theorem reports_modifySession {f : Session → Session}
    (hf : ∀ s, (f s).parent = s.parent ∧ (f s).mailbox = s.mailbox ∧ (f s).doc = s.doc ∧
      (f s).config = s.config ∧ ∀ c ∈ (f s).children, ∃ p ∈ s.children, c.2.mailbox = p.2.mailbox)
    (hm : me < w.sessions.size) (ha : w.LinkApart me) (hl : (w.session me).parent = some link) :
    Reports me link w (w.modifySession i f) [] :=
  (grows_modifySession_sub (i := i) w hf hm ha).reports hl

/-- Publishing the configuration sends nothing through the link. -/
theorem reports_publish (hm : me < w.sessions.size) (ha : w.LinkApart me)
    (hl : (w.session me).parent = some link) :
    Reports me link w
      (w.modifySession me fun s => { s with published := s.activeNames, version := s.version + 1 }) [] :=
  reports_modifySession (fun _ => ⟨rfl, rfl, rfl, rfl, fun c hc => ⟨c, hc, rfl⟩⟩) hm ha hl

/-- How a session's task is driven is no part of what the link reports. -/
theorem reports_drive (d : Drive) (hm : me < w.sessions.size) (ha : w.LinkApart me)
    (hl : (w.session me).parent = some link) :
    Reports me link w (w.modifySession me fun s => { s with drive := d }) [] :=
  reports_modifySession (fun _ => ⟨rfl, rfl, rfl, rfl, fun c hc => ⟨c, hc, rfl⟩⟩) hm ha hl

theorem reports_sendQuiet (e : Event) (hm : me < w.sessions.size) (ha : w.LinkApart me)
    (hl : (w.session me).parent = some link) :
    Reports me link w (w.sendQuiet link e) (w.delivered link [e]) := by
  have hs := session_sendQuiet w link e me
  refine ⟨(sessions_size_sendQuiet w link e).symm ▸ hm, fun link' hl' => ?_, by rw [hs]; exact hl, by rw [hs], by rw [hs],
    appended_sendQuiet w link e (ha link hl).1⟩
  rw [hs] at hl' ⊢
  obtain ⟨h₁, h₂, h₃⟩ := ha link' hl'
  exact ⟨Engine.size_sendQuiet w link e ▸ h₁, h₂, h₃⟩

end World

namespace Engine
variable {ε α β : Type} {me : Nat}

theorem eval_bind_ok {x : ExceptT ε (StateM World) α} {f : α → ExceptT ε (StateM World) β}
    {w w' : World} {b : β} (h : eval (x >>= f) w = (.ok b, w')) :
    ∃ a w₁, eval x w = (.ok a, w₁) ∧ eval (f a) w₁ = (.ok b, w') := by
  rw [eval_bind] at h
  rcases hx : eval x w with ⟨_ | a, w₁⟩ <;> rw [hx] at h
  · cases h
  · exact ⟨a, w₁, rfl, h⟩

theorem eval_foldlM_ok {γ : Type} {f : β → γ → ExceptT ε (StateM World) β} (g : β → γ → β)
    (hf : ∀ b c w b' w', eval (f b c) w = (.ok b', w') → b' = g b c) :
    ∀ (xs : List γ) (b : β) {w w' : World} {b' : β},
      eval (xs.foldlM f b) w = (.ok b', w') → b' = xs.foldl g b
  | [], b, w, w', b', h => by
    cases h
    rfl
  | c :: cs, b, w, w', b', h => by
    obtain ⟨b₁, w₁, h₁, h₂⟩ := eval_bind_ok h
    rw [List.foldl_cons, ← hf b c w b₁ w₁ h₁]
    exact eval_foldlM_ok g hf cs b₁ h₂

/-- Failing marks the session failed and reports, after what content sent as its invocations
were cancelled, one `error.execution` through the link. -/
theorem reports_fail (err : SessionError) {w : World} {link : ParentLink} (hm : me < w.sessions.size)
    (ha : w.LinkApart me) (hl : (w.session me).parent = some link) :
    ∃ w', eval (fail me err) w = (.ok err, w') ∧ (w'.session me).status = .failed ∧
      ∃ P, (w.session me).Sent P ∧
        World.Reports me link w w' (P ++ w.delivered link [Event.errorExecution err.message]) := by
  obtain ⟨w₁, P, hP, g, hs, -, heq⟩ := eval_fail_split err hm ha
  have r₁ := g.reports hl
  rw [r₁.parent] at heq
  simp only [Option.elim] at heq
  -- the link hears of the failure, then the configuration is published
  have r₂ := World.reports_sendQuiet (Event.errorExecution err.message) r₁.lt r₁.apart r₁.parent
  rw [r₁.appended.delivered] at r₂
  have r₃ := World.reports_publish r₂.lt r₂.apart r₂.parent
  refine ⟨_, heq, ?_, P, hP, by simpa using r₁.trans (r₂.trans r₃)⟩
  rw [World.session_modifySession_self _ _ r₂.lt, World.session_sendQuiet]
  exact hs

/-- Tearing down keeps the status and the document, and only shrinks the configuration. -/
theorem shrinks_teardown : Keeps (World.shrinks me) (teardown me) := by
  refine Keeps.teardown (fun _ _ st => ?_) (Keeps.closeDown (fun h => h.shape.shrinks)
    (Keeps.shrinks (keepsShape_update _ fun _ => ⟨rfl, rfl, rfl⟩))
    fun _ => Keeps.shrinks (keepsShape_update _ fun _ => ⟨rfl, rfl, rfl⟩))
  exact Keeps.bind (keepsShape_exec _ _).shrinks fun _ => Keeps.bind (keeps_cancelInvokesOf _ _ _).shape.shrinks
    fun _ => Keeps.bind (shrinks_erase st) fun _ => Keeps.pure _

theorem exitOne_done {s : Session} {done d' : Option Json.Value} {st : Nat} {w w' : World}
    (h : eval (exitOne me s done st) w = (.ok d', w')) : d' = s.doc.doneStep done st := by
  unfold exitOne at h
  obtain ⟨_, _, -, h⟩ := eval_bind_ok h
  obtain ⟨_, _, -, h⟩ := eval_bind_ok h
  obtain ⟨_, _, -, h⟩ := eval_bind_ok h
  cases h
  rfl

/-- A teardown that succeeds runs the exits, which choose the session's done data, then closes
down. -/
theorem eval_teardown_split {w w' : World} (h : eval (teardown me) w = (.ok (), w')) :
    ∃ w₁, eval ((sortBy (w.session me).doc.exitCmp (w.session me).configuration.items).foldlM
        (exitOne me (w.session me)) none) w = (.ok (w.session me).finalData, w₁) ∧
      eval (closeDown me (w.session me).parent (w.session me).finalData) w₁ = (.ok (), w') := by
  rw [teardown_eq, eval_bind, eval_current] at h
  obtain ⟨done, w₁, hf, h⟩ := eval_bind_ok h
  obtain rfl : done = (w.session me).finalData :=
    eval_foldlM_ok _ (fun _ _ _ _ _ => exitOne_done) _ _ hf
  exact ⟨w₁, hf, h⟩

/-- Closing down keeps the done data chosen; through the link go only sends of the session's
content, then `done.invoke` with that data if there is some. -/
theorem reports_closeDown {w w' : World} {link : ParentLink} {done : Option Json.Value}
    (hm : me < w.sessions.size) (ha : w.LinkApart me) (hl : (w.session me).parent = some link)
    (h : eval (closeDown me (some link) done) w = (.ok (), w')) :
    (∀ data, done = some data → (w'.session me).doneData = some data) ∧ ∃ Q, (w.session me).Sent Q ∧
      World.Reports me link w w' (Q ++ w.delivered link (done.map (Event.doneInvoke link.invokeId)).toList) := by
  unfold closeDown at h
  rw [eval_bind, eval_current] at h
  -- the invocations left are cancelled, then dropped with the queues
  obtain ⟨_, w₁, h₁, h⟩ := eval_bind_ok h
  have l₁ : (World.linkSends me (w.session me).doc).rel w w₁ := by
    have := linkSends_cancelAll (D := (w.session me).doc) (w.session me).children (w := w)
      fun c hc => World.OffLink.child hc
    rwa [h₁] at this
  obtain ⟨Q, hQ, r₁⟩ := World.reports_of_linkSends l₁ hm ha hl
  obtain ⟨_, w₂, h₂, h⟩ := eval_bind_ok h
  rw [eval_update] at h₂
  cases h₂
  have r₂ := World.reports_modifySession (i := me) (f := fun s =>
    { s with children := [], toInvoke := {}, internal := [] })
    (fun _ => ⟨rfl, rfl, rfl, rfl, fun c hc => by simp at hc⟩) r₁.lt r₁.apart r₁.parent
  generalize w₁.modifySession me _ = w₂ at r₂ h
  have r₀₂ : World.Reports me link w w₂ Q := by simpa using r₁.trans r₂
  -- then the done data is kept and sent, and the configuration published
  cases done with
  | none =>
    cases (Prod.mk.inj h).2
    refine ⟨fun _ hd => (nomatch hd), Q, hQ, ?_⟩
    simpa [World.delivered] using r₀₂.trans (World.reports_publish r₀₂.lt r₀₂.apart r₀₂.parent)
  | some data =>
    simp only [eval_bind, eval_modify, eval_update] at h
    cases (Prod.mk.inj h).2
    have r₃ := World.reports_sendQuiet (Event.doneInvoke link.invokeId data) r₀₂.lt r₀₂.apart r₀₂.parent
    rw [r₀₂.appended.delivered] at r₃
    have r₄ := World.reports_modifySession (i := me) (f := fun s => { s with doneData := some data })
      (fun _ => ⟨rfl, rfl, rfl, rfl, fun c hc => ⟨c, hc, rfl⟩⟩) r₃.lt r₃.apart r₃.parent
    have r₅ := World.reports_publish r₄.lt r₄.apart r₄.parent
    refine ⟨fun data' hd => ?_, Q, hQ, by simpa [Option.toList] using (r₀₂.trans r₃).trans (r₄.trans r₅)⟩
    cases hd
    rw [World.session_modifySession_self _ _ r₄.lt, World.session_modifySession_self _ _ r₃.lt]

/-- A teardown that succeeds keeps the status and the document and only shrinks the
configuration; it keeps the done data of the top-level final state, if one was active, and
through the link goes what exit content sent, then `done.invoke` with that data. -/
theorem eval_teardown_ok {w w' : World} {link : ParentLink} (hm : me < w.sessions.size)
    (ha : w.LinkApart me) (hl : (w.session me).parent = some link)
    (h : eval (teardown me) w = (.ok (), w')) :
    (World.shrinks me).rel w w' ∧
      (∀ data, (w.session me).finalData = some data → (w'.session me).doneData = some data) ∧
      ∃ P, (w.session me).Sent P ∧ World.Reports me link w w' (P ++
        w.delivered link ((w.session me).finalData.map (Event.doneInvoke link.invokeId)).toList) := by
  obtain ⟨w₁, hf, hc⟩ := eval_teardown_split h
  -- the exits send what exit content sends
  obtain ⟨P, hP, r₁⟩ :=
    World.reports_of_linkSends (Keeps.of_eval (Keeps.foldlM (keepsLink_exitOne _) _ _) hf) hm ha hl
  rw [hl] at hc
  obtain ⟨hd, Q, hQ, r₂⟩ := reports_closeDown r₁.lt r₁.apart r₁.parent hc
  obtain ⟨hPQ, r⟩ := r₁.then hP hQ r₂
  exact ⟨Keeps.of_eval shrinks_teardown h, hd, P ++ Q, hPQ, r⟩

end Engine

namespace Session
variable {D : Document}

def Unstarted (D : Document) (s : Session) : Prop :=
  s.doc = D ∧ s.status = .idle ∧ ∀ st ∈ s.configuration.items, ¬ D.TopFinal st

/-- A session on `D` whose step has run its content, and that may have been cancelled before:
poised, or cancelled with no top-level final state active. -/
def Settling (D : Document) (s : Session) : Prop :=
  s.Poised D ∨ (s.doc = D ∧ s.status = .cancelled ∧ ∀ st ∈ s.configuration.items, ¬ D.TopFinal st)

/-- How a step of a session on `D` ended, with result `r`, and what the interpreter sent through
the link `link` for it after content: nothing while the session runs calm or when it was
cancelled, `done.invoke` with the done data of a top-level final state when it is done, and
`error.execution` with the error when it failed. -/
inductive Farewell (link : ParentLink) (D : Document) (s : Session) :
    Except SessionError Unit → List Event → Prop
  | running : s.Calm D → Farewell link D s (.ok ()) []
  | cancelled : s.status = .cancelled → Farewell link D s (.ok ()) []
  | done (st : Nat) : s.status = .done → D.TopFinal st →
      s.doneData = some ((D.state st).doneData.getD .null) →
      Farewell link D s (.ok ()) [Event.doneInvoke link.invokeId ((D.state st).doneData.getD .null)]
  | failed (e : SessionError) : s.status = .failed →
      Farewell link D s (.error e) [Event.errorExecution e.message]

end Session

namespace Engine
variable {me : Nat} {link : ParentLink} {D : Document}

/-- From a world where session `me` is linked to `link`, kept apart, and satisfies `P`, the
step reports what content sent, then, while the link's mailbox is open, what `Session.Farewell`
says of the way it ended. -/
def SignsOff (me : Nat) (link : ParentLink) (D : Document) (P : Session → Prop) (x : Engine Unit) :
    Prop :=
  ∀ w r w', me < w.sessions.size → w.LinkApart me → (w.session me).parent = some link →
    P (w.session me) → eval x w = (r, w') →
    ∃ Q T, (w.session me).Sent Q ∧ World.Reports me link w w' (Q ++ w.delivered link T) ∧
      (w'.session me).Farewell link D r T

theorem SignsOff.of_reports {P : Session → Prop} {x : Engine Unit} (hx : SignsOff me link D P x)
    {w w₁ w' : World} {r : Except SessionError Unit} {Q₁ : List Event}
    (hQ₁ : (w.session me).Sent Q₁) (r₁ : World.Reports me link w w₁ Q₁)
    (hP : P (w₁.session me)) (h : eval x w₁ = (r, w')) :
    ∃ Q T, (w.session me).Sent Q ∧ World.Reports me link w w' (Q ++ w.delivered link T) ∧
      (w'.session me).Farewell link D r T := by
  obtain ⟨Q, T, hQ, r₂, hF⟩ := hx w₁ r w' r₁.lt r₁.apart r₁.parent hP h
  obtain ⟨hs, r⟩ := r₁.then hQ₁ hQ r₂
  exact ⟨_, T, hs, r, hF⟩

theorem signsOff_fail_throw (err : SessionError) {P : Session → Prop} :
    SignsOff me link D P (fail me err >>= fun e => throw e) := by
  intro w r w' hm ha hl _ h
  obtain ⟨w₁, hf, hst, Q, hQ, hr⟩ := reports_fail err hm ha hl
  rw [eval_fail_throw, hf] at h
  simp only [Prod.mk.injEq] at h
  obtain ⟨rfl, rfl⟩ := h
  exact ⟨Q, _, hQ, hr, .failed err hst⟩

theorem signsOff_settle_error (err : SessionError) {P : Session → Prop} :
    SignsOff me link D P (settle me (.error err)) := by
  unfold settle
  exact signsOff_fail_throw err

/-- Settling a step that ran its content: a calm session goes on, a done one is torn down and
says `done.invoke`, a cancelled one is torn down quietly, and a teardown that fails fails the
session. -/
theorem signsOff_settle_ok : SignsOff me link D (Session.Settling D) (settle me (.ok ())) := by
  intro w r w' hm ha hl hS h
  unfold settle at h
  rw [eval_bind, eval_current] at h
  dsimp only at h
  split at h
  · -- still running, so calm: nothing more happens
    rename_i hr
    have hc : (w.session me).Calm D := by
      rcases hS with hp | ⟨-, hst, -⟩
      · exact hp.running hr
      · simp [Session.isRunning, hst] at hr
    cases h
    exact ⟨[], [], .nil, by simpa [World.delivered] using World.Reports.refl hm ha hl, .running hc⟩
  · rename_i hr
    rw [eval_bind, eval_observe] at h
    dsimp only at h
    split at h
    · -- torn down: the status stays, and the done data is sent when there is some
      rename_i he
      cases h
      obtain ⟨k, hdd, Q, hQ, hrep⟩ := eval_teardown_ok hm ha hl (Prod.ext he rfl)
      obtain ⟨-, hst, -, -⟩ := k hm
      refine ⟨Q, _, hQ, hrep, ?_⟩
      rcases hS with (hc | ⟨hd, hdone, hx⟩) | ⟨hd, hc, hnone⟩
      · simp [Session.isRunning, hc.2.1] at hr
      · obtain ⟨st, -, htop, hfd⟩ := Session.finalData_of_topFinal (hd ▸ hx)
        rw [hd] at htop hfd
        rw [hfd]
        exact .done st (hst.trans hdone) htop (hdd _ hfd)
      · rw [Session.finalData_eq_none (hd ▸ hnone)]
        exact .cancelled (hst.trans hc)
    · -- the teardown failed while exit content ran
      rename_i e he
      obtain ⟨l₁, -⟩ := teardown_error
        (Prod.ext he rfl : eval (teardown me) w = (.error e, (eval (teardown me) w).2))
      obtain ⟨Q₁, hQ₁, r₁⟩ := World.reports_of_linkSends l₁ hm ha hl
      exact (signsOff_fail_throw e (P := fun _ => True)).of_reports hQ₁ r₁ trivial h

theorem signsOff_settle_observe {P : Session → Prop} {x : Engine Unit}
    (hk : ∀ D, Keeps (World.linkSends me D) x) (hx : Lands me P (Session.Poised D) x) :
    SignsOff me link D P (observe x >>= settle me) := by
  intro w r w' hm ha hl hP h
  rw [eval_bind, eval_observe] at h
  dsimp only at h
  have l₁ := hk (w.session me).doc w
  rcases hx' : eval x w with ⟨res, w₁⟩
  rw [hx'] at h l₁
  obtain ⟨Q₁, hQ₁, r₁⟩ := World.reports_of_linkSends l₁ hm ha hl
  cases res with
  | error e => exact (signsOff_settle_error e (P := fun _ => True)).of_reports hQ₁ r₁ trivial h
  | ok u =>
    obtain ⟨-, hp₁⟩ := hx w u w₁ hm hP hx'
    exact signsOff_settle_ok.of_reports hQ₁ r₁ (.inl hp₁) h

/-- Handling an envelope in a calm session signs off: a `Cancel` cancels the session, an event
is processed; either way the step is settled. -/
theorem signsOff_handle (hD : D.FinalsParented) (env : Envelope) :
    SignsOff me link D (Session.Calm D) (handle me env) := by
  intro w r w' hm ha hl hc h
  unfold handle at h
  rw [eval_bind, eval_current] at h
  dsimp only at h
  rw [if_neg (by simp [Session.isRunning, hc.2.1])] at h
  cases env with
  | cancel =>
    rw [eval_bind, eval_update] at h
    have r₁ := World.reports_modifySession (i := me) (f := fun s => { s with status := .cancelled })
      (fun _ => ⟨rfl, rfl, rfl, rfl, fun c hc => ⟨c, hc, rfl⟩⟩) hm ha hl
    refine signsOff_settle_ok.of_reports .nil r₁ ?_ h
    rw [World.session_modifySession_self _ _ hm]
    exact .inr ⟨hc.1, rfl, hc.2.2⟩
  | event e =>
    exact signsOff_settle_observe (fun _ => keepsLink_processExternal e) (lands_processExternal hD e)
      w r w' hm ha hl hc h

theorem signsOff_start (hD : D.FinalsParented) (data : Data) :
    SignsOff me link D (Session.Unstarted D) (start me data) := by
  intro w r w' hm ha hl ⟨hd, hidle, hnone⟩ h
  unfold start at h
  rw [eval_bind, eval_current] at h
  dsimp only at h
  rw [if_neg (by simp [hidle])] at h
  rw [eval_bind, eval_update] at h
  have r₁ := World.reports_modifySession (i := me) (f := fun s => { s with data := data, status := .running })
    (fun _ => ⟨rfl, rfl, rfl, rfl, fun c hc => ⟨c, hc, rfl⟩⟩) hm ha hl
  refine (signsOff_settle_observe (fun _ => keepsLink_enterInitial) (lands_enterInitial hD)).of_reports
    .nil r₁ ?_ h
  rw [World.session_modifySession_self _ _ hm]
  exact ⟨hd, rfl, hnone⟩

end Engine
end Hsm
