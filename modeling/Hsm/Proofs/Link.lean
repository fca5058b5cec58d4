import Hsm.Proofs.Host
/-!
# What a session sends to the session that invoked it

With the link's mailbox apart from the session's own (`World.LinkApart`), every step that runs
content only appends, stamped, what content sent to `_parent` (`World.linkSends`); the
interpreter's own notifications come only from `teardown` and `fail`.
-/

namespace Hsm

def ParentLink.stamp (link : ParentLink) (e : Event) : Envelope := .event (e.withInvokeId link.invokeId)

/-- The events a block of content sends to the session that invoked it, in order: the event of
each send action addressed to `_parent`, sent from the session named `origin`. -/
def Command.parentSends (origin : String) : List Command → List Event
  | [] => []
  | .send a :: cs =>
    (if a.target = some "_parent" then [a.toEvent origin] else []) ++ Command.parentSends origin cs
  | _ :: cs => Command.parentSends origin cs

/-- The blocks of content of a document: the entry and exit content of each state, the content of
each transition, and the finalize content of each invocation. -/
def Document.blocks (d : Document) : List (List Command) :=
  d.states.toList.flatMap (fun n => [n.onEntry, n.onExit]) ++ d.transitions.toList.map (·.content) ++
    d.invokes.toList.map (·.finalize)

namespace Document
variable (d : Document)

def Block (cmds : List Command) : Prop := cmds = [] ∨ cmds ∈ d.blocks

theorem block_of_state (st : Nat) {f : StateNode → List Command} (hf : f default = [])
    (hb : ∀ n ∈ d.states.toList, f n ∈ d.blocks) : d.Block (f (d.state st)) := by
  rcases Nat.lt_or_ge st d.states.size with h | h
  · refine .inr ?_
    rw [show d.state st = d.states[st] by simp [state, h]]
    exact hb _ (Array.getElem_mem_toList h)
  · left
    rw [show d.state st = default by simp [state, h]]
    exact hf

theorem block_onEntry (st : Nat) : d.Block (d.state st).onEntry :=
  d.block_of_state st rfl fun n hn =>
    List.mem_append_left _ (List.mem_append_left _ (List.mem_flatMap.2 ⟨n, hn, by simp⟩))

theorem block_onExit (st : Nat) : d.Block (d.state st).onExit :=
  d.block_of_state st (f := StateNode.onExit) rfl fun n hn =>
    List.mem_append_left _ (List.mem_append_left _ (List.mem_flatMap.2 ⟨n, hn, by simp⟩))

theorem block_content (t : Nat) : d.Block (d.transition t).content := by
  rcases Nat.lt_or_ge t d.transitions.size with h | h
  · refine .inr (List.mem_append_left _ (List.mem_append_right _ (List.mem_map.2
      ⟨d.transitions[t], Array.getElem_mem_toList h, ?_⟩)))
    simp [transition, h]
  · left
    simp [transition, h]
    rfl

theorem block_finalize {i : Nat} {node : InvokeNode Document} (h : d.invoke? i = some node) :
    d.Block node.finalize := by
  refine .inr (List.mem_append_right _ (List.mem_map.2 ⟨node, ?_, rfl⟩))
  obtain ⟨hi, rfl⟩ := Array.getElem?_eq_some_iff.1 h
  exact Array.getElem_mem_toList hi

/-- The events `P` are what content of `d` sent to `_parent` from the session named
`origin`: the sends of whole blocks, one block after another, each block's in its order. -/
def Sent (origin : String) (P : List Event) : Prop :=
  ∃ L : List (List Command), (∀ b ∈ L, b ∈ d.blocks) ∧ P = L.flatMap (Command.parentSends origin)

variable {d} {origin : String} {P Q : List Event}

theorem Sent.nil : d.Sent origin [] := ⟨[], by simp, rfl⟩

theorem Sent.append (hP : d.Sent origin P) (hQ : d.Sent origin Q) : d.Sent origin (P ++ Q) := by
  obtain ⟨L, hL, rfl⟩ := hP
  obtain ⟨M, hM, rfl⟩ := hQ
  exact ⟨L ++ M, fun b hb => (List.mem_append.1 hb).elim (hL b) (hM b), by simp⟩

theorem Sent.block {cmds : List Command} (h : d.Block cmds) :
    d.Sent origin (Command.parentSends origin cmds) := by
  rcases h with rfl | h
  · exact Sent.nil
  · exact ⟨[cmds], by simpa using h, by simp⟩

theorem parentSends_external (origin : String) (cmds : List Command) :
    ∀ e ∈ Command.parentSends origin cmds, e.kind = .external := by
  induction cmds with
  | nil => simp [Command.parentSends]
  | cons c cs ih =>
    cases c with
    | send a =>
      intro e he
      simp only [Command.parentSends, List.mem_append] at he
      rcases he with he | he
      · split at he
        · rw [List.mem_singleton.1 he]
          rfl
        · cases he
      · exact ih e he
    | _ => exact ih

theorem Sent.external (h : d.Sent origin P) : ∀ e ∈ P, e.kind = .external := by
  obtain ⟨L, -, rfl⟩ := h
  intro e he
  obtain ⟨b, -, hb⟩ := List.mem_flatMap.1 he
  exact parentSends_external origin b e hb

end Document

namespace World
variable {me : Nat} {w w' : World}

/-- Session `me`'s link to the session that invoked it ends at a mailbox apart from its own: one
that exists, that is not the session's own mailbox, and that no invocation of the session reads. -/
def LinkApart (w : World) (me : Nat) : Prop :=
  ∀ link, (w.session me).parent = some link →
    link.mailbox < w.mailboxes.size ∧ link.mailbox ≠ (w.session me).mailbox ∧
      ∀ c ∈ (w.session me).children, c.2.mailbox ≠ link.mailbox

/-- The events `P`, stamped with the link's invoke id, were added at the end of the link's
mailbox, which neither opened nor closed. -/
def Appended (w w' : World) (link : ParentLink) (P : List Event) : Prop :=
  (w'.mailbox link.mailbox).live = (w.mailbox link.mailbox).live ∧
    (w'.mailbox link.mailbox).queue = (w.mailbox link.mailbox).queue ++ P.map link.stamp

theorem Appended.nil (w : World) (link : ParentLink) : Appended w w link [] := by
  simp [Appended]

theorem Appended.trans {w₁ w₂ w₃ : World} {link : ParentLink} {P Q : List Event}
    (h₁ : Appended w₁ w₂ link P) (h₂ : Appended w₂ w₃ link Q) : Appended w₁ w₃ link (P ++ Q) :=
  ⟨h₂.1.trans h₁.1, by rw [h₂.2, h₁.2, List.map_append, List.append_assoc]⟩

/-- From `w` to `w'` session `me` stays in place with its link apart, keeps its link, document and
configuration, and its link's mailbox grows by the events `P`, stamped. -/
structure Grows (me : Nat) (w w' : World) (P : List Event) : Prop where
  lt : me < w'.sessions.size
  apart : w'.LinkApart me
  parent : (w'.session me).parent = (w.session me).parent
  doc : (w'.session me).doc = (w.session me).doc
  config : (w'.session me).config = (w.session me).config
  appended : ∀ link, (w.session me).parent = some link → Appended w w' link P

theorem Grows.refl (hm : me < w.sessions.size) (ha : w.LinkApart me) : Grows me w w [] :=
  ⟨hm, ha, rfl, rfl, rfl, fun link _ => Appended.nil w link⟩

theorem Grows.trans {w₁ w₂ w₃ : World} {P Q : List Event} (h₁ : Grows me w₁ w₂ P)
    (h₂ : Grows me w₂ w₃ Q) : Grows me w₁ w₃ (P ++ Q) :=
  ⟨h₂.lt, h₂.apart, h₂.parent.trans h₁.parent, h₂.doc.trans h₁.doc, h₂.config.trans h₁.config,
    fun link hl => (h₁.appended link hl).trans (h₂.appended link (h₁.parent.trans hl))⟩

theorem Grows.effects (fx : Array Effect) (hm : me < w.sessions.size) (ha : w.LinkApart me) :
    Grows me w { w with effects := fx } [] :=
  ⟨hm, ha, rfl, rfl, rfl, fun link _ => ⟨rfl, by simp [mailbox]⟩⟩

theorem Grows.unlinked {P Q : List Event} (g : Grows me w w' P) (h : (w.session me).parent = none) :
    Grows me w w' Q :=
  ⟨g.lt, g.apart, g.parent, g.doc, g.config, fun link hl => by rw [h] at hl; cases hl⟩

/-- Session `me`, running the document `D`, keeps its link apart, and its link's mailbox only
grows, by what the content of `D` sent to `_parent`. -/
def linkSends (me : Nat) (D : Document) : WorldOrder where
  rel w w' := me < w.sessions.size → w.LinkApart me → (w.session me).doc = D →
    ∃ P, D.Sent (w.session me).config.name P ∧ Grows me w w' P
  refl w hm ha _ := ⟨[], .nil, .refl hm ha⟩
  trans h₁ h₂ hm ha hd := by
    obtain ⟨P, hP, g₁⟩ := h₁ hm ha hd
    obtain ⟨Q, hQ, g₂⟩ := h₂ g₁.lt g₁.apart (g₁.doc.trans hd)
    rw [g₁.config] at hQ
    exact ⟨P ++ Q, hP.append hQ, g₁.trans g₂⟩

theorem linkSends_own {D : Document} {w w' : World}
    (h : (linkSends me (w.session me).doc).rel w w') : (linkSends me D).rel w w' := by
  intro hm ha hd
  subst hd
  exact h hm ha rfl

theorem linkSends_own_trans {w₁ w₂ w₃ : World} (h₁ : (linkSends me (w₁.session me).doc).rel w₁ w₂)
    (h₂ : (linkSends me (w₂.session me).doc).rel w₂ w₃) : (linkSends me (w₁.session me).doc).rel w₁ w₃ :=
  (linkSends me _).trans h₁ (linkSends_own h₂)

theorem linkSends_of_grows {D : Document} {w w' : World}
    (h : me < w.sessions.size → w.LinkApart me → Grows me w w' []) : (linkSends me D).rel w w' :=
  fun hm ha _ => ⟨[], .nil, h hm ha⟩

theorem mailbox_modify (w : World) (m m' : Nat) (f : Mailbox → Mailbox) (h : m' < w.mailboxes.size) :
    ({ w with mailboxes := w.mailboxes.modify m f } : World).mailbox m' =
      if m = m' then f (w.mailbox m') else w.mailbox m' := by
  simp [mailbox, Array.getD, Array.getElem_modify, h]

theorem session_wake (w : World) (t i : Nat) :
    (w.wake t).session i = { w.session i with drive := ((w.wake t).session i).drive } := by
  unfold wake
  split
  · have hs : ((w.modifySession t fun s => { s with drive := .ready }).schedule t).session i =
        (w.modifySession t fun s => { s with drive := .ready }).session i := by
      simp [session]
    rw [hs]
    rcases Nat.lt_or_ge i w.sessions.size with h | h
    · rw [session_modifySession _ _ _ h]
      split <;> rfl
    · rw [session_modifySession_of_le h]
  · rfl

/-- Posting adds the envelope to a live mailbox and changes no session but for waking its
reader. -/
theorem post_ok {w w' : World} {m : Nat} {env : Envelope} (h : w.post m env = .ok w') :
    (w.mailbox m).live = true ∧
      w'.mailboxes = w.mailboxes.modify m (fun mb => { mb with queue := mb.queue ++ [env] }) ∧
      w'.sessions.size = w.sessions.size ∧
      ∀ i, w'.session i = { w.session i with drive := (w'.session i).drive } := by
  unfold post at h
  dsimp only at h
  split at h
  · cases h
  · rename_i hlive
    refine ⟨by simpa using hlive, ?_⟩
    split at h <;> cases h
    · refine ⟨by unfold wake; split <;> simp [schedule]; split <;> rfl, ?_, fun i => session_wake _ _ i⟩
      unfold wake; split
      · simp [schedule]; split <;> simp
      · rfl
    · exact ⟨rfl, rfl, fun i => rfl⟩

theorem post_error {w : World} {m : Nat} {env : Envelope} {e : SessionError}
    (h : w.post m env = .error e) : (w.mailbox m).live = false := by
  unfold post at h
  dsimp only at h
  split at h
  · rename_i hlive
    simpa using hlive
  · split at h <;> cases h

theorem grows_modifySession (w : World) {i : Nat} {f : Session → Session}
    (hf : i = me → me < w.sessions.size → w.LinkApart me →
      (f (w.session me)).parent = (w.session me).parent ∧
      (f (w.session me)).mailbox = (w.session me).mailbox ∧
      (f (w.session me)).doc = (w.session me).doc ∧ (f (w.session me)).config = (w.session me).config ∧
      ∀ link, (w.session me).parent = some link →
        ∀ c ∈ (f (w.session me)).children, c.2.mailbox ≠ link.mailbox)
    (hm : me < w.sessions.size) (ha : w.LinkApart me) : Grows me w (w.modifySession i f) [] := by
  have hkeep : ((w.modifySession i f).session me).parent = (w.session me).parent ∧
      ((w.modifySession i f).session me).mailbox = (w.session me).mailbox ∧
      ((w.modifySession i f).session me).doc = (w.session me).doc ∧
      ((w.modifySession i f).session me).config = (w.session me).config ∧
      ∀ link, (w.session me).parent = some link →
        ∀ c ∈ ((w.modifySession i f).session me).children, c.2.mailbox ≠ link.mailbox := by
    rw [session_modifySession _ _ _ hm]
    split
    · exact hf ‹_› hm ha
    · exact ⟨rfl, rfl, rfl, rfl, fun link hl => (ha link hl).2.2⟩
  refine ⟨by simpa using hm, fun link hl => ?_, hkeep.1, hkeep.2.2.1, hkeep.2.2.2.1, fun link _ => ?_⟩
  · exact ⟨(ha link (hkeep.1 ▸ hl)).1, hkeep.2.1 ▸ (ha link (hkeep.1 ▸ hl)).2.1,
      hkeep.2.2.2.2 link (hkeep.1 ▸ hl)⟩
  · simp [Appended, modifySession, mailbox]

theorem linkSends_modifySession (w : World) {D : Document} {i : Nat} {f : Session → Session}
    (hf : i = me → me < w.sessions.size → w.LinkApart me →
      (f (w.session me)).parent = (w.session me).parent ∧
      (f (w.session me)).mailbox = (w.session me).mailbox ∧
      (f (w.session me)).doc = (w.session me).doc ∧ (f (w.session me)).config = (w.session me).config ∧
      ∀ link, (w.session me).parent = some link →
        ∀ c ∈ (f (w.session me)).children, c.2.mailbox ≠ link.mailbox) :
    (linkSends me D).rel w (w.modifySession i f) :=
  linkSends_of_grows (grows_modifySession w hf)

theorem grows_modifySession_sub (w : World) {i : Nat} {f : Session → Session}
    (hf : ∀ s, (f s).parent = s.parent ∧ (f s).mailbox = s.mailbox ∧ (f s).doc = s.doc ∧
      (f s).config = s.config ∧ ∀ c ∈ (f s).children, ∃ p ∈ s.children, c.2.mailbox = p.2.mailbox)
    (hm : me < w.sessions.size) (ha : w.LinkApart me) : Grows me w (w.modifySession i f) [] :=
  grows_modifySession w (fun _ _ ha => ⟨(hf _).1, (hf _).2.1, (hf _).2.2.1, (hf _).2.2.2.1,
    fun link hl c hc => by
      obtain ⟨p, hp, hcp⟩ := (hf _).2.2.2.2 c hc
      rw [hcp]
      exact (ha link hl).2.2 p hp⟩) hm ha

theorem linkSends_modifySession_sub (w : World) {D : Document} {i : Nat} {f : Session → Session}
    (hf : ∀ s, (f s).parent = s.parent ∧ (f s).mailbox = s.mailbox ∧ (f s).doc = s.doc ∧
      (f s).config = s.config ∧ ∀ c ∈ (f s).children, ∃ p ∈ s.children, c.2.mailbox = p.2.mailbox) :
    (linkSends me D).rel w (w.modifySession i f) :=
  linkSends_of_grows (grows_modifySession_sub w hf)

/-- Mailbox `m` is not the link's, as long as session `me` exists and its link is apart. -/
def OffLink (w : World) (me m : Nat) : Prop :=
  me < w.sessions.size → w.LinkApart me → ∀ link, (w.session me).parent = some link → m ≠ link.mailbox

theorem OffLink.own (w : World) (me : Nat) : w.OffLink me (w.session me).mailbox :=
  fun _ ha link hl => Ne.symm (ha link hl).2.1

theorem OffLink.child {w : World} {c : String × ChildHandle} (hc : c ∈ (w.session me).children) :
    w.OffLink me c.2.mailbox :=
  fun _ ha link hl => (ha link hl).2.2 c hc

theorem grows_post {m : Nat} {env : Envelope} (h : w.post m env = .ok w') (hm : w.OffLink me m)
    (hme : me < w.sessions.size) (ha : w.LinkApart me) : Grows me w w' [] := by
  obtain ⟨-, hmb, hsize, hses⟩ := post_ok h
  have hs : w'.session me = { w.session me with drive := (w'.session me).drive } := hses me
  refine ⟨hsize ▸ hme, fun link hl => ?_, by rw [hs], by rw [hs], by rw [hs], fun link hl => ?_⟩
  · rw [hs] at hl ⊢
    obtain ⟨h₁, h₂, h₃⟩ := ha link hl
    exact ⟨by simpa [hmb] using h₁, h₂, h₃⟩
  · have hlt := (ha link hl).1
    have hne := hm hme ha link hl
    simp only [Appended, List.map_nil, List.append_nil]
    rw [show w'.mailbox link.mailbox = ({ w with mailboxes := (w.mailboxes.modify m
      fun mb => { mb with queue := mb.queue ++ [env] }) } : World).mailbox link.mailbox by
      simp [mailbox, hmb], mailbox_modify _ _ _ _ hlt, if_neg hne]
    exact ⟨rfl, rfl⟩

theorem linkSends_postQuiet (w : World) {D : Document} {m : Nat} (env : Envelope) (hm : w.OffLink me m) :
    (linkSends me D).rel w (w.postQuiet m env) := by
  unfold postQuiet
  split
  · exact linkSends_of_grows (grows_post ‹_› hm)
  · exact (linkSends me D).refl w

/-- Sending an event through the link adds it, stamped, to the link's mailbox. -/
theorem grows_send {link : ParentLink} {e : Event} (h : w.send link e = .ok w')
    (hl : (w.session me).parent = some link) (hme : me < w.sessions.size) (ha : w.LinkApart me) :
    Grows me w w' [e] := by
  obtain ⟨-, hmb, hsize, hses⟩ := post_ok h
  have hs : w'.session me = { w.session me with drive := (w'.session me).drive } := hses me
  refine ⟨hsize ▸ hme, fun link' hl' => ?_, by rw [hs], by rw [hs], by rw [hs], fun link' hl' => ?_⟩
  · rw [hs] at hl' ⊢
    obtain ⟨h₁, h₂, h₃⟩ := ha link' hl'
    exact ⟨by simpa [hmb] using h₁, h₂, h₃⟩
  · rw [hl] at hl'
    cases hl'
    have hlt := (ha link hl).1
    rw [Appended, show w'.mailbox link.mailbox = ({ w with mailboxes := (w.mailboxes.modify
      link.mailbox fun mb => { mb with queue := mb.queue ++ [.event (e.withInvokeId link.invokeId)] }) } :
      World).mailbox link.mailbox by simp [mailbox, hmb], mailbox_modify _ _ _ _ hlt, if_pos rfl]
    exact ⟨rfl, by simp [ParentLink.stamp]⟩

theorem OffLink.congr {w w' : World} {m : Nat} (ho : w.OffLink me m)
    (hs : w'.sessions.size = w.sessions.size) (hmb : w'.mailboxes.size = w.mailboxes.size)
    (hp : (w'.session me).parent = (w.session me).parent)
    (hm : (w'.session me).mailbox = (w.session me).mailbox)
    (hc : (w'.session me).children = (w.session me).children) : w'.OffLink me m := by
  intro hme ha link hl
  refine ho (hs ▸ hme) (fun link' hl' => ?_) link (hp ▸ hl)
  obtain ⟨h₁, h₂, h₃⟩ := ha link' (hp.symm ▸ hl')
  exact ⟨hmb ▸ h₁, hm ▸ h₂, hc ▸ h₃⟩

theorem linkSends_grow {D : Document} (hsz : w.sessions.size ≤ w'.sessions.size)
    (hs : ∀ i < w.sessions.size, w'.session i = w.session i)
    (hmsz : w.mailboxes.size ≤ w'.mailboxes.size)
    (hmb : ∀ m < w.mailboxes.size, w'.mailbox m = w.mailbox m) : (linkSends me D).rel w w' := by
  refine linkSends_of_grows fun hm ha => ?_
  have hse := hs me hm
  refine ⟨Nat.lt_of_lt_of_le hm hsz, fun link hl => ?_, by rw [hse], by rw [hse], by rw [hse],
    fun link hl => ?_⟩
  · rw [hse] at hl ⊢
    obtain ⟨h₁, h₂, h₃⟩ := ha link hl
    exact ⟨Nat.lt_of_lt_of_le h₁ hmsz, h₂, h₃⟩
  · simp [Appended, hmb _ (ha link hl).1]

@[simp] theorem mailboxes_schedule (w : World) (t : Nat) : (w.schedule t).mailboxes = w.mailboxes := by
  unfold schedule; split <;> rfl

@[simp] theorem session_schedule (w : World) (t i : Nat) : (w.schedule t).session i = w.session i := by
  simp [session]

theorem session_push {w w' : World} {s : Session} (hw : w'.sessions = w.sessions.push s) {i : Nat}
    (h : i < w.sessions.size) : w'.session i = w.session i := by
  simp [session, hw, Array.getD, h, Array.getElem_push, Nat.lt_succ_of_lt h]

theorem mailbox_push {w w' : World} {mb : Mailbox} (hw : w'.mailboxes = w.mailboxes.push mb) {m : Nat}
    (h : m < w.mailboxes.size) : w'.mailbox m = w.mailbox m := by
  simp [mailbox, hw, Array.getD, h, Array.getElem_push, Nat.lt_succ_of_lt h]

theorem linkSends_sendQuiet (w : World) {D : Document} (link : ParentLink) (e : Event)
    (ho : w.OffLink me link.mailbox) : (linkSends me D).rel w (w.sendQuiet link e) := by
  unfold sendQuiet
  split
  · exact linkSends_of_grows (grows_post ‹_› ho)
  · exact (linkSends me D).refl w

theorem OffLink.of_grows {m : Nat} {P : List Event} (ho : w.OffLink me m) (h : Grows me w w' P)
    (hm : me < w.sessions.size) (ha : w.LinkApart me) : w'.OffLink me m :=
  fun _ _ link hl => ho hm ha link (h.parent ▸ hl)

theorem OffLink.postQuiet {w : World} {m m' : Nat} (env : Envelope) (ho : w.OffLink me m) :
    (w.postQuiet m' env).OffLink me m := by
  unfold World.postQuiet
  split
  · obtain ⟨-, hmb, hsize, hses⟩ := post_ok ‹_›
    have hs := hses me
    exact ho.congr hsize (by simp [hmb]) (by rw [hs]) (by rw [hs]) (by rw [hs])
  · exact ho

theorem OffLink.sendQuiet {w : World} {m : Nat} (link : ParentLink) (e : Event) (ho : w.OffLink me m) :
    (w.sendQuiet link e).OffLink me m := by
  unfold World.sendQuiet
  split
  · obtain ⟨-, hmb, hsize, hses⟩ := post_ok ‹_›
    have hs := hses me
    exact ho.congr hsize (by simp [hmb]) (by rw [hs]) (by rw [hs]) (by rw [hs])
  · exact ho

theorem session_postQuiet (w : World) (m : Nat) (env : Envelope) (i : Nat) :
    (w.postQuiet m env).session i = { w.session i with drive := ((w.postQuiet m env).session i).drive } := by
  unfold postQuiet
  split
  · exact (post_ok ‹_›).2.2.2 i
  · rfl

theorem session_sendQuiet (w : World) (link : ParentLink) (e : Event) (i : Nat) :
    (w.sendQuiet link e).session i = { w.session i with drive := ((w.sendQuiet link e).session i).drive } := by
  unfold sendQuiet
  split
  · exact (post_ok ‹_›).2.2.2 i
  · rfl

theorem sessions_size_sendQuiet (w : World) (link : ParentLink) (e : Event) :
    (w.sendQuiet link e).sessions.size = w.sessions.size := by
  unfold sendQuiet
  split
  · exact (post_ok ‹_›).2.2.1
  · rfl

theorem appended_sendQuiet (w : World) (link : ParentLink) (e : Event)
    (hlt : link.mailbox < w.mailboxes.size) :
    Appended w (w.sendQuiet link e) link (if (w.mailbox link.mailbox).live then [e] else []) := by
  unfold sendQuiet
  split
  · rename_i w' h
    obtain ⟨hlive, hmb, -, -⟩ := post_ok h
    rw [if_pos hlive, Appended, show w'.mailbox link.mailbox = ({ w with mailboxes := (w.mailboxes.modify
      link.mailbox fun mb => { mb with queue := mb.queue ++ [.event (e.withInvokeId link.invokeId)] }) } :
      World).mailbox link.mailbox by simp [mailbox, hmb], mailbox_modify _ _ _ _ hlt, if_pos rfl]
    exact ⟨rfl, by simp [ParentLink.stamp]⟩
  · rename_i err h
    rw [post_error h]
    exact Appended.nil w link

/-- Taking an envelope off a mailbox apart from the link keeps the link. -/
theorem linkSends_take (w : World) {D : Document} {m : Nat} (hm : w.OffLink me m) :
    (linkSends me D).rel w (w.take m).2 := by
  unfold take
  split
  · exact (linkSends me D).refl w
  · rename_i env rest _
    refine linkSends_of_grows fun hme ha => ?_
    have hs : ({ w with mailboxes := w.mailboxes.modify m fun mb => { mb with queue := rest } } : World).session me =
        w.session me := rfl
    refine ⟨hme, fun link hl => ?_, rfl, rfl, rfl, fun link hl => ?_⟩
    · obtain ⟨h₁, h₂, h₃⟩ := ha link (hs ▸ hl)
      exact ⟨by simpa using h₁, h₂, h₃⟩
    · have hne := hm hme ha link hl
      simp only [Appended, List.map_nil, List.append_nil]
      rw [mailbox_modify _ _ _ _ (ha link hl).1, if_neg hne]
      exact ⟨rfl, rfl⟩

end World

theorem Session.mem_children_of_child? {s : Session} {id : String} {c : ChildHandle}
    (h : s.child? id = some c) : (id, c) ∈ s.children := by
  unfold Session.child? at h
  generalize s.children = l at h ⊢
  induction l with
  | nil => simp at h
  | cons p ps ih =>
    rcases p with ⟨k, v⟩
    simp only [List.lookup_cons] at h
    split at h
    · rename_i hk
      cases h
      simp only [beq_iff_eq] at hk
      simp [hk]
    · exact List.mem_cons_of_mem _ (ih h)

def Outgoing.toParent : Outgoing → Option Event
  | .send e (some t) => if t = "_parent" then some e else none
  | _ => none

theorem Outgoing.toParent_send_of_ne {e : Event} {t : String} (h : t ≠ "_parent") :
    (Outgoing.send e (some t)).toParent = none := by
  simp [Outgoing.toParent, h]

/-- Content that ran to its end sent through the link exactly its sends to `_parent`. -/
theorem execute_toParent (hooks : Hooks) (session : String) (e : Event) (cmds : List Command)
    (d : Data) (h : (execute hooks session e cmds d).error = none) :
    (execute hooks session e cmds d).outbox.filterMap Outgoing.toParent =
      Command.parentSends session cmds := by
  induction cmds generalizing d with
  | nil => rfl
  | cons c cs ih =>
    cases c with
    | send action =>
      simp only [execute] at h ⊢
      rw [List.filterMap_append, ih d h, Command.parentSends]
      rcases action with ⟨ev, _ | t, data, id, delay⟩
      · simp [Outgoing.toParent]
      · by_cases ht : t = "_parent" <;> simp [Outgoing.toParent, ht]
    | assign a =>
      rcases hap : a.update.apply d e with reason | d'
      · simp [execute, hap] at h
      · simp only [execute, hap, List.nil_append] at h ⊢
        exact ih d' h
    | raise name =>
      simp only [execute, List.cons_append, List.nil_append, List.filterMap_cons] at h ⊢
      exact ih d h
    | log label =>
      simp only [execute, List.nil_append] at h ⊢
      exact ih d h
    | script src =>
      rcases hs : hooks.script? src with _ | _ | reason
      · simp [execute, hs] at h
      · simp only [execute, hs, List.nil_append] at h ⊢
        exact ih d h
      · simp [execute, hs] at h

namespace Engine
variable {me : Nat} {D : Document} {α β : Type}

theorem linkSends_cancelChild {w : World} {c : ChildHandle} (hc : w.OffLink me c.mailbox) :
    (World.linkSends me D).rel w (eval (cancelChild c) w).2 := by
  unfold cancelChild
  split
  · exact World.linkSends_postQuiet w _ hc
  · exact (World.linkSends me D).refl w

theorem eval_cancelChild (c : ChildHandle) (w : World) :
    eval (cancelChild c) w =
      (.ok (), if c.status == .invoked then w.postQuiet c.mailbox .cancel else w) := by
  unfold cancelChild
  split <;> simp_all

theorem linkSends_cancelAll (L : List (String × ChildHandle)) {w : World}
    (hL : ∀ c ∈ L, w.OffLink me c.2.mailbox) :
    (World.linkSends me D).rel w (eval (L.forM fun c => cancelChild c.2) w).2 := by
  induction L generalizing w with
  | nil => exact (World.linkSends me D).refl w
  | cons c L ih =>
    rw [forM_cons, eval_bind, eval_cancelChild]
    dsimp only
    have hrest : ∀ c' ∈ L, w.OffLink me c'.2.mailbox := fun c' hc' => hL c' (List.mem_cons_of_mem _ hc')
    split
    · exact (World.linkSends me D).trans (World.linkSends_postQuiet w _ (hL c List.mem_cons_self))
        (ih fun c' hc' => (hrest c' hc').postQuiet _)
    · exact ih hrest

theorem Keeps.throw {ε : Type} (R : WorldOrder) (e : ε) :
    Keeps R (throw e : ExceptT ε (StateM World) α) := fun w => R.refl w

theorem Keeps.bind_at {ε : Type} {R : WorldOrder} {x : ExceptT ε (StateM World) α}
    {f : α → ExceptT ε (StateM World) β} {w : World} (hx : R.rel w (eval x w).2)
    (hf : ∀ a, Keeps R (f a)) : R.rel w (eval (x >>= f) w).2 := by
  rw [eval_bind]
  rcases h : eval x w with ⟨r, w'⟩
  rw [h] at hx
  cases r with
  | error e => exact hx
  | ok a => exact R.trans hx (hf a w')

theorem Keeps.current_bind {R : WorldOrder} {i : Nat} {f : Session → Engine β}
    (hf : ∀ w, R.rel w (eval (f (w.session i)) w).2) : Keeps R (current i >>= f) := by
  intro w
  rw [eval_bind, eval_current]
  exact hf w

theorem eval_post (m : Nat) (env : Envelope) (w : World) :
    eval (post m env) w = match w.post m env with
      | .ok w' => (.ok (), w')
      | .error e => (.error e, w) := by
  simp only [post, eval_bind, eval_get]
  cases w.post m env <;> rfl

theorem eval_update_snd (i : Nat) (f : Session → Session) (w : World) :
    (eval (update i f) w).2 = w.modifySession i f := by
  rw [eval_update]

theorem keepsLink_update (i : Nat) {f : Session → Session}
    (hf : ∀ s, (f s).parent = s.parent ∧ (f s).mailbox = s.mailbox ∧ (f s).doc = s.doc ∧
      (f s).config = s.config ∧ ∀ c ∈ (f s).children, ∃ p ∈ s.children, c.2.mailbox = p.2.mailbox) :
    Keeps (World.linkSends me D) (update i f) := fun w => World.linkSends_modifySession_sub w hf

theorem keepsLink_raiseInternal (i : Nat) (e : Event) :
    Keeps (World.linkSends me D) (raiseInternal i e) :=
  keepsLink_update i fun _ => ⟨rfl, rfl, rfl, rfl, fun c hc => ⟨c, hc, rfl⟩⟩

theorem keepsLink_publish (i : Nat) : Keeps (World.linkSends me D) (publish i) :=
  keepsLink_update i fun _ => ⟨rfl, rfl, rfl, rfl, fun c hc => ⟨c, hc, rfl⟩⟩

theorem grows_evalPost {w : World} {m : Nat} (env : Envelope) (hm : w.OffLink me m)
    (hme : me < w.sessions.size) (ha : w.LinkApart me) : World.Grows me w (eval (post m env) w).2 [] := by
  rw [eval_post]
  split
  · exact World.grows_post ‹_› hm hme ha
  · exact World.Grows.refl hme ha

theorem grows_raiseInternal (i : Nat) (e : Event) {w : World} (hme : me < w.sessions.size)
    (ha : w.LinkApart me) : World.Grows me w (eval (raiseInternal i e) w).2 [] := by
  rw [raiseInternal, eval_update_snd]
  exact World.grows_modifySession_sub w (fun _ => ⟨rfl, rfl, rfl, rfl, fun c hc => ⟨c, hc, rfl⟩⟩) hme ha

/-- Delivering an event: while the link's mailbox is open, one sent to `_parent` goes through
the link, and nothing else reaches it. -/
theorem grows_deliver (e : Event) (target : Option String) {w : World} (hm : me < w.sessions.size)
    (ha : w.LinkApart me) :
    ∃ P, World.Grows me w (eval (deliver me e target) w).2 P ∧ ∀ link, (w.session me).parent = some link →
      P = if (w.mailbox link.mailbox).live then (Outgoing.send e target).toParent.toList else [] := by
  -- a delivery that does not go through the link
  have off : ∀ {w' : World}, World.Grows me w w' [] → (Outgoing.send e target).toParent = none →
      ∃ P, World.Grows me w w' P ∧ ∀ link, (w.session me).parent = some link →
        P = if (w.mailbox link.mailbox).live then (Outgoing.send e target).toParent.toList else [] :=
    fun g hn => ⟨[], g, fun _ _ => by simp [hn]⟩
  unfold deliver
  rw [eval_bind, eval_current]
  dsimp only
  split
  · exact off (grows_evalPost _ (World.OffLink.own w me) hm ha) rfl
  · rename_i t
    split
    · rename_i hself
      exact off (grows_evalPost _ (World.OffLink.own w me) hm ha)
        (Outgoing.toParent_send_of_ne (by simp at hself; simp [hself]))
    · split
      · rename_i hint
        exact off (grows_raiseInternal me _ hm ha)
          (Outgoing.toParent_send_of_ne (by simp at hint; simp [hint]))
      · split
        · rename_i hpar
          have ht : t = "_parent" := by simpa using hpar
          split
          · rename_i link hl
            rw [eval_bind, eval_get]
            dsimp only
            split
            · -- the link's mailbox is open, and the event goes through
              rename_i w' hsend
              refine ⟨[e], World.grows_send hsend hl hm ha, fun link' hl' => ?_⟩
              rw [hl] at hl'
              cases hl'
              rw [if_pos (World.post_ok hsend).1]
              simp [Outgoing.toParent, ht]
            · -- the link's mailbox is closed: nothing reaches it
              rename_i err hsend
              refine ⟨[], World.Grows.refl hm ha, fun link' hl' => ?_⟩
              rw [hl] at hl'
              cases hl'
              rw [if_neg (by simp [World.post_error hsend])]
          · exact ⟨[], World.Grows.refl hm ha, fun link hl => by simp_all⟩
        · rename_i hpar
          have hne : t ≠ "_parent" := by simpa using hpar
          split
          · exact off (grows_evalPost _ (World.OffLink.own w me) hm ha)
              (Outgoing.toParent_send_of_ne hne)
          · split
            · exact off (grows_evalPost _ (World.OffLink.child (Session.mem_children_of_child? ‹_›)) hm ha)
                (Outgoing.toParent_send_of_ne hne)
            · exact off (World.Grows.refl hm ha) (Outgoing.toParent_send_of_ne hne)

/-- Routing what content produced: while the link's mailbox is open, exactly the items sent to
`_parent` go through the link, in order. -/
theorem grows_route (out : List Outgoing) {w : World} (hm : me < w.sessions.size)
    (ha : w.LinkApart me) :
    ∃ P, World.Grows me w (eval (route me out) w).2 P ∧ ∀ link, (w.session me).parent = some link →
      P = if (w.mailbox link.mailbox).live then out.filterMap Outgoing.toParent else [] := by
  induction out generalizing w with
  | nil => exact ⟨[], World.Grows.refl hm ha, fun _ _ => by simp⟩
  | cons o rest ih =>
    -- the first item, then the rest from the world it left, whose link is as open as before
    have step : ∀ {w₁ : World} {P₁ : List Event}, World.Grows me w w₁ P₁ →
        (∀ link, (w.session me).parent = some link →
          P₁ = if (w.mailbox link.mailbox).live then o.toParent.toList else []) →
        ∃ P, World.Grows me w (eval (route me rest) w₁).2 P ∧ ∀ link, (w.session me).parent = some link →
          P = if (w.mailbox link.mailbox).live then (o :: rest).filterMap Outgoing.toParent else [] := by
      intro w₁ P₁ g₁ hP₁
      obtain ⟨P₂, g₂, hP₂⟩ := ih g₁.lt g₁.apart
      refine ⟨P₁ ++ P₂, g₁.trans g₂, fun link hl => ?_⟩
      have hlive := (g₁.appended link hl).1
      rw [hP₁ link hl, hP₂ link (g₁.parent.trans hl), hlive, List.filterMap_cons]
      split <;> cases o.toParent <;> simp
    cases o with
    | raise e =>
      rw [route, eval_bind]
      exact step (grows_raiseInternal me e hm ha) fun _ _ => by simp [Outgoing.toParent]
    | send e target =>
      obtain ⟨P₁, g₁, hP₁⟩ := grows_deliver e target hm ha
      rw [route, eval_bind, eval_observe]
      dsimp only
      split
      · exact step g₁ hP₁
      · -- an event that could not be delivered becomes `error.communication`
        rw [eval_bind]
        have g₂ := grows_raiseInternal me (Event.errorCommunication (target.getD "_self") e.name)
          g₁.lt g₁.apart
        have g₃ : World.Grows me w _ (P₁ ++ []) := g₁.trans g₂
        rw [List.append_nil] at g₃
        exact step g₃ hP₁

/-- Running a block of content keeps the link: when it runs to its end, what it sent to
`_parent` goes through the link while the link's mailbox is open. -/
theorem keepsLink_runOn (owner : Nat) (e : Event) {cmds : List Command} (hc : D.Block cmds) :
    Keeps (World.linkSends me D) (runOn me owner e cmds) := by
  unfold runOn
  refine Keeps.get_bind fun w => ?_
  simp only [eval_bind, eval_set]
  intro hm ha hd
  have hsent := execute_toParent w.registry.hooks (w.session me).config.name e cmds (w.session owner).data
  generalize execute _ _ _ _ _ = r at hsent ⊢
  -- the content's data bag replaces the owner's; the effects outside the sessions grow
  have g₀ := World.Grows.effects (w.effects ++ r.effects.toArray) hm ha
  have g₁ : World.Grows me w ({ w with effects := w.effects ++ r.effects.toArray }.modifySession owner
      fun o => { o with data := r.data }) [] :=
    g₀.trans (World.grows_modifySession_sub _ (fun _ => ⟨rfl, rfl, rfl, rfl, fun c hc => ⟨c, hc, rfl⟩⟩)
      g₀.lt g₀.apart)
  split
  · exact ⟨[], .nil, g₁⟩
  · rename_i herr
    obtain ⟨P, g₂, hP⟩ := grows_route r.outbox g₁.lt g₁.apart
    have g := g₁.trans g₂
    cases hpar : (w.session me).parent with
    | none => exact ⟨[], .nil, g.unlinked hpar⟩
    | some link =>
      -- what went through the link is the block's sends or, once it closed, nothing
      refine ⟨[] ++ P, ?_, g⟩
      rw [List.nil_append, hP link (g₁.parent.trans hpar), hsent herr]
      split
      · exact .block hc
      · exact .nil

theorem keepsLink_exec {cmds : List Command} (hc : D.Block cmds) :
    Keeps (World.linkSends me D) (exec me cmds) := by
  unfold exec
  split
  · exact Keeps.pure _
  · exact Keeps.bind (World.linkSends me D).refl fun _ => keepsLink_runOn _ _ hc

theorem keepsLink_cancelInvoke (invokeId : String) :
    Keeps (World.linkSends me D) (cancelInvoke me invokeId) := by
  unfold cancelInvoke
  refine Keeps.current_bind fun w => ?_
  split
  · rename_i c hc
    rw [eval_bind, eval_update]
    -- the handle leaves the session's invocations before it is cancelled
    intro hm ha hd
    have g₁ := World.grows_modifySession_sub w (i := me)
      (f := fun s => { s with children := s.children.filter (·.1 != invokeId) })
      (fun s => ⟨rfl, rfl, rfl, rfl, fun c hc => ⟨c, (List.mem_filter.1 hc).1, rfl⟩⟩) hm ha
    exact (World.linkSends me D).trans (World.linkSends_of_grows fun _ _ => g₁) (linkSends_cancelChild
      ((World.OffLink.child (Session.mem_children_of_child? hc)).of_grows g₁ hm ha)) hm ha hd
  · exact (World.linkSends me D).refl w

theorem keepsLink_cancelInvokesOf (doc : Document) (st : Nat) :
    Keeps (World.linkSends me D) (cancelInvokesOf me doc st) := by
  unfold cancelInvokesOf
  refine Keeps.forM fun n _ => ?_
  split
  · exact keepsLink_cancelInvoke _
  · exact Keeps.pure _

theorem Keeps.current_doc {f : Session → Engine β}
    (hf : ∀ s, s.doc = D → Keeps (World.linkSends me D) (f s)) :
    Keeps (World.linkSends me D) (current me >>= f) := by
  intro w hm ha hd
  rw [eval_bind, eval_current]
  exact hf _ hd w hm ha hd

theorem keepsLink_exitStates (ts : List Nat) : Keeps (World.linkSends me D) (exitStates me ts) := by
  unfold exitStates
  refine Keeps.current_doc fun s hs => ?_
  refine Keeps.bind (keepsLink_update _ fun _ => ⟨rfl, rfl, rfl, rfl, fun c hc => ⟨c, hc, rfl⟩⟩) fun _ => ?_
  exact Keeps.forM fun st _ => Keeps.bind (keepsLink_exec (hs ▸ s.doc.block_onExit st)) fun _ =>
    Keeps.bind (keepsLink_cancelInvokesOf _ _) fun _ =>
      keepsLink_update _ fun _ => ⟨rfl, rfl, rfl, rfl, fun c hc => ⟨c, hc, rfl⟩⟩

theorem keepsLink_enterFinal (st : Nat) : Keeps (World.linkSends me D) (enterFinal me st) := by
  unfold enterFinal
  refine Keeps.bind (World.linkSends me D).refl fun s => ?_
  dsimp only
  split
  · exact keepsLink_update _ fun _ => ⟨rfl, rfl, rfl, rfl, fun c hc => ⟨c, hc, rfl⟩⟩
  · refine Keeps.bind (keepsLink_raiseInternal _ _) fun _ => ?_
    split
    · refine Keeps.bind (World.linkSends me D).refl fun s' => ?_
      split
      · exact keepsLink_raiseInternal _ _
      · exact Keeps.pure _
    · exact Keeps.pure _

theorem keepsLink_enterStates (ts : List Nat) : Keeps (World.linkSends me D) (enterStates me ts) := by
  unfold enterStates
  refine Keeps.current_doc fun s hs => Keeps.forM fun st _ => ?_
  refine Keeps.bind (keepsLink_update _ fun _ => ⟨rfl, rfl, rfl, rfl, fun c hc => ⟨c, hc, rfl⟩⟩) fun _ =>
    Keeps.bind (keepsLink_exec (hs ▸ s.doc.block_onEntry st)) fun _ => ?_
  dsimp only
  -- the content of a default entry, then of a history default, then a final state's events
  have last : Keeps (World.linkSends me D)
      (if s.doc.isFinal st = true then enterFinal me st else pure () : Engine Unit) := by
    split
    · exact keepsLink_enterFinal _
    · exact Keeps.pure _
  split
  on_goal 1 => split
  on_goal 1 => refine Keeps.bind (keepsLink_exec (hs ▸ s.doc.block_content _)) fun _ => ?_
  -- each way through the default entry goes on with the history content
  all_goals
    split
    · exact Keeps.bind (keepsLink_exec (hs ▸ s.doc.block_content _)) fun _ => last
    · exact last

theorem keepsLink_microstep (ts : List Nat) : Keeps (World.linkSends me D) (microstep me ts) := by
  unfold microstep
  refine Keeps.bind (keepsLink_exitStates _) fun _ => Keeps.current_doc fun s hs => ?_
  exact Keeps.bind (Keeps.forM fun t _ => keepsLink_exec (hs ▸ s.doc.block_content t)) fun _ =>
    keepsLink_enterStates _

theorem keepsLink_selectEventless : Keeps (World.linkSends me D) (selectEventless me) := by
  intro w
  rw [eval_selectEventless]
  split <;> exact (World.linkSends me D).refl w

theorem keepsLink_selectCurrent : Keeps (World.linkSends me D) (selectCurrent me) := by
  intro w
  rw [eval_selectCurrent]
  split <;> exact (World.linkSends me D).refl w

theorem keepsLink_nextEnabled (q : List Event) : Keeps (World.linkSends me D) (nextEnabled me q) := by
  induction q with
  | nil =>
    unfold nextEnabled
    refine Keeps.bind (keepsLink_update _ fun _ => ⟨rfl, rfl, rfl, rfl, fun c hc => ⟨c, hc, rfl⟩⟩) fun _ =>
      Keeps.bind keepsLink_selectEventless fun r => ?_
    split <;> exact Keeps.pure _
  | cons e rest ih =>
    unfold nextEnabled
    refine Keeps.bind (keepsLink_update _ fun _ => ⟨rfl, rfl, rfl, rfl, fun c hc => ⟨c, hc, rfl⟩⟩) fun _ =>
      Keeps.bind keepsLink_selectEventless fun r => ?_
    split
    · exact Keeps.pure _
    · refine Keeps.bind (keepsLink_update _ fun _ => ⟨rfl, rfl, rfl, rfl, fun c hc => ⟨c, hc, rfl⟩⟩) fun _ =>
        Keeps.bind keepsLink_selectCurrent fun r => ?_
      split
      · exact Keeps.pure _
      · exact ih

theorem keepsLink_drain (limit left : Nat) : Keeps (World.linkSends me D) (drain me limit left) := by
  induction left with
  | zero =>
    unfold drain
    refine Keeps.bind (World.linkSends me D).refl fun s => ?_
    split
    · exact Keeps.pure _
    · refine Keeps.bind (World.linkSends me D).refl fun s' => Keeps.bind (keepsLink_nextEnabled _) fun r => ?_
      split
      · exact Keeps.pure _
      · exact (World.linkSends me D).refl
  | succ k ih =>
    unfold drain
    refine Keeps.bind (World.linkSends me D).refl fun s => ?_
    split
    · exact Keeps.pure _
    · refine Keeps.bind (World.linkSends me D).refl fun s' => Keeps.bind (keepsLink_nextEnabled _) fun r => ?_
      split
      · exact Keeps.pure _
      · exact Keeps.bind (keepsLink_microstep _) fun _ => ih

theorem keepsLink_spawnChild (i : Nat) (node : InvokeNode Document) (doc : Document) :
    Keeps (World.linkSends me D) (spawnChild i node doc) := by
  unfold spawnChild
  refine Keeps.get_bind fun w => ?_
  simp only [Bool.not_eq_eq_eq_not, Bool.not_true]
  split
  · exact (World.linkSends me D).refl w
  · split
    · exact (World.linkSends me D).refl w
    · simp only [eval_bind, eval_set, eval_pure, World.addMailbox]
      -- a new session reading a new mailbox
      refine World.linkSends_grow (by simp) (fun j hj => ?_) (by simp) (fun m hm => ?_)
      · rw [World.session_schedule, World.session_push rfl hj]
      · rw [World.mailbox, World.mailboxes_schedule]
        exact World.mailbox_push rfl hm

theorem linkSends_sendAll {ε : Type} (es : List Event) (link : ParentLink) {w : World}
    (ho : w.OffLink me link.mailbox) :
    (World.linkSends me D).rel w
      (eval (es.forM fun e => (modify (·.sendQuiet link e) : ExceptT ε (StateM World) PUnit)) w).2 := by
  induction es generalizing w with
  | nil => exact (World.linkSends me D).refl w
  | cons e es ih =>
    rw [forM_cons, eval_bind, eval_modify]
    exact (World.linkSends me D).trans (World.linkSends_sendQuiet w link e ho) (ih (ho.sendQuiet link e))

theorem keepsLink_startService (invokeId src : String) (svc : ExternalService) :
    Keeps (World.linkSends me D) (startService me invokeId src svc) := by
  unfold startService
  refine Keeps.bind (fun w => World.linkSends_grow (w := w) (Nat.le_refl _)
    (fun _ _ => rfl) (Nat.le_refl _) fun _ _ => rfl) fun _ => ?_
  split
  · exact (World.linkSends me D).refl
  · refine Keeps.get_bind fun w => ?_
    refine Keeps.bind_at (linkSends_sendAll svc.onStart _ (World.OffLink.own w me)) fun _ => ?_
    refine Keeps.get_bind fun w₁ => ?_
    simp only [World.addMailbox, eval_bind, eval_set, eval_pure]
    -- the service reads a new mailbox
    exact World.linkSends_grow (Nat.le_refl _) (fun _ _ => rfl) (by simp)
      fun _ hm => World.mailbox_push rfl hm

theorem eval_forM_modify {ε : Type} (es : List Event) (g : Event → World → World) (w : World) :
    eval (es.forM fun e => (modify (g e) : ExceptT ε (StateM World) PUnit)) w =
      (.ok ⟨⟩, es.foldl (fun w e => g e w) w) := by
  induction es generalizing w with
  | nil => rfl
  | cons e es ih => rw [forM_cons, eval_bind, eval_modify]; exact ih _

theorem size_sendQuiet (w : World) (link : ParentLink) (e : Event) :
    (w.sendQuiet link e).mailboxes.size = w.mailboxes.size := by
  unfold World.sendQuiet
  split
  · simp [(World.post_ok ‹_›).2.1]
  · rfl

theorem size_foldl_sendQuiet (link : ParentLink) (es : List Event) (w : World) :
    (es.foldl (fun w e => w.sendQuiet link e) w).mailboxes.size = w.mailboxes.size := by
  induction es generalizing w with
  | nil => rfl
  | cons e es ih => rw [List.foldl_cons, ih, size_sendQuiet]

theorem spawnChild_fresh {i : Nat} {node : InvokeNode Document} {doc : Document} {w w' : World}
    {c : ChildHandle} (h : eval (spawnChild i node doc) w = (.ok c, w')) :
    w.mailboxes.size ≤ c.mailbox := by
  unfold spawnChild at h
  simp only [eval_bind, eval_get, Bool.not_eq_eq_eq_not, Bool.not_true] at h
  split at h
  · simp at h
  · split at h
    · simp at h
    · simp only [eval_bind, eval_set, eval_pure, World.addMailbox, Prod.mk.injEq, Except.ok.injEq] at h
      exact Nat.le_of_eq (by rw [← h.1])

theorem startService_fresh {invokeId src : String} {svc : ExternalService} {w w' : World}
    {c : ChildHandle} (h : eval (startService me invokeId src svc) w = (.ok c, w')) :
    w.mailboxes.size ≤ c.mailbox := by
  unfold startService at h
  simp only [eval_bind, eval_modify] at h
  split at h
  · simp at h
  · simp only [eval_bind, eval_get, eval_forM_modify, World.addMailbox, eval_set, eval_pure,
      Prod.mk.injEq, Except.ok.injEq] at h
    exact Nat.le_of_eq (by rw [← h.1, size_foldl_sendQuiet])

/-- Keeping a new handle that reads a mailbox off the link, and cancelling the handle it
replaces, keeps the link. -/
theorem linkSends_keepHandle (node : InvokeNode Document) (child : ChildHandle) {w : World}
    (hc : w.OffLink me child.mailbox) :
    (World.linkSends me D).rel w (eval (do
      let s := (← get).session me
      match s.child? node.id with
      | some previous =>
        modify (·.modifySession me fun s => { s with
          children := s.children.map fun p => if p.1 == node.id then (node.id, child) else p })
        if previous.status == .invoked then modify (·.postQuiet previous.mailbox .cancel)
      | none =>
        modify (·.modifySession me fun s => { s with children := s.children ++ [(node.id, child)] }) :
      Launch Unit) w).2 := by
  rw [eval_bind, eval_get]
  dsimp only
  intro hm ha hd
  split
  · rename_i previous hprev
    rw [eval_bind, eval_modify]
    -- the new handle takes the place of every handle of the same invocation
    have g₁ : World.Grows me w (w.modifySession me fun s => { s with
        children := s.children.map fun p => if p.1 == node.id then (node.id, child) else p }) [] := by
      refine World.grows_modifySession w (fun _ hm' ha' => ⟨rfl, rfl, rfl, rfl, fun link hl c hc' => ?_⟩)
        hm ha
      obtain ⟨p, hp, rfl⟩ := List.mem_map.1 hc'
      split
      · exact hc hm' ha' link hl
      · exact (ha' link hl).2.2 p hp
    have hoff := (World.OffLink.child (Session.mem_children_of_child? hprev)).of_grows g₁ hm ha
    refine (World.linkSends me D).trans (World.linkSends_of_grows fun _ _ => g₁) ?_ hm ha hd
    dsimp only
    split
    · exact World.linkSends_postQuiet _ _ hoff
    · exact (World.linkSends me D).refl _
  · refine World.linkSends_modifySession w (fun _ hm' ha' => ⟨rfl, rfl, rfl, rfl, fun link hl c hc' => ?_⟩)
      hm ha hd
    rcases List.mem_append.1 hc' with hc' | hc'
    · exact (ha' link hl).2.2 c hc'
    · rw [List.mem_singleton.1 hc']
      exact hc hm' ha' link hl

/-- Starting an invocation keeps the link when the start keeps it and hands back a handle on a
mailbox made meanwhile. -/
theorem keepsLink_launch (node : InvokeNode Document) {x : Launch ChildHandle}
    (hx : Keeps (World.linkSends me D) x)
    (hfresh : ∀ w c w', eval x w = (.ok c, w') → w.mailboxes.size ≤ c.mailbox) :
    Keeps (World.linkSends me D) (x >>= fun child => do
      let s := (← get).session me
      match s.child? node.id with
      | some previous =>
        modify (·.modifySession me fun s => { s with
          children := s.children.map fun p => if p.1 == node.id then (node.id, child) else p })
        if previous.status == .invoked then modify (·.postQuiet previous.mailbox .cancel)
      | none =>
        modify (·.modifySession me fun s => { s with children := s.children ++ [(node.id, child)] })) := by
  intro w
  rw [eval_bind]
  have h₁ := hx w
  rcases h : eval x w with ⟨r, w₁⟩
  rw [h] at h₁
  cases r with
  | error e => exact h₁
  | ok child =>
    intro hm ha hd
    obtain ⟨_, _, g₁⟩ := h₁ hm ha hd
    -- the new mailbox is not the link's, which existed before
    have hoff : w₁.OffLink me child.mailbox := fun _ _ link hl => by
      have := (ha link (g₁.parent ▸ hl)).1
      have := hfresh w child w₁ h
      omega
    exact (World.linkSends me D).trans h₁ (linkSends_keepHandle node child hoff) hm ha hd

theorem keepsLink_startInvoke (node : InvokeNode Document) :
    Keeps (World.linkSends me D) (startInvoke me node) := by
  unfold startInvoke
  dsimp only
  split
  · exact keepsLink_launch node (keepsLink_spawnChild _ _ _) fun _ _ _ => spawnChild_fresh
  · refine Keeps.get_bind fun w => ?_
    split
    · exact keepsLink_launch node (Keeps.throw _ _) (fun _ _ _ h => by simp at h) w
    · exact keepsLink_launch node (keepsLink_spawnChild _ _ _) (fun _ _ _ => spawnChild_fresh) w
    · exact keepsLink_launch node (keepsLink_startService _ _ _) (fun _ _ _ => startService_fresh) w

theorem keepsLink_startInvokes : Keeps (World.linkSends me D) (startInvokes me) := by
  unfold startInvokes
  refine Keeps.bind (World.linkSends me D).refl fun s => ?_
  refine Keeps.bind (keepsLink_update _ fun _ => ⟨rfl, rfl, rfl, rfl, fun c hc => ⟨c, hc, rfl⟩⟩) fun _ => ?_
  refine Keeps.forM fun st _ => Keeps.forM fun n _ => ?_
  split
  · refine Keeps.bind (fun w => by
      simpa using (keepsLink_startInvoke _ : Keeps (World.linkSends me D) (startInvoke me _)) w) fun r => ?_
    split
    · exact Keeps.pure _
    · exact keepsLink_raiseInternal _ _
  · exact Keeps.pure _

theorem keepsLink_rounds (limit : Nat) (fuel left : Nat) :
    Keeps (World.linkSends me D) (rounds me limit fuel left) := by
  induction fuel generalizing left with
  | zero => exact Keeps.pure _
  | succ f ih =>
    unfold rounds
    refine Keeps.bind (keepsLink_drain _ _) fun left' => Keeps.bind (World.linkSends me D).refl fun s => ?_
    split
    · exact Keeps.pure _
    · refine Keeps.bind keepsLink_startInvokes fun _ => Keeps.bind (World.linkSends me D).refl fun s' => ?_
      split
      · exact Keeps.pure _
      · exact ih _

theorem keepsLink_macrostep : Keeps (World.linkSends me D) (macrostep me) := by
  unfold macrostep
  refine Keeps.bind (World.linkSends me D).refl fun s => Keeps.bind (keepsLink_rounds _ _ _) fun b => ?_
  split
  · exact keepsLink_publish _
  · exact Keeps.pure _

theorem keepsLink_applyFinalize {node : InvokeNode Document} (hn : D.Block node.finalize) (e : Event) :
    Keeps (World.linkSends me D) (applyFinalize me node e) := by
  unfold applyFinalize
  split
  · exact Keeps.pure _
  · refine Keeps.bind (World.linkSends me D).refl fun s => ?_
    split
    · exact keepsLink_raiseInternal _ _
    · exact keepsLink_runOn _ _ hn

theorem keepsLink_autoforward (invokeId : String) (e : Event) :
    Keeps (World.linkSends me D) (autoforward me invokeId e) := by
  unfold autoforward
  refine Keeps.current_bind fun w => ?_
  split
  · rename_i c hc
    split
    · exact World.linkSends_postQuiet w _ (World.OffLink.child (Session.mem_children_of_child? hc))
    · exact (World.linkSends me D).refl w
  · exact (World.linkSends me D).refl w

theorem keepsLink_finalizeAndForward (e : Event) :
    Keeps (World.linkSends me D) (finalizeAndForward me e) := by
  unfold finalizeAndForward
  refine Keeps.current_doc fun s hs => Keeps.forM fun st _ => Keeps.forM fun n _ => ?_
  split
  · rename_i node hnode
    -- finalize when the event comes from the invocation, then forward when it asks for that
    have forward : Keeps (World.linkSends me D)
        (if node.autoforward = true then autoforward me node.id e else pure ()) := by
      split
      · exact keepsLink_autoforward _ _
      · exact Keeps.pure _
    dsimp only
    split
    · exact Keeps.bind (keepsLink_applyFinalize (hs ▸ s.doc.block_finalize hnode) _) fun _ => forward
    · exact forward
  · exact Keeps.pure _

/-- Processing an external event keeps the link: the interpreter sends nothing through it. -/
theorem keepsLink_processExternal (e : Event) :
    Keeps (World.linkSends me D) (processExternal me e) := by
  -- what follows the bookkeeping: finalize and forward, a microstep, a macrostep
  have rest : Keeps (World.linkSends me D) (do
      update me fun s => { s with event := e }
      finalizeAndForward me e
      let enabled ← selectCurrent me
      if !enabled.isEmpty then microstep me enabled.items
      macrostep me) := by
    refine Keeps.bind (keepsLink_update _ fun _ => ⟨rfl, rfl, rfl, rfl, fun c hc => ⟨c, hc, rfl⟩⟩) fun _ =>
      Keeps.bind (keepsLink_finalizeAndForward _) fun _ => Keeps.bind keepsLink_selectCurrent fun en => ?_
    split
    · exact Keeps.bind (keepsLink_microstep _) fun _ => keepsLink_macrostep
    · exact keepsLink_macrostep
  unfold processExternal
  split
  · split
    · -- marking the invocation done keeps every handle's mailbox
      refine Keeps.bind (keepsLink_update _ fun s => ⟨rfl, rfl, rfl, rfl, fun c hc => ?_⟩) fun _ => rest
      obtain ⟨p, hp, rfl⟩ := List.mem_map.1 hc
      refine ⟨p, hp, ?_⟩
      split <;> rfl
    · exact rest
  · exact rest

theorem keepsLink_enterInitial : Keeps (World.linkSends me D) (enterInitial me) := by
  unfold enterInitial
  refine Keeps.bind (World.linkSends me D).refl fun s => ?_
  split
  · exact Keeps.bind (keepsLink_microstep _) fun _ => keepsLink_macrostep
  · exact keepsLink_macrostep

theorem FailsWith.foldlM {ε : Type} {p : ε → Prop} {γ : Type} {f : β → γ → ExceptT ε (StateM World) β}
    (hf : ∀ b c, FailsWith p (f b c)) (xs : List γ) (b : β) : FailsWith p (xs.foldlM f b) := by
  induction xs generalizing b with
  | nil => exact FailsWith.pure _
  | cons c cs ih => exact FailsWith.bind (hf b c) fun b' => ih b'

theorem Keeps.of_eval {ε : Type} {R : WorldOrder} {x : ExceptT ε (StateM World) α} (hx : Keeps R x)
    {w w' : World} {r : Except ε α} (h : eval x w = (r, w')) : R.rel w w' := by
  have := hx w
  rwa [h] at this

theorem eval_bind_error {ε : Type} {x : ExceptT ε (StateM World) α} {f : α → ExceptT ε (StateM World) β}
    {w w' : World} {e : ε} (h : eval (x >>= f) w = (.error e, w')) :
    eval x w = (.error e, w') ∨ ∃ a w₁, eval x w = (.ok a, w₁) ∧ eval (f a) w₁ = (.error e, w') := by
  rw [eval_bind] at h
  rcases hx : eval x w with ⟨r, w₁⟩
  rw [hx] at h
  cases r with
  | error e' =>
    left
    simp only [Prod.mk.injEq, Except.error.injEq] at h
    rw [h.1, h.2]
  | ok a => exact .inr ⟨a, w₁, rfl, h⟩

theorem eval_cancelAll (L : List (String × ChildHandle)) (w : World) :
    eval (L.forM fun c => cancelChild c.2) w =
      (.ok (), L.foldl (fun w c => if c.2.status == .invoked then w.postQuiet c.2.mailbox .cancel else w) w) := by
  induction L generalizing w with
  | nil => rfl
  | cons c L ih =>
    rw [forM_cons, eval_bind, eval_cancelChild]
    exact ih _

theorem session_cancelAll (L : List (String × ChildHandle)) (w : World) (i : Nat) :
    (L.foldl (fun w c => if c.2.status == .invoked then w.postQuiet c.2.mailbox .cancel else w) w).session i =
      { w.session i with drive := ((L.foldl (fun w c => if c.2.status == .invoked then
        w.postQuiet c.2.mailbox .cancel else w) w).session i).drive } := by
  induction L generalizing w with
  | nil => rfl
  | cons c L ih =>
    rw [List.foldl_cons, ih]
    split
    · rw [World.session_postQuiet]
    · rfl

/-- An exit of a teardown sends through the link what its exit content sends, and nothing else. -/
theorem keepsLink_exitOne (s : Session) (done : Option Json.Value) (st : Nat) :
    Keeps (World.linkSends me s.doc) (exitOne me s done st) :=
  Keeps.bind (keepsLink_exec (s.doc.block_onExit st)) fun _ => Keeps.bind (keepsLink_cancelInvokesOf _ _) fun _ =>
    Keeps.bind (keepsLink_update _ fun _ => ⟨rfl, rfl, rfl, rfl, fun c hc => ⟨c, hc, rfl⟩⟩) fun _ => Keeps.pure _

/-- Tearing down fails only while exit content runs, before any notification: only content has
gone through the link by then. -/
theorem teardown_error {w w' : World} {e : SessionError} (h : eval (teardown me) w = (.error e, w')) :
    (World.linkSends me (w.session me).doc).rel w w' ∧ e.IsContent := by
  rw [teardown_eq, eval_bind, eval_current] at h
  rcases eval_bind_error h with hx | ⟨done, w₁, -, hf⟩
  · refine ⟨Keeps.of_eval (Keeps.foldlM (keepsLink_exitOne _) _ _) hx,
      FailsWith.foldlM (fun _ st => ?_) _ _ w e w' hx⟩
    exact FailsWith.bind (exec_error _ _) fun _ => FailsWith.bind
      ((cancelInvokesOf_never _ _ _).mono fun _ h => h.elim) fun _ =>
      FailsWith.bind (failsWith_update _ _) fun _ => FailsWith.pure _
  · exact (closeDown_never me _ _ w₁ e w' hf).elim

/-- Failing marks the session failed and cancels and drops its invocations, the link hearing
nothing but content on the way; it then sends `error.execution` through the link, if there is one,
and publishes the configuration. -/
theorem eval_fail_split (err : SessionError) {w : World} (hm : me < w.sessions.size) (ha : w.LinkApart me) :
    ∃ w₁ P, (w.session me).doc.Sent (w.session me).config.name P ∧ World.Grows me w w₁ P ∧
      (w₁.session me).status = .failed ∧ (w₁.session me).children = [] ∧
      eval (fail me err) w = (.ok err, ((w₁.session me).parent.elim w₁ fun link =>
        w₁.sendQuiet link (Event.errorExecution err.message)).modifySession me
          fun s => { s with published := s.activeNames, version := s.version + 1 }) := by
  unfold fail
  simp only [eval_bind, eval_update, eval_current, eval_cancelAll]
  have r₁ : (World.linkSends me (w.session me).doc).rel w (w.modifySession me fun s => { s with status := .failed }) :=
    World.linkSends_modifySession_sub w fun _ => ⟨rfl, rfl, rfl, rfl, fun c hc => ⟨c, hc, rfl⟩⟩
  have hs₁ : (w.modifySession me fun s => { s with status := .failed }).session me =
      { w.session me with status := .failed } := World.session_modifySession_self _ _ hm
  generalize (w.modifySession me fun s => { s with status := .failed }) = w₁ at r₁ hs₁ ⊢
  have r₂ : (World.linkSends me (w.session me).doc).rel w₁ ((w₁.session me).children.foldl (fun w c =>
      if c.2.status == .invoked then w.postQuiet c.2.mailbox .cancel else w) w₁) := by
    have h : (World.linkSends me (w.session me).doc).rel w₁ _ := linkSends_cancelAll (w₁.session me).children (w := w₁)
      fun c hc => World.OffLink.child hc
    rwa [eval_cancelAll] at h
  have hs₂ := session_cancelAll (w₁.session me).children w₁ me
  generalize ((w₁.session me).children.foldl (fun w c =>
    if c.2.status == .invoked then w.postQuiet c.2.mailbox .cancel else w) w₁) = w₂ at r₂ hs₂ ⊢
  have r₃ : (World.linkSends me (w.session me).doc).rel w₂ (w₂.modifySession me fun s => { s with children := [] }) :=
    World.linkSends_modifySession_sub w₂ fun _ => ⟨rfl, rfl, rfl, rfl, fun c hc => by simp at hc⟩
  have hs₃ : (w₂.modifySession me fun s => { s with children := [] }).session me =
      { w₂.session me with children := [] } := by
    refine World.session_modifySession_self _ _ ?_
    obtain ⟨_, _, g₂⟩ := (World.linkSends me (w.session me).doc).trans r₁ r₂ hm ha rfl
    exact g₂.lt
  generalize (w₂.modifySession me fun s => { s with children := [] }) = w₃ at r₃ hs₃ ⊢
  obtain ⟨P, hP, g₃⟩ :=
    ((World.linkSends me (w.session me).doc).trans r₁ ((World.linkSends me (w.session me).doc).trans r₂ r₃))
      hm ha rfl
  refine ⟨w₃, P, hP, g₃, by rw [hs₃, hs₂, hs₁], by rw [hs₃], ?_⟩
  rcases (w₃.session me).parent with _ | link <;> rfl

/-- Failing marks the session failed, cancels and drops its invocations, and sends
`error.execution` through the link, the one event the interpreter sends there while failing. -/
theorem eval_fail (err : SessionError) {w : World} (hm : me < w.sessions.size) (ha : w.LinkApart me) :
    ∃ w', eval (fail me err) w = (.ok err, w') ∧ (w'.session me).status = .failed ∧
      (w'.session me).children = [] ∧ (w'.session me).parent = (w.session me).parent ∧
      ∀ link, (w.session me).parent = some link → ∃ P, (w.session me).doc.Sent (w.session me).config.name P ∧
        World.Appended w w' link
          (P ++ if (w.mailbox link.mailbox).live then [Event.errorExecution err.message] else []) := by
  obtain ⟨w₁, P, hP, g, hs, hc, heq⟩ := eval_fail_split err hm ha
  refine ⟨_, heq, ?_⟩
  rcases hpar : (w.session me).parent with _ | link
  · -- without a link only the configuration is published
    rw [g.parent, hpar]
    simp only [Option.elim, World.session_modifySession_self _ _ g.lt]
    exact ⟨hs, hc, g.parent.trans hpar, fun link h => nomatch h⟩
  · -- the link hears of the failure, while its mailbox is open
    rw [g.parent, hpar]
    have hm' : me < (w₁.sendQuiet link (Event.errorExecution err.message)).sessions.size := by
      rw [World.sessions_size_sendQuiet]
      exact g.lt
    simp only [Option.elim]
    rw [World.session_modifySession_self _ _ hm', World.session_sendQuiet]
    refine ⟨hs, hc, g.parent.trans hpar, fun link' h => ?_⟩
    cases h
    have hA := g.appended link hpar
    have h₄ := World.appended_sendQuiet w₁ link (Event.errorExecution err.message) (g.apart link (g.parent.trans hpar)).1
    rw [hA.1] at h₄
    exact ⟨P, hP, (hA.trans h₄).1, by rw [← (hA.trans h₄).2]; rfl⟩

end Engine
end Hsm
