import Hsm.Proofs.Books
import Hsm.Proofs.Stopping
import Hsm.Proofs.Layout
/-!
# What tearing a session down does

Tearing down a stopped session with its books in order exits every active state once in exit
order, cancels each running invocation once, empties the session, and keeps and reports done data
exactly when a top-level final state was active (`Engine.eval_teardown_tornDown`).
-/

namespace Hsm

def Envelope.isCancel : Envelope → Bool
  | .cancel => true
  | .event _ => false

namespace World
variable {me : Nat} {w w' w₁ w₂ : World}

/-- From `w` to `w'` the handles `C` were cancelled: no mailbox is added or removed, each keeps
whether it is open and only grows, and what reaches an open mailbox holds one `Cancel` for each
invoked handle of `C` that reads it, and no other. -/
def Cancelled (w w' : World) (C : List (String × ChildHandle)) : Prop :=
  w'.mailboxes.size = w.mailboxes.size ∧ ∀ m < w.mailboxes.size,
    (w'.mailbox m).live = (w.mailbox m).live ∧ ∃ A, (w'.mailbox m).queue = (w.mailbox m).queue ++ A ∧
      A.countP Envelope.isCancel =
        if (w.mailbox m).live then C.countP fun c => c.2.status == .invoked && c.2.mailbox == m else 0

theorem Cancelled.refl (w : World) : Cancelled w w [] :=
  ⟨rfl, fun _ _ => ⟨rfl, [], by simp, by simp⟩⟩

theorem Cancelled.trans {C₁ C₂ : List (String × ChildHandle)} (h₁ : Cancelled w w₁ C₁)
    (h₂ : Cancelled w₁ w₂ C₂) : Cancelled w w₂ (C₁ ++ C₂) := by
  refine ⟨h₂.1.trans h₁.1, fun m hm => ?_⟩
  obtain ⟨hl₁, A₁, hq₁, hc₁⟩ := h₁.2 m hm
  obtain ⟨hl₂, A₂, hq₂, hc₂⟩ := h₂.2 m (h₁.1 ▸ hm)
  refine ⟨hl₂.trans hl₁, A₁ ++ A₂, by rw [hq₂, hq₁, List.append_assoc], ?_⟩
  rw [List.countP_append, hc₁, hc₂, hl₁, List.countP_append]
  split <;> rfl

theorem mailbox_of_post {m m' : Nat} {env : Envelope} (h : w.post m env = .ok w')
    (hm' : m' < w.mailboxes.size) :
    w'.mailbox m' = if m = m' then { w.mailbox m' with queue := (w.mailbox m').queue ++ [env] }
      else w.mailbox m' := by
  obtain ⟨-, hmb, -, -⟩ := post_ok h
  have hw' : w'.mailbox m' = ({ w with mailboxes := w.mailboxes.modify m (fun mb =>
      { mb with queue := mb.queue ++ [env] }) } : World).mailbox m' := by
    simp [mailbox, hmb]
  rw [hw', mailbox_modify _ _ _ _ hm']

theorem Cancelled.post_event {m : Nat} {e : Event} (h : w.post m (.event e) = .ok w') :
    Cancelled w w' [] := by
  refine ⟨by simp [(post_ok h).2.1], fun m' hm' => ?_⟩
  rw [mailbox_of_post h hm']
  split
  · exact ⟨rfl, [.event e], rfl, by simp [Envelope.isCancel]⟩
  · exact ⟨rfl, [], by simp, by simp⟩

/-- Cancelling a handle sends one `Cancel` to its mailbox if it still runs and its mailbox is
open. -/
theorem Cancelled.cancel (c : String × ChildHandle) :
    Cancelled w (if c.2.status == .invoked then w.postQuiet c.2.mailbox .cancel else w) [c] := by
  split
  · rename_i hinv
    unfold postQuiet
    split
    · rename_i w'' hpost
      have hlive := (post_ok hpost).1
      refine ⟨by simp [(post_ok hpost).2.1], fun m hm => ?_⟩
      rw [mailbox_of_post hpost hm]
      split
      · rename_i heq
        subst heq
        exact ⟨rfl, [.cancel], rfl, by simp [Envelope.isCancel, hlive, hinv]⟩
      · rename_i hne
        refine ⟨rfl, [], by simp, ?_⟩
        simp [hne]
    · rename_i err herr
      refine ⟨rfl, fun m _ => ⟨rfl, [], by simp, ?_⟩⟩
      have hclosed := post_error herr
      split
      · rename_i hlive
        simp only [List.countP_cons, List.countP_nil, Bool.and_eq_true, beq_iff_eq]
        split
        · rename_i hm
          rw [← hm.2, hclosed] at hlive
          cases hlive
        · rfl
      · rfl
  · rename_i hinv
    refine ⟨rfl, fun m _ => ⟨rfl, [], by simp, ?_⟩⟩
    simp [hinv]

def quiet (me : Nat) : WorldOrder where
  rel w w' := Cancelled w w' [] ∧ (w'.session me).children = (w.session me).children
  refl w := ⟨Cancelled.refl w, rfl⟩
  trans h₁ h₂ := ⟨h₁.1.trans h₂.1, h₂.2.trans h₁.2⟩

theorem quiet_modifySession (w : World) {i : Nat} {f : Session → Session}
    (hf : ∀ s, (f s).children = s.children) : (quiet me).rel w (w.modifySession i f) := by
  refine ⟨⟨rfl, fun m _ => ⟨rfl, [], by simp [modifySession, mailbox], by simp⟩⟩, ?_⟩
  rcases Nat.lt_or_ge me w.sessions.size with hm | hm
  · rw [session_modifySession _ _ _ hm]
    split
    · exact hf _
    · rfl
  · rw [session_modifySession_of_le hm]

theorem quiet_post {m : Nat} {e : Event} (h : w.post m (.event e) = .ok w') : (quiet me).rel w w' :=
  ⟨Cancelled.post_event h, by rw [(post_ok h).2.2.2 me]⟩

end World

namespace Engine
variable {me : Nat}

theorem quiet_update (i : Nat) {f : Session → Session} (hf : ∀ s, (f s).children = s.children) :
    Keeps (World.quiet me) (update i f) := fun w => World.quiet_modifySession w hf

theorem quiet_raiseInternal (i : Nat) (e : Event) : Keeps (World.quiet me) (raiseInternal i e) :=
  quiet_update i fun _ => rfl

theorem quiet_evalPost (m : Nat) (e : Event) : Keeps (World.quiet me) (post m (.event e)) := by
  intro w
  rw [eval_post]
  split
  · exact World.quiet_post ‹_›
  · exact (World.quiet me).refl w

/-- Content delivers events only. -/
theorem quiet_deliver (i : Nat) (e : Event) (target : Option String) :
    Keeps (World.quiet me) (deliver i e target) := by
  intro w
  unfold deliver
  rw [eval_bind, eval_current]
  dsimp only
  split
  · exact quiet_evalPost _ _ w
  · split
    · exact quiet_evalPost _ _ w
    · split
      · exact quiet_raiseInternal _ _ w
      · split
        · split
          · rw [eval_bind, eval_get]
            dsimp only
            split
            · exact World.quiet_post ‹_›
            · exact (World.quiet me).refl w
          · exact (World.quiet me).refl w
        · split
          · exact quiet_evalPost _ _ w
          · split
            · exact quiet_evalPost _ _ w
            · exact (World.quiet me).refl w

theorem quiet_route (i : Nat) (out : List Outgoing) : Keeps (World.quiet me) (route i out) := by
  induction out with
  | nil => exact Keeps.pure _
  | cons o rest ih =>
    cases o with
    | raise e => exact Keeps.bind (quiet_raiseInternal _ _) fun _ => ih
    | send e target =>
      refine Keeps.bind (fun w => by
        simpa using (quiet_deliver i e target : Keeps (World.quiet me) _) w) fun r => ?_
      dsimp only
      split
      · exact ih
      · exact Keeps.bind (quiet_raiseInternal _ _) fun _ => ih

theorem quiet_runOn (i owner : Nat) (e : Event) (cmds : List Command) :
    Keeps (World.quiet me) (runOn i owner e cmds) := by
  unfold runOn
  refine Keeps.get_bind fun w => ?_
  simp only [eval_bind, eval_set]
  generalize execute _ _ _ _ _ = r
  -- the content's data bag replaces the owner's; the effects outside the sessions grow
  refine (World.quiet me).trans (World.quiet_modifySession (i := owner)
    { w with effects := w.effects ++ r.effects.toArray } (f := fun o => { o with data := r.data })
    fun _ => rfl) ?_
  split
  · exact (World.quiet me).refl _
  · exact quiet_route _ _ _

theorem quiet_exec (i : Nat) (cmds : List Command) : Keeps (World.quiet me) (exec i cmds) := by
  unfold exec
  split
  · exact Keeps.pure _
  · exact Keeps.bind (World.quiet me).refl fun _ => quiet_runOn _ _ _ _

end Engine


/-- With distinct ids, taking out the handles of one id leaves the others, and the one taken out is
the handle found under that id. -/
theorem perm_filter_key {l : List (String × ChildHandle)} {id : String} {c : ChildHandle}
    (hn : (l.map (·.1)).Nodup) (hc : l.lookup id = some c) :
    ((id, c) :: l.filter (·.1 != id)).Perm l := by
  induction l with
  | nil => cases hc
  | cons p t ih =>
    obtain ⟨k, v⟩ := p
    simp only [List.map_cons, List.nodup_cons] at hn
    by_cases hk : id = k
    · subst hk
      simp only [List.lookup_cons_self, Option.some.injEq] at hc
      subst hc
      have hkeep : t.filter (·.1 != id) = t := by
        refine List.filter_eq_self.2 fun p hp => ?_
        have : p.1 ≠ id := fun h => hn.1 (h ▸ List.mem_map_of_mem hp)
        simpa using this
      simp [hkeep]
    · have hb : (id == k) = false := by simpa using hk
      have hc' : t.lookup id = some c := by
        simpa [List.lookup, hb] using hc
      rw [List.filter_cons_of_pos (by simpa using Ne.symm hk)]
      exact (List.Perm.swap _ _ _).trans ((ih hn.2 hc').cons _)

namespace World
variable {me : Nat} {w w' : World}

theorem Cancelled.modifySession (w : World) (i : Nat) (f : Session → Session) :
    Cancelled w (w.modifySession i f) [] :=
  ⟨rfl, fun _ _ => ⟨rfl, [], by simp [World.modifySession, World.mailbox], by simp⟩⟩

theorem Cancelled.sendQuiet (w : World) (link : ParentLink) (e : Event) :
    Cancelled w (w.sendQuiet link e) [] := by
  unfold World.sendQuiet World.send
  split
  · exact Cancelled.post_event ‹_›
  · exact Cancelled.refl w

theorem Cancelled.cancelAll (L : List (String × ChildHandle)) (w : World) :
    Cancelled w (L.foldl (fun w c => if c.2.status == .invoked then w.postQuiet c.2.mailbox .cancel
      else w) w) L := by
  induction L generalizing w with
  | nil => exact Cancelled.refl w
  | cons c L ih => exact (Cancelled.cancel c).trans (ih _)

theorem Cancelled.perm {C C' : List (String × ChildHandle)} (h : Cancelled w w' C) (hp : C.Perm C') :
    Cancelled w w' C' := by
  refine ⟨h.1, fun m hm => ?_⟩
  obtain ⟨hl, A, hq, hc⟩ := h.2 m hm
  exact ⟨hl, A, hq, by rw [hc, hp.countP_eq]⟩

/-- Handles on distinct mailboxes being cancelled, each one still running whose mailbox was open
got exactly one `Cancel`. -/
theorem Cancelled.one_each {C : List (String × ChildHandle)} (h : Cancelled w w' C)
    (hn : (C.map (·.2.mailbox)).Nodup) {c : String × ChildHandle} (hc : c ∈ C)
    (hi : c.2.status = .invoked) (hm : c.2.mailbox < w.mailboxes.size)
    (hl : (w.mailbox c.2.mailbox).live = true) :
    ∃ A, (w'.mailbox c.2.mailbox).queue = (w.mailbox c.2.mailbox).queue ++ A ∧
      A.countP Envelope.isCancel = 1 := by
  obtain ⟨-, A, hq, hA⟩ := h.2 _ hm
  refine ⟨A, hq, ?_⟩
  rw [hA, if_pos hl]
  -- no other handle of `C` reads the mailbox of `c`
  have hle : C.countP (fun d => d.2.status == .invoked && d.2.mailbox == c.2.mailbox) ≤ 1 :=
    calc _ ≤ C.countP (fun d => d.2.mailbox == c.2.mailbox) :=
          List.countP_mono_left fun d _ hd => (Bool.and_eq_true_iff.1 hd).2
      _ = (C.map (·.2.mailbox)).count c.2.mailbox := by rw [List.count, List.countP_map]; rfl
      _ ≤ 1 := List.nodup_iff_count_le_one.1 hn _
  have hpos : 0 < C.countP (fun d => d.2.status == .invoked && d.2.mailbox == c.2.mailbox) :=
    List.countP_pos_iff.2 ⟨c, hc, by simp [hi]⟩
  omega

/-- The ids of session `me`'s handles being distinct, from `w` to `w'` the handles `C` were
cancelled and taken out: those of `w'` and `C` are those of `w`, and their ids stay distinct. -/
def drops (me : Nat) : WorldOrder where
  rel w w' := ((w.session me).children.map (·.1)).Nodup → ∃ C, Cancelled w w' C ∧
    (C ++ (w'.session me).children).Perm (w.session me).children ∧
    ((w'.session me).children.map (·.1)).Nodup
  refl w h := ⟨[], Cancelled.refl w, List.Perm.refl _, h⟩
  trans h₁ h₂ h := by
    obtain ⟨C₁, hc₁, hp₁, hn₁⟩ := h₁ h
    obtain ⟨C₂, hc₂, hp₂, hn₂⟩ := h₂ hn₁
    refine ⟨C₁ ++ C₂, hc₁.trans hc₂, ?_, hn₂⟩
    rw [List.append_assoc]
    exact (hp₂.append_left C₁).trans hp₁

theorem drops_of_quiet (h : (quiet me).rel w w') : (drops me).rel w w' := fun hn =>
  ⟨[], h.1, by rw [h.2]; exact List.Perm.refl _, by rw [h.2]; exact hn⟩

end World

namespace Engine
variable {me : Nat}

theorem drops_update (i : Nat) {f : Session → Session} (hf : ∀ s, (f s).children = s.children) :
    Keeps (World.drops me) (update i f) := fun w => World.drops_of_quiet (quiet_update i hf w)

theorem drops_exec (i : Nat) (cmds : List Command) : Keeps (World.drops me) (exec i cmds) :=
  fun w => World.drops_of_quiet (quiet_exec i cmds w)

/-- Cancelling the invocation of an id cancels and takes out the handle found under it. -/
theorem drops_cancelInvoke (invokeId : String) : Keeps (World.drops me) (cancelInvoke me invokeId) := by
  intro w hn
  unfold cancelInvoke
  rw [eval_bind, eval_current]
  dsimp only
  split
  · rename_i c hc
    have hm : me < w.sessions.size := by
      refine Nat.lt_of_not_le fun hle => ?_
      simp [Session.child?, World.session_of_le hle] at hc
    rw [eval_bind, eval_update]
    dsimp only
    rw [eval_cancelChild]
    have hs₁ := World.session_modifySession_self w (fun s => { s with
      children := s.children.filter (·.1 != invokeId) }) hm
    have hc₁ := World.Cancelled.modifySession w me (fun s => { s with
      children := s.children.filter (·.1 != invokeId) })
    generalize w.modifySession me _ = w₁ at hs₁ hc₁
    have hch : ((if c.status == .invoked then w₁.postQuiet c.mailbox .cancel else w₁).session me).children =
        (w.session me).children.filter (·.1 != invokeId) := by
      split
      · rw [World.session_postQuiet, hs₁]
      · rw [hs₁]
    refine ⟨[(invokeId, c)], ?_, ?_, ?_⟩
    · simpa using hc₁.trans (World.Cancelled.cancel (invokeId, c))
    · rw [hch]
      exact perm_filter_key hn hc
    · rw [hch]
      exact (List.filter_sublist.map _).nodup hn
  · exact ⟨[], World.Cancelled.refl w, List.Perm.refl _, hn⟩

theorem drops_cancelInvokesOf (doc : Document) (st : Nat) :
    Keeps (World.drops me) (cancelInvokesOf me doc st) := by
  refine Keeps.forM fun n _ => ?_
  split
  · exact drops_cancelInvoke _
  · exact Keeps.pure _

end Engine

def World.keepsHost : WorldOrder where
  rel w w' := w'.effects = w.effects ∧ w'.registry = w.registry
  refl _ := ⟨rfl, rfl⟩
  trans h₁ h₂ := ⟨h₂.1.trans h₁.1, h₂.2.trans h₁.2⟩

namespace World
variable {w w' : World}

theorem keepsHost_post {m : Nat} {env : Envelope} (h : w.post m env = .ok w') :
    keepsHost.rel w w' := by
  unfold post at h
  dsimp only at h
  split at h
  · cases h
  · split at h <;> cases h
    · unfold wake schedule
      split
      · split <;> exact ⟨rfl, rfl⟩
      · exact ⟨rfl, rfl⟩
    · exact ⟨rfl, rfl⟩

theorem keepsHost_postQuiet (w : World) (m : Nat) (env : Envelope) :
    keepsHost.rel w (w.postQuiet m env) := by
  unfold postQuiet
  split
  · exact keepsHost_post ‹_›
  · exact keepsHost.refl w

theorem keepsHost_sendQuiet (w : World) (link : ParentLink) (e : Event) :
    keepsHost.rel w (w.sendQuiet link e) := by
  unfold sendQuiet
  split
  · exact keepsHost_post ‹_›
  · exact keepsHost.refl w

end World

namespace Engine
variable {me : Nat}

theorem keepsHost_update (i : Nat) (f : Session → Session) :
    Keeps World.keepsHost (update i f) := fun _ => ⟨rfl, rfl⟩

theorem keepsHost_post (m : Nat) (env : Envelope) : Keeps World.keepsHost (post m env) := by
  intro w
  rw [eval_post]
  split
  · exact World.keepsHost_post ‹_›
  · exact World.keepsHost.refl w

/-- Routing what content produced leaves the host effects and the registry alone. -/
theorem keepsHost_route (i : Nat) (out : List Outgoing) : Keeps World.keepsHost (route i out) := by
  induction out with
  | nil => exact Keeps.pure _
  | cons o rest ih =>
    cases o with
    | raise e => exact Keeps.bind (keepsHost_update _ _) fun _ => ih
    | send e target =>
      refine Keeps.bind (fun w => ?_) fun r => ?_
      · simp only [eval_observe]
        by_cases ht : target = some "_internal"
        · subst ht
          rw [eval_deliver_internal]
          exact keepsHost_update _ _ w
        · rcases deliver_cases i e ht w with ⟨m, env, h⟩ | ⟨link, h⟩ | ⟨err, h⟩ <;> rw [h]
          · exact keepsHost_post m env w
          · split
            · exact World.keepsHost_post ‹_›
            · exact World.keepsHost.refl w
          · exact World.keepsHost.refl w
      · dsimp only
        split
        · exact ih
        · exact Keeps.bind (keepsHost_update _ _) fun _ => ih

/-- Content that runs to its end on session `me`: what `execute` makes of the session's data bag
for its current event is its data bag, the host effects grow by what it produced, and the session
keeps all else that selection reads. -/
theorem eval_exec_ok {cmds : List Command} {u u' : World} (hm : me < u.sessions.size)
    (h : eval (exec me cmds) u = (.ok (), u')) :
    let r := execute u.registry.hooks (u.session me).config.name (u.session me).event cmds
      (u.session me).data
    r.error = none ∧ (u'.session me).data = r.data ∧ u'.effects = u.effects ++ r.effects.toArray ∧
      u'.registry = u.registry ∧ me < u'.sessions.size ∧
      (u.session me).Agrees { u'.session me with data := (u.session me).data } := by
  unfold exec at h
  split at h
  · rename_i hnil
    cases h
    simp [List.isEmpty_iff.1 hnil, execute, hm, Session.Agrees.refl]
  · simp only [eval_bind, eval_current, runOn, eval_get, eval_set] at h
    generalize hr : execute _ _ _ _ _ = r at h
    -- the content's data bag replaces the session's, then what it produced is routed
    generalize hu₁ : ({ u with effects := u.effects ++ r.effects.toArray }.modifySession me
      fun o => { o with data := r.data }) = u₁ at h
    have hs₁ : u₁.session me = { u.session me with data := r.data } := by
      rw [← hu₁, World.session_modifySession_self _ _ (by simpa using hm)]
      rfl
    have he₁ : u₁.effects = u.effects ++ r.effects.toArray := by
      rw [← hu₁]
      rfl
    have hreg₁ : u₁.registry = u.registry := by
      rw [← hu₁]
      rfl
    have hm₁ : me < u₁.sessions.size := by
      rw [← hu₁]
      simpa using hm
    split at h
    · cases h
    · rename_i herr
      obtain ⟨hm', hst, hdoc, hcfg, hconf, hhist, hdata, hev, hinv⟩ :=
        Keeps.of_eval (keeps_route me _) h hm₁
      have hh := Keeps.of_eval (keepsHost_route me _) h
      rw [hs₁] at hst hdoc hcfg hconf hhist hdata hev hinv
      exact ⟨herr, hdata, hh.1.trans he₁, hh.2.trans hreg₁, hm', hst, hdoc, hcfg, hconf, hhist, rfl,
        hev, hinv⟩

theorem keepsHost_cancelChild (c : ChildHandle) : Keeps World.keepsHost (cancelChild c) := by
  intro w
  rw [eval_cancelChild]
  split
  · exact World.keepsHost_postQuiet _ _ _
  · exact World.keepsHost.refl w

theorem keepsHost_cancelInvokesOf (i : Nat) (doc : Document) (st : Nat) :
    Keeps World.keepsHost (cancelInvokesOf i doc st) := by
  refine Keeps.forM fun n _ => ?_
  split
  · refine Keeps.bind World.keepsHost.refl fun s => ?_
    split
    · exact Keeps.bind (keepsHost_update _ _) fun _ => keepsHost_cancelChild _
    · exact Keeps.pure _
  · exact Keeps.pure _

end Engine

theorem OrderedSet.items_erase {α : Type} [BEq α] [LawfulBEq α] (s : OrderedSet α) (a : α) :
    (s.erase a).items = s.items.erase a := by
  unfold OrderedSet.erase OrderedSet.remove OrderedSet.contains
  split
  · rfl
  · rename_i h
    exact (List.erase_of_not_mem (by simpa using h)).symm

theorem execute_append (hooks : Hooks) (session : String) (e : Event) (cs₁ cs₂ : List Command)
    (d : Data) (h : (execute hooks session e cs₁ d).error = none) :
    execute hooks session e (cs₁ ++ cs₂) d =
      let r₁ := execute hooks session e cs₁ d
      let r₂ := execute hooks session e cs₂ r₁.data
      { r₂ with outbox := r₁.outbox ++ r₂.outbox, effects := r₁.effects ++ r₂.effects } := by
  induction cs₁ generalizing d with
  | nil => simp [execute]
  | cons c cs ih =>
    simp only [List.cons_append, execute] at h ⊢
    split
    · rename_i d' out eff hstep
      rw [hstep] at h
      dsimp only at h ⊢
      rw [ih d' h]
      simp
    · rename_i err hstep
      rw [hstep] at h
      cases h

/-- The exit content of `states`, in order, run as one on the session's data bag for its current
event. -/
def Session.exitRun (s : Session) (hooks : Hooks) (states : List Nat) : Run :=
  execute hooks s.config.name s.event (states.flatMap fun st => (s.doc.state st).onExit) s.data

theorem Session.exitRun_nil (s : Session) (hooks : Hooks) :
    s.exitRun hooks [] = { data := s.data } := rfl

theorem Session.exitRun_concat (s : Session) (hooks : Hooks) (pre : List Nat) (st : Nat)
    (h : (s.exitRun hooks pre).error = none) :
    let r := execute hooks s.config.name s.event (s.doc.state st).onExit (s.exitRun hooks pre).data
    (s.exitRun hooks (pre ++ [st])).error = r.error ∧
      (s.exitRun hooks (pre ++ [st])).data = r.data ∧
      (s.exitRun hooks (pre ++ [st])).effects = (s.exitRun hooks pre).effects ++ r.effects := by
  unfold exitRun at h ⊢
  rw [List.flatMap_append, List.flatMap_singleton, execute_append _ _ _ _ _ _ h]
  exact ⟨rfl, rfl, rfl⟩

namespace Engine
variable {me : Nat}

/-- Session `me`, torn down from `w₀`, has exited the states `pre`, in order: their exit content
ran as one run on its data bag, they left the configuration, and their invocations were cancelled,
while what content runs with stayed. -/
structure Exited (me : Nat) (w₀ : World) (pre : List Nat) (u : World) : Prop where
  size : me < u.sessions.size
  registry : u.registry = w₀.registry
  config : (u.session me).config = (w₀.session me).config
  event : (u.session me).event = (w₀.session me).event
  active : (u.session me).configuration.items = (w₀.session me).configuration.items.filter (· ∉ pre)
  ran : ((w₀.session me).exitRun w₀.registry.hooks pre).error = none
  data : (u.session me).data = ((w₀.session me).exitRun w₀.registry.hooks pre).data
  effects : u.effects = w₀.effects ++ ((w₀.session me).exitRun w₀.registry.hooks pre).effects.toArray
  drops : (World.drops me).rel w₀ u

theorem Exited.start {w₀ : World} (hm : me < w₀.sessions.size) : Exited me w₀ [] w₀ :=
  ⟨hm, rfl, rfl, rfl, by simp, rfl, rfl, by simp [Session.exitRun_nil], (World.drops me).refl w₀⟩

/-- One exit of a teardown: the state's exit content runs, its invocations are cancelled, and it
leaves the configuration. -/
theorem Exited.step {w₀ u u' : World} {pre : List Nat} {st : Nat} {done d' : Option Json.Value}
    (hx : Exited me w₀ pre u) (hnd : (w₀.session me).configuration.items.Nodup)
    (h : eval (exitOne me (w₀.session me) done st) u = (.ok d', u')) :
    Exited me w₀ (pre ++ [st]) u' := by
  unfold exitOne at h
  obtain ⟨_, u₁, h₁, h⟩ := eval_bind_ok h
  obtain ⟨_, u₂, h₂, h⟩ := eval_bind_ok h
  obtain ⟨_, u₃, h₃, h⟩ := eval_bind_ok h
  cases h
  rw [eval_update] at h₃
  cases h₃
  -- the exit content
  obtain ⟨hran, hdata₁, heff₁, hreg₁, hm₁, -, -, hcfg₁, hconf₁, -, -, hev₁, -⟩ := eval_exec_ok hx.size h₁
  have hc₁ : (u₁.session me).configuration = (u.session me).configuration := hconf₁
  have hg₁ : (u₁.session me).config = (u.session me).config := hcfg₁
  have he₁ : (u₁.session me).event = (u.session me).event := hev₁
  rw [hx.registry, hx.config, hx.event, hx.data] at hran hdata₁ heff₁
  obtain ⟨hran', hdata', heff'⟩ := (w₀.session me).exitRun_concat w₀.registry.hooks pre st hx.ran
  -- the invocations cancelled
  obtain ⟨hm₂, -, -, hg₂, hc₂, -, hdata₂, he₂, -⟩ := Keeps.of_eval (keeps_cancelInvokesOf me _ _) h₂ hm₁
  obtain ⟨heff₂, hreg₂⟩ := Keeps.of_eval (keepsHost_cancelInvokesOf me _ _) h₂
  have hs₃ := World.session_modifySession_self u₂
    (fun s => { s with configuration := s.configuration.erase st }) hm₂
  refine ⟨by simpa using hm₂, hreg₂.trans (hreg₁.trans hx.registry), ?_, ?_, ?_, ?_, ?_, ?_, ?_⟩
  · rw [hs₃]
    exact hg₂.trans (hg₁.trans hx.config)
  · rw [hs₃]
    exact he₂.trans (he₁.trans hx.event)
  · -- erasing from a list without repetitions takes out every copy
    rw [hs₃]
    simp only [OrderedSet.items_erase, hc₂, hc₁, hx.active]
    rw [(hnd.filter _).erase_eq_filter, List.filter_filter]
    congr 1
    funext x
    by_cases hx : x = st <;> simp [hx]
  · rw [hran']
    exact hran
  · rw [hs₃, hdata']
    exact hdata₂.trans hdata₁
  · change u₂.effects = _
    rw [heff', heff₂, heff₁, hx.effects]
    simp
  · refine (World.drops me).trans hx.drops ((World.drops me).trans
      (Keeps.of_eval (drops_exec me _) h₁) ((World.drops me).trans
        (Keeps.of_eval (drops_cancelInvokesOf _ _) h₂) ?_))
    exact Keeps.of_eval (drops_update (f := fun s => { s with configuration := s.configuration.erase st })
      me fun _ => rfl) (eval_update me _ u₂)

/-- The exits of a teardown, state after state. -/
theorem Exited.run {w₀ : World} (hnd : (w₀.session me).configuration.items.Nodup) :
    ∀ (rest : List Nat) {pre : List Nat} {done d' : Option Json.Value} {u u' : World},
      Exited me w₀ pre u →
      eval (rest.foldlM (exitOne me (w₀.session me)) done) u = (.ok d', u') →
      Exited me w₀ (pre ++ rest) u'
  | [], pre, done, d', u, u', hx, h => by
    cases h
    simpa using hx
  | st :: rest, pre, done, d', u, u', hx, h => by
    obtain ⟨d₁, u₁, h₁, h⟩ := eval_bind_ok h
    have := Exited.run hnd rest (hx.step hnd h₁) h
    simpa using this

end Engine

namespace Session

/-- The exit content of the active states, in exit order, run as one on the session's data bag. -/
def exits (s : Session) (hooks : Hooks) : Run :=
  s.exitRun hooks (sortBy s.doc.exitCmp s.configuration.items)

end Session

namespace World

/-- What tearing session `me` down from `w₀`, where it had no done data, left in `w`: no active
state, no queued internal event, no invocation to start and no handle; a data bag and host effects
as if the exit content of the states active in `w₀` had run once, in exit order, as one run that
succeeded; one `Cancel` for each handle of `w₀` still running, and no other; the same status; the
done data of the top-level final state that was active, if any; and through the link, what exit
content sent, then `done.invoke` with that done data if there is some. -/
structure TornDown (me : Nat) (w₀ w : World) : Prop where
  size : me < w.sessions.size
  configuration : (w.session me).configuration.items = []
  internal : (w.session me).internal = []
  toInvoke : (w.session me).toInvoke.items = []
  children : (w.session me).children = []
  ran : ((w₀.session me).exits w₀.registry.hooks).error = none
  data : (w.session me).data = ((w₀.session me).exits w₀.registry.hooks).data
  effects : w.effects = w₀.effects ++ ((w₀.session me).exits w₀.registry.hooks).effects.toArray
  cancels : Cancelled w₀ w (w₀.session me).children
  status : (w.session me).status = (w₀.session me).status
  doneData : (w.session me).doneData = (w₀.session me).finalData
  link : ∀ link, (w₀.session me).parent = some link → w₀.LinkApart me →
    ∃ P, (w₀.session me).Sent P ∧ Reports me link w₀ w
      (P ++ w₀.delivered link ((w₀.session me).finalData.map (Event.doneInvoke link.invokeId)).toList)

end World

namespace Engine
variable {me : Nat}

/-- Closing down changes session `me` only in how it is driven, its queues, handles and done data,
and what it published; of the world it changes only the mailboxes of the handles still running,
each of which gets one `Cancel`. -/
theorem eval_closeDown {w w' : World} {parent : Option ParentLink} {done : Option Json.Value}
    (hm : me < w.sessions.size) (h : eval (closeDown me parent done) w = (.ok (), w')) :
    (∃ d, w'.session me = { w.session me with
      drive := d, children := [], toInvoke := {}, internal := [],
      doneData := done.or (w.session me).doneData, published := (w.session me).activeNames,
      version := (w.session me).version + 1 }) ∧
    World.Cancelled w w' (w.session me).children ∧ w'.effects = w.effects := by
  unfold closeDown at h
  rw [eval_bind, eval_current] at h
  -- the handles still running are cancelled, then dropped with the queues
  obtain ⟨_, w₁, h₁, h⟩ := eval_bind_ok h
  have hm₁ : me < w₁.sessions.size :=
    (Keeps.of_eval (Keeps.forM (R := World.keeps me) fun c _ => keeps_cancelChild c.2) h₁ hm).1
  have heff₁ : w₁.effects = w.effects :=
    (Keeps.of_eval (Keeps.forM (R := World.keepsHost) fun c _ => keepsHost_cancelChild c.2) h₁).1
  rw [eval_cancelAll] at h₁
  have hw₁ := (Prod.mk.inj h₁).2
  have hca : World.Cancelled w w₁ (w.session me).children := hw₁ ▸ World.Cancelled.cancelAll _ w
  have hsa : w₁.session me = { w.session me with drive := (w₁.session me).drive } := by
    rw [← hw₁]
    exact session_cancelAll _ w me
  obtain ⟨_, w₂, h₂, h⟩ := eval_bind_ok h
  rw [eval_update] at h₂
  cases h₂
  have hm₂ : me < (w₁.modifySession me fun s =>
      { s with children := [], toInvoke := {}, internal := [] }).sessions.size := by simpa using hm₁
  -- then the done data is kept and sent, and the configuration published
  cases done with
  | none =>
    simp only [publish, eval_update] at h
    cases h
    refine ⟨⟨(w₁.session me).drive, ?_⟩, by simpa using hca.trans ((World.Cancelled.modifySession _ me _).trans
      (World.Cancelled.modifySession _ me _)), heff₁⟩
    rw [World.session_modifySession_self _ _ hm₂, World.session_modifySession_self _ _ hm₁, hsa]
    rfl
  | some data =>
    cases parent with
    | none =>
      simp only [publish, eval_bind, eval_update] at h
      cases h
      refine ⟨⟨(w₁.session me).drive, ?_⟩, by simpa using hca.trans ((World.Cancelled.modifySession _ me _).trans
        ((World.Cancelled.modifySession _ me _).trans (World.Cancelled.modifySession _ me _))), heff₁⟩
      rw [World.session_modifySession_self _ _ (by simpa using hm₂), World.session_modifySession_self _ _ hm₂,
        World.session_modifySession_self _ _ hm₁, hsa]
      rfl
    | some link =>
      simp only [publish, eval_bind, eval_modify, eval_update] at h
      cases h
      have hm₃ : me < ((w₁.modifySession me fun s =>
          { s with children := [], toInvoke := {}, internal := [] }).sendQuiet link
            (Event.doneInvoke link.invokeId data)).sessions.size := by
        rw [World.sessions_size_sendQuiet]
        exact hm₂
      refine ⟨⟨?_, ?_⟩, ?_, ((World.keepsHost_sendQuiet _ _ _).1).trans heff₁⟩
      -- sending wakes the link's reader, which may change how this session is driven
      on_goal 2 =>
        rw [World.session_modifySession_self _ _ (by simpa using hm₃), World.session_modifySession_self _ _ hm₃,
          World.session_sendQuiet, World.session_modifySession_self _ _ hm₁, hsa]
        rfl
      simpa using hca.trans ((World.Cancelled.modifySession _ me _).trans
        ((World.Cancelled.sendQuiet _ link _).trans ((World.Cancelled.modifySession _ me _).trans
          (World.Cancelled.modifySession _ me _))))

/-- A teardown that succeeds, from a session with its books in order and no done data, tears it
down. -/
theorem eval_teardown_tornDown {w₀ w : World} (hm : me < w₀.sessions.size) (hb : w₀.Books me)
    (hdd : (w₀.session me).doneData = none) (h : eval (teardown me) w₀ = (.ok (), w)) :
    World.TornDown me w₀ w := by
  have hstat := Keeps.of_eval keepsStatus_teardown h hm
  have hlink : ∀ link, (w₀.session me).parent = some link → w₀.LinkApart me → _ :=
    fun link hl ha => (eval_teardown_ok hm ha hl h).2.2
  obtain ⟨u, hf, hc⟩ := eval_teardown_split h
  have hx : Exited me w₀ (sortBy (w₀.session me).doc.exitCmp (w₀.session me).configuration.items) u := by
    simpa using Exited.run hb.1 _ (Exited.start hm) hf
  -- the exits keep the books, so no done data yet
  have hdu : (u.session me).doneData = none := by
    refine ((Keeps.of_eval (Keeps.foldlM (R := World.keepsBooks me) (fun _ st => ?_) _ _) hf hm hb).2.1).trans
      hdd
    exact Keeps.bind (keepsBooks_exec _ _) fun _ => Keeps.bind (keepsBooks_cancelInvokesOf _ _ _) fun _ =>
      Keeps.bind (keepsBooks_update _ fun s => ⟨rfl, fun h => OrderedSet.nodup_erase h st, .refl _⟩)
        fun _ => Keeps.pure _
  obtain ⟨⟨_, hs⟩, hcan, heff⟩ := eval_closeDown hx.size hc
  obtain ⟨C, hC, hperm, -⟩ := hx.drops hb.2.1
  refine ⟨hstat.1, ?_, by rw [hs], by rw [hs], by rw [hs], hx.ran, by rw [hs]; exact hx.data,
    by rw [heff, hx.effects]; rfl, (hC.trans hcan).perm (by simpa using hperm), hstat.2,
    by rw [hs, hdu, Option.or_none], hlink⟩
  -- every active state exited
  rw [hs]
  change (u.session me).configuration.items = []
  rw [hx.active]
  exact List.filter_eq_nil_iff.2 fun x hx' => by simp [mem_sortBy, hx']

end Engine
end Hsm
