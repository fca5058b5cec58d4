import Hsm.Proofs.Launch
/-!
# A running session's handles follow its configuration

Between two host calls on a running session no state waits for its invocations to start and every
handle belongs to an invocation of an active state (`World.Settled`, `SessionCall.settled_run`).
Inside a step the session owns its handles (`World.Owns`), and invocations start in one place
only, from a stable configuration.
-/

namespace Hsm

theorem Session.mem_dueInvokes {s : Session} {node : InvokeNode Document} :
    node ∈ s.dueInvokes ↔ ∃ st ∈ s.toInvoke.items, s.doc.InvokeOf st node := by
  simp only [Session.dueInvokes, List.mem_flatMap, mem_sortBy, List.mem_filterMap, Document.InvokeOf]

theorem Session.status_ne_idle_of_isRunning {s : Session} (h : s.isRunning = true) : s.status ≠ .idle := by
  simp only [Session.isRunning, beq_iff_eq] at h
  simp [h]

namespace World
variable {me : Nat} {w w' : World}

/-- Session `me` owns its handles: its books are in order, the states waiting for their invocations
to start are active and listed once, every handle is kept under the id of an invocation of an
active state, and, when invocations of distinct states have distinct ids, every invocation of an
active state that is not waiting has a handle or cannot start. -/
structure Owns (w : World) (me : Nat) : Prop where
  size : me < w.sessions.size
  books : w.Books me
  waitingOnce : (w.session me).toInvoke.items.Nodup
  waiting : ∀ st ∈ (w.session me).toInvoke.items, st ∈ (w.session me).configuration.items
  owned : ∀ id ∈ (w.session me).handleIds,
    ∃ st ∈ (w.session me).configuration.items, id ∈ (w.session me).doc.invokeIds st
  launched : (w.session me).doc.InvokeIdsDistinct → ∀ st ∈ (w.session me).configuration.items,
    st ∉ (w.session me).toInvoke.items → ∀ node, (w.session me).doc.InvokeOf st node →
      node.id ∈ (w.session me).handleIds ∨ node.launchError w.registry w.runtime ≠ none

theorem Owns.of_keeps (h : w.Owns me) (hh : (keepsHandles me).rel w w') (hb : (keepsBooks me).rel w w') :
    w'.Owns me := by
  obtain ⟨hm', -, hreg, hrt, hdoc, hconf, hinv⟩ := hh.1 h.size
  have hids := Session.handleIds_eq_of_tags (hh.2 h.size)
  refine ⟨hm', (hb h.size h.books).2.2, ?_, ?_, ?_, ?_⟩
  · rw [hinv]
    exact h.waitingOnce
  · rw [hinv, hconf]
    exact h.waiting
  · rw [hids, hconf, hdoc]
    exact h.owned
  · rw [hdoc, hconf, hinv, hids, hreg, hrt]
    exact h.launched

theorem Owns.modifySession (h : w.Owns me) {f : Session → Session}
    (hf : ∀ s, (f s).doc = s.doc ∧ (f s).configuration = s.configuration ∧ (f s).toInvoke = s.toInvoke ∧
      (f s).children = s.children ∧ (f s).doneData = s.doneData) : (w.modifySession me f).Owns me :=
  h.of_keeps (keepsHandles_modifySession w fun s => ⟨⟨(hf s).1, (hf s).2.1, (hf s).2.2.1⟩,
      by rw [(hf s).2.2.2.1]⟩)
    (keepsBooks_modifySession w fun s => ⟨(hf s).2.2.2.2, by rw [(hf s).2.1]; exact id,
      by rw [(hf s).2.2.2.1]⟩)

def awake (me : Nat) : WorldOrder where
  rel w w' := (w.session me).status ≠ .idle → (w'.session me).status ≠ .idle
  refl _ := id
  trans h₁ h₂ := h₂ ∘ h₁

theorem awake_of_keepsShape (h : (keepsShape me).rel w w') : (awake me).rel w w' := fun hi => by
  rw [(h (lt_of_status_ne_idle hi)).2.1]
  exact hi

theorem awake_of_keeps (h : (keeps me).rel w w') : (awake me).rel w w' :=
  awake_of_keepsShape (keepsShape_of_keeps h)

/-- Between two calls: while session `me` is not started or runs, it owns its handles and no state
waits for its invocations to start. -/
def Settled (w : World) (me : Nat) : Prop :=
  ((w.session me).status = .idle ∨ (w.session me).isRunning = true) →
    w.Owns me ∧ (w.session me).toInvoke.items = []

theorem Settled.size (h : w.Settled me) : me < w.sessions.size := by
  refine Nat.lt_of_not_le fun hle => ?_
  have := (h (.inl (by rw [session_of_le hle]; rfl))).1.size
  omega

theorem settled_of_stopped (hi : (w.session me).status ≠ .idle) (hr : (w.session me).isRunning = false) :
    w.Settled me := by
  rintro (h | h)
  · exact absurd h hi
  · rw [hr] at h
    cases h

theorem Settled.of_keeps (h : w.Settled me) (hh : (keepsHandles me).rel w w')
    (hb : (keepsBooks me).rel w w') (hs : (keepsStatus me).rel w w') : w'.Settled me := by
  intro hw'
  have hst := (hs h.size).2
  have hinv : (w'.session me).toInvoke = (w.session me).toInvoke := ((hh.1 h.size).2.2.2.2).2.2
  obtain ⟨hO, ht⟩ := h (by simpa only [Session.isRunning, hst] using hw')
  exact ⟨hO.of_keeps hh hb, by rw [hinv]; exact ht⟩

theorem settled_fresh (hm : me < w.sessions.size) (hc : (w.session me).configuration.items = [])
    (hch : (w.session me).children = []) (ht : (w.session me).toInvoke.items = []) : w.Settled me :=
  fun _ => by
    refine ⟨⟨hm, ⟨by simp [hc], by simp [hch], by simp [hch], by simp [hch]⟩, by simp [ht],
      by simp [ht], fun id hid => ?_, fun _ st hst => ?_⟩, ht⟩
    · simp [Session.handleIds, hch] at hid
    · simp [hc] at hst

end World

namespace Engine
variable {α β : Type} {me : Nat}

/-- From a world where session `me` has started and owns its handles, the step, whenever it
succeeds, leaves it so. -/
def Owning (me : Nat) (x : Engine α) : Prop :=
  ∀ w a w', w.Owns me → (w.session me).status ≠ .idle → eval x w = (.ok a, w') →
    w'.Owns me ∧ (w'.session me).status ≠ .idle

namespace Owning

theorem bind {x : Engine α} {f : α → Engine β} (hx : Owning me x) (hf : ∀ a, Owning me (f a)) :
    Owning me (x >>= f) := by
  intro w b w' hO hi h
  obtain ⟨a, w₁, h₁, h₂⟩ := eval_bind_ok h
  obtain ⟨hO₁, hi₁⟩ := hx w a w₁ hO hi h₁
  exact hf a w₁ b w' hO₁ hi₁ h₂

theorem pure (a : α) : Owning me (Pure.pure a : Engine α) := by
  intro w b w' hO hi h
  cases h
  exact ⟨hO, hi⟩

theorem throw (e : SessionError) : Owning me (throw e : Engine α) := by
  intro w b w' _ _ h
  cases h

theorem current_bind {f : Session → Engine β} (h : ∀ s, Owning me (f s)) :
    Owning me (current me >>= f) := by
  intro w b w' hO hi hx
  rw [eval_bind, eval_current] at hx
  exact h _ w b w' hO hi hx

theorem forM {γ : Type} {xs : List γ} {f : γ → Engine PUnit} (h : ∀ a ∈ xs, Owning me (f a)) :
    Owning me (xs.forM f) := by
  induction xs with
  | nil => exact Owning.pure _
  | cons a as ih =>
    rw [forM_cons]
    exact (h a List.mem_cons_self).bind fun _ => ih fun b hb => h b (List.mem_cons_of_mem _ hb)

theorem of_keeps {x : Engine α} (hh : Keeps (World.keepsHandles me) x) (hb : Keeps (World.keepsBooks me) x)
    (ha : Keeps (World.awake me) x) : Owning me x := by
  intro w a w' hO hi h
  exact ⟨hO.of_keeps (Keeps.of_eval hh h) (Keeps.of_eval hb h), Keeps.of_eval ha h hi⟩

theorem of_keeps' {x : Engine α} (hh : Keeps (World.keepsHandles me) x) (hb : Keeps (World.keepsBooks me) x)
    (hk : Keeps (World.keeps me) x) : Owning me x :=
  of_keeps hh hb (hk.mono fun _ _ => World.awake_of_keeps)

end Owning

theorem awake_update (i : Nat) {f : Session → Session}
    (hf : ∀ s : Session, s.status ≠ .idle → (f s).status ≠ .idle) : Keeps (World.awake me) (update i f) := by
  intro w hi
  rw [eval_update, World.session_modifySession _ _ _ (World.lt_of_status_ne_idle hi)]
  split
  · exact hf _ hi
  · exact hi

theorem owning_update {f : Session → Session}
    (hf : ∀ s : Session, s.SameSetting (f s) ∧ (f s).children.map Session.tag = s.children.map Session.tag ∧
      (f s).doneData = s.doneData ∧ (f s).status = s.status) : Owning me (update me f) :=
  Owning.of_keeps (keepsHandles_update me fun s => ⟨(hf s).1, (hf s).2.1⟩)
    (keepsBooks_update me fun s => ⟨(hf s).2.2.1, fun h => by rw [(hf s).1.2.1]; exact h,
      by rw [(hf s).2.1]⟩)
    (awake_update me fun s hi => by rw [(hf s).2.2.2]; exact hi)

theorem owning_exec (cmds : List Command) : Owning me (exec me cmds) :=
  Owning.of_keeps (keepsHandles_exec me cmds) (keepsBooks_exec me cmds)
    ((keepsShape_exec me cmds).mono fun _ _ => World.awake_of_keepsShape)

theorem owning_nextEnabled (q : List Event) : Owning me (nextEnabled me q) :=
  Owning.of_keeps (keepsHandles_nextEnabled me q) (keepsBooks_nextEnabled me q)
    ((keepsShape_nextEnabled me q).mono fun _ _ => World.awake_of_keepsShape)

theorem owning_selectCurrent : Owning me (selectCurrent me) :=
  Owning.of_keeps' (keepsHandles_selectCurrent me) (keepsBooks_selectCurrent me) (fun w => by
    rw [eval_selectCurrent]
    split <;> exact (World.keeps me).refl w)

theorem owning_publish : Owning me (publish me) :=
  Owning.of_keeps' (keepsHandles_publish me) (keepsBooks_publish me) (keeps_publish me)

theorem owning_finalizeAndForward (e : Event) : Owning me (finalizeAndForward me e) :=
  Owning.of_keeps (keepsHandles_finalizeAndForward e) (keepsBooks_finalizeAndForward e)
    ((keepsShape_finalizeAndForward e).mono fun _ _ => World.awake_of_keepsShape)

theorem awake_enterFinal (st : Nat) : Keeps (World.awake me) (enterFinal me st) := by
  unfold enterFinal
  refine Keeps.bind (World.awake me).refl fun s => ?_
  dsimp only
  split
  · exact awake_update me fun _ _ => by simp
  · refine Keeps.mono ?_ fun _ _ => World.awake_of_keeps
    refine Keeps.bind (keeps_raiseInternal _ _) fun _ => ?_
    split
    · refine Keeps.bind (World.keeps me).refl fun _ => ?_
      split
      · exact keeps_raiseInternal _ _
      · exact Keeps.pure _
    · exact Keeps.pure _

theorem owning_enterFinal (st : Nat) : Owning me (enterFinal me st) :=
  Owning.of_keeps (keepsHandles_enterFinal me st) (keepsBooks_enterFinal me st) (awake_enterFinal st)

/-- Exiting states keeps the session owning its handles: the exited states stop waiting and lose
their handles, and with distinct ids no other state's handle goes. -/
theorem owning_exitStates (ts : List Nat) : Owning me (exitStates me ts) := by
  intro w a w' hO hi h
  obtain ⟨hm', hreg, hrt, hdoc, hinv, hact, hch, -⟩ := eval_exitStates_drops hO.size hO.books h
  have hst : (w'.session me).status = (w.session me).status :=
    (Keeps.of_eval (shrinks_exitStates ts) h hO.size).2.1
  have hb := (Keeps.of_eval (keepsBooks_exitStates me ts) h hO.size hO.books).2.2
  have hmemInv : ∀ st, st ∈ (w'.session me).toInvoke.items ↔
      st ∈ (w.session me).toInvoke.items ∧ st ∉ ((w.session me).selector.exitSet ts).items := by
    intro st
    rw [hinv]
    exact OrderedSet.mem_foldl_erase hO.waitingOnce _
  have hmemConf : ∀ st, st ∈ (w'.session me).configuration.items ↔
      st ∈ (w.session me).configuration.items ∧ st ∉ ((w.session me).selector.exitSet ts).items := by
    intro st
    rw [hact, List.mem_filter, decide_eq_true_iff]
  have hids : ∀ id, id ∈ (w'.session me).handleIds ↔
      id ∈ (w.session me).handleIds ∧ id ∉ (w.session me).exitedInvokeIds ts := by
    intro id
    simp only [Session.handleIds, hch, List.mem_map, List.mem_filter, decide_eq_true_iff]
    constructor
    · rintro ⟨p, ⟨hp, hx⟩, rfl⟩
      exact ⟨⟨p, hp, rfl⟩, hx⟩
    · rintro ⟨⟨p, hp, rfl⟩, hx⟩
      exact ⟨p, ⟨hp, hx⟩, rfl⟩
  refine ⟨⟨hm', hb, ?_, fun st hw => ?_, fun id hid => ?_, fun hdist st hc hw node hnode => ?_⟩, by
    rw [hst]; exact hi⟩
  · rw [hinv]
    exact OrderedSet.nodup_foldl_erase hO.waitingOnce _
  · obtain ⟨h₁, h₂⟩ := (hmemInv st).1 hw
    exact (hmemConf st).2 ⟨hO.waiting st h₁, h₂⟩
  · obtain ⟨h₁, h₂⟩ := (hids id).1 hid
    obtain ⟨st, hst', hid'⟩ := hO.owned id h₁
    have hx : st ∉ ((w.session me).selector.exitSet ts).items := fun hx =>
      h₂ (List.mem_flatMap.2 ⟨st, hx, hid'⟩)
    exact ⟨st, (hmemConf st).2 ⟨hst', hx⟩, by rw [hdoc]; exact hid'⟩
  · rw [hdoc] at hdist hnode
    rw [hreg, hrt]
    obtain ⟨hc₀, hx⟩ := (hmemConf st).1 hc
    have hw₀ : st ∉ (w.session me).toInvoke.items := fun h => hw ((hmemInv st).2 ⟨h, hx⟩)
    refine (hO.launched hdist st hc₀ hw₀ node hnode).imp_left fun hid => (hids _).2 ⟨hid, fun hex => ?_⟩
    -- with distinct ids, the handle of `node` belongs to no exited state
    obtain ⟨x, hxX, hxid⟩ := List.mem_flatMap.1 hex
    obtain ⟨n', hn', hid'⟩ := Document.mem_invokeIds.1 hxid
    exact hx (hdist x st n' node hn' hnode hid' ▸ hxX)

/-- Entering a state makes it active and waiting. -/
theorem owning_enter (st : Nat) : Owning me (update me fun s =>
    { s with configuration := s.configuration.add st, toInvoke := s.toInvoke.add st }) := by
  intro w a w' hO hi h
  rw [eval_update] at h
  cases h
  have hb := World.keepsBooks_modifySession w (i := me)
    (f := fun s => { s with configuration := s.configuration.add st, toInvoke := s.toInvoke.add st })
    (fun s => ⟨rfl, fun h => OrderedSet.nodup_add h st, .refl _⟩) hO.size hO.books
  have hs := World.session_modifySession_self w
    (fun s => { s with configuration := s.configuration.add st, toInvoke := s.toInvoke.add st }) hO.size
  refine ⟨⟨by simpa using hO.size, hb.2.2, ?_, fun x hx => ?_, fun id hid => ?_,
    fun hdist x hx hw node hnode => ?_⟩, by rw [hs]; exact hi⟩ <;> rw [hs] at *
  · exact OrderedSet.nodup_add hO.waitingOnce st
  · rcases OrderedSet.mem_add.1 hx with hx | rfl
    · exact OrderedSet.mem_add.2 (.inl (hO.waiting x hx))
    · exact OrderedSet.mem_add.2 (.inr rfl)
  · obtain ⟨x, hx, hid'⟩ := hO.owned id hid
    exact ⟨x, OrderedSet.mem_add.2 (.inl hx), hid'⟩
  · -- a state entered now is waiting, so an active state not waiting was active before
    have hx' : x ≠ st := fun e => hw (OrderedSet.mem_add.2 (.inr e))
    exact hO.launched hdist x ((OrderedSet.mem_add.1 hx).resolve_right hx')
      (fun h => hw (OrderedSet.mem_add.2 (.inl h))) node hnode

theorem owning_enterStates (ts : List Nat) : Owning me (enterStates me ts) := by
  unfold enterStates
  refine Owning.current_bind fun s => Owning.forM fun st _ => ?_
  refine (owning_enter st).bind fun _ => (owning_exec _).bind fun _ => ?_
  dsimp only
  have last : Owning me (if s.doc.isFinal st = true then enterFinal me st else pure () : Engine Unit) := by
    split
    · exact owning_enterFinal st
    · exact Owning.pure _
  split
  on_goal 1 => split
  on_goal 1 => refine (owning_exec _).bind fun _ => ?_
  -- each way through the default entry goes on with the history content
  all_goals
    split
    · exact (owning_exec _).bind fun _ => last
    · exact last

theorem owning_microstep (ts : List Nat) : Owning me (microstep me ts) := by
  unfold microstep
  exact (owning_exitStates ts).bind fun _ => Owning.current_bind fun _ =>
    (Owning.forM fun _ _ => owning_exec _).bind fun _ => owning_enterStates ts

/-- Starting invocations keeps the session owning its handles: each invocation of a waiting state
starts or cannot, and no state waits any more. -/
theorem owning_startInvokes : Owning me (startInvokes me) := by
  intro w a w' hO hi h
  obtain ⟨w'', h', hs⟩ := startInvokes_starts_due hO.size
  rw [h'] at h
  obtain ⟨-, rfl⟩ := Prod.mk.inj h
  have hb := (Keeps.of_eval keepsBooks_startInvokes h' hO.size hO.books).2.2
  have hs₀ : (w.modifySession me fun s => { s with toInvoke := {} }).session me =
      { w.session me with toInvoke := {} } := World.session_modifySession_self _ _ hO.size
  have hdoc : (w''.session me).doc = (w.session me).doc := by rw [hs.session, hs₀]
  have hconf : (w''.session me).configuration = (w.session me).configuration := by rw [hs.session, hs₀]
  have hinv : (w''.session me).toInvoke.items = [] := by rw [hs.session, hs₀]
  have hst : (w''.session me).status = (w.session me).status := by rw [hs.session, hs₀]
  have hids : ∀ id, id ∈ (w''.session me).handleIds ↔ id ∈ (w.session me).handleIds ∨
      ∃ n ∈ (w.session me).dueInvokes, n.id = id ∧ n.launchError w.registry w.runtime = none := by
    intro id
    rw [hs.handles id, hs₀]
    rfl
  refine ⟨⟨hs.size, hb, by rw [hinv]; exact List.nodup_nil, by rw [hinv]; simp, fun id hid => ?_,
    fun hdist st hc _ node hnode => ?_⟩, by rw [hst]; exact hi⟩
  · rw [hconf, hdoc]
    rcases (hids id).1 hid with hid | ⟨n, hn, rfl, -⟩
    · exact hO.owned id hid
    · -- a started invocation belongs to a waiting state, which is active
      obtain ⟨st, hw, hn'⟩ := Session.mem_dueInvokes.1 hn
      exact ⟨st, hO.waiting st hw, Document.mem_invokeIds.2 ⟨n, hn', rfl⟩⟩
  · rw [hdoc] at hdist hnode
    rw [hconf] at hc
    rw [hs.registry, hs.runtime]
    by_cases hw : st ∈ (w.session me).toInvoke.items
    · -- the state was waiting: its invocation has just started, or it cannot start
      have hdue : node ∈ (w.session me).dueInvokes := Session.mem_dueInvokes.2 ⟨st, hw, hnode⟩
      cases herr : node.launchError w.registry w.runtime with
      | none => exact .inl ((hids _).2 (.inr ⟨node, hdue, rfl, herr⟩))
      | some e => exact .inr fun h => by cases herr.symm.trans h
    · exact (hO.launched hdist st hc hw node hnode).imp_left fun hid => (hids _).2 (.inl hid)

theorem owning_drain (limit : Nat) : ∀ left, Owning me (drain me limit left)
  | 0 => by
    unfold drain
    refine Owning.current_bind fun s => ?_
    split
    · exact Owning.pure _
    · refine Owning.current_bind fun s' => (owning_nextEnabled _).bind fun r => ?_
      split
      · exact Owning.pure _
      · exact Owning.throw _
  | left + 1 => by
    unfold drain
    refine Owning.current_bind fun s => ?_
    split
    · exact Owning.pure _
    · refine Owning.current_bind fun s' => (owning_nextEnabled _).bind fun r => ?_
      split
      · exact Owning.pure _
      · exact (owning_microstep _).bind fun _ => owning_drain limit left

theorem owning_rounds (limit : Nat) : ∀ fuel left, Owning me (rounds me limit fuel left)
  | 0, _ => Owning.pure _
  | fuel + 1, left => by
    unfold rounds
    refine (owning_drain limit left).bind fun left' => Owning.current_bind fun s => ?_
    split
    · exact Owning.pure _
    · refine owning_startInvokes.bind fun _ => Owning.current_bind fun s' => ?_
      split
      · exact Owning.pure _
      · exact owning_rounds limit fuel left'

theorem owning_macrostep : Owning me (macrostep me) := by
  unfold macrostep
  refine Owning.current_bind fun s => (owning_rounds _ _ _).bind fun b => ?_
  split
  · exact owning_publish
  · exact Owning.pure _

theorem owning_processExternal (e : Event) : Owning me (processExternal me e) := by
  have last (enabled : OrderedSet Nat) : Owning me
      (if (!enabled.isEmpty) = true then microstep me enabled.items >>= fun _ => macrostep me
        else macrostep me) := by
    split
    · exact (owning_microstep _).bind fun _ => owning_macrostep
    · exact owning_macrostep
  have rest : Owning me (do
      update me fun s => { s with event := e }
      finalizeAndForward me e
      let enabled ← selectCurrent me
      if !enabled.isEmpty then microstep me enabled.items
      macrostep me) := by
    refine (owning_update fun s => ?_).bind fun _ =>
      (owning_finalizeAndForward e).bind fun _ => owning_selectCurrent.bind last
    exact ⟨⟨rfl, rfl, rfl⟩, rfl, rfl, rfl⟩
  unfold processExternal
  split
  · split
    · -- marking an invocation done keeps its id and mailbox
      refine (owning_update fun s => ?_).bind fun _ => rest
      refine ⟨⟨rfl, rfl, rfl⟩, ?_, rfl, rfl⟩
      rw [Session.map_tag_map fun p => by split <;> rfl]
    · exact rest
  · exact rest

theorem owning_enterInitial : Owning me (enterInitial me) := by
  unfold enterInitial
  refine Owning.current_bind fun s => ?_
  split
  · exact (owning_microstep _).bind fun _ => owning_macrostep
  · exact owning_macrostep

/-- Whenever the step succeeds and leaves session `me` running, no state waits for its invocations
to start. -/
def EndsStarted (me : Nat) (x : Engine α) : Prop :=
  ∀ w a w', eval x w = (.ok a, w') → (w'.session me).isRunning = true → (w'.session me).toInvoke.items = []

theorem EndsStarted.bind {x : Engine α} {f : α → Engine β} (hf : ∀ a, EndsStarted me (f a)) :
    EndsStarted me (x >>= f) := by
  intro w b w' h hr
  obtain ⟨a, w₁, -, h₂⟩ := eval_bind_ok h
  exact hf a w₁ b w' h₂ hr

theorem Look.rest_started {w w' : World} (h : Look me w (.rest true w')) :
    (w'.session me).toInvoke.items = [] := by
  generalize ho : LoopStep.rest true w' = o at h
  induction h with
  | stopped => cases ho
  | found => cases ho
  | broken => cases ho
  | settled hr hn hs =>
    cases ho
    obtain ⟨hr₁, -, -, -⟩ := nextEnabled_none hr hn
    obtain ⟨-, -, -, -, -, -, -, -, hinv⟩ := startInvokes_agrees hr₁ hs
    rw [hinv]
  | resumed _ _ ih => exact ih ho

theorem endsStarted_macrostep : EndsStarted me (macrostep me) := by
  intro w a w' h hr
  rw [eval_macrostep] at h
  rcases hrd : eval (rounds me _ _ _) w with ⟨_ | _ | _, w₁⟩ <;> rw [hrd] at h
  · cases h
  · -- the loop rests with the session stopped
    cases h
    obtain ⟨_, -, _, -, hl⟩ := rounds_ok hrd
    rw [hl.rest.1] at hr
    cases hr
  · -- publishing keeps the states to invoke
    obtain ⟨_, -, _, -, hl⟩ := rounds_ok hrd
    obtain ⟨-, -, -, -, -, -, -, -, hinv⟩ :=
      Keeps.of_eval (keeps_publish me) h (World.lt_of_isRunning hl.rest.1)
    rw [hinv]
    exact Look.rest_started hl

theorem endsStarted_processExternal (e : Event) : EndsStarted me (processExternal me e) := by
  have last (enabled : OrderedSet Nat) : EndsStarted me
      (if (!enabled.isEmpty) = true then microstep me enabled.items >>= fun _ => macrostep me
        else macrostep me) := by
    split
    · exact EndsStarted.bind fun _ => endsStarted_macrostep
    · exact endsStarted_macrostep
  unfold processExternal
  dsimp only
  split
  · split
    · exact .bind fun _ => .bind fun _ => .bind fun _ => .bind last
    · exact .bind fun _ => .bind fun _ => .bind last
  · exact .bind fun _ => .bind fun _ => .bind last

theorem endsStarted_enterInitial : EndsStarted me (enterInitial me) := by
  unfold enterInitial
  refine EndsStarted.bind fun s => ?_
  dsimp only
  split
  · exact EndsStarted.bind fun _ => endsStarted_macrostep
  · exact endsStarted_macrostep

/-! ### Draining starts nothing -/

theorem drops_selectEventless : Keeps (World.drops me) (selectEventless me) := fun w => by
  rw [eval_selectEventless]
  split <;> exact (World.drops me).refl w

theorem drops_selectCurrent : Keeps (World.drops me) (selectCurrent me) := fun w => by
  rw [eval_selectCurrent]
  split <;> exact (World.drops me).refl w

theorem drops_nextEnabled (q : List Event) : Keeps (World.drops me) (nextEnabled me q) := by
  induction q with
  | nil =>
    unfold nextEnabled
    refine Keeps.bind (drops_update _ fun _ => rfl) fun _ => Keeps.bind drops_selectEventless fun _ => ?_
    split <;> exact Keeps.pure _
  | cons e rest ih =>
    unfold nextEnabled
    refine Keeps.bind (drops_update _ fun _ => rfl) fun _ => Keeps.bind drops_selectEventless fun _ => ?_
    split
    · exact Keeps.pure _
    · refine Keeps.bind (drops_update _ fun _ => rfl) fun _ => Keeps.bind drops_selectCurrent fun _ => ?_
      split
      · exact Keeps.pure _
      · exact ih

theorem drops_exitStates (ts : List Nat) : Keeps (World.drops me) (exitStates me ts) := by
  unfold exitStates
  refine Keeps.bind (World.drops me).refl fun s => Keeps.bind (drops_update _ fun _ => rfl) fun _ => ?_
  exact Keeps.forM fun st _ => Keeps.bind (drops_exec _ _) fun _ =>
    Keeps.bind (drops_cancelInvokesOf _ _) fun _ => drops_update _ fun _ => rfl

theorem drops_microstep (ts : List Nat) : Keeps (World.drops me) (microstep me ts) := by
  unfold microstep
  exact Keeps.bind (drops_exitStates ts) fun _ => Keeps.bind (World.drops me).refl fun _ =>
    Keeps.bind (Keeps.forM fun _ _ => drops_exec _ _) fun _ =>
      (quiet_enterStates me ts).mono fun _ _ => World.drops_of_quiet

/-- Draining the loop starts no invocation: it only cancels handles and takes them out. -/
theorem drops_drain (limit : Nat) : ∀ left, Keeps (World.drops me) (drain me limit left)
  | 0 => by
    unfold drain
    refine Keeps.bind (World.drops me).refl fun s => ?_
    split
    · exact Keeps.pure _
    · refine Keeps.bind (World.drops me).refl fun s' => Keeps.bind (drops_nextEnabled _) fun r => ?_
      split
      · exact Keeps.pure _
      · exact Keeps.throw _ _
  | left + 1 => by
    unfold drain
    refine Keeps.bind (World.drops me).refl fun s => ?_
    split
    · exact Keeps.pure _
    · refine Keeps.bind (World.drops me).refl fun s' => Keeps.bind (drops_nextEnabled _) fun r => ?_
      split
      · exact Keeps.pure _
      · exact Keeps.bind (drops_microstep _) fun _ => drops_drain limit left

theorem drain_quiescent (limit left : Nat) {w w' : World} {k : Nat}
    (h : eval (drain me limit left) w = (.ok k, w')) (hr : (w'.session me).isRunning = true) :
    (w'.session me).Quiescent := by
  obtain ⟨n, -, w₁, -, hend⟩ := @drain_ends me limit left w
  rcases hend with ⟨hr₁, hd⟩ | ⟨hr₁, hq, -⟩ | ⟨e, -, hd, -⟩
  · -- the session stopped
    rw [hd] at h
    obtain ⟨-, rfl⟩ := Prod.mk.inj h
    rw [hr₁] at hr
    cases hr
  · rw [h] at hq
    exact (nextEnabled_none hr₁ hq).2.2.2
  · simp [h] at hd

/-! ### Host calls keep a session settled -/

theorem settled_fail_throw (err : SessionError) {w : World} (hm : me < w.sessions.size) :
    (eval (fail me err >>= fun e => throw e : Engine Unit) w).2.Settled me := by
  rw [eval_fail_throw]
  exact World.settled_of_stopped (by simp [status_fail err hm]) (stopped_fail err w)

/-- Settling a step that succeeded: a session that runs stays as the step left it, and one that
stopped is torn down, or fails, and stays stopped. -/
theorem settled_settle_ok {w : World} (hO : w.Owns me) (hi : (w.session me).status ≠ .idle)
    (ht : (w.session me).isRunning = true → (w.session me).toInvoke.items = []) :
    (eval (settle me (.ok ())) w).2.Settled me := by
  unfold settle
  rw [eval_bind, eval_current]
  dsimp only
  split
  · rename_i hr
    exact fun _ => ⟨hO, ht (by simpa using hr)⟩
  · rename_i hr
    rw [eval_bind, eval_observe]
    rcases htd : eval (teardown me) w with ⟨_ | _, w₁⟩
    · -- the teardown failed, and so does the session
      exact settled_fail_throw _ (Keeps.of_eval keepsStatus_teardown htd hO.size).1
    · -- the teardown keeps the status of a session that stopped
      have hst := (Keeps.of_eval keepsStatus_teardown htd hO.size).2
      have hs : w₁.Settled me :=
        World.settled_of_stopped (by rw [hst]; exact hi) (by rw [Session.isRunning, hst]; simpa [Session.isRunning] using hr)
      exact hs

/-- Settling a step from a started session that owns its handles, when the step keeps the books
and, whenever it succeeds, keeps it owning them and started, and ends with nothing waiting to
start unless the session stopped. -/
theorem settled_settle_observe {x : Engine Unit} (hx : Owning me x) (he : EndsStarted me x)
    (hb : Keeps (World.keepsBooks me) x) {w : World} (hO : w.Owns me) (hi : (w.session me).status ≠ .idle) :
    (eval (observe x >>= settle me) w).2.Settled me := by
  rw [eval_bind, eval_observe]
  rcases h : eval x w with ⟨_ | ⟨⟩, w₁⟩
  · -- the step failed, and so does the session
    unfold settle
    exact settled_fail_throw _ (Keeps.of_eval hb h hO.size hO.books).1
  · obtain ⟨hO₁, hi₁⟩ := hx w () w₁ hO hi h
    exact settled_settle_ok hO₁ hi₁ (he w () w₁ h)

theorem settled_start (data : Data) {w : World} (h : w.Settled me) : (eval (start me data) w).2.Settled me := by
  unfold start
  rw [eval_bind, eval_current]
  dsimp only
  split
  · exact h
  · rename_i hidle
    obtain ⟨hO, -⟩ := h (.inl (by simpa using hidle))
    rw [eval_bind, eval_update]
    -- the session runs now, owning what it owned
    refine settled_settle_observe owning_enterInitial endsStarted_enterInitial keepsBooks_enterInitial
      (hO.modifySession fun _ => ⟨rfl, rfl, rfl, rfl, rfl⟩) ?_
    simp [World.session_modifySession_self _ _ hO.size]

theorem settled_handle (env : Envelope) {w : World} (h : w.Settled me) :
    (eval (handle me env) w).2.Settled me := by
  unfold handle
  rw [eval_bind, eval_current]
  dsimp only
  split
  · exact h
  · rename_i hr
    have hr' : (w.session me).isRunning = true := by simpa using hr
    obtain ⟨hO, -⟩ := h (.inr hr')
    split
    · -- a stop request cancels the session, which settling tears down
      rw [eval_bind, eval_update]
      refine settled_settle_ok (hO.modifySession fun _ => ⟨rfl, rfl, rfl, rfl, rfl⟩) ?_ fun hr₁ => ?_
      · simp [World.session_modifySession_self _ _ hO.size]
      · simp [World.session_modifySession_self _ _ hO.size, Session.isRunning] at hr₁
    · exact settled_settle_observe (owning_processExternal _) (endsStarted_processExternal _)
        (keepsBooks_processExternal _) hO (Session.status_ne_idle_of_isRunning hr')

theorem settled_runQueued (n : Nat) {w : World} (h : w.Settled me) :
    (eval (runQueued me n) w).2.Settled me := by
  induction n generalizing w with
  | zero => exact h
  | succ n ih =>
    unfold runQueued
    rw [eval_bind, eval_current]
    dsimp only
    split
    · exact h
    · simp only [eval_bind, eval_get, eval_current, eval_set]
      -- taking an envelope leaves every session as it was
      have ht : (w.take (w.session me).mailbox).2.Settled me := by
        refine h.of_keeps (World.keepsHandles_take w _) (World.keepsBooks_take w _) fun hm => ⟨?_, ?_⟩
        · unfold World.take
          split <;> exact hm
        · rw [World.session_take]
      split
      · exact ht
      · rw [eval_bind]
        have hh := settled_handle ‹Envelope› ht
        rcases h' : eval (handle me _) _ with ⟨_ | _, w'⟩ <;> rw [h'] at hh
        · exact hh
        · exact ih hh

theorem settled_post (env : Envelope) {w : World} (h : w.Settled me) :
    (eval (current me >>= fun s => post s.mailbox env) w).2.Settled me := by
  rw [eval_bind, eval_current]
  exact h.of_keeps (World.contentSafe_keepsHandles.keeps_post _ _ w) (keepsBooks_post _ _ w)
    (World.keepsStatus_of_keeps (keeps_post _ _ w))

theorem settled_sendTo (e : Event) (target : String) {w : World} (h : w.Settled me) :
    (eval (sendTo me e target) w).2.Settled me := by
  unfold sendTo
  rw [eval_bind]
  have hd : (eval (deliver me e (some target)) w).2.Settled me :=
    h.of_keeps (World.contentSafe_keepsHandles.keeps_deliver me e _ w) (keepsBooks_deliver me e _ w)
      (World.keepsStatus_of_keeps (keeps_deliver me e _ w))
  rcases hdl : eval (deliver me e (some target)) w with ⟨_ | _, w₁⟩ <;> rw [hdl] at hd
  · exact hd
  · dsimp only
    rw [eval_bind, eval_current]
    dsimp only
    split
    · -- an event raised on the internal queue of a running session is processed at once
      rename_i hrun
      have hr : (w₁.session me).isRunning = true := (Bool.and_eq_true_iff.1 hrun).2
      obtain ⟨hO, -⟩ := hd (.inr hr)
      exact settled_settle_observe owning_macrostep endsStarted_macrostep keepsBooks_macrostep hO
        (Session.status_ne_idle_of_isRunning hr)
    · exact hd

end Engine

namespace SessionCall
open Engine
variable {me : Nat}

/-- Every call keeps a session settled. -/
theorem settled_step (c : SessionCall) {w : World} (h : w.Settled me) : (eval (c.step me) w).2.Settled me := by
  cases c with
  | host c =>
    cases c with
    | start data => exact settled_start data h
    | send e => exact settled_post _ h
    | cancel => exact settled_post _ h
    | runPending =>
      by_cases hidle : (w.session me).status = .idle
      · simpa [step, HostCall.step, runPending, eval_bind, eval_ensureStarted, hidle] using h
      · simp only [step, HostCall.step, runPending, eval_bind, eval_ensureStarted_ok hidle]
        exact settled_runQueued _ h
    | handle env => exact settled_handle env h
    | sendTo e target => exact settled_sendTo e target h
  | processNext env =>
    by_cases hidle : (w.session me).status = .idle
    · simpa [step, Engine.processNext, eval_bind, eval_ensureStarted, hidle] using h
    · simp only [step, Engine.processNext, eval_bind, eval_ensureStarted_ok hidle]
      exact settled_handle env h

theorem settled_run (cs : List SessionCall) {w : World} (h : w.Settled me) : (run me cs w).Settled me := by
  induction cs generalizing w with
  | nil => exact h
  | cons c cs ih => exact ih (c.settled_step h)

/-- A session's handles follow its configuration. From a session holding no state, no handle and
nothing to start, along any run of calls, whenever it runs between two calls: no state waits for
its invocations to start; every id with a status, that is every id the session holds a handle
under, is the id of an invocation of an active state; and when invocations of distinct states have
distinct ids, every invocation of an active state has a handle unless it cannot start.
Invocations start in one place. Draining the loop only cancels and takes out handles, and ends
quiescent while the session runs; starting invocations then forgets the states entered since the
last start and deals with their invocations in entry order, each state's in document order, keeping
a handle for each that starts and queueing `error.execution` with its invoke id for each that
cannot. A microstep cancels and takes out exactly the handles of the invocations of the states it
exits, and tearing the session down cancels and takes out every handle. -/
theorem handles_follow_configuration (me : Nat) (w : World) (hm : me < w.sessions.size)
    (hc : (w.session me).configuration.items = []) (hch : (w.session me).children = [])
    (ht : (w.session me).toInvoke.items = []) :
    (∀ cs : List SessionCall, let w' := run me cs w; let s := w'.session me; s.isRunning = true →
      s.toInvoke.items = [] ∧
      (∀ id, (s.invokeStatus id).isSome → ∃ st ∈ s.configuration.items, id ∈ s.doc.invokeIds st) ∧
      (s.doc.InvokeIdsDistinct → ∀ st ∈ s.configuration.items, ∀ node, s.doc.InvokeOf st node →
        node.id ∈ s.handleIds ∨ node.launchError w'.registry w'.runtime ≠ none)) ∧
    (∀ limit left, Keeps (World.drops me) (drain me limit left)) ∧
    (∀ limit left (u u' : World) (k : Nat), eval (drain me limit left) u = (.ok k, u') →
      (u'.session me).isRunning = true → (u'.session me).Quiescent) ∧
    (∀ u : World, me < u.sessions.size → ∃ u', eval (startInvokes me) u = (.ok (), u') ∧
      Starting me (u.modifySession me fun s => { s with toInvoke := {} }) (u.session me).dueInvokes u') ∧
    (∀ (ts : List Nat) (u u' : World), me < u.sessions.size → u.Books me →
      eval (microstep me ts) u = (.ok (), u') →
      (u'.session me).children =
          (u.session me).children.filter (fun p => p.1 ∉ (u.session me).exitedInvokeIds ts) ∧
        World.Cancelled u u' ((u.session me).children.filter fun p => p.1 ∈ (u.session me).exitedInvokeIds ts)) ∧
    (∀ u u' : World, me < u.sessions.size → u.Books me → (u.session me).doneData = none →
      eval (teardown me) u = (.ok (), u') →
      (u'.session me).children = [] ∧ World.Cancelled u u' (u.session me).children) := by
  refine ⟨fun cs => ?_, drops_drain, fun limit left u u' k h hr => drain_quiescent limit left h hr,
    fun u hu => startInvokes_starts_due hu, fun ts u u' hu hb h => microstep_drops_exited hu hb h,
    fun u u' hu hb hd h => ?_⟩
  · intro w' s hr
    -- a fresh session is settled, and every call keeps it so
    obtain ⟨hO, hinv⟩ := settled_run cs (World.settled_fresh hm hc hch ht) (.inr hr)
    refine ⟨hinv, fun id hid => hO.owned id ?_, fun hdist st hst node hnode =>
      hO.launched hdist st hst (by rw [hinv]; exact List.not_mem_nil) node hnode⟩
    rw [← Session.child?_isSome_iff]
    simpa [Session.invokeStatus] using hid
  · have hT := eval_teardown_tornDown hu hb hd h
    exact ⟨hT.children, hT.cancels⟩

/-- A session not started, on a document whose one state invokes a machine. -/
def invokingSession : World :=
  let doc : Document :=
    ⟨#[{ id := "$root", mode := .compound, order := 0, depth := -1, children := [1], descendants := [1],
          initial := some 0 },
        { id := "a", mode := .atomic, order := 1, depth := 0, parent := some 0, ancestors := [0],
          invokes := [0] }],
      #[{ source := 0, targets := [1], events := [], kind := .external, cond := none, content := [],
          order := 0 }],
      #[{ id := "job", source := .machine ⟨#[], #[], #[]⟩, autoforward := false, finalize := [],
          childData := none, state := 1 }]⟩
  { sessions := #[{ doc, config := { name := "parent" }, mailbox := 0 }], mailboxes := #[{ owner := some 0 }] }

/-- Along any run of calls on `invokingSession`, its handles follow its configuration. -/
theorem invokingSession_handles_follow :
    0 < invokingSession.sessions.size ∧ (invokingSession.session 0).configuration.items = [] ∧
      (invokingSession.session 0).children = [] ∧ (invokingSession.session 0).toInvoke.items = [] ∧
    (∀ cs : List SessionCall, let w' := run 0 cs invokingSession; let s := w'.session 0;
      s.isRunning = true →
      s.toInvoke.items = [] ∧
      (∀ id, (s.invokeStatus id).isSome → ∃ st ∈ s.configuration.items, id ∈ s.doc.invokeIds st) ∧
      (s.doc.InvokeIdsDistinct → ∀ st ∈ s.configuration.items, ∀ node, s.doc.InvokeOf st node →
        node.id ∈ s.handleIds ∨ node.launchError w'.registry w'.runtime ≠ none)) ∧
    (∀ limit left, Keeps (World.drops 0) (drain 0 limit left)) ∧
    (∀ limit left (u u' : World) (k : Nat), eval (drain 0 limit left) u = (.ok k, u') →
      (u'.session 0).isRunning = true → (u'.session 0).Quiescent) ∧
    (∀ u : World, 0 < u.sessions.size → ∃ u', eval (startInvokes 0) u = (.ok (), u') ∧
      Starting 0 (u.modifySession 0 fun s => { s with toInvoke := {} }) (u.session 0).dueInvokes u') ∧
    (∀ (ts : List Nat) (u u' : World), 0 < u.sessions.size → u.Books 0 →
      eval (microstep 0 ts) u = (.ok (), u') →
      (u'.session 0).children =
          (u.session 0).children.filter (fun p => p.1 ∉ (u.session 0).exitedInvokeIds ts) ∧
        World.Cancelled u u' ((u.session 0).children.filter fun p => p.1 ∈ (u.session 0).exitedInvokeIds ts)) ∧
    (∀ u u' : World, 0 < u.sessions.size → u.Books 0 → (u.session 0).doneData = none →
      eval (teardown 0) u = (.ok (), u') →
      (u'.session 0).children = [] ∧ World.Cancelled u u' (u.session 0).children) :=
  ⟨by decide, rfl, rfl, rfl, handles_follow_configuration 0 invokingSession (by decide) rfl rfl rfl⟩

end SessionCall

end Hsm
