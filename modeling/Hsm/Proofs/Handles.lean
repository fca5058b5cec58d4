import Hsm.Proofs.Teardown
/-!
# What a session's steps do to its handles

Only three steps touch a session's handles; every other step keeps what deciding on them reads
(`World.keepsHandles`). Exiting states cancels and takes out exactly the handles of the exited
states' invocations (`Engine.eval_exitStates_drops`, `Engine.microstep_drops_exited`).
-/

namespace Hsm

/-- An order that content keeps: running content changes data bags, queues events on internal
queues, adds host effects and posts to mailboxes, and does nothing else to the world. -/
structure WorldOrder.ContentSafe (R : WorldOrder) : Prop where
  data : ∀ (w : World) (i : Nat) (d : Data), R.rel w (w.modifySession i fun o => { o with data := d })
  internal : ∀ (w : World) (i : Nat) (e : Event),
    R.rel w (w.modifySession i fun s => { s with internal := s.internal ++ [e] })
  effects : ∀ (w : World) (es : Array Effect), R.rel w { w with effects := w.effects ++ es }
  post : ∀ {w w' : World} {m : Nat} {env : Envelope}, w.post m env = .ok w' → R.rel w w'

namespace WorldOrder.ContentSafe
open Engine
variable {R : WorldOrder}

theorem keeps_raiseInternal (hR : R.ContentSafe) (i : Nat) (e : Event) : Keeps R (raiseInternal i e) :=
  fun w => hR.internal w i e

theorem keeps_post (hR : R.ContentSafe) (m : Nat) (env : Envelope) : Keeps R (Engine.post m env) := by
  intro w
  rw [eval_post]
  split
  · exact hR.post ‹_›
  · exact R.refl w

theorem keeps_deliver (hR : R.ContentSafe) (i : Nat) (e : Event) (target : Option String) :
    Keeps R (deliver i e target) := by
  intro w
  by_cases ht : target = some "_internal"
  · subst ht
    rw [eval_deliver_internal]
    exact hR.keeps_raiseInternal _ _ w
  · rcases deliver_cases i e ht w with ⟨m, env, h⟩ | ⟨link, h⟩ | ⟨err, h⟩ <;> rw [h]
    · exact hR.keeps_post m env w
    · split
      · exact hR.post ‹_›
      · exact R.refl w
    · exact R.refl w

theorem keeps_route (hR : R.ContentSafe) (i : Nat) : ∀ out, Keeps R (route i out)
  | [] => Keeps.pure _
  | .raise e :: rest => Keeps.bind (hR.keeps_raiseInternal _ _) fun _ => hR.keeps_route i rest
  | .send e target :: rest => by
    refine Keeps.bind (fun w => by simpa using hR.keeps_deliver i e target w) fun r => ?_
    dsimp only
    split
    · exact hR.keeps_route i rest
    · exact Keeps.bind (hR.keeps_raiseInternal _ _) fun _ => hR.keeps_route i rest

theorem keeps_runOn (hR : R.ContentSafe) (i owner : Nat) (e : Event) (cmds : List Command) :
    Keeps R (runOn i owner e cmds) := by
  unfold runOn
  refine Keeps.get_bind fun w => ?_
  simp only [eval_bind, eval_set]
  generalize execute _ _ _ _ _ = r
  -- the effects grow, then the owner's data bag is replaced, then what content produced is routed
  refine R.trans (R.trans (hR.effects w r.effects.toArray) (hR.data _ owner r.data)) ?_
  split
  · exact R.refl _
  · exact hR.keeps_route _ _ _

theorem keeps_exec (hR : R.ContentSafe) (i : Nat) (cmds : List Command) : Keeps R (exec i cmds) := by
  unfold exec
  split
  · exact Keeps.pure _
  · exact Keeps.bind R.refl fun _ => hR.keeps_runOn _ _ _ _

end WorldOrder.ContentSafe

namespace Session

/-- Two sessions with one document, one configuration and one set of states to invoke. -/
def SameSetting (s s' : Session) : Prop :=
  s'.doc = s.doc ∧ s'.configuration = s.configuration ∧ s'.toInvoke = s.toInvoke

theorem SameSetting.refl (s : Session) : s.SameSetting s := ⟨rfl, rfl, rfl⟩

theorem SameSetting.trans {s t u : Session} (h₁ : s.SameSetting t) (h₂ : t.SameSetting u) :
    s.SameSetting u :=
  ⟨h₂.1.trans h₁.1, h₂.2.1.trans h₁.2.1, h₂.2.2.trans h₁.2.2⟩

def handleIds (s : Session) : List String := s.children.map (·.1)

theorem child?_isSome_iff (s : Session) (id : String) : (s.child? id).isSome ↔ id ∈ s.handleIds := by
  simp only [child?, handleIds, List.lookup_isSome_iff, List.mem_map, beq_iff_eq]
  constructor
  · rintro ⟨p, hp, h⟩
    exact ⟨p, hp, h.symm⟩
  · rintro ⟨p, hp, h⟩
    exact ⟨p, hp, h.symm⟩

theorem handleIds_eq_of_tags {s s' : Session} (h : s'.children.map tag = s.children.map tag) :
    s'.handleIds = s.handleIds := by
  have := congrArg (List.map Prod.fst) h
  simpa [handleIds, tag, List.map_map, Function.comp_def] using this

end Session

namespace World

/-- Session `me` stays in place with its setting (`Session.SameSetting`), no mailbox goes away, and
the registry and whether a runtime can start child sessions stay. -/
def keepsSetting (me : Nat) : WorldOrder where
  rel w w' := me < w.sessions.size → me < w'.sessions.size ∧ w.mailboxes.size ≤ w'.mailboxes.size ∧
    w'.registry = w.registry ∧ w'.runtime = w.runtime ∧ (w.session me).SameSetting (w'.session me)
  refl _ h := ⟨h, Nat.le_refl _, rfl, rfl, Session.SameSetting.refl _⟩
  trans h₁ h₂ h := by
    obtain ⟨h₁', m₁, r₁, t₁, s₁⟩ := h₁ h
    obtain ⟨h₂', m₂, r₂, t₂, s₂⟩ := h₂ h₁'
    exact ⟨h₂', Nat.le_trans m₁ m₂, r₂.trans r₁, t₂.trans t₁, s₁.trans s₂⟩

/-- Session `me` keeps its setting and its handles: their ids and the mailboxes they read. -/
def keepsHandles (me : Nat) : WorldOrder where
  rel w w' := (keepsSetting me).rel w w' ∧
    (me < w.sessions.size → (w'.session me).children.map Session.tag = (w.session me).children.map Session.tag)
  refl w := ⟨(keepsSetting me).refl w, fun _ => rfl⟩
  trans h₁ h₂ := ⟨(keepsSetting me).trans h₁.1 h₂.1, fun h => (h₂.2 (h₁.1 h).1).trans (h₁.2 h)⟩

variable {me m : Nat} {w w' : World}

theorem keepsHandles_modifySession (w : World) {i : Nat} {f : Session → Session}
    (hf : ∀ s, s.SameSetting (f s) ∧ (f s).children.map Session.tag = s.children.map Session.tag) :
    (keepsHandles me).rel w (w.modifySession i f) := by
  refine ⟨fun h => ⟨by simpa using h, Nat.le_refl _, rfl, rfl, ?_⟩, fun h => ?_⟩
  · rw [session_modifySession _ _ _ h]
    split
    · exact (hf _).1
    · exact Session.SameSetting.refl _
  · rw [session_modifySession _ _ _ h]
    split
    · exact (hf _).2
    · rfl

theorem keepsSetting_modifySession (w : World) {i : Nat} {f : Session → Session}
    (hf : ∀ s : Session, s.SameSetting (f s)) : (keepsSetting me).rel w (w.modifySession i f) := fun h => by
  refine ⟨by simpa using h, Nat.le_refl _, rfl, rfl, ?_⟩
  rw [session_modifySession _ _ _ h]
  split
  · exact hf _
  · exact Session.SameSetting.refl _

theorem keepsHandles_of_session (hsz : w.sessions.size ≤ w'.sessions.size)
    (hmb : w.mailboxes.size ≤ w'.mailboxes.size) (hreg : w'.registry = w.registry)
    (hrt : w'.runtime = w.runtime) (hs : me < w.sessions.size → w'.session me =
      { w.session me with drive := (w'.session me).drive }) : (keepsHandles me).rel w w' := by
  refine ⟨fun h => ⟨Nat.lt_of_lt_of_le h hsz, hmb, hreg, hrt, ?_⟩, fun h => ?_⟩
  · rw [hs h]
    exact Session.SameSetting.refl _
  · rw [hs h]

theorem setup_post {env : Envelope} (h : w.post m env = .ok w') :
    w'.registry = w.registry ∧ w'.runtime = w.runtime := by
  unfold post at h
  dsimp only at h
  split at h
  · cases h
  · split at h <;> cases h
    · unfold wake schedule
      split
      · split <;> exact ⟨rfl, rfl⟩
      · exact ⟨rfl, rfl⟩
    · exact ⟨rfl, rfl⟩

theorem keepsHandles_post {env : Envelope} (h : w.post m env = .ok w') : (keepsHandles me).rel w w' := by
  obtain ⟨-, hmb, hsize, hses⟩ := post_ok h
  exact keepsHandles_of_session (Nat.le_of_eq hsize.symm) (by simp [hmb]) (setup_post h).1
    (setup_post h).2 fun _ => hses me

theorem keepsHandles_postQuiet (w : World) (m : Nat) (env : Envelope) :
    (keepsHandles me).rel w (w.postQuiet m env) := by
  unfold postQuiet
  split
  · exact keepsHandles_post ‹_›
  · exact (keepsHandles me).refl w

theorem keepsHandles_take (w : World) (m : Nat) : (keepsHandles me).rel w (w.take m).2 := by
  refine keepsHandles_of_session ?_ ?_ ?_ ?_ fun _ => by rw [session_take]
  all_goals unfold take; split
  all_goals simp

theorem contentSafe_keepsHandles : (keepsHandles me).ContentSafe where
  data w _ _ := keepsHandles_modifySession w fun _ => ⟨Session.SameSetting.refl _, rfl⟩
  internal w _ _ := keepsHandles_modifySession w fun _ => ⟨Session.SameSetting.refl _, rfl⟩
  effects _ _ := keepsHandles_of_session (Nat.le_refl _) (Nat.le_refl _) rfl rfl fun _ => rfl
  post h := keepsHandles_post h

end World

namespace Engine
variable {me : Nat}

theorem keepsHandles_update (i : Nat) {f : Session → Session}
    (hf : ∀ s, s.SameSetting (f s) ∧ (f s).children.map Session.tag = s.children.map Session.tag) :
    Keeps (World.keepsHandles me) (update i f) := fun w => World.keepsHandles_modifySession w hf

theorem keepsHandles_exec (i : Nat) (cmds : List Command) : Keeps (World.keepsHandles me) (exec i cmds) :=
  World.contentSafe_keepsHandles.keeps_exec i cmds

theorem keepsHandles_raiseInternal (i : Nat) (e : Event) : Keeps (World.keepsHandles me) (raiseInternal i e) :=
  World.contentSafe_keepsHandles.keeps_raiseInternal i e

theorem keepsHandles_publish (i : Nat) : Keeps (World.keepsHandles me) (publish i) :=
  keepsHandles_update i fun _ => ⟨Session.SameSetting.refl _, rfl⟩

theorem keepsHandles_cancelChild (c : ChildHandle) : Keeps (World.keepsHandles me) (cancelChild c) := by
  intro w
  rw [eval_cancelChild]
  split
  · exact World.keepsHandles_postQuiet _ _ _
  · exact (World.keepsHandles me).refl w

theorem keepsHandles_selectEventless (i : Nat) : Keeps (World.keepsHandles me) (selectEventless i) := by
  intro w
  rw [eval_selectEventless]
  split <;> exact (World.keepsHandles me).refl w

theorem keepsHandles_selectCurrent (i : Nat) : Keeps (World.keepsHandles me) (selectCurrent i) := by
  intro w
  rw [eval_selectCurrent]
  split <;> exact (World.keepsHandles me).refl w

theorem keepsHandles_nextEnabled (i : Nat) (q : List Event) :
    Keeps (World.keepsHandles me) (nextEnabled i q) := by
  induction q with
  | nil =>
    unfold nextEnabled
    refine Keeps.bind (keepsHandles_update _ fun _ => ⟨Session.SameSetting.refl _, rfl⟩) fun _ => ?_
    refine Keeps.bind (keepsHandles_selectEventless _) fun _ => ?_
    split
    · exact Keeps.pure _
    · exact Keeps.pure _
  | cons e rest ih =>
    unfold nextEnabled
    refine Keeps.bind (keepsHandles_update _ fun _ => ⟨Session.SameSetting.refl _, rfl⟩) fun _ => ?_
    refine Keeps.bind (keepsHandles_selectEventless _) fun _ => ?_
    split
    · exact Keeps.pure _
    · refine Keeps.bind (keepsHandles_update _ fun _ => ⟨Session.SameSetting.refl _, rfl⟩) fun _ => ?_
      refine Keeps.bind (keepsHandles_selectCurrent _) fun _ => ?_
      split
      · exact Keeps.pure _
      · exact ih

theorem keepsHandles_enterFinal (i st : Nat) : Keeps (World.keepsHandles me) (enterFinal i st) := by
  unfold enterFinal
  refine Keeps.bind (World.keepsHandles me).refl fun s => ?_
  dsimp only
  split
  · exact keepsHandles_update _ fun _ => ⟨Session.SameSetting.refl _, rfl⟩
  · refine Keeps.bind (keepsHandles_raiseInternal _ _) fun _ => ?_
    split
    · refine Keeps.bind (World.keepsHandles me).refl fun _ => ?_
      split
      · exact keepsHandles_raiseInternal _ _
      · exact Keeps.pure _
    · exact Keeps.pure _

theorem keepsHandles_autoforward (invokeId : String) (e : Event) :
    Keeps (World.keepsHandles me) (autoforward me invokeId e) := by
  unfold autoforward
  refine Keeps.bind (World.keepsHandles me).refl fun s => ?_
  split
  · split
    · exact fun w => World.keepsHandles_postQuiet w _ _
    · exact Keeps.pure _
  · exact Keeps.pure _

theorem keepsHandles_applyFinalize (node : InvokeNode Document) (e : Event) :
    Keeps (World.keepsHandles me) (applyFinalize me node e) := by
  unfold applyFinalize
  split
  · exact Keeps.pure _
  · refine Keeps.bind (World.keepsHandles me).refl fun s => ?_
    split
    · exact keepsHandles_raiseInternal _ _
    · exact World.contentSafe_keepsHandles.keeps_runOn _ _ _ _

theorem keepsHandles_finalizeAndForward (e : Event) :
    Keeps (World.keepsHandles me) (finalizeAndForward me e) := by
  unfold finalizeAndForward
  refine Keeps.bind (World.keepsHandles me).refl fun s => Keeps.forM fun st _ => Keeps.forM fun n _ => ?_
  split
  · rename_i node _
    have forward : Keeps (World.keepsHandles me)
        (if node.autoforward = true then autoforward me node.id e else pure ()) := by
      split
      · exact keepsHandles_autoforward _ _
      · exact Keeps.pure _
    dsimp only
    split
    · exact Keeps.bind (keepsHandles_applyFinalize _ _) fun _ => forward
    · exact forward
  · exact Keeps.pure _

end Engine

namespace Document

def InvokeOf (d : Document) (st : Nat) (node : InvokeNode Document) : Prop :=
  ∃ i ∈ (d.state st).invokes, d.invoke? i = some node

def invokeIds (d : Document) (st : Nat) : List String :=
  ((d.state st).invokes.filterMap d.invoke?).map (·.id)

theorem mem_invokeIds {d : Document} {st : Nat} {id : String} :
    id ∈ d.invokeIds st ↔ ∃ node, d.InvokeOf st node ∧ node.id = id := by
  simp only [invokeIds, InvokeOf, List.mem_map, List.mem_filterMap]

def InvokeIdsDistinct (d : Document) : Prop :=
  ∀ st₁ st₂ n₁ n₂, d.InvokeOf st₁ n₁ → d.InvokeOf st₂ n₂ → n₁.id = n₂.id → st₁ = st₂

end Document

/-- The ids of the invocations of the states that firing the transitions `ts` from `s` exits. -/
def Session.exitedInvokeIds (s : Session) (ts : List Nat) : List String :=
  (s.selector.exitSet ts).items.flatMap s.doc.invokeIds

/-- A loop that, element by element, extends what it has done by `g a`: from a world where `Q` holds
of what was done before the loop, it ends where `Q` holds of that followed by the whole list. -/
theorem Engine.eval_forM_accumulates {γ δ : Type} {Q : List δ → World → Prop} {f : γ → Engine PUnit}
    (g : γ → List δ) (hf : ∀ a done u u', Q done u → Engine.eval (f a) u = (.ok ⟨⟩, u') → Q (done ++ g a) u') :
    ∀ (xs : List γ) {done : List δ} {u u' : World}, Q done u → Engine.eval (xs.forM f) u = (.ok ⟨⟩, u') →
      Q (done ++ xs.flatMap g) u'
  | [], done, u, u', hq, h => by
    cases h
    simpa using hq
  | a :: xs, done, u, u', hq, h => by
    rw [Engine.forM_cons] at h
    obtain ⟨_, u₁, h₁, h₂⟩ := Engine.eval_bind_ok h
    have := Engine.eval_forM_accumulates g hf xs (hf a done u u₁ hq h₁) h₂
    simpa [List.flatMap_cons, List.append_assoc] using this

namespace Engine
variable {me : Nat}

theorem keepsSetting_cancelInvoke (id : String) : Keeps (World.keepsSetting me) (cancelInvoke me id) := by
  unfold cancelInvoke
  refine Keeps.bind (World.keepsSetting me).refl fun s => ?_
  split
  · exact Keeps.bind (fun w => World.keepsSetting_modifySession w fun _ => Session.SameSetting.refl _)
      fun _ => fun w => ((keepsHandles_cancelChild _) w).1
  · exact Keeps.pure _

theorem eval_cancelInvoke_ok (id : String) (w : World) : (eval (cancelInvoke me id) w).1 = .ok () := by
  unfold cancelInvoke
  rw [eval_bind, eval_current]
  dsimp only
  split
  · rw [eval_bind, eval_update]
    dsimp only
    rw [eval_cancelChild]
  · rfl

/-- Cancelling the invocation of an id takes out every handle of that id. -/
theorem children_cancelInvoke (id : String) {w : World} (hm : me < w.sessions.size) :
    ((eval (cancelInvoke me id) w).2.session me).children =
      (w.session me).children.filter (·.1 != id) := by
  unfold cancelInvoke
  rw [eval_bind, eval_current]
  dsimp only
  split
  · rw [eval_bind, eval_update]
    dsimp only
    rw [eval_cancelChild]
    have hs := World.session_modifySession_self w
      (fun s => { s with children := s.children.filter (·.1 != id) }) hm
    split
    · rw [World.session_postQuiet, hs]
    · rw [hs]
  · rename_i hnone
    -- no handle has the id, so none is taken out
    rw [eval_pure]
    refine (List.filter_eq_self.2 fun p hp => ?_).symm
    rw [bne_comm]
    exact List.lookup_eq_none_iff.1 hnone p hp

theorem keepsSetting_cancelInvokesOf (d : Document) (st : Nat) :
    Keeps (World.keepsSetting me) (cancelInvokesOf me d st) := by
  refine Keeps.forM fun n _ => ?_
  split
  · exact keepsSetting_cancelInvoke _
  · exact Keeps.pure _

/-- Cancelling the invocations of a state takes out every handle of their ids. -/
theorem children_cancelInvokesOf (d : Document) (st : Nat) {w : World} (hm : me < w.sessions.size) :
    ((eval (cancelInvokesOf me d st) w).2.session me).children =
      (w.session me).children.filter fun p => p.1 ∉ d.invokeIds st := by
  unfold cancelInvokesOf Document.invokeIds
  generalize (d.state st).invokes = is
  induction is generalizing w with
  | nil => simp
  | cons i is ih =>
    rw [forM_cons, eval_bind]
    cases hn : d.invoke? i with
    | none =>
      simp only [eval_pure]
      rw [ih hm, List.filterMap_cons_none hn]
    | some node =>
      dsimp only
      rcases hc : eval (cancelInvoke me node.id) w with ⟨r, w₁⟩
      have hr : r = .ok () := by
        have := @eval_cancelInvoke_ok me node.id w
        rw [hc] at this
        exact this
      subst hr
      have hm₁ : me < w₁.sessions.size := (Keeps.of_eval (keepsSetting_cancelInvoke node.id) hc hm).1
      dsimp only
      rw [ih hm₁, show w₁ = (eval (cancelInvoke me node.id) w).2 by rw [hc], children_cancelInvoke _ hm,
        List.filter_filter]
      rw [List.filterMap_cons_some hn]
      refine List.filter_congr fun p _ => Bool.eq_iff_iff.2 ?_
      simp only [Bool.and_eq_true, decide_eq_true_eq, bne_iff_ne, ne_eq, List.map_cons, List.mem_cons,
        not_or]
      exact and_comm

theorem quiet_enterFinal (i st : Nat) : Keeps (World.quiet me) (enterFinal i st) := by
  unfold enterFinal
  refine Keeps.bind (World.quiet me).refl fun s => ?_
  dsimp only
  split
  · exact quiet_update _ fun _ => rfl
  · refine Keeps.bind (quiet_raiseInternal _ _) fun _ => ?_
    split
    · refine Keeps.bind (World.quiet me).refl fun _ => ?_
      split
      · exact quiet_raiseInternal _ _
      · exact Keeps.pure _
    · exact Keeps.pure _

/-- Entering states keeps the handles and cancels nothing. -/
theorem quiet_enterStates (i : Nat) (ts : List Nat) : Keeps (World.quiet me) (enterStates i ts) := by
  unfold enterStates
  refine Keeps.bind (World.quiet me).refl fun s => Keeps.forM fun st _ => ?_
  refine Keeps.bind (quiet_update _ fun _ => rfl) fun _ => Keeps.bind (quiet_exec _ _) fun _ => ?_
  dsimp only
  have last : Keeps (World.quiet me)
      (if s.doc.isFinal st = true then enterFinal i st else pure () : Engine Unit) := by
    split
    · exact quiet_enterFinal _ _
    · exact Keeps.pure _
  split
  on_goal 1 => split
  on_goal 1 => refine Keeps.bind (quiet_exec _ _) fun _ => ?_
  -- each way through the default entry goes on with the history content
  all_goals
    split
    · exact Keeps.bind (quiet_exec _ _) fun _ => last
    · exact last

/-- Session `me`, exiting states of `d` from `w₀`, has exited `pre`: they left the configuration,
the handles of their invocations were cancelled and taken out, and all else that handles are
decided on stayed. -/
structure Exiting (me : Nat) (d : Document) (w₀ : World) (pre : List Nat) (u : World) : Prop where
  size : me < u.sessions.size
  registry : u.registry = w₀.registry
  runtime : u.runtime = w₀.runtime
  doc : (u.session me).doc = (w₀.session me).doc
  toInvoke : (u.session me).toInvoke = (w₀.session me).toInvoke
  active : (u.session me).configuration.items = (w₀.session me).configuration.items.filter (· ∉ pre)
  children : (u.session me).children =
    (w₀.session me).children.filter fun p => p.1 ∉ pre.flatMap d.invokeIds
  drops : (World.drops me).rel w₀ u

theorem Exiting.start {d : Document} {w₀ : World} (hm : me < w₀.sessions.size) : Exiting me d w₀ [] w₀ :=
  ⟨hm, rfl, rfl, rfl, rfl, by simp, by simp, (World.drops me).refl w₀⟩

/-- One exit: the state's exit content runs, its invocations are cancelled, and it leaves the
configuration. -/
theorem Exiting.step {d : Document} {w₀ u u' : World} {pre : List Nat} {st : Nat} {cmds : List Command}
    (hx : Exiting me d w₀ pre u) (hnd : (w₀.session me).configuration.items.Nodup)
    (h : eval (do
        exec me cmds
        cancelInvokesOf me d st
        update me fun s => { s with configuration := s.configuration.erase st } : Engine Unit) u =
      (.ok (), u')) :
    Exiting me d w₀ (pre ++ [st]) u' := by
  obtain ⟨_, u₁, h₁, h⟩ := eval_bind_ok h
  obtain ⟨_, u₂, h₂, h⟩ := eval_bind_ok h
  rw [eval_update] at h
  cases h
  -- the exit content keeps the handles and what they are decided on
  obtain ⟨⟨hm₁, -, hr₁, ht₁, hd₁, hc₁, hi₁⟩, -⟩ :=
    (Keeps.of_eval (@keepsHandles_exec me me cmds) h₁).imp (· hx.size) (· hx.size)
  have hch₁ : (u₁.session me).children = (u.session me).children :=
    (Keeps.of_eval (@quiet_exec me me cmds) h₁).2
  -- the invocations cancelled
  obtain ⟨hm₂, -, hr₂, ht₂, hd₂, hc₂, hi₂⟩ := Keeps.of_eval (keepsSetting_cancelInvokesOf d st) h₂ hm₁
  have hch₂ : (u₂.session me).children = (u₁.session me).children.filter fun p => p.1 ∉ d.invokeIds st := by
    rw [← children_cancelInvokesOf d st hm₁, h₂]
  have hs₃ := World.session_modifySession_self u₂
    (fun s => { s with configuration := s.configuration.erase st }) hm₂
  refine ⟨by simpa using hm₂, hr₂.trans (hr₁.trans hx.registry), ht₂.trans (ht₁.trans hx.runtime), ?_, ?_,
    ?_, ?_, ?_⟩
  · rw [hs₃]
    exact hd₂.trans (hd₁.trans hx.doc)
  · rw [hs₃]
    exact hi₂.trans (hi₁.trans hx.toInvoke)
  · -- erasing from a list without repetitions takes out every copy
    rw [hs₃]
    simp only [OrderedSet.items_erase, hc₂, hc₁, hx.active]
    rw [(hnd.filter _).erase_eq_filter, List.filter_filter]
    refine List.filter_congr fun x _ => ?_
    by_cases hx : x = st <;> simp [hx]
  · rw [hs₃]
    change (u₂.session me).children = _
    rw [hch₂, hch₁, hx.children, List.filter_filter]
    refine List.filter_congr fun p _ => ?_
    simp [List.flatMap_append, and_comm]
  · refine (World.drops me).trans hx.drops ((World.drops me).trans
      (Keeps.of_eval (drops_exec me _) h₁) ((World.drops me).trans
        (Keeps.of_eval (drops_cancelInvokesOf _ _) h₂) ?_))
    exact Keeps.of_eval (drops_update (f := fun s => { s with configuration := s.configuration.erase st })
      me fun _ => rfl) (eval_update me _ u₂)

theorem cancelled_of_drops {w w' : World} {X : List String} (hd : (World.drops me).rel w w')
    (hn : ((w.session me).children.map (·.1)).Nodup)
    (hc : (w'.session me).children = (w.session me).children.filter fun p => p.1 ∉ X) :
    World.Cancelled w w' ((w.session me).children.filter fun p => p.1 ∈ X) := by
  obtain ⟨C, hC, hperm, -⟩ := hd hn
  rw [hc] at hperm
  -- the handles are those taken out followed by those kept, as are `C` and those kept
  have hsplit := List.filter_append_perm (fun p : String × ChildHandle => decide (p.1 ∈ X))
    (w.session me).children
  simp only [decide_not] at hperm
  exact hC.perm ((List.perm_append_right_iff _).1 (hperm.trans hsplit.symm))

/-- Exiting states: the exited states leave the configuration and the states to invoke, the
handles of their invocations are cancelled and taken out, and all else that handles are decided on
stays. -/
theorem eval_exitStates_drops {ts : List Nat} {w w' : World} (hm : me < w.sessions.size) (hb : w.Books me)
    (h : eval (exitStates me ts) w = (.ok (), w')) :
    me < w'.sessions.size ∧ w'.registry = w.registry ∧ w'.runtime = w.runtime ∧
      (w'.session me).doc = (w.session me).doc ∧
      (w'.session me).toInvoke =
        ((w.session me).selector.exitSet ts).items.foldl OrderedSet.erase (w.session me).toInvoke ∧
      (w'.session me).configuration.items =
        (w.session me).configuration.items.filter (· ∉ ((w.session me).selector.exitSet ts).items) ∧
      (w'.session me).children =
        (w.session me).children.filter (fun p => p.1 ∉ (w.session me).exitedInvokeIds ts) ∧
      World.Cancelled w w' ((w.session me).children.filter fun p => p.1 ∈ (w.session me).exitedInvokeIds ts) := by
  unfold exitStates at h
  rw [eval_bind, eval_current] at h
  dsimp only at h
  rw [eval_bind, eval_update] at h
  dsimp only at h
  -- the exits, state after state in exit order, from the world where the states to invoke and
  -- the history were updated
  have hx := eval_forM_accumulates (fun st => [st])
    (fun st pre u u' (hq : Exiting me (w.session me).doc _ pre u) hstep => hq.step (by
      rw [World.session_modifySession_self _ _ hm]
      exact hb.1) hstep) _ (Exiting.start (by simpa using hm)) h
  simp only [List.nil_append, List.flatMap_singleton'] at hx
  obtain ⟨hm', hreg, hrt, hdoc, hinv, hact, hch, hdrops⟩ := hx
  rw [World.session_modifySession_self _ _ hm] at hdoc hinv hact hch
  have hch' : (w'.session me).children =
      (w.session me).children.filter (fun p => p.1 ∉ (w.session me).exitedInvokeIds ts) := by
    rw [hch]
    refine List.filter_congr fun p _ => ?_
    simp only [Session.exitedInvokeIds, List.mem_flatMap, mem_sortBy]
  refine ⟨hm', hreg, hrt, hdoc, hinv, ?_, hch', ?_⟩
  · rw [hact]
    refine List.filter_congr fun x _ => ?_
    simp only [mem_sortBy]
  · have hd : (World.drops me).rel w w' := by
      refine (World.drops me).trans ?_ hdrops
      exact World.drops_of_quiet (World.quiet_modifySession w fun _ => rfl)
    exact cancelled_of_drops hd hb.2.1 hch'

/-- A microstep cancels and takes out exactly the handles of the invocations of the states it
exits, and starts no invocation. -/
theorem microstep_drops_exited {ts : List Nat} {w w' : World} (hm : me < w.sessions.size)
    (hb : w.Books me) (h : eval (microstep me ts) w = (.ok (), w')) :
    (w'.session me).children =
        (w.session me).children.filter (fun p => p.1 ∉ (w.session me).exitedInvokeIds ts) ∧
      World.Cancelled w w' ((w.session me).children.filter fun p => p.1 ∈ (w.session me).exitedInvokeIds ts) := by
  unfold microstep at h
  obtain ⟨_, w₁, h₁, h⟩ := eval_bind_ok h
  obtain ⟨_, w₁', hc, h⟩ := eval_bind_ok h
  rw [eval_current] at hc
  cases hc
  obtain ⟨_, w₂, h₂, h₃⟩ := eval_bind_ok h
  obtain ⟨-, -, -, -, -, -, hch₁, hca₁⟩ := eval_exitStates_drops hm hb h₁
  -- the transitions' content and the entries keep the handles and cancel nothing
  have hq : (World.quiet me).rel w₁ w' := (World.quiet me).trans
    (Keeps.of_eval (Keeps.forM fun t _ => quiet_exec me _) h₂) (Keeps.of_eval (quiet_enterStates me ts) h₃)
  refine ⟨hq.2.trans hch₁, ?_⟩
  simpa using hca₁.trans hq.1

end Engine

end Hsm
