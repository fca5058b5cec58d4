import Hsm.Proofs.Fatal
import Hsm.Proofs.Conflict
/-!
# A session's books

Tearing down relies on `World.Books`: the configuration lists each active state once, and
invocations have distinct ids and distinct mailboxes. Every step of a running session keeps them
(`World.keepsBooks`, `Engine.keepsBooks_macrostep`, ...).
-/

namespace Hsm

/-- What the books read of a handle: the id of its invocation and the mailbox it reads. -/
def Session.tag (c : String × ChildHandle) : String × Nat := (c.1, c.2.mailbox)

/-- A change of a session that keeps its done data, leaves no repetition in its configuration, and
keeps a part of the ids and mailboxes of its invocations. -/
def Session.Tidy (s s' : Session) : Prop :=
  s'.doneData = s.doneData ∧ (s.configuration.items.Nodup → s'.configuration.items.Nodup) ∧
    (s'.children.map Session.tag).Sublist (s.children.map Session.tag)

theorem Session.Tidy.refl (s : Session) : s.Tidy s := ⟨rfl, id, .refl _⟩

theorem Session.map_tag_map {f : String × ChildHandle → String × ChildHandle}
    (hf : ∀ p, Session.tag (f p) = Session.tag p) (l : List (String × ChildHandle)) :
    (l.map f).map Session.tag = l.map Session.tag := by
  rw [List.map_map]
  exact List.map_congr_left fun p _ => hf p

namespace World
variable {me i m : Nat} {w w' : World}

/-- Session `me`'s books are in order: its configuration lists each state once, and its
invocations have distinct ids and read distinct mailboxes, all of which exist. -/
def Books (w : World) (me : Nat) : Prop :=
  (w.session me).configuration.items.Nodup ∧ ((w.session me).children.map (·.1)).Nodup ∧
    ((w.session me).children.map (·.2.mailbox)).Nodup ∧
    ∀ c ∈ (w.session me).children, c.2.mailbox < w.mailboxes.size

/-- Session `me`, with its books in order, stays, keeps its done data, and keeps its books in
order. -/
def keepsBooks (me : Nat) : WorldOrder where
  rel w w' := me < w.sessions.size → w.Books me →
    me < w'.sessions.size ∧ (w'.session me).doneData = (w.session me).doneData ∧ w'.Books me
  refl _ h hb := ⟨h, rfl, hb⟩
  trans h₁ h₂ h hb := by
    obtain ⟨h₁', d₁, b₁⟩ := h₁ h hb
    obtain ⟨h₂', d₂, b₂⟩ := h₂ h₁' b₁
    exact ⟨h₂', d₂.trans d₁, b₂⟩

theorem Books.of_tidy (hb : w.Books me) (ht : (w.session me).Tidy (w'.session me))
    (hmb : w.mailboxes.size ≤ w'.mailboxes.size) : w'.Books me := by
  obtain ⟨hc, hk, hm, hlt⟩ := hb
  obtain ⟨-, hc', hs⟩ := ht
  have hk' := hs.map Prod.fst
  have hm' := hs.map Prod.snd
  simp only [List.map_map, Function.comp_def, Session.tag] at hk' hm'
  refine ⟨hc' hc, hk'.nodup hk, hm'.nodup hm, fun c hc'' => ?_⟩
  obtain ⟨p, hp, hpc⟩ := List.mem_map.1 (hs.subset (List.mem_map_of_mem hc''))
  have hmail : c.2.mailbox = p.2.mailbox := (congrArg Prod.snd hpc).symm
  exact hmail ▸ Nat.lt_of_lt_of_le (hlt p hp) hmb

theorem keepsBooks_of (hsz : w.sessions.size ≤ w'.sessions.size)
    (hmb : w.mailboxes.size ≤ w'.mailboxes.size)
    (hs : me < w.sessions.size → (w.session me).Tidy (w'.session me)) : (keepsBooks me).rel w w' :=
  fun hm hb => ⟨Nat.lt_of_lt_of_le hm hsz, (hs hm).1, hb.of_tidy (hs hm) hmb⟩

theorem keepsBooks_grow (hsz : w.sessions.size ≤ w'.sessions.size)
    (hs : me < w.sessions.size → w'.session me = { w.session me with drive := (w'.session me).drive })
    (hmb : w.mailboxes.size ≤ w'.mailboxes.size) : (keepsBooks me).rel w w' :=
  keepsBooks_of hsz hmb fun hm => by
    rw [hs hm]
    exact Session.Tidy.refl _

theorem keepsBooks_modifySession (w : World) {f : Session → Session}
    (hf : ∀ s : Session, s.Tidy (f s)) : (keepsBooks me).rel w (w.modifySession i f) := by
  refine keepsBooks_of (by simp) (Nat.le_refl _) fun hm => ?_
  rw [session_modifySession _ _ _ hm]
  split
  · exact hf _
  · exact Session.Tidy.refl _

theorem keepsBooks_post {env : Envelope} (h : w.post m env = .ok w') : (keepsBooks me).rel w w' := by
  obtain ⟨-, hmb, hsize, hses⟩ := post_ok h
  exact keepsBooks_grow (Nat.le_of_eq hsize.symm) (fun _ => hses me) (by simp [hmb])

theorem keepsBooks_postQuiet (w : World) (m : Nat) (env : Envelope) :
    (keepsBooks me).rel w (w.postQuiet m env) := by
  unfold postQuiet
  split
  · exact keepsBooks_post ‹_›
  · exact (keepsBooks me).refl w

theorem keepsBooks_sendQuiet (w : World) (link : ParentLink) (e : Event) :
    (keepsBooks me).rel w (w.sendQuiet link e) := by
  unfold sendQuiet
  split
  · exact keepsBooks_post ‹_›
  · exact (keepsBooks me).refl w

theorem keepsBooks_take (w : World) (m : Nat) : (keepsBooks me).rel w (w.take m).2 :=
  keepsBooks_grow (by unfold take; split <;> exact Nat.le_refl _)
    (fun _ => by rw [session_take]) (by unfold take; split <;> simp)

/-- A handle on a new mailbox that replaces the handle of its id keeps the books: the ids stay,
and the one handle of that id now reads a mailbox no other handle reads. -/
theorem Books.replaceHandle (hb : w.Books me) (hm : me < w.sessions.size) (id : String)
    (child : ChildHandle) (hfresh : ∀ c ∈ (w.session me).children, c.2.mailbox < child.mailbox)
    (hlt : child.mailbox < w.mailboxes.size) :
    (w.modifySession me fun s => { s with
      children := s.children.map fun p => if p.1 == id then (id, child) else p }).Books me := by
  obtain ⟨hc, hk, hmb, hall⟩ := hb
  rw [Books, session_modifySession_self _ _ hm]
  have hkeys : ((w.session me).children.map fun p => if p.1 == id then (id, child) else p).map
      (·.1) = (w.session me).children.map (·.1) := by
    rw [List.map_map]
    refine List.map_congr_left fun p _ => ?_
    simp only [Function.comp_apply]
    split
    · rename_i h
      exact (beq_iff_eq.1 h).symm
    · rfl
  refine ⟨hc, hkeys ▸ hk, ?_, fun c hc' => ?_⟩
  · rw [List.map_map]
    refine List.Nodup.map_on (fun x hx y hy hxy => ?_) (List.Nodup.of_map _ hk)
    simp only [Function.comp_apply] at hxy
    split at hxy <;> split at hxy
    · rename_i h₁ h₂
      exact List.inj_on_of_nodup_map hk hx hy ((beq_iff_eq.1 h₁).trans (beq_iff_eq.1 h₂).symm)
    · exact absurd hxy (Nat.ne_of_gt (hfresh y hy))
    · exact absurd hxy (Nat.ne_of_lt (hfresh x hx))
    · exact List.inj_on_of_nodup_map hmb hx hy hxy
  · obtain ⟨p, hp, rfl⟩ := List.mem_map.1 hc'
    split
    · exact hlt
    · exact hall p hp

/-- A handle on a new mailbox added under an id no handle has keeps the books. -/
theorem Books.addHandle (hb : w.Books me) (hm : me < w.sessions.size) {id : String}
    (hnone : (w.session me).child? id = none) (child : ChildHandle)
    (hfresh : ∀ c ∈ (w.session me).children, c.2.mailbox < child.mailbox)
    (hlt : child.mailbox < w.mailboxes.size) :
    (w.modifySession me fun s => { s with children := s.children ++ [(id, child)] }).Books me := by
  obtain ⟨hc, hk, hmb, hall⟩ := hb
  rw [Books, session_modifySession_self _ _ hm]
  simp only [List.map_append, List.map_cons, List.map_nil]
  refine ⟨hc, List.nodup_append.2 ⟨hk, List.nodup_singleton _, ?_⟩,
    List.nodup_append.2 ⟨hmb, List.nodup_singleton _, ?_⟩, fun c hc' => ?_⟩
  · intro a ha b hb hab
    obtain ⟨p, hp, rfl⟩ := List.mem_map.1 ha
    rw [List.mem_singleton.1 hb] at hab
    unfold Session.child? at hnone
    have := List.lookup_eq_none_iff.1 hnone p hp
    simp [hab] at this
  · intro a ha b hb
    rw [List.mem_singleton.1 hb]
    obtain ⟨p, hp, rfl⟩ := List.mem_map.1 ha
    exact Nat.ne_of_lt (hfresh p hp)
  · rcases List.mem_append.1 hc' with hc' | hc'
    · exact hall c hc'
    · rw [List.mem_singleton.1 hc']
      exact hlt

end World

namespace Engine
variable {me : Nat} {α : Type}

theorem keepsBooks_update (i : Nat) {f : Session → Session} (hf : ∀ s : Session, s.Tidy (f s)) :
    Keeps (World.keepsBooks me) (update i f) := fun w => World.keepsBooks_modifySession w hf

theorem keepsBooks_raiseInternal (i : Nat) (e : Event) :
    Keeps (World.keepsBooks me) (raiseInternal i e) :=
  keepsBooks_update i fun s => Session.Tidy.refl s

theorem keepsBooks_publish (i : Nat) : Keeps (World.keepsBooks me) (publish i) :=
  keepsBooks_update i fun s => Session.Tidy.refl s

theorem keepsBooks_post (m : Nat) (env : Envelope) : Keeps (World.keepsBooks me) (post m env) := by
  intro w
  rw [eval_post]
  split
  · exact World.keepsBooks_post ‹_›
  · exact (World.keepsBooks me).refl w

theorem keepsBooks_deliver (i : Nat) (e : Event) (target : Option String) :
    Keeps (World.keepsBooks me) (deliver i e target) := by
  intro w
  unfold deliver
  rw [eval_bind, eval_current]
  dsimp only
  split
  · exact keepsBooks_post _ _ w
  · split
    · exact keepsBooks_post _ _ w
    · split
      · exact keepsBooks_raiseInternal _ _ w
      · split
        · split
          · rw [eval_bind, eval_get]
            dsimp only
            split
            · exact World.keepsBooks_post ‹_›
            · exact (World.keepsBooks me).refl w
          · exact (World.keepsBooks me).refl w
        · split
          · exact keepsBooks_post _ _ w
          · split
            · exact keepsBooks_post _ _ w
            · exact (World.keepsBooks me).refl w

theorem keepsBooks_route (i : Nat) (out : List Outgoing) : Keeps (World.keepsBooks me) (route i out) := by
  induction out with
  | nil => exact Keeps.pure _
  | cons o rest ih =>
    cases o with
    | raise e => exact Keeps.bind (keepsBooks_raiseInternal _ _) fun _ => ih
    | send e target =>
      refine Keeps.bind (fun w => by
        simpa using (keepsBooks_deliver i e target : Keeps (World.keepsBooks me) _) w) fun r => ?_
      dsimp only
      split
      · exact ih
      · exact Keeps.bind (keepsBooks_raiseInternal _ _) fun _ => ih

theorem keepsBooks_runOn (i owner : Nat) (e : Event) (cmds : List Command) :
    Keeps (World.keepsBooks me) (runOn i owner e cmds) := by
  unfold runOn
  refine Keeps.get_bind fun w => ?_
  simp only [eval_bind, eval_set]
  generalize execute _ _ _ _ _ = r
  -- the content's data bag replaces the owner's; the effects outside the sessions grow
  refine (World.keepsBooks me).trans (World.keepsBooks_modifySession (i := owner)
    { w with effects := w.effects ++ r.effects.toArray } (f := fun o => { o with data := r.data })
    fun s => Session.Tidy.refl s) ?_
  split
  · exact (World.keepsBooks me).refl _
  · exact keepsBooks_route _ _ _

theorem keepsBooks_exec (i : Nat) (cmds : List Command) : Keeps (World.keepsBooks me) (exec i cmds) := by
  unfold exec
  split
  · exact Keeps.pure _
  · exact Keeps.bind (World.keepsBooks me).refl fun _ => keepsBooks_runOn _ _ _ _

theorem keepsBooks_cancelChild (c : ChildHandle) : Keeps (World.keepsBooks me) (cancelChild c) := by
  intro w
  rw [eval_cancelChild]
  split
  · exact World.keepsBooks_postQuiet w _ _
  · exact (World.keepsBooks me).refl w

theorem keepsBooks_cancelInvoke (i : Nat) (invokeId : String) :
    Keeps (World.keepsBooks me) (cancelInvoke i invokeId) := by
  unfold cancelInvoke
  refine Keeps.current_bind fun w => ?_
  split
  · -- the handle leaves the session's invocations before it is cancelled
    have h₁ : (World.keepsBooks me).rel w (w.modifySession i fun s =>
        { s with children := s.children.filter (·.1 != invokeId) }) :=
      World.keepsBooks_modifySession w fun s => ⟨rfl, id, List.filter_sublist.map _⟩
    rw [eval_bind, eval_update]
    exact (World.keepsBooks me).trans h₁ (keepsBooks_cancelChild _ _)
  · exact (World.keepsBooks me).refl w

theorem keepsBooks_cancelInvokesOf (i : Nat) (doc : Document) (st : Nat) :
    Keeps (World.keepsBooks me) (cancelInvokesOf i doc st) := by
  unfold cancelInvokesOf
  refine Keeps.forM fun n _ => ?_
  split
  · exact keepsBooks_cancelInvoke _ _
  · exact Keeps.pure _

theorem keepsBooks_exitStates (i : Nat) (ts : List Nat) :
    Keeps (World.keepsBooks me) (exitStates i ts) := by
  unfold exitStates
  refine Keeps.bind (World.keepsBooks me).refl fun s => ?_
  refine Keeps.bind (keepsBooks_update _ fun s => Session.Tidy.refl s) fun _ => ?_
  -- each state leaves the configuration once its exit content ran and its invocations stopped
  exact Keeps.forM fun st _ => Keeps.bind (keepsBooks_exec _ _) fun _ =>
    Keeps.bind (keepsBooks_cancelInvokesOf _ _ _) fun _ =>
      keepsBooks_update _ fun s => ⟨rfl, fun h => OrderedSet.nodup_erase h st, .refl _⟩

theorem keepsBooks_enterFinal (i st : Nat) : Keeps (World.keepsBooks me) (enterFinal i st) := by
  unfold enterFinal
  refine Keeps.bind (World.keepsBooks me).refl fun s => ?_
  dsimp only
  split
  · exact keepsBooks_update _ fun s => Session.Tidy.refl s
  · refine Keeps.bind (keepsBooks_raiseInternal _ _) fun _ => ?_
    split
    · refine Keeps.bind (World.keepsBooks me).refl fun s' => ?_
      split
      · exact keepsBooks_raiseInternal _ _
      · exact Keeps.pure _
    · exact Keeps.pure _

theorem keepsBooks_enterStates (i : Nat) (ts : List Nat) :
    Keeps (World.keepsBooks me) (enterStates i ts) := by
  unfold enterStates
  refine Keeps.bind (World.keepsBooks me).refl fun s => Keeps.forM fun st _ => ?_
  -- a state joins the configuration only if it is not there yet
  refine Keeps.bind (keepsBooks_update _ fun s => ⟨rfl, fun h => OrderedSet.nodup_add h st, .refl _⟩)
    fun _ => Keeps.bind (keepsBooks_exec _ _) fun _ => ?_
  dsimp only
  have last : Keeps (World.keepsBooks me)
      (if s.doc.isFinal st = true then enterFinal i st else pure () : Engine Unit) := by
    split
    · exact keepsBooks_enterFinal _ _
    · exact Keeps.pure _
  split
  on_goal 1 => split
  on_goal 1 => refine Keeps.bind (keepsBooks_exec _ _) fun _ => ?_
  -- each way through the default entry goes on with the history content
  all_goals
    split
    · exact Keeps.bind (keepsBooks_exec _ _) fun _ => last
    · exact last

theorem keepsBooks_microstep (i : Nat) (ts : List Nat) :
    Keeps (World.keepsBooks me) (microstep i ts) := by
  unfold microstep
  exact Keeps.bind (keepsBooks_exitStates _ _) fun _ => Keeps.bind (World.keepsBooks me).refl fun _ =>
    Keeps.bind (Keeps.forM fun _ _ => keepsBooks_exec _ _) fun _ => keepsBooks_enterStates _ _

theorem keepsBooks_selectEventless (i : Nat) : Keeps (World.keepsBooks me) (selectEventless i) := by
  intro w
  rw [eval_selectEventless]
  split <;> exact (World.keepsBooks me).refl w

theorem keepsBooks_selectCurrent (i : Nat) : Keeps (World.keepsBooks me) (selectCurrent i) := by
  intro w
  rw [eval_selectCurrent]
  split <;> exact (World.keepsBooks me).refl w

theorem keepsBooks_nextEnabled (i : Nat) (q : List Event) :
    Keeps (World.keepsBooks me) (nextEnabled i q) := by
  induction q with
  | nil =>
    unfold nextEnabled
    refine Keeps.bind (keepsBooks_update _ fun s => Session.Tidy.refl s) fun _ =>
      Keeps.bind (keepsBooks_selectEventless _) fun r => ?_
    split <;> exact Keeps.pure _
  | cons e rest ih =>
    unfold nextEnabled
    refine Keeps.bind (keepsBooks_update _ fun s => Session.Tidy.refl s) fun _ =>
      Keeps.bind (keepsBooks_selectEventless _) fun r => ?_
    split
    · exact Keeps.pure _
    · refine Keeps.bind (keepsBooks_update _ fun s => Session.Tidy.refl s) fun _ =>
        Keeps.bind (keepsBooks_selectCurrent _) fun r => ?_
      split
      · exact Keeps.pure _
      · exact ih

theorem keepsBooks_drain (i limit left : Nat) : Keeps (World.keepsBooks me) (drain i limit left) := by
  induction left with
  | zero =>
    unfold drain
    refine Keeps.bind (World.keepsBooks me).refl fun s => ?_
    split
    · exact Keeps.pure _
    · refine Keeps.bind (World.keepsBooks me).refl fun s' =>
        Keeps.bind (keepsBooks_nextEnabled _ _) fun r => ?_
      split
      · exact Keeps.pure _
      · exact (World.keepsBooks me).refl
  | succ k ih =>
    unfold drain
    refine Keeps.bind (World.keepsBooks me).refl fun s => ?_
    split
    · exact Keeps.pure _
    · refine Keeps.bind (World.keepsBooks me).refl fun s' =>
        Keeps.bind (keepsBooks_nextEnabled _ _) fun r => ?_
      split
      · exact Keeps.pure _
      · exact Keeps.bind (keepsBooks_microstep _ _) fun _ => ih

theorem spawnChild_made {i : Nat} {node : InvokeNode Document} {doc : Document} {w w' : World}
    {c : ChildHandle} (hm : me < w.sessions.size) (h : eval (spawnChild i node doc) w = (.ok c, w')) :
    c.mailbox < w'.mailboxes.size ∧ w'.sessions.size = w.sessions.size + 1 ∧
      w'.session me = w.session me := by
  unfold spawnChild at h
  simp only [eval_bind, eval_get, Bool.not_eq_eq_eq_not, Bool.not_true] at h
  split at h
  · simp at h
  · split at h
    · simp at h
    · simp only [eval_bind, eval_set, eval_pure, World.addMailbox, Prod.mk.injEq,
        Except.ok.injEq] at h
      obtain ⟨rfl, rfl⟩ := h
      refine ⟨by simp, by simp, ?_⟩
      rw [World.session_schedule, World.session_push rfl hm]

theorem keepsBooks_spawnChild (i : Nat) (node : InvokeNode Document) (doc : Document) :
    Keeps (World.keepsBooks me) (spawnChild i node doc) := by
  unfold spawnChild
  refine Keeps.get_bind fun w => ?_
  simp only [Bool.not_eq_eq_eq_not, Bool.not_true]
  split
  · exact (World.keepsBooks me).refl w
  · split
    · exact (World.keepsBooks me).refl w
    · simp only [eval_bind, eval_set, eval_pure, World.addMailbox]
      -- a new session reading a new mailbox
      refine World.keepsBooks_grow (by simp) (fun hm => ?_) (by simp)
      rw [World.session_schedule, World.session_push rfl hm]

theorem children_foldl_sendQuiet (link : ParentLink) (es : List Event) (w : World) (i : Nat) :
    ((es.foldl (fun w e => w.sendQuiet link e) w).session i).children = (w.session i).children := by
  induction es generalizing w with
  | nil => rfl
  | cons e es ih => rw [List.foldl_cons, ih, World.session_sendQuiet]

theorem startService_made {invokeId src : String} {svc : ExternalService} {w w' : World}
    {c : ChildHandle} (h : eval (startService me invokeId src svc) w = (.ok c, w')) :
    c.mailbox < w'.mailboxes.size ∧ (w'.session me).children = (w.session me).children := by
  unfold startService at h
  simp only [eval_bind, eval_modify] at h
  split at h
  · simp at h
  · simp only [eval_bind, eval_get, eval_forM_modify, World.addMailbox, eval_set, eval_pure,
      Prod.mk.injEq, Except.ok.injEq] at h
    obtain ⟨rfl, rfl⟩ := h
    exact ⟨by simp, children_foldl_sendQuiet _ _ _ me⟩

theorem keepsBooks_startService (invokeId src : String) (svc : ExternalService) :
    Keeps (World.keepsBooks me) (startService me invokeId src svc) := by
  unfold startService
  refine Keeps.bind (fun w => World.keepsBooks_grow (w := w) (Nat.le_refl _)
    (fun _ => rfl) (Nat.le_refl _)) fun _ => ?_
  split
  · exact (World.keepsBooks me).refl
  · refine Keeps.get_bind fun w => ?_
    refine Keeps.bind_at (Keeps.forM (fun e _ => fun u => by
      simpa using World.keepsBooks_sendQuiet u _ e) w) fun _ => ?_
    refine Keeps.get_bind fun w₁ => ?_
    simp only [World.addMailbox, eval_bind, eval_set, eval_pure]
    -- the service reads a new mailbox
    exact World.keepsBooks_grow (Nat.le_refl _) (fun _ => rfl) (by simp)

/-- Keeping a handle on a mailbox made after those the session's handles read keeps the books,
and cancelling the handle it replaces too. -/
theorem keepsBooks_keepHandle (node : InvokeNode Document) (child : ChildHandle) {w : World}
    (hfresh : ∀ c ∈ (w.session me).children, c.2.mailbox < child.mailbox)
    (hlt : child.mailbox < w.mailboxes.size) :
    (World.keepsBooks me).rel w (eval (do
      let s := (← get).session me
      match s.child? node.id with
      | some previous =>
        modify (·.modifySession me fun s => { s with
          children := s.children.map fun p => if p.1 == node.id then (node.id, child) else p })
        if previous.status == .invoked then modify (·.postQuiet previous.mailbox .cancel)
      | none =>
        modify (·.modifySession me fun s => { s with children := s.children ++ [(node.id, child)] }) :
      Launch Unit) w).2 := by
  rw [eval_bind, eval_get]
  dsimp only
  split
  · rename_i previous _
    rw [eval_bind, eval_modify]
    have h₁ : (World.keepsBooks me).rel w (w.modifySession me fun s => { s with
        children := s.children.map fun p => if p.1 == node.id then (node.id, child) else p }) :=
      fun hm hb => ⟨by simpa using hm, by simp [World.session_modifySession_self _ _ hm],
        hb.replaceHandle hm node.id child hfresh hlt⟩
    refine (World.keepsBooks me).trans h₁ ?_
    dsimp only
    split
    · exact World.keepsBooks_postQuiet _ _ _
    · exact (World.keepsBooks me).refl _
  · rename_i hnone
    exact fun hm hb => ⟨by simpa using hm, by simp [World.session_modifySession_self _ _ hm],
      hb.addHandle hm hnone child hfresh hlt⟩

/-- Starting an invocation keeps the books when the start keeps them and hands back a handle on a
mailbox it made, leaving the session's invocations as they were. -/
theorem keepsBooks_launch (node : InvokeNode Document) {x : Launch ChildHandle}
    (hx : Keeps (World.keepsBooks me) x)
    (hmade : ∀ w c w', me < w.sessions.size → eval x w = (.ok c, w') →
      w.mailboxes.size ≤ c.mailbox ∧ c.mailbox < w'.mailboxes.size ∧
        (w'.session me).children = (w.session me).children) :
    Keeps (World.keepsBooks me) (x >>= fun child => do
      let s := (← get).session me
      match s.child? node.id with
      | some previous =>
        modify (·.modifySession me fun s => { s with
          children := s.children.map fun p => if p.1 == node.id then (node.id, child) else p })
        if previous.status == .invoked then modify (·.postQuiet previous.mailbox .cancel)
      | none =>
        modify (·.modifySession me fun s => { s with children := s.children ++ [(node.id, child)] })) := by
  intro w
  rw [eval_bind]
  have h₁ := hx w
  rcases h : eval x w with ⟨r, w₁⟩
  rw [h] at h₁
  cases r with
  | error e => exact h₁
  | ok child =>
    intro hm hb
    obtain ⟨hge, hlt, hch⟩ := hmade w child w₁ hm h
    -- every handle the session held reads a mailbox made before the new one
    have hfresh : ∀ c ∈ (w₁.session me).children, c.2.mailbox < child.mailbox := fun c hc =>
      Nat.lt_of_lt_of_le (hb.2.2.2 c (hch ▸ hc)) hge
    exact (World.keepsBooks me).trans h₁ (keepsBooks_keepHandle node child hfresh hlt) hm hb

theorem keepsBooks_startInvoke (node : InvokeNode Document) :
    Keeps (World.keepsBooks me) (startInvoke me node) := by
  have spawned (doc : Document) : ∀ w c w', me < w.sessions.size →
      eval (spawnChild me node doc) w = (.ok c, w') →
      w.mailboxes.size ≤ c.mailbox ∧ c.mailbox < w'.mailboxes.size ∧
        (w'.session me).children = (w.session me).children := fun _ _ _ hm h => by
    obtain ⟨hlt, -, hs⟩ := spawnChild_made hm h
    exact ⟨spawnChild_fresh h, hlt, by rw [hs]⟩
  unfold startInvoke
  dsimp only
  split
  · exact keepsBooks_launch node (keepsBooks_spawnChild _ _ _) (spawned _)
  · refine Keeps.get_bind fun w => ?_
    split
    · exact keepsBooks_launch node (Keeps.throw _ _) (fun _ _ _ _ h => by simp at h) w
    · exact keepsBooks_launch node (keepsBooks_spawnChild _ _ _) (spawned _) w
    · exact keepsBooks_launch node (keepsBooks_startService _ _ _)
        (fun _ _ _ _ h => ⟨startService_fresh h, startService_made h⟩) w

theorem keepsBooks_startInvokes : Keeps (World.keepsBooks me) (startInvokes me) := by
  unfold startInvokes
  refine Keeps.bind (World.keepsBooks me).refl fun s => ?_
  refine Keeps.bind (keepsBooks_update _ fun s => Session.Tidy.refl s) fun _ => ?_
  refine Keeps.forM fun st _ => Keeps.forM fun n _ => ?_
  split
  · refine Keeps.bind (fun w => by
      simpa using (keepsBooks_startInvoke _ : Keeps (World.keepsBooks me) (startInvoke me _)) w)
      fun r => ?_
    split
    · exact Keeps.pure _
    · exact keepsBooks_raiseInternal _ _
  · exact Keeps.pure _

theorem keepsBooks_rounds (limit fuel left : Nat) :
    Keeps (World.keepsBooks me) (rounds me limit fuel left) := by
  induction fuel generalizing left with
  | zero => exact Keeps.pure _
  | succ f ih =>
    unfold rounds
    refine Keeps.bind (keepsBooks_drain _ _ _) fun left' =>
      Keeps.bind (World.keepsBooks me).refl fun s => ?_
    split
    · exact Keeps.pure _
    · refine Keeps.bind keepsBooks_startInvokes fun _ =>
        Keeps.bind (World.keepsBooks me).refl fun s' => ?_
      split
      · exact Keeps.pure _
      · exact ih _

theorem keepsBooks_macrostep : Keeps (World.keepsBooks me) (macrostep me) := by
  unfold macrostep
  refine Keeps.bind (World.keepsBooks me).refl fun s =>
    Keeps.bind (keepsBooks_rounds _ _ _) fun b => ?_
  split
  · exact keepsBooks_publish _
  · exact Keeps.pure _

theorem keepsBooks_applyFinalize (node : InvokeNode Document) (e : Event) :
    Keeps (World.keepsBooks me) (applyFinalize me node e) := by
  unfold applyFinalize
  split
  · exact Keeps.pure _
  · refine Keeps.bind (World.keepsBooks me).refl fun s => ?_
    split
    · exact keepsBooks_raiseInternal _ _
    · exact keepsBooks_runOn _ _ _ _

theorem keepsBooks_autoforward (invokeId : String) (e : Event) :
    Keeps (World.keepsBooks me) (autoforward me invokeId e) := by
  unfold autoforward
  refine Keeps.current_bind fun w => ?_
  split
  · split
    · exact World.keepsBooks_postQuiet w _ _
    · exact (World.keepsBooks me).refl w
  · exact (World.keepsBooks me).refl w

theorem keepsBooks_finalizeAndForward (e : Event) :
    Keeps (World.keepsBooks me) (finalizeAndForward me e) := by
  unfold finalizeAndForward
  refine Keeps.bind (World.keepsBooks me).refl fun s =>
    Keeps.forM fun st _ => Keeps.forM fun n _ => ?_
  split
  · rename_i node _
    have forward : Keeps (World.keepsBooks me)
        (if node.autoforward = true then autoforward me node.id e else pure ()) := by
      split
      · exact keepsBooks_autoforward _ _
      · exact Keeps.pure _
    dsimp only
    split
    · exact Keeps.bind (keepsBooks_applyFinalize _ _) fun _ => forward
    · exact forward
  · exact Keeps.pure _

/-- Processing an external event keeps the books: marking an invocation done keeps its id and
mailbox. -/
theorem keepsBooks_processExternal (e : Event) :
    Keeps (World.keepsBooks me) (processExternal me e) := by
  have rest : Keeps (World.keepsBooks me) (do
      update me fun s => { s with event := e }
      finalizeAndForward me e
      let enabled ← selectCurrent me
      if !enabled.isEmpty then microstep me enabled.items
      macrostep me) := by
    refine Keeps.bind (keepsBooks_update _ fun s => Session.Tidy.refl s) fun _ =>
      Keeps.bind (keepsBooks_finalizeAndForward _) fun _ =>
        Keeps.bind (keepsBooks_selectCurrent _) fun en => ?_
    split
    · exact Keeps.bind (keepsBooks_microstep _ _) fun _ => keepsBooks_macrostep
    · exact keepsBooks_macrostep
  unfold processExternal
  split
  · split
    · refine Keeps.bind (keepsBooks_update _ fun s => ⟨rfl, id, ?_⟩) fun _ => rest
      rw [Session.map_tag_map fun p => by split <;> rfl]
    · exact rest
  · exact rest

theorem keepsBooks_enterInitial : Keeps (World.keepsBooks me) (enterInitial me) := by
  unfold enterInitial
  refine Keeps.bind (World.keepsBooks me).refl fun s => ?_
  split
  · exact Keeps.bind (keepsBooks_microstep _ _) fun _ => keepsBooks_macrostep
  · exact keepsBooks_macrostep

end Engine
end Hsm
