import Hsm.Proofs.Handles
/-!
# Starting a session's invocations

Whether an invocation starts depends only on the registry and the runtime
(`InvokeNode.launchError`); starting one changes only the session's handles
(`Engine.startInvoke_starts`). Starting invocations starts those due in entry order and queues
`error.execution` for each that cannot (`Engine.startInvokes_starts_due`).
-/

namespace Hsm

namespace InvokeNode

/-- Why a machine cannot run as a child session, if it cannot: no runtime can run it, or its content
calls a script that is not registered. -/
def spawnError (node : InvokeNode Document) (reg : Registry) (runtime : Bool) (doc : Document) :
    Option InvokeError :=
  if runtime then (doc.unknownScript reg.hooks).map fun err => .serviceFailed node.id err.message
  else some (.noRuntime node.id)

/-- Why an invocation cannot start, if it cannot. -/
def launchError (node : InvokeNode Document) (reg : Registry) (runtime : Bool) : Option InvokeError :=
  match node.source with
  | .machine doc => node.spawnError reg runtime doc
  | .service src =>
    match reg.resolve src with
    | .error e => some e
    | .ok (.machine doc) => node.spawnError reg runtime doc
    | .ok (.external svc) => svc.fail.map (.serviceFailed src)

/-- The `error.execution` event, carrying the invoke id, that an invocation that cannot start
raises. -/
def launchFailure (node : InvokeNode Document) (reg : Registry) (runtime : Bool) : Option Event :=
  (node.launchError reg runtime).map fun err => (Event.errorExecution err.message).withInvokeId node.id

end InvokeNode

/-- The invocations that starting invocations starts: those of the states entered since the last
start, in entry order, and each state's in document order. -/
def Session.dueInvokes (s : Session) : List (InvokeNode Document) :=
  (sortBy s.doc.entryCmp s.toInvoke.items).flatMap fun st => (s.doc.state st).invokes.filterMap s.doc.invoke?

namespace World

@[simp] theorem registry_schedule (w : World) (t : Nat) : (w.schedule t).registry = w.registry := by
  unfold schedule; split <;> rfl

@[simp] theorem runtime_schedule (w : World) (t : Nat) : (w.schedule t).runtime = w.runtime := by
  unfold schedule; split <;> rfl

/-- Session `me` stays in place and changes only how its task is driven; the registry and the
runtime stay. Starting a child session or a service does no more to the session that starts it. -/
def keepsSession (me : Nat) : WorldOrder where
  rel w w' := me < w.sessions.size → me < w'.sessions.size ∧ w'.registry = w.registry ∧
    w'.runtime = w.runtime ∧ w'.session me = { w.session me with drive := (w'.session me).drive }
  refl _ h := ⟨h, rfl, rfl, rfl⟩
  trans h₁ h₂ h := by
    obtain ⟨h₁', r₁, t₁, s₁⟩ := h₁ h
    obtain ⟨h₂', r₂, t₂, s₂⟩ := h₂ h₁'
    refine ⟨h₂', r₂.trans r₁, t₂.trans t₁, ?_⟩
    rw [s₂, s₁]

variable {me m : Nat} {w w' : World}

theorem keepsSession_post {env : Envelope} (h : w.post m env = .ok w') : (keepsSession me).rel w w' := by
  obtain ⟨-, -, hsize, hses⟩ := post_ok h
  exact fun hm => ⟨by omega, (setup_post h).1, (setup_post h).2, hses me⟩

theorem keepsSession_postQuiet (w : World) (m : Nat) (env : Envelope) :
    (keepsSession me).rel w (w.postQuiet m env) := by
  unfold postQuiet
  split
  · exact keepsSession_post ‹_›
  · exact (keepsSession me).refl w

theorem keepsSession_sendQuiet (w : World) (link : ParentLink) (e : Event) :
    (keepsSession me).rel w (w.sendQuiet link e) := by
  unfold sendQuiet
  split
  · exact keepsSession_post ‹_›
  · exact (keepsSession me).refl w

end World

namespace Engine
variable {me : Nat}

theorem keepsSession_spawnChild (node : InvokeNode Document) (doc : Document) :
    Keeps (World.keepsSession me) (spawnChild me node doc) := by
  unfold spawnChild
  refine Keeps.get_bind fun w => ?_
  simp only [Bool.not_eq_eq_eq_not, Bool.not_true]
  split
  · exact (World.keepsSession me).refl w
  · split
    · exact (World.keepsSession me).refl w
    · simp only [eval_bind, eval_set, eval_pure, World.addMailbox]
      -- the child is a new session after all others
      exact fun hm => ⟨by simp; omega, by simp, by simp,
        by rw [World.session_schedule, World.session_push rfl hm]⟩

/-- Spawning a child session fails exactly as `InvokeNode.spawnError` says. -/
theorem spawnChild_result (node : InvokeNode Document) (doc : Document) (w : World) :
    ∃ c, (eval (spawnChild me node doc) w).1 =
      (node.spawnError w.registry w.runtime doc).elim (.ok c) .error := by
  unfold spawnChild InvokeNode.spawnError
  simp only [eval_bind, eval_get, Bool.not_eq_eq_eq_not, Bool.not_true]
  split
  · rename_i hrt
    exact ⟨⟨node.id, 0, none, .invoked⟩, by simp [hrt]⟩
  · rename_i hrt
    simp only [Bool.not_eq_false] at hrt
    simp only [hrt, if_true]
    split
    · rename_i err herr
      exact ⟨⟨node.id, 0, none, .invoked⟩, by simp [herr]⟩
    · rename_i hnone
      rw [Option.eq_none_iff_forall_ne_some.2 fun err h => hnone err h]
      exact ⟨_, rfl⟩

theorem keepsSession_startService (invokeId src : String) (svc : ExternalService) :
    Keeps (World.keepsSession me) (startService me invokeId src svc) := by
  unfold startService
  refine Keeps.bind (fun w hm => ⟨hm, rfl, rfl, rfl⟩) fun _ => ?_
  split
  · exact (World.keepsSession me).refl
  · refine Keeps.get_bind fun w => ?_
    refine Keeps.bind_at (Keeps.forM (fun e _ => fun u => by
      simpa using @World.keepsSession_sendQuiet me u _ e) w) fun _ => ?_
    refine Keeps.get_bind fun w₁ => ?_
    simp only [World.addMailbox, eval_bind, eval_set, eval_pure]
    -- the service reads a new mailbox
    exact fun hm => ⟨hm, rfl, rfl, rfl⟩

theorem startService_result (invokeId src : String) (svc : ExternalService) (w : World) :
    ∃ c, (eval (startService me invokeId src svc) w).1 =
      (svc.fail.map (.serviceFailed src)).elim (.ok c) .error := by
  unfold startService
  simp only [eval_bind, eval_modify]
  split
  · rename_i reason hfail
    exact ⟨⟨invokeId, 0, none, .invoked⟩, by simp [hfail]⟩
  · rename_i hnone
    rw [Option.eq_none_iff_forall_ne_some.2 fun r h => hnone r h]
    simp only [eval_bind, eval_get, eval_forM_modify, World.addMailbox, eval_set, eval_pure]
    exact ⟨_, rfl⟩

/-- What starting an invocation does with the handle its start hands back: keep it under the
invocation's id, in place of a handle of that id, which is cancelled if it still runs. -/
def keepHandle (me : Nat) (node : InvokeNode Document) (child : ChildHandle) : Launch Unit := do
  let s := (← get).session me
  match s.child? node.id with
  | some previous =>
    modify (·.modifySession me fun s => { s with
      children := s.children.map fun p => if p.1 == node.id then (node.id, child) else p })
    if previous.status == .invoked then modify (·.postQuiet previous.mailbox .cancel)
  | none =>
    modify (·.modifySession me fun s => { s with children := s.children ++ [(node.id, child)] })

/-- What starting `node` from `w` did, when it fails with `err` if that is an error and starts if
it is none: it answered that, changed nothing of session `me` but its handles and how its task is
driven, and added a handle under the invocation's id exactly when it started. -/
structure Starts (me : Nat) (node : InvokeNode Document) (err : Option InvokeError) (w : World)
    (r : Except InvokeError Unit × World) : Prop where
  result : r.1 = err.elim (.ok ()) .error
  size : me < r.2.sessions.size
  registry : r.2.registry = w.registry
  runtime : r.2.runtime = w.runtime
  session : r.2.session me =
    { w.session me with children := (r.2.session me).children, drive := (r.2.session me).drive }
  handles : ∀ id, id ∈ (r.2.session me).handleIds ↔
    id ∈ (w.session me).handleIds ∨ (id = node.id ∧ err = none)

namespace Starts
variable {node : InvokeNode Document} {err : Option InvokeError} {w w₁ w₂ : World}

theorem fail {e : InvokeError} (hm : me < w.sessions.size) : Starts me node (some e) w (.error e, w) where
  result := rfl
  size := hm
  registry := rfl
  runtime := rfl
  session := rfl
  handles _ := by simp

theorem before (h₁ : (World.keepsSession me).rel w w₁) (hm : me < w.sessions.size)
    {r : Except InvokeError Unit × World} (h : Starts me node err w₁ r) : Starts me node err w r := by
  obtain ⟨-, hreg, hrt, hs⟩ := h₁ hm
  refine ⟨h.result, h.size, h.registry.trans hreg, h.runtime.trans hrt, ?_, ?_⟩
  · refine h.session.trans ?_
    rw [hs]
  · have hc : (w₁.session me).children = (w.session me).children := by rw [hs]
    simpa [Session.handleIds, hc] using h.handles

theorem after {a : Except InvokeError Unit} (h : Starts me node err w (a, w₁))
    (h₂ : (World.keepsSession me).rel w₁ w₂) : Starts me node err w (a, w₂) := by
  obtain ⟨hm, hreg, hrt, hs⟩ := h₂ h.size
  have hc : (w₂.session me).children = (w₁.session me).children := by rw [hs]
  refine ⟨h.result, hm, hreg.trans h.registry, hrt.trans h.runtime, ?_, ?_⟩
  · rw [hs, h.session]
  · simpa [Session.handleIds, hc] using h.handles

theorem setChildren (hm : me < w.sessions.size)
    (f : List (String × ChildHandle) → List (String × ChildHandle))
    (hf : ∀ id, id ∈ (f (w.session me).children).map (·.1) ↔ id ∈ (w.session me).handleIds ∨ id = node.id) :
    Starts me node none w (.ok (), w.modifySession me fun s => { s with children := f s.children }) where
  result := rfl
  size := by simpa using hm
  registry := rfl
  runtime := rfl
  session := by simp [World.session_modifySession_self _ _ hm]
  handles id := by simpa [World.session_modifySession_self _ _ hm, Session.handleIds] using hf id

end Starts

theorem keepHandle_starts (node : InvokeNode Document) (child : ChildHandle) {w : World}
    (hm : me < w.sessions.size) : Starts me node none w (eval (keepHandle me node child) w) := by
  unfold keepHandle
  rw [eval_bind, eval_get]
  dsimp only
  split
  · rename_i previous hprev
    rw [eval_bind, eval_modify]
    -- replacing the handle of that id keeps the ids, among them the invocation's
    have hin : node.id ∈ (w.session me).handleIds :=
      ((w.session me).child?_isSome_iff node.id).1 (by rw [hprev]; rfl)
    have h₁ := @Starts.setChildren _ node _ hm
      (fun cs => cs.map fun p => if p.1 == node.id then (node.id, child) else p) fun id => by
        have hkeys : ((w.session me).children.map fun p => if p.1 == node.id then (node.id, child) else p).map
            (·.1) = (w.session me).handleIds := by
          simp only [List.map_map, Session.handleIds]
          refine List.map_congr_left fun p _ => ?_
          by_cases hp : p.1 = node.id <;> simp [hp]
        rw [hkeys]
        exact ⟨Or.inl, fun h => h.elim (fun h => h) (fun h => h ▸ hin)⟩
    dsimp only
    split
    · exact h₁.after (World.keepsSession_postQuiet _ _ _)
    · exact h₁
  · exact Starts.setChildren hm (· ++ [(node.id, child)]) fun id => by
      simp [Session.handleIds]

theorem starts_launch (node : InvokeNode Document) {x : Launch ChildHandle} {err : Option InvokeError}
    {w : World} (hx : Keeps (World.keepsSession me) x) (hres : ∃ c, (eval x w).1 = err.elim (.ok c) .error)
    (hm : me < w.sessions.size) : Starts me node err w (eval (x >>= keepHandle me node) w) := by
  obtain ⟨c, hc⟩ := hres
  have h₁ := hx w
  rw [eval_bind]
  rcases h : eval x w with ⟨r, w₁⟩
  rw [h] at hc h₁
  cases err with
  | none =>
    obtain rfl : r = .ok c := hc
    exact Starts.before h₁ hm (keepHandle_starts node c (h₁ hm).1)
  | some e =>
    obtain rfl : r = .error e := hc
    exact Starts.before h₁ hm (Starts.fail (h₁ hm).1)

/-- Starting an invocation fails exactly as `InvokeNode.launchError` says, and keeps a handle
under its id when it starts. -/
theorem startInvoke_starts (node : InvokeNode Document) {w : World} (hm : me < w.sessions.size) :
    Starts me node (node.launchError w.registry w.runtime) w (eval (startInvoke me node) w) := by
  unfold startInvoke InvokeNode.launchError
  cases hsrc : node.source with
  | machine doc => exact starts_launch node (keepsSession_spawnChild _ _) (spawnChild_result _ _ w) hm
  | service src =>
    dsimp only
    rw [eval_bind, eval_get]
    dsimp only
    cases hres : w.registry.resolve src with
    | error e => exact starts_launch node (Keeps.throw _ _) ⟨⟨node.id, 0, none, .invoked⟩, rfl⟩ hm
    | ok found =>
      cases found with
      | machine doc => exact starts_launch node (keepsSession_spawnChild _ _) (spawnChild_result _ _ w) hm
      | external svc =>
        exact starts_launch node (keepsSession_startService _ _ _) (startService_result _ _ _ w) hm

/-- A loop whose every pass succeeds, extending what was done by `g a`, succeeds; it ends where `Q`
holds of what was done before it followed by the whole list. -/
theorem forM_runs {γ δ : Type} {Q : List δ → World → Prop} {f : γ → Engine PUnit} (g : γ → List δ)
    (hf : ∀ a done u, Q done u → ∃ u', eval (f a) u = (.ok ⟨⟩, u') ∧ Q (done ++ g a) u') :
    ∀ (xs : List γ) {done : List δ} {u : World}, Q done u →
      ∃ u', eval (xs.forM f) u = (.ok ⟨⟩, u') ∧ Q (done ++ xs.flatMap g) u'
  | [], done, u, hq => ⟨u, rfl, by simpa using hq⟩
  | a :: xs, done, u, hq => by
    obtain ⟨u₁, h₁, hq₁⟩ := hf a done u hq
    obtain ⟨u', h', hq'⟩ := forM_runs g hf xs hq₁
    refine ⟨u', ?_, by simpa [List.flatMap_cons, List.append_assoc] using hq'⟩
    rw [forM_cons, eval_bind, h₁]
    exact h'

/-- Starting, from `w₀`, the due invocations of session `me`, those of `done` have been dealt with:
each that cannot start queued its `error.execution` in turn, each that starts has a handle, and
nothing else of the session changed but how its task is driven. -/
structure Starting (me : Nat) (w₀ : World) (done : List (InvokeNode Document)) (u : World) : Prop where
  size : me < u.sessions.size
  registry : u.registry = w₀.registry
  runtime : u.runtime = w₀.runtime
  session : u.session me = { w₀.session me with
    children := (u.session me).children, drive := (u.session me).drive,
    internal := (w₀.session me).internal ++ done.filterMap fun n => n.launchFailure w₀.registry w₀.runtime }
  handles : ∀ id, id ∈ (u.session me).handleIds ↔ id ∈ (w₀.session me).handleIds ∨
    ∃ n ∈ done, n.id = id ∧ n.launchError w₀.registry w₀.runtime = none

namespace Starting
variable {w₀ u : World} {done : List (InvokeNode Document)}

theorem start (hm : me < w₀.sessions.size) : Starting me w₀ [] w₀ where
  size := hm
  registry := rfl
  runtime := rfl
  session := by simp
  handles _ := by simp

/-- One pass of the loop over a state's invocations: start the invocation, or queue why it cannot
start. -/
theorem step (hs : Starting me w₀ done u) (d : Document) (i : Nat) :
    ∃ u', eval (match d.invoke? i with
      | some node => do
        match ← (ExceptT.lift (startInvoke me node).run : Engine (Except InvokeError Unit)) with
        | .ok () => pure ()
        | .error err => raiseInternal me ((Event.errorExecution err.message).withInvokeId node.id)
      | none => pure ()) u = (.ok ⟨⟩, u') ∧ Starting me w₀ (done ++ (d.invoke? i).toList) u' := by
  cases hnode : d.invoke? i with
  | none => exact ⟨u, rfl, by simpa using hs⟩
  | some node =>
    have hst := @startInvoke_starts me node _ hs.size
    rw [hs.registry, hs.runtime] at hst
    dsimp only
    rw [eval_bind, eval_lift_run]
    dsimp only
    cases herr : node.launchError w₀.registry w₀.runtime with
    | none =>
      rw [herr] at hst
      have hr : (eval (startInvoke me node) u).1 = .ok () := hst.result
      rw [hr]
      have hlf : node.launchFailure w₀.registry w₀.runtime = none := by
        simp [InvokeNode.launchFailure, herr]
      refine ⟨_, rfl, hst.size, hst.registry.trans hs.registry, hst.runtime.trans hs.runtime, ?_, ?_⟩
      · simp only [Option.toList_some, List.filterMap_append, List.filterMap_cons, hlf,
          List.filterMap_nil, List.append_nil]
        refine hst.session.trans ?_
        rw [hs.session]
      · intro id
        simp [hst.handles, hs.handles, herr, or_assoc, eq_comm]
    | some e =>
      rw [herr] at hst
      have hr : (eval (startInvoke me node) u).1 = .error e := hst.result
      rw [hr]
      dsimp only
      have hlf : node.launchFailure w₀.registry w₀.runtime =
          some ((Event.errorExecution e.message).withInvokeId node.id) := by
        simp [InvokeNode.launchFailure, herr]
      set u₁ := (eval (startInvoke me node) u).2
      have hs₁ : (u₁.modifySession me fun s => { s with internal := s.internal ++
          [(Event.errorExecution e.message).withInvokeId node.id] }).session me =
          { u₁.session me with internal := (u₁.session me).internal ++
            [(Event.errorExecution e.message).withInvokeId node.id] } :=
        World.session_modifySession_self _ _ hst.size
      refine ⟨_, rfl, by simpa using hst.size, hst.registry.trans hs.registry,
        hst.runtime.trans hs.runtime, ?_, ?_⟩
      · simp only [Option.toList_some, List.filterMap_append, List.filterMap_cons, hlf,
          List.filterMap_nil, hs₁]
        rw [hst.session, hs.session]
        simp
      · intro id
        have hids : id ∈ ((u₁.modifySession me fun s => { s with internal := s.internal ++
            [(Event.errorExecution e.message).withInvokeId node.id] }).session me).handleIds ↔
            id ∈ (u₁.session me).handleIds := by
          rw [hs₁]
          exact Iff.rfl
        rw [hids, hst.handles, hs.handles]
        simp [herr]

end Starting

/-- Starting invocations always succeeds. It forgets the states entered since the last start and
deals with their invocations in entry order, each state's in document order: each that starts
keeps a handle under its id, each that cannot queues its `error.execution`, and nothing else of
the session changes but how its task is driven. -/
theorem startInvokes_starts_due {w : World} (hm : me < w.sessions.size) :
    ∃ w', eval (startInvokes me) w = (.ok (), w') ∧
      Starting me (w.modifySession me fun s => { s with toInvoke := {} }) (w.session me).dueInvokes w' := by
  unfold startInvokes
  simp only [eval_bind, eval_current, eval_update]
  have h₀ := @Starting.start me (w.modifySession me fun s => { s with toInvoke := {} })
    (by simpa using hm)
  obtain ⟨w', h, hs⟩ := forM_runs (Q := Starting me _)
    (fun st => ((w.session me).doc.state st).invokes.flatMap fun i => ((w.session me).doc.invoke? i).toList)
    (fun st done u hs => forM_runs (Q := Starting me _) _ (fun i _ _ hs => hs.step _ i) _ hs) _ h₀
  refine ⟨w', h, ?_⟩
  simpa [Session.dueInvokes, List.filterMap_eq_flatMap_toList] using hs

end Engine
end Hsm
