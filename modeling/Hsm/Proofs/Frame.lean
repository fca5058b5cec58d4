import Mathlib
import Hsm.Session.Step
/-!
# Steps as functions of the world

`Engine.eval x w` is what the step `x` returns on `w`, with the world it leaves. `Keeps R x` (the
worlds before and after are related by the preorder `R`) and `FailsWith p x` are built up through
`bind`, `forM` and `foldlM`, so a property of a step is read off its code.
-/

namespace Hsm

def Engine.eval {ε α : Type} (x : ExceptT ε (StateM World) α) (w : World) : Except ε α × World :=
  x.run.run w

/-- A reflexive and transitive relation between a world and a later one. -/
structure WorldOrder where
  rel : World → World → Prop
  refl : ∀ w, rel w w
  trans : ∀ {u v w}, rel u v → rel v w → rel u w

namespace Engine
variable {ε α β : Type}

@[simp] theorem eval_pure (a : α) (w : World) :
    eval (pure a : ExceptT ε (StateM World) α) w = (.ok a, w) := rfl
@[simp] theorem eval_throw (e : ε) (w : World) :
    eval (throw e : ExceptT ε (StateM World) α) w = (.error e, w) := rfl
@[simp] theorem eval_get (w : World) : eval (get : ExceptT ε (StateM World) World) w = (.ok w, w) :=
  rfl
@[simp] theorem eval_set (w w' : World) :
    eval (set w' : ExceptT ε (StateM World) PUnit) w = (.ok ⟨⟩, w') := rfl
@[simp] theorem eval_modify (f : World → World) (w : World) :
    eval (modify f : ExceptT ε (StateM World) PUnit) w = (.ok ⟨⟩, f w) := rfl

theorem eval_bind (x : ExceptT ε (StateM World) α) (f : α → ExceptT ε (StateM World) β) (w : World) :
    eval (x >>= f) w = match eval x w with
      | (.ok a, w') => eval (f a) w'
      | (.error e, w') => (.error e, w') := by
  simp only [eval, ExceptT.run_bind, StateT.run_bind]
  rcases x.run.run w with ⟨r, w'⟩
  cases r <;> rfl

@[simp] theorem eval_map (f : α → β) (x : ExceptT ε (StateM World) α) (w : World) :
    eval (f <$> x) w = ((eval x w).1.map f, (eval x w).2) := by
  simp only [eval, ExceptT.run_map, StateT.run_map]
  rcases x.run.run w with ⟨r, w'⟩
  cases r <;> rfl

theorem forM_cons {γ : Type} (a : γ) (as : List γ) (f : γ → ExceptT ε (StateM World) PUnit) :
    (a :: as).forM f = f a >>= fun _ => as.forM f := rfl

@[simp] theorem eval_current (me : Nat) (w : World) :
    eval (current me) w = (.ok (w.session me), w) := rfl

@[simp] theorem eval_update (me : Nat) (f : Session → Session) (w : World) :
    eval (update me f) w = (.ok (), w.modifySession me f) := rfl

@[simp] theorem eval_lift_run {ε' : Type} (x : ExceptT ε' (StateM World) α) (w : World) :
    eval (ExceptT.lift x.run : ExceptT ε (StateM World) (Except ε' α)) w =
      (.ok (eval x w).1, (eval x w).2) :=
  rfl

@[simp] theorem eval_observe (x : Engine α) (w : World) :
    eval (observe x) w = (.ok (eval x w).1, (eval x w).2) := eval_lift_run x w

theorem eval_selectEventless (i : Nat) (w : World) :
    eval (selectEventless i) w = match (w.session i).selector.selectEventless (w.session i).data
      (w.session i).event with
      | .ok r => (.ok r, w)
      | .error e => (.error e, w) := by
  simp only [selectEventless, eval_bind, eval_current]
  split <;> simp_all

theorem eval_selectCurrent (i : Nat) (w : World) :
    eval (selectCurrent i) w = match (w.session i).selector.selectFor (w.session i).data
      (w.session i).event with
      | .ok r => (.ok r, w)
      | .error e => (.error e, w) := by
  simp only [selectCurrent, eval_bind, eval_current]
  split <;> simp_all

def Keeps (R : WorldOrder) (x : ExceptT ε (StateM World) α) : Prop := ∀ w, R.rel w (eval x w).2

def FailsWith (p : ε → Prop) (x : ExceptT ε (StateM World) α) : Prop :=
  ∀ w e w', eval x w = (.error e, w') → p e

namespace Keeps
variable {R : WorldOrder}

theorem pure (a : α) : Keeps R (Pure.pure a : ExceptT ε (StateM World) α) := fun w => R.refl w

theorem bind {x : ExceptT ε (StateM World) α} {f : α → ExceptT ε (StateM World) β}
    (hx : Keeps R x) (hf : ∀ a, Keeps R (f a)) : Keeps R (x >>= f) := by
  intro w
  rw [eval_bind]
  rcases h : eval x w with ⟨r, w'⟩
  have hw : R.rel w w' := by simpa [h] using hx w
  cases r with
  | error e => exact hw
  | ok a => exact R.trans hw (hf a w')

theorem forM {γ : Type} {xs : List γ} {f : γ → ExceptT ε (StateM World) PUnit}
    (hf : ∀ a ∈ xs, Keeps R (f a)) : Keeps R (xs.forM f) := by
  induction xs with
  | nil => exact Keeps.pure _
  | cons a as ih =>
    rw [forM_cons]
    exact bind (hf a (by simp)) fun _ => ih fun b hb => hf b (by simp [hb])

theorem foldlM {γ : Type} {f : β → γ → ExceptT ε (StateM World) β} (hf : ∀ b c, Keeps R (f b c))
    (xs : List γ) (b : β) : Keeps R (xs.foldlM f b) := by
  induction xs generalizing b with
  | nil => exact Keeps.pure _
  | cons c cs ih => exact Keeps.bind (hf b c) fun b' => ih b'

theorem get_bind {f : World → ExceptT ε (StateM World) β} (hf : ∀ w, R.rel w (eval (f w) w).2) :
    Keeps R (get >>= f) := by
  intro w
  rw [eval_bind]
  exact hf w

theorem mono {R' : WorldOrder} {x : ExceptT ε (StateM World) α} (hx : Keeps R x)
    (h : ∀ w w', R.rel w w' → R'.rel w w') : Keeps R' x := fun w => h _ _ (hx w)

end Keeps

namespace FailsWith
variable {p : ε → Prop}

theorem pure (a : α) : FailsWith p (Pure.pure a : ExceptT ε (StateM World) α) := by
  intro w e w' h; cases h

theorem bind {x : ExceptT ε (StateM World) α} {f : α → ExceptT ε (StateM World) β}
    (hx : FailsWith p x) (hf : ∀ a, FailsWith p (f a)) : FailsWith p (x >>= f) := by
  intro w e w' h
  rw [eval_bind] at h
  rcases hx' : eval x w with ⟨r, w₁⟩
  rw [hx'] at h
  cases r with
  | error e₁ => cases h; exact hx w _ _ hx'
  | ok a => exact hf a w₁ e w' h

theorem forM {γ : Type} {xs : List γ} {f : γ → ExceptT ε (StateM World) PUnit}
    (hf : ∀ a ∈ xs, FailsWith p (f a)) : FailsWith p (xs.forM f) := by
  induction xs with
  | nil => exact FailsWith.pure _
  | cons a as ih =>
    rw [forM_cons]
    exact bind (hf a (by simp)) fun _ => ih fun b hb => hf b (by simp [hb])

theorem mono {q : ε → Prop} {x : ExceptT ε (StateM World) α} (hx : FailsWith p x)
    (hpq : ∀ e, p e → q e) : FailsWith q x := fun w e w' h => hpq e (hx w e w' h)

theorem get_bind {f : World → ExceptT ε (StateM World) β} (hf : ∀ w, FailsWith p (f w)) :
    FailsWith p (get >>= f) := by
  intro w e w' h
  rw [eval_bind] at h
  exact hf w w e w' h

theorem modify (f : World → World) : FailsWith p (modify f : ExceptT ε (StateM World) PUnit) := by
  intro w e w' h; cases h

theorem throw (e : ε) (he : p e) : FailsWith p (throw e : ExceptT ε (StateM World) α) := by
  intro w e' w' h; cases h; exact he

end FailsWith
end Engine

namespace World
variable (w : World) {me i : Nat} {f : Session → Session}

@[simp] theorem size_modifySession (i : Nat) (f : Session → Session) :
    (w.modifySession i f).sessions.size = w.sessions.size := by simp [modifySession]

theorem session_modifySession (i : Nat) (f : Session → Session) (h : me < w.sessions.size) :
    (w.modifySession i f).session me = if i = me then f (w.session me) else w.session me := by
  simp [modifySession, session, Array.getD, Array.getElem_modify, h]

@[simp] theorem session_modifySession_self (f : Session → Session) (h : me < w.sessions.size) :
    (w.modifySession me f).session me = f (w.session me) := by
  simp [session_modifySession _ _ _ h]

theorem modifySession_modifySession (i : Nat) (f g : Session → Session) :
    (w.modifySession i g).modifySession i f = w.modifySession i (f ∘ g) := by
  simp only [modifySession, World.mk.injEq, and_true]
  apply Array.ext (by simp)
  intro j h₁ h₂
  simp only [Array.getElem_modify]
  split <;> simp_all

variable {w}

theorem session_of_le (h : w.sessions.size ≤ me) : w.session me = default := by
  simp [session, Array.getD, Nat.not_lt.mpr h]

theorem session_modifySession_of_le (h : w.sessions.size ≤ me) :
    (w.modifySession i f).session me = w.session me := by
  rw [session_of_le h, session_of_le (by simpa using h)]

theorem modifySession_of_le (h : w.sessions.size ≤ i) : w.modifySession i f = w := by
  simp [modifySession, Array.modify, Array.modifyM, Nat.not_lt.mpr h]

theorem lt_of_isRunning (h : (w.session me).isRunning = true) : me < w.sessions.size := by
  rcases Nat.lt_or_ge me w.sessions.size with h' | h'
  · exact h'
  · simp [session_of_le h', Session.isRunning, default] at h

@[simp] theorem sessions_schedule (t : Nat) : (w.schedule t).sessions = w.sessions := by
  unfold schedule; split <;> rfl

theorem session_take (m : Nat) : (w.take m).2.session me = w.session me := by
  unfold take
  split <;> rfl

end World

namespace Session

@[simp] theorem default_children : (default : Session).children = [] := rfl
@[simp] theorem default_parent : (default : Session).parent = none := rfl
@[simp] theorem default_configuration : (default : Session).configuration = {} := rfl
@[simp] theorem default_isRunning : (default : Session).isRunning = false := rfl

/-- Two states of a session agree on what selection and the macrostep loop read: the status, the
document, the settings, the configuration, the history records, the data bag, the event and the
states entered since invocations last started. -/
def Agrees (s s' : Session) : Prop :=
  s'.status = s.status ∧ s'.doc = s.doc ∧ s'.config = s.config ∧ s'.configuration = s.configuration ∧
    s'.history = s.history ∧ s'.data = s.data ∧ s'.event = s.event ∧ s'.toInvoke = s.toInvoke

theorem Agrees.refl (s : Session) : s.Agrees s := by simp [Agrees]

theorem Agrees.trans {s t u : Session} (h₁ : s.Agrees t) (h₂ : t.Agrees u) : s.Agrees u := by
  obtain ⟨h1, h2, h3, h4, h5, h6, h7, h8⟩ := h₁
  obtain ⟨g1, g2, g3, g4, g5, g6, g7, g8⟩ := h₂
  exact ⟨g1.trans h1, g2.trans h2, g3.trans h3, g4.trans h4, g5.trans h5, g6.trans h6, g7.trans h7,
    g8.trans h8⟩

end Session

def World.keeps (me : Nat) : WorldOrder where
  rel w w' := me < w.sessions.size → me < w'.sessions.size ∧ (w.session me).Agrees (w'.session me)
  refl _ h := ⟨h, Session.Agrees.refl _⟩
  trans h₁ h₂ h := ⟨(h₂ (h₁ h).1).1, (h₁ h).2.trans (h₂ (h₁ h).1).2⟩

def World.keepsStatus (me : Nat) : WorldOrder where
  rel w w' := me < w.sessions.size → me < w'.sessions.size ∧ (w'.session me).status = (w.session me).status
  refl _ h := ⟨h, rfl⟩
  trans h₁ h₂ h := ⟨(h₂ (h₁ h).1).1, (h₂ (h₁ h).1).2.trans (h₁ h).2⟩

namespace World
variable {me i : Nat} {f : Session → Session}

theorem keeps_modifySession (w : World) (hf : ∀ s : Session, s.Agrees (f s)) :
    (World.keeps me).rel w (w.modifySession i f) := by
  intro h
  refine ⟨by simpa using h, ?_⟩
  rw [session_modifySession _ _ _ h]
  split
  · exact hf _
  · exact Session.Agrees.refl _

theorem keeps_push {w w' : World} {s : Session} (hw : w'.sessions = w.sessions.push s) :
    (World.keeps me).rel w w' := by
  intro h
  have hs : w'.session me = w.session me := by
    simp [session, hw, Array.getD, h, Array.getElem_push, Nat.lt_succ_of_lt h]
  exact ⟨by rw [hw]; simp; omega, hs ▸ Session.Agrees.refl _⟩

theorem keeps_schedule (w : World) (t : Nat) : (World.keeps me).rel w (w.schedule t) := by
  intro h; simpa [session] using And.intro h (Session.Agrees.refl (w.session me))

theorem keeps_wake (w : World) (t : Nat) : (World.keeps me).rel w (w.wake t) := by
  unfold wake
  split
  · exact (World.keeps me).trans (keeps_modifySession w fun s => by simp [Session.Agrees])
      (keeps_schedule _ t)
  · exact (World.keeps me).refl w

theorem keeps_post {w w' : World} {m : Nat} {env : Envelope} (h : w.post m env = .ok w') :
    (World.keeps me).rel w w' := by
  unfold post at h
  dsimp only at h
  split at h
  · cases h
  · split at h <;> cases h
    · exact fun hm => keeps_wake _ _ hm
    · exact (World.keeps me).refl w

theorem keeps_postQuiet (w : World) (m : Nat) (env : Envelope) :
    (World.keeps me).rel w (w.postQuiet m env) := by
  unfold postQuiet
  split
  · exact keeps_post ‹_›
  · exact (World.keeps me).refl w

theorem keeps_sendQuiet (w : World) (link : ParentLink) (e : Event) :
    (World.keeps me).rel w (w.sendQuiet link e) := by
  unfold sendQuiet
  split
  · exact keeps_post ‹_›
  · exact (World.keeps me).refl w

theorem keepsStatus_of_keeps {w w' : World} (h : (World.keeps me).rel w w') :
    (World.keepsStatus me).rel w w' := fun hm => ⟨(h hm).1, (h hm).2.1⟩

theorem keepsStatus_modifySession (w : World) (hf : ∀ s : Session, (f s).status = s.status) :
    (World.keepsStatus me).rel w (w.modifySession i f) := by
  intro h
  refine ⟨by simpa using h, ?_⟩
  rw [session_modifySession _ _ _ h]
  split
  · exact hf _
  · rfl

end World

namespace Engine
variable {me : Nat}

theorem Keeps.status {ε α : Type} {x : ExceptT ε (StateM World) α} (h : Keeps (World.keeps me) x) :
    Keeps (World.keepsStatus me) x :=
  h.mono fun _ _ => World.keepsStatus_of_keeps

theorem keeps_update (i : Nat) {f : Session → Session} (hf : ∀ s : Session, s.Agrees (f s)) :
    Keeps (World.keeps me) (update i f) := fun w => World.keeps_modifySession w hf

theorem keeps_modify {ε : Type} {f : World → World} (hf : ∀ w, (World.keeps me).rel w (f w)) :
    Keeps (World.keeps me) (modify f : ExceptT ε (StateM World) PUnit) := hf

theorem keeps_get {ε : Type} : Keeps (World.keeps me) (get : ExceptT ε (StateM World) World) :=
  (World.keeps me).refl

theorem keeps_throw {ε α : Type} (e : ε) :
    Keeps (World.keeps me) (throw e : ExceptT ε (StateM World) α) :=
  (World.keeps me).refl

theorem keeps_post (m : Nat) (env : Envelope) : Keeps (World.keeps me) (post m env) := by
  intro w
  simp only [post, eval_bind, eval_get]
  split
  · exact World.keeps_post ‹_›
  · exact (World.keeps me).refl w

theorem keeps_raiseInternal (i : Nat) (e : Event) : Keeps (World.keeps me) (raiseInternal i e) :=
  keeps_update i fun s => by simp [Session.Agrees]

theorem keeps_publish (i : Nat) : Keeps (World.keeps me) (publish i) :=
  keeps_update i fun s => by simp [Session.Agrees]

theorem keeps_cancelChild (c : ChildHandle) : Keeps (World.keeps me) (cancelChild c) := by
  unfold cancelChild
  split
  · exact keeps_modify fun w => World.keeps_postQuiet w _ _
  · exact Keeps.pure _

theorem keeps_cancelInvoke (i : Nat) (invokeId : String) :
    Keeps (World.keeps me) (cancelInvoke i invokeId) := by
  unfold cancelInvoke
  refine Keeps.bind (World.keeps me).refl fun s => ?_
  split
  · exact Keeps.bind (keeps_update i fun s => by simp [Session.Agrees]) fun _ => keeps_cancelChild _
  · exact Keeps.pure _

theorem keeps_cancelInvokesOf (i : Nat) (doc : Document) (st : Nat) :
    Keeps (World.keeps me) (cancelInvokesOf i doc st) := by
  unfold cancelInvokesOf
  refine Keeps.forM fun n _ => ?_
  split
  · exact keeps_cancelInvoke _ _
  · exact Keeps.pure _

theorem eval_deliver_internal (i : Nat) (e : Event) (w : World) :
    eval (deliver i e (some "_internal")) w = eval (raiseInternal i { e with kind := .internal }) w := by
  simp only [deliver, eval_bind, eval_current]
  rfl

/-- Delivering anywhere but the internal queue posts to a mailbox, sends through the link to the
invoking session, or fails leaving the world as it was. -/
theorem deliver_cases (i : Nat) (e : Event) {target : Option String} (ht : target ≠ some "_internal")
    (w : World) :
    (∃ m env, eval (deliver i e target) w = eval (post m env) w) ∨
    (∃ link, eval (deliver i e target) w = match w.send link e with
      | .ok w' => (.ok (), w')
      | .error err => (.error err, w)) ∨
    (∃ err, eval (deliver i e target) w = (.error err, w)) := by
  unfold deliver
  rw [eval_bind, eval_current]
  dsimp only
  split
  · exact .inl ⟨_, _, rfl⟩
  · split
    · exact .inl ⟨_, _, rfl⟩
    · split
      · simp_all
      · split
        · split
          · rename_i link _
            refine .inr (.inl ⟨link, ?_⟩)
            rw [eval_bind, eval_get]
            dsimp only
            rcases w.send link e with err | w' <;> rfl
          · exact .inr (.inr ⟨_, rfl⟩)
        · split
          · exact .inl ⟨_, _, rfl⟩
          · split
            · exact .inl ⟨_, _, rfl⟩
            · exact .inr (.inr ⟨_, rfl⟩)

theorem keeps_deliver (i : Nat) (e : Event) (target : Option String) :
    Keeps (World.keeps me) (deliver i e target) := by
  intro w
  by_cases ht : target = some "_internal"
  · subst ht
    rw [eval_deliver_internal]
    exact keeps_raiseInternal _ _ w
  · rcases deliver_cases i e ht w with ⟨m, env, h⟩ | ⟨link, h⟩ | ⟨err, h⟩ <;> rw [h]
    · exact keeps_post m env w
    · split
      · exact World.keeps_post ‹_›
      · exact (World.keeps me).refl w
    · exact (World.keeps me).refl w

theorem keeps_route (i : Nat) (out : List Outgoing) : Keeps (World.keeps me) (route i out) := by
  induction out with
  | nil => exact Keeps.pure _
  | cons o rest ih =>
    cases o with
    | raise e => exact Keeps.bind (keeps_raiseInternal _ _) fun _ => ih
    | send e target =>
      refine Keeps.bind (fun w => by simpa using @keeps_deliver me i e target w) fun r => ?_
      dsimp only
      split
      · exact ih
      · exact Keeps.bind (keeps_raiseInternal _ _) fun _ => ih

theorem keeps_spawnChild (i : Nat) (node : InvokeNode Document) (doc : Document) :
    Keeps (World.keeps me) (spawnChild i node doc) := by
  unfold spawnChild
  refine Keeps.get_bind fun w => ?_
  simp only [Bool.not_eq_eq_eq_not, Bool.not_true]
  split
  · exact (World.keeps me).refl w
  · split
    · exact (World.keeps me).refl w
    · simp only [eval_bind, eval_set, eval_pure, World.addMailbox]
      exact (World.keeps me).trans (World.keeps_push rfl) (World.keeps_schedule _ _)

theorem keeps_startService (i : Nat) (invokeId src : String) (svc : ExternalService) :
    Keeps (World.keeps me) (startService i invokeId src svc) := by
  unfold startService
  refine Keeps.bind (keeps_modify fun w h => ⟨h, Session.Agrees.refl _⟩) fun _ => ?_
  split
  · exact keeps_throw _
  · refine Keeps.bind keeps_get fun w => ?_
    refine Keeps.bind (Keeps.forM fun e _ => keeps_modify fun w => World.keeps_sendQuiet w _ e)
      fun _ => ?_
    refine Keeps.get_bind fun w => ?_
    simp only [eval_bind, eval_set, eval_pure, World.addMailbox]
    exact fun h => ⟨h, Session.Agrees.refl _⟩

/-- Keeping the handle of a started invocation, and cancelling one it replaces, keeps every
session in place. -/
theorem keeps_keepHandle (i : Nat) (node : InvokeNode Document) (child : ChildHandle) :
    Keeps (World.keeps me) (do
      let s := (← get).session i
      match s.child? node.id with
      | some previous =>
        modify (·.modifySession i fun s => { s with
          children := s.children.map fun p => if p.1 == node.id then (node.id, child) else p })
        if previous.status == .invoked then modify (·.postQuiet previous.mailbox .cancel)
      | none =>
        modify (·.modifySession i fun s => { s with children := s.children ++ [(node.id, child)] }) :
        Launch Unit) := by
  refine Keeps.bind keeps_get fun w => ?_
  dsimp only
  split
  · refine Keeps.bind (keeps_modify fun w => World.keeps_modifySession w fun s => by
      simp [Session.Agrees]) fun _ => ?_
    split
    · exact keeps_modify fun w => World.keeps_postQuiet w _ _
    · exact Keeps.pure _
  · exact keeps_modify fun w => World.keeps_modifySession w fun s => by simp [Session.Agrees]

theorem keeps_startInvoke (i : Nat) (node : InvokeNode Document) :
    Keeps (World.keeps me) (startInvoke i node) := by
  unfold startInvoke
  dsimp only
  -- every way of starting ends by keeping the new handle
  split
  · exact Keeps.bind (keeps_spawnChild _ _ _) (keeps_keepHandle i node)
  · refine Keeps.bind keeps_get fun w => ?_
    split
    · exact Keeps.bind (keeps_throw _) (keeps_keepHandle i node)
    · exact Keeps.bind (keeps_spawnChild _ _ _) (keeps_keepHandle i node)
    · exact Keeps.bind (keeps_startService _ _ _ _) (keeps_keepHandle i node)

theorem keeps_startInvokes (w : World) :
    (World.keeps me).rel (w.modifySession me fun s => { s with toInvoke := {} })
      (eval (startInvokes me) w).2 := by
  unfold startInvokes
  simp only [eval_bind, eval_current, eval_update]
  refine Keeps.forM (fun st _ => Keeps.forM fun n _ => ?_) _
  split
  · refine Keeps.bind (fun w => by simpa using keeps_startInvoke me _ w) fun r => ?_
    split
    · exact Keeps.pure _
    · exact keeps_raiseInternal _ _
  · exact Keeps.pure _

theorem eval_startInvokes_of_isEmpty (w : World) (h : (w.session me).toInvoke.items = []) :
    eval (startInvokes me) w = (.ok (), w.modifySession me fun s => { s with toInvoke := {} }) := by
  unfold startInvokes
  simp only [eval_bind, eval_current, eval_update, h, sortBy, List.mergeSort_nil]
  rfl

theorem keepsStatus_update (i : Nat) {f : Session → Session} (hf : ∀ s : Session, (f s).status = s.status) :
    Keeps (World.keepsStatus me) (update i f) := fun w => World.keepsStatus_modifySession w hf

theorem keepsStatus_runOn (i owner : Nat) (e : Event) (cmds : List Command) :
    Keeps (World.keepsStatus me) (runOn i owner e cmds) := by
  unfold runOn
  refine Keeps.get_bind fun w => ?_
  simp only [eval_bind, eval_set]
  generalize execute _ _ _ _ _ = r
  -- the content's data bag replaces the owner's; only the effects outside the sessions grow
  have hset : (World.keepsStatus me).rel w ({ w with effects := w.effects ++ r.effects.toArray }.modifySession
      owner fun o => { o with data := r.data }) :=
    World.keepsStatus_modifySession _ fun _ => rfl
  refine (World.keepsStatus me).trans hset ?_
  split
  · exact (World.keepsStatus me).refl _
  · exact (keeps_route i _).status _

theorem keepsStatus_exec (i : Nat) (cmds : List Command) : Keeps (World.keepsStatus me) (exec i cmds) := by
  unfold exec
  split
  · exact Keeps.pure _
  · exact Keeps.bind (World.keepsStatus me).refl fun _ => keepsStatus_runOn _ _ _ _

/-! ### Tearing down, in two parts -/

/-- One exit of a teardown of `s`: the state runs its exit content, has its invocations cancelled
and leaves the configuration; a top-level final state's done data replaces what was chosen. -/
def exitOne (me : Nat) (s : Session) (done : Option Json.Value) (st : Nat) :
    Engine (Option Json.Value) := do
  exec me (s.doc.state st).onExit
  cancelInvokesOf me s.doc st
  update me fun s => { s with configuration := s.configuration.erase st }
  pure (if (s.doc.state st).mode == .final && (s.doc.state st).parent == some 0 then
    some ((s.doc.state st).doneData.getD .null) else done)

/-- What a teardown does once its exits chose the done data `done`: the invocations left are
cancelled and dropped with the queues, the done data is kept and sent through `parent`, and the
configuration is published. -/
def closeDown (me : Nat) (parent : Option ParentLink) (done : Option Json.Value) : Engine Unit := do
  (← current me).children.forM fun c => cancelChild c.2
  update me fun s => { s with children := [], toInvoke := {}, internal := [] }
  if let some data := done then
    if let some link := parent then modify (·.sendQuiet link (Event.doneInvoke link.invokeId data))
    update me fun s => { s with doneData := some data }
  publish me

theorem teardown_eq : teardown me = (do
    let s ← current me
    let done ← (sortBy s.doc.exitCmp s.configuration.items).foldlM (exitOne me s) none
    closeDown me s.parent done) :=
  rfl

theorem Keeps.teardown {R : WorldOrder} (hexit : ∀ s done st, Keeps R (exitOne me s done st))
    (hclose : ∀ parent done, Keeps R (closeDown me parent done)) : Keeps R (teardown me) := by
  rw [teardown_eq]
  exact Keeps.bind R.refl fun s => Keeps.bind (Keeps.foldlM (hexit s) _ _) fun _ => hclose _ _

/-- Closing down keeps an order that every step keeping session `me` in place keeps, as long as
the order allows its two updates. -/
theorem Keeps.closeDown {R : WorldOrder}
    (hk : ∀ {α : Type} {x : Engine α}, Keeps (World.keeps me) x → Keeps R x)
    (hclear : Keeps R (update me fun s => { s with children := [], toInvoke := {}, internal := [] }))
    (hdone : ∀ data, Keeps R (update me fun s => { s with doneData := some data }))
    (parent : Option ParentLink) (done : Option Json.Value) : Keeps R (closeDown me parent done) := by
  unfold Engine.closeDown
  refine Keeps.bind R.refl fun _ => Keeps.bind (hk (Keeps.forM fun c _ => keeps_cancelChild _)) fun _ => ?_
  refine Keeps.bind hclear fun _ => ?_
  split
  · split
    · exact Keeps.bind (hk (keeps_modify fun w => World.keeps_sendQuiet w _ _)) fun _ =>
        Keeps.bind (hdone _) fun _ => hk (keeps_publish _)
    · exact Keeps.bind (hdone _) fun _ => hk (keeps_publish _)
  · exact hk (keeps_publish _)

/-- Tearing a session down never changes its status. -/
theorem keepsStatus_teardown : Keeps (World.keepsStatus me) (teardown me) := by
  refine Keeps.teardown (fun _ _ _ => ?_) (Keeps.closeDown (fun h => h.status)
    (keepsStatus_update _ fun _ => rfl) fun _ => keepsStatus_update _ fun _ => rfl)
  exact Keeps.bind (keepsStatus_exec _ _) fun _ => Keeps.bind (keeps_cancelInvokesOf _ _ _).status fun _ =>
    Keeps.bind (keepsStatus_update _ fun _ => rfl) fun _ => Keeps.pure _

end Engine
end Hsm
