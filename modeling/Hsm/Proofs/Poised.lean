import Hsm.Proofs.Fatal
import Hsm.Proofs.Entry
/-!
# Where a step of a running session ends

Once a step's content has run, a session is either still running with no top-level final state
active or done with one active (`Session.Poised`, `Engine.Lands`). It needs only that every final
state has a parent (`Document.FinalsParented`), as in every compiled document.
-/

namespace Hsm

namespace Document

def TopFinal (d : Document) (st : Nat) : Prop :=
  (d.state st).mode = .final ∧ (d.state st).parent = some 0

def FinalsParented (d : Document) : Prop :=
  ∀ st, (d.state st).mode = .final → (d.state st).parent ≠ none

theorem topFinal_iff_of_isFinal {d : Document} (hd : d.FinalsParented) {st : Nat}
    (hf : d.isFinal st = true) : d.TopFinal st ↔ ((d.state st).parent.getD 0 == 0) = true := by
  have hmode : (d.state st).mode = .final := by simpa [isFinal] using hf
  unfold TopFinal
  rcases hp : (d.state st).parent with _ | p
  · exact absurd hp (hd st hmode)
  · simp [hmode]

end Document

namespace Session
variable (D : Document)

def Calm (s : Session) : Prop :=
  s.doc = D ∧ s.status = .running ∧ ∀ st ∈ s.configuration.items, ¬ D.TopFinal st

/-- A session on `D` whose step has run its content: still calm, or done with a top-level final
state active. -/
def Poised (s : Session) : Prop :=
  s.Calm D ∨ (s.doc = D ∧ s.status = .done ∧ ∃ st ∈ s.configuration.items, D.TopFinal st)

def SameShape (s s' : Session) : Prop :=
  s'.status = s.status ∧ s'.doc = s.doc ∧ s'.configuration = s.configuration

variable {D}

theorem Calm.poised {s : Session} (h : s.Calm D) : s.Poised D := .inl h

theorem Calm.of_shape {s s' : Session} (h : s.Calm D) (hs : s.SameShape s') : s'.Calm D := by
  obtain ⟨h₁, h₂, h₃⟩ := hs
  exact ⟨h₂ ▸ h.1, h₁ ▸ h.2.1, h₃ ▸ h.2.2⟩

theorem Poised.of_shape {s s' : Session} (h : s.Poised D) (hs : s.SameShape s') : s'.Poised D := by
  obtain ⟨h₁, h₂, h₃⟩ := hs
  rcases h with h | ⟨hd, hst, hf⟩
  · exact .inl (h.of_shape ⟨h₁, h₂, h₃⟩)
  · exact .inr ⟨h₂ ▸ hd, h₁ ▸ hst, h₃ ▸ hf⟩

theorem Poised.running {s : Session} (h : s.Poised D) (hr : s.isRunning = true) : s.Calm D := by
  rcases h with h | ⟨-, hst, -⟩
  · exact h
  · simp [isRunning, hst] at hr

end Session

/-- Session `me` stays in place and keeps its status, its document and its configuration. -/
def World.keepsShape (me : Nat) : WorldOrder where
  rel w w' := me < w.sessions.size → me < w'.sessions.size ∧ (w.session me).SameShape (w'.session me)
  refl _ h := ⟨h, rfl, rfl, rfl⟩
  trans h₁ h₂ h := by
    obtain ⟨h₁', a₁, b₁, c₁⟩ := h₁ h
    obtain ⟨h₂', a₂, b₂, c₂⟩ := h₂ h₁'
    exact ⟨h₂', a₂.trans a₁, b₂.trans b₁, c₂.trans c₁⟩

namespace World
variable {me i : Nat} {f : Session → Session}

theorem keepsShape_of_keeps {w w' : World} (h : (World.keeps me).rel w w') :
    (World.keepsShape me).rel w w' := fun hm =>
  ⟨(h hm).1, (h hm).2.1, (h hm).2.2.1, (h hm).2.2.2.2.1⟩

theorem keepsShape_modifySession (w : World) (hf : ∀ s : Session, s.SameShape (f s)) :
    (World.keepsShape me).rel w (w.modifySession i f) := by
  intro h
  refine ⟨by simpa using h, ?_⟩
  rw [session_modifySession _ _ _ h]
  split
  · exact hf _
  · exact ⟨rfl, rfl, rfl⟩

end World

namespace Engine
variable {α β : Type} {me : Nat} {D : Document}

theorem Keeps.shape {ε : Type} {x : ExceptT ε (StateM World) α} (h : Keeps (World.keeps me) x) :
    Keeps (World.keepsShape me) x :=
  h.mono fun _ _ => World.keepsShape_of_keeps

theorem keepsShape_update (i : Nat) {f : Session → Session} (hf : ∀ s : Session, s.SameShape (f s)) :
    Keeps (World.keepsShape me) (update i f) := fun w => World.keepsShape_modifySession w hf

theorem keepsShape_runOn (i owner : Nat) (e : Event) (cmds : List Command) :
    Keeps (World.keepsShape me) (runOn i owner e cmds) := by
  unfold runOn
  refine Keeps.get_bind fun w => ?_
  simp only [eval_bind, eval_set]
  generalize execute _ _ _ _ _ = r
  -- the content's data bag replaces the owner's; only the effects outside the sessions grow
  have hset : (World.keepsShape me).rel w ({ w with effects := w.effects ++ r.effects.toArray }.modifySession
      owner fun o => { o with data := r.data }) :=
    World.keepsShape_modifySession _ fun _ => ⟨rfl, rfl, rfl⟩
  refine (World.keepsShape me).trans hset ?_
  split
  · exact (World.keepsShape me).refl _
  · exact (keeps_route i _).shape _

theorem keepsShape_exec (i : Nat) (cmds : List Command) : Keeps (World.keepsShape me) (exec i cmds) := by
  unfold exec
  split
  · exact Keeps.pure _
  · exact Keeps.bind (World.keepsShape me).refl fun _ => keepsShape_runOn _ _ _ _

theorem keepsShape_selectEventless (i : Nat) : Keeps (World.keepsShape me) (selectEventless i) := by
  intro w
  rw [eval_selectEventless]
  split <;> exact (World.keepsShape me).refl w

theorem keepsShape_selectCurrent (i : Nat) : Keeps (World.keepsShape me) (selectCurrent i) := by
  intro w
  rw [eval_selectCurrent]
  split <;> exact (World.keepsShape me).refl w

theorem keepsShape_nextEnabled (i : Nat) (q : List Event) :
    Keeps (World.keepsShape me) (nextEnabled i q) := by
  induction q with
  | nil =>
    unfold nextEnabled
    refine Keeps.bind (keepsShape_update _ fun _ => ⟨rfl, rfl, rfl⟩) fun _ =>
      Keeps.bind (keepsShape_selectEventless _) fun en => ?_
    split
    · exact Keeps.pure _
    · exact Keeps.pure _
  | cons e rest ih =>
    unfold nextEnabled
    refine Keeps.bind (keepsShape_update _ fun _ => ⟨rfl, rfl, rfl⟩) fun _ =>
      Keeps.bind (keepsShape_selectEventless _) fun en => ?_
    split
    · exact Keeps.pure _
    · refine Keeps.bind (keepsShape_update _ fun _ => ⟨rfl, rfl, rfl⟩) fun _ =>
        Keeps.bind (keepsShape_selectCurrent _) fun en' => ?_
      split
      · exact Keeps.pure _
      · exact ih

theorem keepsShape_startInvokes : Keeps (World.keepsShape me) (startInvokes me) := fun w =>
  (World.keepsShape me).trans
    (World.keepsShape_modifySession (i := me) (f := fun s => { s with toInvoke := {} }) w
      fun _ => ⟨rfl, rfl, rfl⟩)
    (World.keepsShape_of_keeps (keeps_startInvokes w))

theorem keepsShape_applyFinalize (node : InvokeNode Document) (e : Event) :
    Keeps (World.keepsShape me) (applyFinalize me node e) := by
  unfold applyFinalize
  split
  · exact Keeps.pure _
  · refine Keeps.bind (World.keepsShape me).refl fun s => ?_
    split
    · exact (keeps_raiseInternal _ _).shape
    · exact keepsShape_runOn _ _ _ _

theorem keepsShape_autoforward (invokeId : String) (e : Event) :
    Keeps (World.keepsShape me) (autoforward me invokeId e) := by
  unfold autoforward
  refine Keeps.current_bind fun w => ?_
  split
  · split
    · exact World.keepsShape_of_keeps (World.keeps_postQuiet w _ _)
    · exact (World.keepsShape me).refl w
  · exact (World.keepsShape me).refl w

theorem keepsShape_finalizeAndForward (e : Event) :
    Keeps (World.keepsShape me) (finalizeAndForward me e) := by
  unfold finalizeAndForward
  refine Keeps.bind (World.keepsShape me).refl fun s => Keeps.forM fun st _ => Keeps.forM fun n _ => ?_
  split
  · rename_i node _
    have forward : Keeps (World.keepsShape me)
        (if node.autoforward = true then autoforward me node.id e else pure ()) := by
      split
      · exact keepsShape_autoforward _ _
      · exact Keeps.pure _
    dsimp only
    split
    · exact Keeps.bind (keepsShape_applyFinalize _ _) fun _ => forward
    · exact forward
  · exact Keeps.pure _

/-- From a world where session `me` exists and satisfies `P`, the step, whenever it succeeds,
leaves it satisfying `Q`. -/
def Lands (me : Nat) (P Q : Session → Prop) (x : Engine α) : Prop :=
  ∀ w a w', me < w.sessions.size → P (w.session me) → eval x w = (.ok a, w') →
    me < w'.sessions.size ∧ Q (w'.session me)

namespace Lands
variable {P Q R : Session → Prop}

theorem bind {x : Engine α} {f : α → Engine β} (hx : Lands me P Q x) (hf : ∀ a, Lands me Q R (f a)) :
    Lands me P R (x >>= f) := by
  intro w b w' hm hP h
  rw [eval_bind] at h
  rcases hx' : eval x w with ⟨_ | a, w₁⟩ <;> rw [hx'] at h
  · cases h
  · obtain ⟨hm₁, hQ⟩ := hx w a w₁ hm hP hx'
    exact hf a w₁ b w' hm₁ hQ h

theorem pure (a : α) (h : ∀ s, P s → Q s) : Lands me P Q (Pure.pure a : Engine α) := by
  intro w b w' hm hP hx
  cases hx
  exact ⟨hm, h _ hP⟩

theorem throw (e : SessionError) : Lands me P Q (throw e : Engine α) := by
  intro w b w' _ _ hx
  cases hx

theorem of_keepsShape {x : Engine α} (hx : Keeps (World.keepsShape me) x)
    (hP : ∀ s s', s.SameShape s' → P s → Q s') : Lands me P Q x := by
  intro w a w' hm hp h
  have hk := hx w hm
  rw [h] at hk
  exact ⟨hk.1, hP _ _ hk.2 hp⟩

theorem current_bind {f : Session → Engine β}
    (h : ∀ s, Lands me (fun s' => P s' ∧ s' = s) Q (f s)) : Lands me P Q (current me >>= f) := by
  intro w b w' hm hP hx
  rw [eval_bind, eval_current] at hx
  exact h _ w b w' hm ⟨hP, rfl⟩ hx

theorem mono {P' Q' : Session → Prop} {x : Engine α} (h : Lands me P Q x) (hP : ∀ s, P' s → P s)
    (hQ : ∀ s, Q s → Q' s) : Lands me P' Q' x := fun w a w' hm hp hx => by
  obtain ⟨hm', hq⟩ := h w a w' hm (hP _ hp) hx
  exact ⟨hm', hQ _ hq⟩

theorem current_bind_of {f : Session → Engine β} (h : ∀ s, Lands me P Q (f s)) :
    Lands me P Q (current me >>= f) :=
  current_bind fun s => (h s).mono (fun _ h => h.1) fun _ h => h

theorem forM {γ : Type} {xs : List γ} {f : γ → Engine PUnit} (h : ∀ a ∈ xs, Lands me P P (f a)) :
    Lands me P P (xs.forM f) := by
  induction xs with
  | nil => exact Lands.pure _ fun _ h => h
  | cons a as ih =>
    rw [forM_cons]
    exact (h a List.mem_cons_self).bind fun _ =>
      ih fun b hb => h b (List.mem_cons_of_mem _ hb)

end Lands

theorem lands_calm_of_keepsShape {x : Engine α} (hx : Keeps (World.keepsShape me) x) :
    Lands me (Session.Calm D) (Session.Calm D) x :=
  Lands.of_keepsShape hx fun _ _ hs h => h.of_shape hs

theorem lands_poised_of_keepsShape {x : Engine α} (hx : Keeps (World.keepsShape me) x) :
    Lands me (Session.Poised D) (Session.Poised D) x :=
  Lands.of_keepsShape hx fun _ _ hs h => h.of_shape hs

end Engine

theorem OrderedSet.erase_subset {α : Type} [BEq α] (s : OrderedSet α) (b : α) :
    (s.erase b).items ⊆ s.items := by
  unfold OrderedSet.erase OrderedSet.remove
  split
  · exact List.erase_subset
  · exact List.Subset.refl _

/-- Session `me` stays in place and keeps its status and document, while its configuration only
loses states. -/
def World.shrinks (me : Nat) : WorldOrder where
  rel w w' := me < w.sessions.size → me < w'.sessions.size ∧
    (w'.session me).status = (w.session me).status ∧ (w'.session me).doc = (w.session me).doc ∧
    (w'.session me).configuration.items ⊆ (w.session me).configuration.items
  refl _ h := ⟨h, rfl, rfl, List.Subset.refl _⟩
  trans h₁ h₂ h := by
    obtain ⟨h₁', a₁, b₁, c₁⟩ := h₁ h
    obtain ⟨h₂', a₂, b₂, c₂⟩ := h₂ h₁'
    exact ⟨h₂', a₂.trans a₁, b₂.trans b₁, List.Subset.trans c₂ c₁⟩

namespace Engine
variable {α β : Type} {me : Nat} {D : Document}

theorem Keeps.shrinks {ε : Type} {x : ExceptT ε (StateM World) α} (h : Keeps (World.keepsShape me) x) :
    Keeps (World.shrinks me) x :=
  h.mono fun _ _ h hm => ⟨(h hm).1, (h hm).2.1, (h hm).2.2.1, (h hm).2.2.2 ▸ List.Subset.refl _⟩

theorem shrinks_erase (st : Nat) :
    Keeps (World.shrinks me) (update me fun s => { s with configuration := s.configuration.erase st }) := by
  intro w hm
  refine ⟨by simpa using hm, ?_⟩
  rw [eval_update, World.session_modifySession_self _ _ hm]
  exact ⟨rfl, rfl, OrderedSet.erase_subset _ _⟩

theorem shrinks_exitStates (ts : List Nat) : Keeps (World.shrinks me) (exitStates me ts) := by
  unfold exitStates
  refine Keeps.bind (World.shrinks me).refl fun s => Keeps.bind ?_ fun _ => Keeps.forM fun st _ =>
    Keeps.bind (keepsShape_exec _ _).shrinks fun _ =>
      Keeps.bind (keeps_cancelInvokesOf _ _ _).shape.shrinks fun _ => shrinks_erase st
  exact Keeps.shrinks (keepsShape_update _ fun _ => ⟨rfl, rfl, rfl⟩)

theorem lands_exitStates (ts : List Nat) : Lands me (Session.Calm D) (Session.Calm D) (exitStates me ts) := by
  intro w a w' hm hc h
  have hk := shrinks_exitStates ts w hm
  rw [h] at hk
  obtain ⟨hm', hst, hdoc, hsub⟩ := hk
  exact ⟨hm', hdoc ▸ hc.1, hst ▸ hc.2.1, fun st hst' => hc.2.2 st (hsub hst')⟩

end Engine

namespace Session
variable {D : Document}

theorem Poised.doc {s : Session} (h : s.Poised D) : s.doc = D := by
  rcases h with h | h
  · exact h.1
  · exact h.1

/-- A session on `D` just after entry added `st` to its configuration, what `st` makes of it still
to be settled: running with `st` the only top-level final state that may be active, or done with
one active. -/
def Entering (D : Document) (st : Nat) (s : Session) : Prop :=
  st ∈ s.configuration.items ∧ s.doc = D ∧
    ((s.status = .running ∧ ∀ x ∈ s.configuration.items, D.TopFinal x → x = st) ∨
      (s.status = .done ∧ ∃ x ∈ s.configuration.items, D.TopFinal x))

theorem Entering.of_shape {st : Nat} {s s' : Session} (h : s.Entering D st) (hs : s.SameShape s') :
    s'.Entering D st := by
  obtain ⟨h₁, h₂, h₃⟩ := hs
  unfold Entering
  rw [h₁, h₂, h₃]
  exact h

theorem Entering.poised {st : Nat} {s : Session} (h : s.Entering D st) (hst : ¬ D.TopFinal st) :
    s.Poised D := by
  obtain ⟨-, hd, ⟨hr, hx⟩ | hdone⟩ := h
  · exact .inl ⟨hd, hr, fun x hmem htop => hst (hx x hmem htop ▸ htop)⟩
  · exact .inr ⟨hd, hdone⟩

theorem Poised.add {s : Session} (h : s.Poised D) (st : Nat) (t : OrderedSet Nat) :
    ({ s with configuration := s.configuration.add st, toInvoke := t } : Session).Entering D st := by
  refine ⟨OrderedSet.mem_add.2 (.inr rfl), h.doc, ?_⟩
  rcases h with ⟨-, hr, hc⟩ | ⟨-, hd, x, hx, htop⟩
  · refine .inl ⟨hr, fun x hx htop => ?_⟩
    rcases OrderedSet.mem_add.1 hx with hx | rfl
    · exact absurd htop (hc x hx)
    · rfl
  · exact .inr ⟨hd, x, OrderedSet.mem_add.2 (.inl hx), htop⟩

end Session

namespace Engine
variable {α β : Type} {me : Nat} {D : Document}

/-- Entering a final state: a top-level one marks the session done; another only raises
`done.state` events. -/
theorem lands_enterFinal (hD : D.FinalsParented) {st : Nat} (hf : D.isFinal st = true) :
    Lands me (Session.Entering D st) (Session.Poised D) (enterFinal me st) := by
  intro w a w' hm hE h
  unfold enterFinal at h
  rw [eval_bind, eval_current] at h
  dsimp only at h
  rw [hE.2.1] at h
  split at h
  · -- a top-level final state: the session is done with it active
    rename_i htop
    rw [eval_update] at h
    cases h
    refine ⟨by simpa using hm, ?_⟩
    rw [World.session_modifySession_self _ _ hm]
    exact .inr ⟨hE.2.1, rfl, st, hE.1, (Document.topFinal_iff_of_isFinal hD hf).2 htop⟩
  · rename_i htop
    have hnot : ¬ D.TopFinal st := fun h => htop ((Document.topFinal_iff_of_isFinal hD hf).1 h)
    refine Lands.of_keepsShape ?_ (fun _ _ hs hE' => (hE'.of_shape hs).poised hnot) w a w' hm hE h
    -- only `done.state` events are raised
    refine Keeps.bind (keeps_raiseInternal _ _).shape fun _ => ?_
    split
    · refine Keeps.bind (World.keepsShape me).refl fun s => ?_
      split
      · exact (keeps_raiseInternal _ _).shape
      · exact Keeps.pure _
    · exact Keeps.pure _

/-- Entering states leaves a poised session poised: each top-level final state entered marks it
done, and nothing leaves the configuration. -/
theorem lands_enterStates (hD : D.FinalsParented) (ts : List Nat) :
    Lands me (Session.Poised D) (Session.Poised D) (enterStates me ts) := by
  unfold enterStates
  refine Lands.current_bind fun s => ?_
  intro w a w' hm hPs h
  obtain ⟨hP, hs⟩ := hPs
  have hsd : s.doc = D := hs ▸ hP.doc
  refine (Lands.forM fun st _ => ?_ : Lands me (Session.Poised D) (Session.Poised D) _) w a w' hm hP h
  -- the states's entry, its default-entry and history content, then what a final state does
  have last : Lands me (Session.Entering D st) (Session.Poised D)
      (if s.doc.isFinal st = true then enterFinal me st else pure () : Engine Unit) := by
    rw [hsd]
    split
    · exact lands_enterFinal hD ‹_›
    · rename_i hf
      refine Lands.pure _ fun s' hE => hE.poised fun htop => hf ?_
      simpa [Document.isFinal] using htop.1
  have content (cmds : List Command) :
      Lands me (Session.Entering D st) (Session.Entering D st) (exec me cmds) :=
    Lands.of_keepsShape (keepsShape_exec _ _) fun _ _ hs hE => hE.of_shape hs
  refine Lands.bind ?_ fun _ => (content _).bind fun _ => ?_
  · intro w₁ b w₂ hm₁ hP₁ h₁
    rw [eval_update] at h₁
    cases h₁
    refine ⟨by simpa using hm₁, ?_⟩
    rw [World.session_modifySession_self _ _ hm₁]
    exact hP₁.add st _
  dsimp only
  split
  on_goal 1 => split
  on_goal 1 => refine (content _).bind fun _ => ?_
  -- each way through the default entry goes on with the history content
  all_goals
    split
    · exact (content _).bind fun _ => last
    · exact last

theorem lands_microstep (hD : D.FinalsParented) (ts : List Nat) :
    Lands me (Session.Calm D) (Session.Poised D) (microstep me ts) := by
  unfold microstep
  refine Lands.bind (lands_exitStates ts) fun _ => Lands.current_bind_of fun s => ?_
  refine Lands.bind (Lands.forM fun t _ => lands_calm_of_keepsShape (keepsShape_exec _ _)) fun _ => ?_
  exact (lands_enterStates hD ts).mono (fun _ h => h.poised) fun _ h => h

theorem lands_drain (hD : D.FinalsParented) (limit left : Nat) :
    Lands me (Session.Poised D) (Session.Poised D) (drain me limit left) := by
  induction left with
  | zero =>
    unfold drain
    refine Lands.current_bind_of fun s => ?_
    split
    · exact Lands.pure _ fun _ h => h
    · refine Lands.current_bind_of fun s' =>
        Lands.bind (lands_poised_of_keepsShape (keepsShape_nextEnabled _ _)) fun r => ?_
      split
      · exact Lands.pure _ fun _ h => h
      · exact Lands.throw _
  | succ k ih =>
    unfold drain
    refine Lands.current_bind fun s => ?_
    split
    · exact Lands.pure _ fun _ h => h.1
    · rename_i hr
      -- the session runs, so no top-level final state is active
      have hcalm : ∀ s', (s'.Poised D ∧ s' = s) → s'.Calm D := fun s' ⟨hp, hs⟩ =>
        hp.running (by subst hs; simpa using hr)
      refine Lands.mono (P := Session.Calm D) ?_ hcalm fun _ h => h
      refine Lands.current_bind_of fun s' =>
        Lands.bind (lands_calm_of_keepsShape (keepsShape_nextEnabled _ _)) fun r => ?_
      split
      · exact Lands.pure _ fun _ h => h.poised
      · exact Lands.bind (lands_microstep hD _) fun _ => ih

theorem lands_rounds (hD : D.FinalsParented) (limit : Nat) :
    ∀ fuel left, Lands me (Session.Poised D) (Session.Poised D) (rounds me limit fuel left)
  | 0, _ => Lands.pure _ fun _ h => h
  | fuel + 1, left => by
    unfold rounds
    refine Lands.bind (lands_drain hD limit left) fun left' => Lands.current_bind_of fun s => ?_
    split
    · exact Lands.pure _ fun _ h => h
    · refine Lands.bind (lands_poised_of_keepsShape keepsShape_startInvokes) fun _ =>
        Lands.current_bind_of fun s' => ?_
      split
      · exact Lands.pure _ fun _ h => h
      · exact lands_rounds hD limit fuel left'

theorem lands_macrostep (hD : D.FinalsParented) :
    Lands me (Session.Poised D) (Session.Poised D) (macrostep me) := by
  unfold macrostep
  refine Lands.current_bind_of fun s => Lands.bind (lands_rounds hD _ _ _) fun b => ?_
  split
  · exact lands_poised_of_keepsShape (keeps_publish _).shape
  · exact Lands.pure _ fun _ h => h

/-- Processing an external event from a calm session leaves it poised. -/
theorem lands_processExternal (hD : D.FinalsParented) (e : Event) :
    Lands me (Session.Calm D) (Session.Poised D) (processExternal me e) := by
  have last (enabled : OrderedSet Nat) : Lands me (Session.Calm D) (Session.Poised D)
      (if (!enabled.isEmpty) = true then microstep me enabled.items >>= fun _ => macrostep me
        else macrostep me) := by
    split
    · exact Lands.bind (lands_microstep hD _) fun _ => lands_macrostep hD
    · exact (lands_macrostep hD).mono (fun _ h => h.poised) fun _ h => h
  have rest : Lands me (Session.Calm D) (Session.Poised D) (do
      update me fun s => { s with event := e }
      finalizeAndForward me e
      let enabled ← selectCurrent me
      if !enabled.isEmpty then microstep me enabled.items
      macrostep me) :=
    Lands.bind (lands_calm_of_keepsShape (keepsShape_update _ fun _ => ⟨rfl, rfl, rfl⟩)) fun _ =>
      Lands.bind (lands_calm_of_keepsShape (keepsShape_finalizeAndForward _)) fun _ =>
        Lands.bind (lands_calm_of_keepsShape (keepsShape_selectCurrent _)) last
  unfold processExternal
  split
  · split
    · exact Lands.bind (lands_calm_of_keepsShape (keepsShape_update _ fun _ => ⟨rfl, rfl, rfl⟩))
        fun _ => rest
    · exact rest
  · exact rest

theorem lands_enterInitial (hD : D.FinalsParented) :
    Lands me (Session.Calm D) (Session.Poised D) (enterInitial me) := by
  unfold enterInitial
  refine Lands.current_bind_of fun s => ?_
  split
  · exact Lands.bind (lands_microstep hD _) fun _ => lands_macrostep hD
  · exact (lands_macrostep hD).mono (fun _ h => h.poised) fun _ h => h

end Engine
end Hsm
