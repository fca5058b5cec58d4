import Hsm.Proofs.Frame
/-!
# What the steps of a session fail with

Selection fails only when a guard does (`Selector.select_error`), so looking for enabled
transitions does too (`Engine.nextEnabled_error`); a microstep fails only when executable content
does (`Engine.microstep_error`); routing what content produced, cancelling invocations, entering
a final state and starting invocations never fail.
-/

namespace Hsm

def SessionError.IsGuard (e : SessionError) : Prop := ∃ st reason, e = .guard st reason

def SessionError.IsContent (e : SessionError) : Prop := ∃ c, e = .content c

theorem except_bind_error {ε α β : Type} {x : Except ε α} {f : α → Except ε β} {e : ε}
    (h : (x >>= f) = .error e) : x = .error e ∨ ∃ a, x = .ok a ∧ f a = .error e := by
  cases x with
  | error e' => left; simpa [bind, Except.bind] using h
  | ok a => right; exact ⟨a, rfl, h⟩

namespace Selector
variable (sel : Selector) {d : Data} {ev : Event} {q : TransitionNode → Bool} {e : SessionError}

theorem firstOfLevel_error {level : Nat} {ts : List Nat}
    (h : sel.firstOfLevel d ev q level ts = .error e) : e.IsGuard := by
  induction ts with
  | nil => simp [firstOfLevel] at h; cases h
  | cons t ts ih =>
    simp only [firstOfLevel] at h
    split at h
    · exact ih h
    · split at h
      · cases h; exact ⟨_, _, rfl⟩
      · cases h
      · exact ih h

theorem firstOfChain_error {chain : List Nat} (h : sel.firstOfChain d ev q chain = .error e) :
    e.IsGuard := by
  induction chain with
  | nil => simp [firstOfChain] at h; cases h
  | cons level rest ih =>
    simp only [firstOfChain] at h
    rcases except_bind_error h with h | ⟨a, _, h⟩
    · exact sel.firstOfLevel_error h
    · cases a with
      | some t => cases h
      | none => exact ih h

/-- Selection fails only when a guard fails. -/
theorem select_error (h : sel.select d ev q = .error e) : e.IsGuard := by
  unfold Selector.select at h
  rcases except_bind_error h with h | ⟨a, _, h⟩
  · -- the fold over the active atomic states, from any set of transitions enabled so far
    unfold Selector.enabled Selector.enabledAlong at h
    generalize ({} : OrderedSet Nat) = init at h
    generalize sel.atomicStates = xs at h
    induction xs generalizing init with
    | nil => cases h
    | cons s rest ih =>
      simp only [List.foldlM] at h
      rcases except_bind_error h with h | ⟨b, _, h⟩
      · rcases except_bind_error h with h | ⟨c, _, h⟩
        · exact sel.firstOfChain_error h
        · cases c <;> cases h
      · exact ih b h
  · cases h

end Selector

namespace Engine
variable {α : Type}

theorem failsWith_update (i : Nat) (f : Session → Session) {p : SessionError → Prop} :
    FailsWith p (update i f) := FailsWith.modify _

theorem failsWith_current (i : Nat) {p : SessionError → Prop} : FailsWith p (current i) := by
  intro w e w' h; cases h

theorem failsWith_observe {p : SessionError → Prop} (x : Engine α) : FailsWith p (observe x) := by
  intro w e w' h; simp at h

theorem selectEventless_error (i : Nat) : FailsWith SessionError.IsGuard (selectEventless i) := by
  intro w e w' h
  rw [eval_selectEventless] at h
  split at h
  · cases h
  · cases h; exact Selector.select_error _ ‹_›

theorem selectCurrent_error (i : Nat) : FailsWith SessionError.IsGuard (selectCurrent i) := by
  intro w e w' h
  rw [eval_selectCurrent] at h
  split at h
  · cases h
  · cases h; exact Selector.select_error _ ‹_›

/-- Looking for enabled transitions fails only when a guard fails. -/
theorem nextEnabled_error (i : Nat) (q : List Event) :
    FailsWith SessionError.IsGuard (nextEnabled i q) := by
  induction q with
  | nil =>
    unfold nextEnabled
    refine FailsWith.bind (failsWith_update _ _) fun _ =>
      FailsWith.bind (selectEventless_error i) fun r => ?_
    split
    · exact FailsWith.pure _
    · exact FailsWith.pure _
  | cons e rest ih =>
    unfold nextEnabled
    refine FailsWith.bind (failsWith_update _ _) fun _ =>
      FailsWith.bind (selectEventless_error i) fun r => ?_
    split
    · exact FailsWith.pure _
    · refine FailsWith.bind (failsWith_update _ _) fun _ =>
        FailsWith.bind (selectCurrent_error i) fun r => ?_
      split
      · exact FailsWith.pure _
      · exact ih

theorem route_never (i : Nat) (out : List Outgoing) : FailsWith (fun _ => False) (route i out) := by
  induction out with
  | nil => exact FailsWith.pure _
  | cons o rest ih =>
    cases o with
    | raise e => exact FailsWith.bind (failsWith_update _ _) fun _ => ih
    | send e target =>
      simp only [route]
      refine FailsWith.bind (failsWith_observe _) fun r => ?_
      split
      · exact ih
      · exact FailsWith.bind (failsWith_update _ _) fun _ => ih

theorem runOn_error (i owner : Nat) (e : Event) (cmds : List Command) :
    FailsWith SessionError.IsContent (runOn i owner e cmds) := by
  unfold runOn
  refine FailsWith.get_bind fun w => FailsWith.bind (fun w e w' h => by cases h) fun _ => ?_
  split
  · exact FailsWith.throw _ ⟨_, rfl⟩
  · exact (route_never _ _).mono fun _ h => h.elim

theorem exec_error (i : Nat) (cmds : List Command) : FailsWith SessionError.IsContent (exec i cmds) := by
  unfold exec
  split
  · exact FailsWith.pure _
  · exact FailsWith.bind (failsWith_current _) fun s => runOn_error _ _ _ _

theorem cancelChild_never (c : ChildHandle) : FailsWith (fun _ => False) (cancelChild c) := by
  unfold cancelChild
  split
  · exact FailsWith.modify _
  · exact FailsWith.pure _

theorem cancelInvokesOf_never (i : Nat) (doc : Document) (st : Nat) :
    FailsWith (fun _ => False) (cancelInvokesOf i doc st) := by
  unfold cancelInvokesOf
  refine FailsWith.forM fun n _ => ?_
  split
  · unfold cancelInvoke
    refine FailsWith.bind (failsWith_current _) fun s => ?_
    split
    · exact FailsWith.bind (failsWith_update _ _) fun _ => cancelChild_never _
    · exact FailsWith.pure _
  · exact FailsWith.pure _

/-- Once the exits of a teardown have run, nothing fails. -/
theorem closeDown_never (i : Nat) (parent : Option ParentLink) (done : Option Json.Value) :
    FailsWith (fun _ => False) (closeDown i parent done) := by
  unfold closeDown publish
  refine FailsWith.bind (failsWith_current _) fun s => FailsWith.bind
    (FailsWith.forM fun c _ => cancelChild_never c.2) fun _ => FailsWith.bind (failsWith_update _ _) fun _ => ?_
  split
  · split
    · exact FailsWith.bind (FailsWith.modify _) fun _ =>
        FailsWith.bind (failsWith_update _ _) fun _ => failsWith_update _ _
    · exact FailsWith.bind (failsWith_update _ _) fun _ => failsWith_update _ _
  · exact failsWith_update _ _

theorem enterFinal_never (i st : Nat) : FailsWith (fun _ => False) (enterFinal i st) := by
  unfold enterFinal
  refine FailsWith.bind (failsWith_current _) fun s => ?_
  dsimp only
  split
  · exact failsWith_update _ _
  · refine FailsWith.bind (failsWith_update _ _) fun _ => ?_
    split
    · refine FailsWith.bind (failsWith_current _) fun s => ?_
      split
      · exact failsWith_update _ _
      · exact FailsWith.pure _
    · exact FailsWith.pure _

/-- A microstep fails only when executable content fails. -/
theorem microstep_error (i : Nat) (ts : List Nat) :
    FailsWith SessionError.IsContent (microstep i ts) := by
  unfold microstep exitStates enterStates
  refine FailsWith.bind ?_ fun _ => FailsWith.bind (failsWith_current _) fun s =>
    FailsWith.bind (FailsWith.forM fun t _ => exec_error _ _) fun _ => ?_
  · refine FailsWith.bind (failsWith_current _) fun s => FailsWith.bind (failsWith_update _ _) fun _ => ?_
    refine FailsWith.forM fun st _ => FailsWith.bind (exec_error _ _) fun _ => ?_
    exact FailsWith.bind ((cancelInvokesOf_never _ _ _).mono fun _ h => h.elim) fun _ =>
      failsWith_update _ _
  · refine FailsWith.bind (failsWith_current _) fun s => FailsWith.forM fun st _ => ?_
    refine FailsWith.bind (failsWith_update _ _) fun _ => FailsWith.bind (exec_error _ _) fun _ => ?_
    dsimp only
    -- the content of a default entry, then of a history default, then a final state's events
    have last : FailsWith SessionError.IsContent
        (if s.doc.isFinal st = true then enterFinal i st else pure () : Engine Unit) := by
      split
      · exact (enterFinal_never _ _).mono fun _ h => h.elim
      · exact FailsWith.pure _
    split
    on_goal 1 => split
    on_goal 1 => refine FailsWith.bind (exec_error _ _) fun _ => ?_
    -- each way through the default entry goes on with the history content
    all_goals
      split
      · exact FailsWith.bind (exec_error _ _) fun _ => last
      · exact last

theorem startInvokes_never (i : Nat) : FailsWith (fun _ => False) (startInvokes i) := by
  unfold startInvokes
  refine FailsWith.bind (failsWith_current _) fun s => FailsWith.bind (failsWith_update _ _) fun _ => ?_
  refine FailsWith.forM fun st _ => FailsWith.forM fun n _ => ?_
  split
  · refine FailsWith.bind (fun w e w' h => by simp at h) fun r => ?_
    split
    · exact FailsWith.pure _
    · exact failsWith_update _ _
  · exact FailsWith.pure _

theorem eval_startInvokes_ok (i : Nat) (w : World) : (eval (startInvokes i) w).1 = .ok () := by
  rcases h : eval (startInvokes i) w with ⟨r, w'⟩
  cases r with
  | ok u => rfl
  | error e => exact (startInvokes_never i w e w' h).elim

end Engine
end Hsm
