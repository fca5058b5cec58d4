import Hsm.Proofs.Fatal
import Hsm.Request.Session
/-!
# Content calls only registered scripts

Every command the interpreter runs comes from the document of its session, and a session is made
only for a document that calls registered scripts, so no content fails on an unknown script. The
invariant is `World.ScriptsUnder`, kept by every step and host call (`HostAct.scriptsUnder_run`).
-/

namespace Hsm

def Hooks.Knows (h : Hooks) (cmds : List Command) : Prop :=
  ∀ src, Command.script src ∈ cmds → h.hasScript src = true

theorem Hooks.Knows.of_subset {h : Hooks} {cmds cmds' : List Command} (hk : h.Knows cmds)
    (hs : ∀ c ∈ cmds', c ∈ cmds) : h.Knows cmds' :=
  fun src hc => hk src (hs _ hc)

theorem Hooks.isSome_script? {h : Hooks} {src : String} (hs : h.hasScript src = true) :
    (h.script? src).isSome = true := by
  simp only [Hooks.hasScript, List.any_eq_true, beq_iff_eq] at hs
  simp only [Hooks.script?, Option.isSome_map, List.find?_isSome, beq_iff_eq]
  exact hs

/-- Content made only of registered scripts does not fail on an unknown one. -/
theorem execute_error_known (session : String) (e : Event) {h : Hooks} {cmds : List Command}
    (hk : h.Knows cmds) (d : Data) (src : String) :
    (execute h session e cmds d).error ≠ some (.unknownScript src) := by
  induction cmds generalizing d with
  | nil => simp [execute]
  | cons c cs ih =>
    have hrest := ih (hk.of_subset fun c hc => List.mem_cons_of_mem _ hc)
    cases c with
    | assign a =>
      rcases hap : a.update.apply d e with reason | d'
      · simp [execute, hap]
      · simpa [execute, hap] using hrest _
    | script s =>
      have hknown := Hooks.isSome_script? (hk s List.mem_cons_self)
      rcases hscr : h.script? s with _ | _ | reason
      · simp [hscr] at hknown
      · simpa [execute, hscr] using hrest _
      · simp [execute, hscr]
    | send a => simpa [execute] using hrest _
    | raise n => simpa [execute] using hrest _
    | log l => simpa [execute] using hrest _

/-- The commands of a document: the entry and exit content of every state, the content of every
transition and the finalize content of every invocation, as `Document.unknownScript` reads
them. -/
def Document.commands (d : Document) : List Command :=
  d.states.toList.flatMap (fun s => s.onEntry ++ s.onExit) ++
    d.transitions.toList.flatMap (·.content) ++ d.invokes.toList.flatMap (·.finalize)

theorem Document.knows_commands {d : Document} {h : Hooks} (hd : d.unknownScript h = none) :
    h.Knows d.commands := by
  intro src hc
  have hnone := List.findSome?_eq_none_iff.1 hd _ hc
  simp only at hnone
  split at hnone
  · assumption
  · cases hnone

section
variable {d : Document} {h : Hooks} (hd : d.unknownScript h = none)
include hd

theorem Document.knows_onEntry (st : Nat) : h.Knows (d.state st).onEntry := by
  refine (knows_commands hd).of_subset fun c hc => ?_
  unfold state at hc
  rw [Array.getD_eq_getD_getElem?] at hc
  rcases hs : d.states[st]? with _ | s
  · rw [hs, Option.getD_none] at hc
    exact absurd hc List.not_mem_nil
  · rw [hs, Option.getD_some] at hc
    simp only [commands, List.mem_append, List.mem_flatMap]
    exact .inl (.inl ⟨s, Array.mem_toList_iff.2 (Array.mem_of_getElem? hs), .inl hc⟩)

theorem Document.knows_onExit (st : Nat) : h.Knows (d.state st).onExit := by
  refine (knows_commands hd).of_subset fun c hc => ?_
  unfold state at hc
  rw [Array.getD_eq_getD_getElem?] at hc
  rcases hs : d.states[st]? with _ | s
  · rw [hs, Option.getD_none] at hc
    exact absurd hc List.not_mem_nil
  · rw [hs, Option.getD_some] at hc
    simp only [commands, List.mem_append, List.mem_flatMap]
    exact .inl (.inl ⟨s, Array.mem_toList_iff.2 (Array.mem_of_getElem? hs), .inr hc⟩)

theorem Document.knows_content (t : Nat) : h.Knows (d.transition t).content := by
  refine (knows_commands hd).of_subset fun c hc => ?_
  unfold transition at hc
  rw [Array.getD_eq_getD_getElem?] at hc
  rcases ht : d.transitions[t]? with _ | tr
  · rw [ht, Option.getD_none] at hc
    exact absurd hc List.not_mem_nil
  · rw [ht, Option.getD_some] at hc
    simp only [commands, List.mem_append, List.mem_flatMap]
    exact .inl (.inr ⟨tr, Array.mem_toList_iff.2 (Array.mem_of_getElem? ht), hc⟩)

theorem Document.knows_finalize {i : Nat} {node : InvokeNode Document} (hn : d.invoke? i = some node) :
    h.Knows node.finalize := by
  refine (knows_commands hd).of_subset fun c hc => ?_
  simp only [commands, List.mem_append, List.mem_flatMap]
  exact .inr ⟨node, Array.mem_toList_iff.2 (Array.mem_of_getElem? hn), hc⟩

end

def SessionError.IsUnknownScript (e : SessionError) : Prop := ∃ src, e = .content (.unknownScript src)

/-- A session calls only scripts of the hooks `h`, and did not end on an unknown script. -/
def Session.ScriptsKnown (h : Hooks) (s : Session) : Prop :=
  s.doc.unknownScript h = none ∧ ∀ e, s.drive = .finished (.error e) → ¬ e.IsUnknownScript

def World.ScriptsUnder (h : Hooks) (w : World) : Prop :=
  w.registry.hooks = h ∧ ∀ i, (w.session i).ScriptsKnown h

namespace World
variable {h : Hooks} {w : World}

theorem ScriptsUnder.congr (hw : w.ScriptsUnder h) {w' : World} (hs : w'.sessions = w.sessions)
    (hr : w'.registry = w.registry) : w'.ScriptsUnder h :=
  ⟨by rw [hr]; exact hw.1, fun i => by simpa only [session, hs] using hw.2 i⟩

theorem ScriptsUnder.modifySession (hw : w.ScriptsUnder h) (i : Nat) {f : Session → Session}
    (hf : ∀ s, s.ScriptsKnown h → (f s).ScriptsKnown h) : (w.modifySession i f).ScriptsUnder h := by
  refine ⟨hw.1, fun j => ?_⟩
  rcases Nat.lt_or_ge j w.sessions.size with hj | hj
  · rw [session_modifySession _ _ _ hj]
    split
    · exact hf _ (hw.2 j)
    · exact hw.2 j
  · rw [session_modifySession_of_le hj]
    exact hw.2 j

theorem ScriptsUnder.update (hw : w.ScriptsUnder h) (i : Nat) {f : Session → Session}
    (hf : ∀ s, (f s).doc = s.doc ∧ (f s).drive = s.drive) : (w.modifySession i f).ScriptsUnder h :=
  hw.modifySession i fun s hs => by rw [Session.ScriptsKnown, (hf s).1, (hf s).2]; exact hs

theorem ScriptsUnder.schedule (hw : w.ScriptsUnder h) (t : Nat) : (w.schedule t).ScriptsUnder h := by
  unfold World.schedule
  split
  · exact hw
  · exact hw

theorem ScriptsUnder.wake (hw : w.ScriptsUnder h) (t : Nat) : (w.wake t).ScriptsUnder h := by
  unfold World.wake
  split
  · refine ScriptsUnder.schedule ?_ t
    refine hw.modifySession t fun s hs => ⟨hs.1, fun e he => ?_⟩
    cases he
  · exact hw

theorem ScriptsUnder.post (hw : w.ScriptsUnder h) {m : Nat} {env : Envelope} {w' : World}
    (hp : w.post m env = .ok w') : w'.ScriptsUnder h := by
  unfold World.post at hp
  dsimp only at hp
  split at hp
  · cases hp
  · split at hp <;> cases hp
    · refine ScriptsUnder.wake ?_ _
      exact hw.congr rfl rfl
    · exact hw.congr rfl rfl

theorem ScriptsUnder.postQuiet (hw : w.ScriptsUnder h) (m : Nat) (env : Envelope) :
    (w.postQuiet m env).ScriptsUnder h := by
  unfold World.postQuiet
  split
  · exact hw.post ‹_›
  · exact hw

theorem ScriptsUnder.sendQuiet (hw : w.ScriptsUnder h) (link : ParentLink) (e : Event) :
    (w.sendQuiet link e).ScriptsUnder h := by
  unfold World.sendQuiet
  split
  · exact hw.post ‹_›
  · exact hw

theorem ScriptsUnder.close (hw : w.ScriptsUnder h) (m : Nat) : (w.close m).ScriptsUnder h := hw

theorem ScriptsUnder.take (hw : w.ScriptsUnder h) (m : Nat) : (w.take m).2.ScriptsUnder h := by
  unfold World.take
  split
  · exact hw
  · exact hw.congr rfl rfl

theorem ScriptsUnder.push (hw : w.ScriptsUnder h) {w' : World} {s : Session}
    (hs : w'.sessions = w.sessions.push s) (hr : w'.registry = w.registry) (hk : s.ScriptsKnown h) :
    w'.ScriptsUnder h := by
  refine ⟨by rw [hr]; exact hw.1, fun j => ?_⟩
  rcases Nat.lt_trichotomy j w.sessions.size with hj | rfl | hj
  · rw [session_push hs hj]
    exact hw.2 j
  · simpa [session, hs, Array.getD] using hk
  · have hd : w'.session j = default := session_of_le (by rw [hs, Array.size_push]; omega)
    rw [hd, ← session_of_le (Nat.le_of_lt hj)]
    exact hw.2 j

end World

namespace Engine
variable {ε ε' α β : Type} {I : World → Prop} {p : ε → Prop}

/-- From a world where `I` holds, the step leaves a world where `I` holds, and fails only with
errors that satisfy `p`. -/
def Confined (I : World → Prop) (p : ε → Prop) (x : ExceptT ε (StateM World) α) : Prop :=
  ∀ w, I w → I (eval x w).2 ∧ ∀ e, (eval x w).1 = .error e → p e

namespace Confined

theorem pure (a : α) : Confined I p (Pure.pure a : ExceptT ε (StateM World) α) :=
  fun _ hw => ⟨hw, fun _ h => by cases h⟩

theorem throw {e : ε} (he : p e) : Confined I p (throw e : ExceptT ε (StateM World) α) :=
  fun _ hw => ⟨hw, fun _ h => by cases h; exact he⟩

theorem set {w' : World} (hw' : I w') : Confined I p (set w' : ExceptT ε (StateM World) PUnit) :=
  fun _ _ => ⟨hw', fun _ h => by cases h⟩

theorem modify {f : World → World} (hf : ∀ w, I w → I (f w)) :
    Confined I p (modify f : ExceptT ε (StateM World) PUnit) :=
  fun w hw => ⟨hf w hw, fun _ h => by cases h⟩

theorem bind {x : ExceptT ε (StateM World) α} {f : α → ExceptT ε (StateM World) β}
    (hx : Confined I p x) (hf : ∀ a, Confined I p (f a)) : Confined I p (x >>= f) := by
  intro w hw
  rw [eval_bind]
  obtain ⟨hw₁, he₁⟩ := hx w hw
  rcases h : eval x w with ⟨r, w₁⟩
  rw [h] at hw₁ he₁
  cases r with
  | error e => exact ⟨hw₁, fun e' he' => by cases he'; exact he₁ e rfl⟩
  | ok a => exact hf a w₁ hw₁

theorem forM {γ : Type} {xs : List γ} {f : γ → ExceptT ε (StateM World) PUnit}
    (hf : ∀ a ∈ xs, Confined I p (f a)) : Confined I p (xs.forM f) := by
  induction xs with
  | nil => exact pure _
  | cons a as ih =>
    rw [forM_cons]
    exact bind (hf a List.mem_cons_self) fun _ => ih fun b hb => hf b (List.mem_cons_of_mem _ hb)

theorem foldlM {γ : Type} {f : β → γ → ExceptT ε (StateM World) β} (hf : ∀ b c, Confined I p (f b c))
    (xs : List γ) (b : β) : Confined I p (xs.foldlM f b) := by
  induction xs generalizing b with
  | nil => exact pure _
  | cons c cs ih => exact bind (hf b c) fun b' => ih b'

theorem get_bind {f : World → ExceptT ε (StateM World) β} (hf : ∀ w, I w → Confined I p (f w)) :
    Confined I p (get >>= f) := by
  intro w hw
  rw [eval_bind, eval_get]
  exact hf w hw w hw

theorem current_bind {i : Nat} {f : Session → Engine β} {p : SessionError → Prop}
    (hf : ∀ w, I w → Confined I p (f (w.session i))) : Confined I p (current i >>= f) := by
  intro w hw
  rw [eval_bind, eval_current]
  exact hf w hw w hw

theorem of_failsWith {x : ExceptT ε (StateM World) α} (hk : ∀ w, I w → I (eval x w).2)
    (hf : FailsWith p x) : Confined I p x :=
  fun w hw => ⟨hk w hw, fun e he => hf w e _ (Prod.ext he rfl)⟩

theorem lift_run {q : ε' → Prop} {x : ExceptT ε' (StateM World) α} (hx : Confined I q x) :
    Confined I p (ExceptT.lift x.run : ExceptT ε (StateM World) (Except ε' α)) := by
  intro w hw
  rw [eval_lift_run]
  exact ⟨(hx w hw).1, fun _ h => by cases h⟩

end Confined

/-! ### Every step keeps the scripts known -/

section
variable {h : Hooks} {me : Nat}

theorem SessionError.not_unknownScript_of_refusal {e : SessionError} (he : e.isRefusal = true) :
    ¬ e.IsUnknownScript := by
  rintro ⟨src, rfl⟩
  cases he

theorem confined_update {p : SessionError → Prop} (i : Nat) {f : Session → Session}
    (hf : ∀ s, (f s).doc = s.doc ∧ (f s).drive = s.drive) :
    Confined (World.ScriptsUnder h) p (update i f) :=
  Confined.modify fun _ hw => hw.update i hf

theorem confined_raiseInternal {p : SessionError → Prop} (i : Nat) (e : Event) :
    Confined (World.ScriptsUnder h) p (raiseInternal i e) :=
  confined_update i fun _ => ⟨rfl, rfl⟩

theorem confined_publish {p : SessionError → Prop} (i : Nat) :
    Confined (World.ScriptsUnder h) p (publish i) :=
  confined_update i fun _ => ⟨rfl, rfl⟩

theorem confined_post (m : Nat) (env : Envelope) :
    Confined (World.ScriptsUnder h) (¬ ·.IsUnknownScript) (post m env) := by
  intro w hw
  refine ⟨?_, fun e he => SessionError.not_unknownScript_of_refusal
    (post_refused (Prod.ext he rfl : eval (post m env) w = (.error e, (eval (post m env) w).2))).1⟩
  rw [eval_post]
  split
  · exact hw.post ‹_›
  · exact hw

theorem confined_cancelChild {p : SessionError → Prop} (c : ChildHandle) :
    Confined (World.ScriptsUnder h) p (cancelChild c) := by
  unfold cancelChild
  split
  · exact Confined.modify fun _ hw => hw.postQuiet _ _
  · exact Confined.pure _

theorem confined_cancelInvoke {p : SessionError → Prop} (invokeId : String) :
    Confined (World.ScriptsUnder h) p (cancelInvoke me invokeId) := by
  unfold cancelInvoke
  refine Confined.current_bind fun w _ => ?_
  split
  · exact Confined.bind (confined_update _ fun _ => ⟨rfl, rfl⟩) fun _ => confined_cancelChild _
  · exact Confined.pure _

theorem confined_cancelInvokesOf {p : SessionError → Prop} (doc : Document) (st : Nat) :
    Confined (World.ScriptsUnder h) p (cancelInvokesOf me doc st) := by
  unfold cancelInvokesOf
  refine Confined.forM fun n _ => ?_
  split
  · exact confined_cancelInvoke _
  · exact Confined.pure _

theorem confined_deliver (e : Event) (target : Option String) :
    Confined (World.ScriptsUnder h) (¬ ·.IsUnknownScript) (deliver me e target) := by
  intro w hw
  refine ⟨?_, fun err he => SessionError.not_unknownScript_of_refusal
    (deliver_refused (Prod.ext he rfl : eval (deliver me e target) w = (.error err, _))).1⟩
  by_cases ht : target = some "_internal"
  · subst ht
    rw [eval_deliver_internal]
    exact (confined_raiseInternal (p := fun _ => True) me _ w hw).1
  · rcases deliver_cases me e ht w with ⟨m, env, hd⟩ | ⟨link, hd⟩ | ⟨err, hd⟩ <;> rw [hd]
    · exact (confined_post m env w hw).1
    · split
      · exact hw.post ‹_›
      · exact hw
    · exact hw

theorem confined_route (out : List Outgoing) :
    Confined (World.ScriptsUnder h) (¬ ·.IsUnknownScript) (route me out) := by
  induction out with
  | nil => exact Confined.pure _
  | cons o rest ih =>
    cases o with
    | raise e => exact Confined.bind (confined_raiseInternal _ _) fun _ => ih
    | send e target =>
      refine Confined.bind (Confined.lift_run (confined_deliver e target)) fun r => ?_
      split
      · exact ih
      · exact Confined.bind (confined_raiseInternal _ _) fun _ => ih

theorem confined_runOn (owner : Nat) (e : Event) {cmds : List Command} (hk : h.Knows cmds) :
    Confined (World.ScriptsUnder h) (¬ ·.IsUnknownScript) (runOn me owner e cmds) := by
  unfold runOn
  refine Confined.get_bind fun w hw => Confined.bind (Confined.set ?_) fun _ => ?_
  · exact (hw.congr rfl rfl).update owner fun _ => ⟨rfl, rfl⟩
  split
  · rename_i err herr
    refine Confined.throw ?_
    rintro ⟨src, hsrc⟩
    cases hsrc
    exact execute_error_known _ _ (hw.1 ▸ hk) _ src herr
  · exact confined_route _

theorem confined_exec {cmds : List Command} (hk : h.Knows cmds) :
    Confined (World.ScriptsUnder h) (¬ ·.IsUnknownScript) (exec me cmds) := by
  unfold exec
  split
  · exact Confined.pure _
  · exact Confined.current_bind fun _ _ => confined_runOn _ _ hk

theorem confined_exitStates (ts : List Nat) :
    Confined (World.ScriptsUnder h) (¬ ·.IsUnknownScript) (exitStates me ts) := by
  unfold exitStates
  refine Confined.current_bind fun w hw => ?_
  have hd := (hw.2 me).1
  refine Confined.bind (confined_update _ fun _ => ⟨rfl, rfl⟩) fun _ => Confined.forM fun st _ => ?_
  exact Confined.bind (confined_exec (Document.knows_onExit hd st)) fun _ =>
    Confined.bind (confined_cancelInvokesOf _ _) fun _ => confined_update _ fun _ => ⟨rfl, rfl⟩

theorem confined_enterFinal {p : SessionError → Prop} (st : Nat) :
    Confined (World.ScriptsUnder h) p (enterFinal me st) := by
  unfold enterFinal
  refine Confined.current_bind fun w _ => ?_
  dsimp only
  split
  · exact confined_update _ fun _ => ⟨rfl, rfl⟩
  · refine Confined.bind (confined_raiseInternal _ _) fun _ => ?_
    split
    · refine Confined.current_bind fun w' _ => ?_
      split
      · exact confined_raiseInternal _ _
      · exact Confined.pure _
    · exact Confined.pure _

theorem confined_enterStates (ts : List Nat) :
    Confined (World.ScriptsUnder h) (¬ ·.IsUnknownScript) (enterStates me ts) := by
  unfold enterStates
  refine Confined.current_bind fun w hw => Confined.forM fun st _ => ?_
  have hd := (hw.2 me).1
  refine Confined.bind (confined_update _ fun _ => ⟨rfl, rfl⟩) fun _ =>
    Confined.bind (confined_exec (Document.knows_onEntry hd st)) fun _ => ?_
  dsimp only
  -- the content of a default entry, then of a history default, then a final state's events
  have last : Confined (World.ScriptsUnder h) (¬ ·.IsUnknownScript)
      (if (w.session me).doc.isFinal st = true then enterFinal me st else pure () : Engine Unit) := by
    split
    · exact confined_enterFinal _
    · exact Confined.pure _
  split
  on_goal 1 => split
  on_goal 1 => refine Confined.bind (confined_exec (Document.knows_content hd _)) fun _ => ?_
  -- each way through the default entry goes on with the history content
  all_goals
    split
    · exact Confined.bind (confined_exec (Document.knows_content hd _)) fun _ => last
    · exact last

theorem confined_microstep (ts : List Nat) :
    Confined (World.ScriptsUnder h) (¬ ·.IsUnknownScript) (microstep me ts) := by
  unfold microstep
  refine Confined.bind (confined_exitStates _) fun _ => Confined.current_bind fun w hw => ?_
  exact Confined.bind (Confined.forM fun t _ => confined_exec (Document.knows_content (hw.2 me).1 t)) fun _ =>
    confined_enterStates _

theorem confined_selectEventless :
    Confined (World.ScriptsUnder h) (¬ ·.IsUnknownScript) (selectEventless me) := by
  refine Confined.of_failsWith (fun w hw => ?_) ((selectEventless_error me).mono ?_)
  · rw [eval_selectEventless]
    split <;> exact hw
  · rintro _ ⟨st, r, rfl⟩ ⟨src, hsrc⟩
    cases hsrc

theorem confined_selectCurrent :
    Confined (World.ScriptsUnder h) (¬ ·.IsUnknownScript) (selectCurrent me) := by
  refine Confined.of_failsWith (fun w hw => ?_) ((selectCurrent_error me).mono ?_)
  · rw [eval_selectCurrent]
    split <;> exact hw
  · rintro _ ⟨st, r, rfl⟩ ⟨src, hsrc⟩
    cases hsrc

theorem confined_nextEnabled (q : List Event) :
    Confined (World.ScriptsUnder h) (¬ ·.IsUnknownScript) (nextEnabled me q) := by
  induction q with
  | nil =>
    unfold nextEnabled
    refine Confined.bind (confined_update _ fun _ => ⟨rfl, rfl⟩) fun _ =>
      Confined.bind confined_selectEventless fun r => ?_
    split <;> exact Confined.pure _
  | cons e rest ih =>
    unfold nextEnabled
    refine Confined.bind (confined_update _ fun _ => ⟨rfl, rfl⟩) fun _ =>
      Confined.bind confined_selectEventless fun r => ?_
    split
    · exact Confined.pure _
    · refine Confined.bind (confined_update _ fun _ => ⟨rfl, rfl⟩) fun _ =>
        Confined.bind confined_selectCurrent fun r => ?_
      split
      · exact Confined.pure _
      · exact ih

theorem confined_drain (limit left : Nat) :
    Confined (World.ScriptsUnder h) (¬ ·.IsUnknownScript) (drain me limit left) := by
  induction left with
  | zero =>
    unfold drain
    refine Confined.current_bind fun _ _ => ?_
    split
    · exact Confined.pure _
    · refine Confined.current_bind fun _ _ => Confined.bind (confined_nextEnabled _) fun r => ?_
      split
      · exact Confined.pure _
      · exact Confined.throw fun ⟨src, hsrc⟩ => by cases hsrc
  | succ k ih =>
    unfold drain
    refine Confined.current_bind fun _ _ => ?_
    split
    · exact Confined.pure _
    · refine Confined.current_bind fun _ _ => Confined.bind (confined_nextEnabled _) fun r => ?_
      split
      · exact Confined.pure _
      · exact Confined.bind (confined_microstep _) fun _ => ih

/-- A child session is made only for a document whose scripts are all registered. -/
theorem confined_spawnChild (i : Nat) (node : InvokeNode Document) (doc : Document) :
    Confined (World.ScriptsUnder h) (fun _ : InvokeError => True) (spawnChild i node doc) := by
  intro w hw
  refine ⟨?_, fun _ _ => trivial⟩
  unfold spawnChild
  simp only [eval_bind, eval_get, Bool.not_eq_eq_eq_not, Bool.not_true]
  split
  · exact hw
  · split
    · exact hw
    · rename_i hnone
      simp only [eval_bind, eval_set, eval_pure, World.addMailbox]
      -- the new session reads a new mailbox and runs the checked document
      refine World.ScriptsUnder.schedule ?_ _
      refine hw.push rfl rfl ⟨?_, fun e he => by cases he⟩
      rw [← hw.1]
      rcases hd : doc.unknownScript w.registry.hooks with _ | err
      · rfl
      · exact (hnone err hd).elim

theorem confined_startService (invokeId src : String) (svc : ExternalService) :
    Confined (World.ScriptsUnder h) (fun _ : InvokeError => True) (startService me invokeId src svc) := by
  unfold startService
  refine Confined.bind (Confined.modify fun _ hw => hw.congr rfl rfl) fun _ => ?_
  split
  · exact Confined.throw trivial
  · refine Confined.get_bind fun _ _ => ?_
    refine Confined.bind (Confined.forM fun e _ => Confined.modify fun _ hw => hw.sendQuiet _ _) fun _ => ?_
    refine Confined.get_bind fun w₁ hw₁ => ?_
    simp only [World.addMailbox]
    exact Confined.bind (Confined.set (hw₁.congr rfl rfl)) fun _ => Confined.pure _

/-- Keeping the handle of a started invocation, and cancelling one it replaces, changes only
the session's invocations and mailboxes. -/
theorem confined_keepHandle (node : InvokeNode Document) (child : ChildHandle) :
    Confined (World.ScriptsUnder h) (fun _ : InvokeError => True) (do
      let s := (← get).session me
      match s.child? node.id with
      | some previous =>
        modify (·.modifySession me fun s => { s with
          children := s.children.map fun p => if p.1 == node.id then (node.id, child) else p })
        if previous.status == .invoked then modify (·.postQuiet previous.mailbox .cancel)
      | none =>
        modify (·.modifySession me fun s => { s with children := s.children ++ [(node.id, child)] }) :
      Launch Unit) := by
  refine Confined.get_bind fun w _ => ?_
  dsimp only
  split
  · refine Confined.bind (Confined.modify fun _ hw => hw.update _ fun _ => ⟨rfl, rfl⟩) fun _ => ?_
    split
    · exact Confined.modify fun _ hw => hw.postQuiet _ _
    · exact Confined.pure _
  · exact Confined.modify fun _ hw => hw.update _ fun _ => ⟨rfl, rfl⟩

theorem confined_startInvoke (node : InvokeNode Document) :
    Confined (World.ScriptsUnder h) (fun _ : InvokeError => True) (startInvoke me node) := by
  unfold startInvoke
  dsimp only
  split
  · exact Confined.bind (confined_spawnChild _ _ _) fun c => confined_keepHandle node c
  · refine Confined.get_bind fun w _ => ?_
    split
    · exact Confined.bind (Confined.throw trivial) fun c => confined_keepHandle node c
    · exact Confined.bind (confined_spawnChild _ _ _) fun c => confined_keepHandle node c
    · exact Confined.bind (confined_startService _ _ _) fun c => confined_keepHandle node c

theorem confined_startInvokes {p : SessionError → Prop} :
    Confined (World.ScriptsUnder h) p (startInvokes me) := by
  unfold startInvokes
  refine Confined.current_bind fun w _ => ?_
  refine Confined.bind (confined_update _ fun _ => ⟨rfl, rfl⟩) fun _ => ?_
  refine Confined.forM fun st _ => Confined.forM fun n _ => ?_
  split
  · refine Confined.bind (Confined.lift_run (confined_startInvoke _)) fun r => ?_
    split
    · exact Confined.pure _
    · exact confined_raiseInternal _ _
  · exact Confined.pure _

theorem confined_rounds (limit fuel left : Nat) :
    Confined (World.ScriptsUnder h) (¬ ·.IsUnknownScript) (rounds me limit fuel left) := by
  induction fuel generalizing left with
  | zero => exact Confined.pure _
  | succ f ih =>
    unfold rounds
    refine Confined.bind (confined_drain _ _) fun left' => Confined.current_bind fun _ _ => ?_
    split
    · exact Confined.pure _
    · refine Confined.bind confined_startInvokes fun _ => Confined.current_bind fun _ _ => ?_
      split
      · exact Confined.pure _
      · exact ih _

theorem confined_macrostep : Confined (World.ScriptsUnder h) (¬ ·.IsUnknownScript) (macrostep me) := by
  unfold macrostep
  refine Confined.current_bind fun _ _ => Confined.bind (confined_rounds _ _ _) fun b => ?_
  split
  · exact confined_publish _
  · exact Confined.pure _

theorem confined_applyFinalize (node : InvokeNode Document) (e : Event) (hk : h.Knows node.finalize) :
    Confined (World.ScriptsUnder h) (¬ ·.IsUnknownScript) (applyFinalize me node e) := by
  unfold applyFinalize
  split
  · exact Confined.pure _
  · refine Confined.current_bind fun _ _ => ?_
    split
    · exact confined_raiseInternal _ _
    · exact confined_runOn _ _ hk

theorem confined_autoforward {p : SessionError → Prop} (invokeId : String) (e : Event) :
    Confined (World.ScriptsUnder h) p (autoforward me invokeId e) := by
  unfold autoforward
  refine Confined.current_bind fun _ _ => ?_
  split
  · split
    · exact Confined.modify fun _ hw => hw.postQuiet _ _
    · exact Confined.pure _
  · exact Confined.pure _

theorem confined_finalizeAndForward (e : Event) :
    Confined (World.ScriptsUnder h) (¬ ·.IsUnknownScript) (finalizeAndForward me e) := by
  unfold finalizeAndForward
  refine Confined.current_bind fun w hw => Confined.forM fun st _ => Confined.forM fun n _ => ?_
  split
  · rename_i node hn
    have forward : Confined (World.ScriptsUnder h) (¬ ·.IsUnknownScript)
        (if node.autoforward = true then autoforward me node.id e else pure ()) := by
      split
      · exact confined_autoforward _ _
      · exact Confined.pure _
    dsimp only
    split
    · exact Confined.bind (confined_applyFinalize _ _ (Document.knows_finalize (hw.2 me).1 hn)) fun _ =>
        forward
    · exact forward
  · exact Confined.pure _

theorem confined_processExternal (e : Event) :
    Confined (World.ScriptsUnder h) (¬ ·.IsUnknownScript) (processExternal me e) := by
  have rest : Confined (World.ScriptsUnder h) (¬ ·.IsUnknownScript) (do
      update me fun s => { s with event := e }
      finalizeAndForward me e
      let enabled ← selectCurrent me
      if !enabled.isEmpty then microstep me enabled.items
      macrostep me) := by
    refine Confined.bind (confined_update _ fun _ => ⟨rfl, rfl⟩) fun _ =>
      Confined.bind (confined_finalizeAndForward _) fun _ => Confined.bind confined_selectCurrent fun en => ?_
    split
    · exact Confined.bind (confined_microstep _) fun _ => confined_macrostep
    · exact confined_macrostep
  unfold processExternal
  split
  · split
    · exact Confined.bind (confined_update _ fun _ => ⟨rfl, rfl⟩) fun _ => rest
    · exact rest
  · exact rest

theorem confined_enterInitial : Confined (World.ScriptsUnder h) (¬ ·.IsUnknownScript) (enterInitial me) := by
  unfold enterInitial
  refine Confined.current_bind fun _ _ => ?_
  split
  · exact Confined.bind (confined_microstep _) fun _ => confined_macrostep
  · exact confined_macrostep

theorem confined_teardown : Confined (World.ScriptsUnder h) (¬ ·.IsUnknownScript) (teardown me) := by
  unfold teardown
  refine Confined.current_bind fun w hw => ?_
  refine Confined.bind (Confined.foldlM (fun _ st => ?_) _ _) fun done => ?_
  · exact Confined.bind (confined_exec (Document.knows_onExit (hw.2 me).1 st)) fun _ =>
      Confined.bind (confined_cancelInvokesOf _ _) fun _ =>
      Confined.bind (confined_update _ fun _ => ⟨rfl, rfl⟩) fun _ => Confined.pure _
  refine Confined.current_bind fun _ _ => Confined.bind (Confined.forM fun c _ => confined_cancelChild _)
    fun _ => Confined.bind (confined_update _ fun _ => ⟨rfl, rfl⟩) fun _ => ?_
  have tail (data : Json.Value) : Confined (World.ScriptsUnder h) (¬ ·.IsUnknownScript)
      (update me (fun s => { s with doneData := some data }) >>= fun _ => publish me) :=
    Confined.bind (confined_update _ fun _ => ⟨rfl, rfl⟩) fun _ => confined_publish _
  split
  · split
    · exact Confined.bind (Confined.modify fun _ hw => hw.sendQuiet _ _) fun _ => tail _
    · exact tail _
  · exact confined_publish _

theorem confined_fail {p : SessionError → Prop} (err : SessionError) :
    Confined (World.ScriptsUnder h) p (fail me err) := by
  unfold fail
  refine Confined.bind (confined_update _ fun _ => ⟨rfl, rfl⟩) fun _ => Confined.current_bind fun _ _ =>
    Confined.bind (Confined.forM fun c _ => confined_cancelChild _) fun _ =>
    Confined.bind (confined_update _ fun _ => ⟨rfl, rfl⟩) fun _ => Confined.current_bind fun _ _ => ?_
  have tail : Confined (World.ScriptsUnder h) p (publish me >>= fun _ => pure err) :=
    Confined.bind (confined_publish _) fun _ => Confined.pure _
  split
  · exact Confined.bind (Confined.modify fun _ hw => hw.sendQuiet _ _) fun _ => tail
  · exact tail

/-- Settling fails with the step's own error, or with one of the teardown, which runs only
registered scripts. -/
theorem confined_settle (r : Except SessionError Unit) (hr : ∀ e, r = .error e → ¬ e.IsUnknownScript) :
    Confined (World.ScriptsUnder h) (¬ ·.IsUnknownScript) (settle me r) := by
  intro w hw
  unfold settle
  cases r with
  | error e₀ =>
    rw [eval_fail_throw]
    exact ⟨(confined_fail (p := fun _ => True) e₀ w hw).1, fun e he => by cases he; exact hr _ rfl⟩
  | ok u =>
    rw [eval_bind, eval_current]
    dsimp only
    split
    · exact ⟨hw, fun _ he => by cases he⟩
    · rw [eval_bind, eval_observe]
      dsimp only
      obtain ⟨hw₁, he₁⟩ :=
        (confined_teardown : Confined (World.ScriptsUnder h) _ (teardown me)) w hw
      split
      · exact ⟨hw₁, fun _ he => by cases he⟩
      · rename_i e₀ he₀
        rw [eval_fail_throw]
        exact ⟨(confined_fail (p := fun _ => True) e₀ _ hw₁).1, fun e he => by cases he; exact he₁ _ he₀⟩

theorem confined_settle_observe {x : Engine Unit}
    (hx : Confined (World.ScriptsUnder h) (¬ ·.IsUnknownScript) x) :
    Confined (World.ScriptsUnder h) (¬ ·.IsUnknownScript) (observe x >>= settle me) := by
  intro w hw
  rw [eval_bind, eval_observe]
  obtain ⟨hw₁, he₁⟩ := hx w hw
  exact confined_settle _ he₁ _ hw₁

theorem confined_handle (env : Envelope) :
    Confined (World.ScriptsUnder h) (¬ ·.IsUnknownScript) (handle me env) := by
  unfold handle
  refine Confined.current_bind fun _ _ => ?_
  split
  · exact Confined.pure _
  · split
    · exact Confined.bind (confined_update _ fun _ => ⟨rfl, rfl⟩) fun _ =>
        confined_settle _ fun _ h => by cases h
    · exact confined_settle_observe (confined_processExternal _)

theorem confined_start (data : Data) :
    Confined (World.ScriptsUnder h) (¬ ·.IsUnknownScript) (start me data) := by
  have rest : Confined (World.ScriptsUnder h) (¬ ·.IsUnknownScript)
      (update me (fun s => { s with data, status := .running }) >>= fun _ =>
        observe (enterInitial me) >>= settle me) :=
    Confined.bind (confined_update _ fun _ => ⟨rfl, rfl⟩) fun _ => confined_settle_observe confined_enterInitial
  unfold start
  refine Confined.current_bind fun _ _ => ?_
  split
  · exact Confined.bind (Confined.throw fun ⟨_, h⟩ => by cases h) fun _ => rest
  · exact rest

theorem confined_ensureStarted : Confined (World.ScriptsUnder h) (¬ ·.IsUnknownScript) (ensureStarted me) := by
  unfold ensureStarted
  refine Confined.current_bind fun _ _ => ?_
  split
  · exact Confined.throw fun ⟨_, h⟩ => by cases h
  · exact Confined.pure _

theorem confined_runQueued (n : Nat) :
    Confined (World.ScriptsUnder h) (¬ ·.IsUnknownScript) (runQueued me n) := by
  induction n with
  | zero => exact Confined.pure _
  | succ n ih =>
    unfold runQueued
    refine Confined.current_bind fun _ _ => ?_
    split
    · exact Confined.pure _
    · refine Confined.get_bind fun w hw => Confined.current_bind fun w' _ => ?_
      -- the envelope comes off a mailbox; no session changes
      have ht := hw.take (w'.session me).mailbox
      generalize w.take (w'.session me).mailbox = t at ht ⊢
      obtain ⟨env, w₁⟩ := t
      refine Confined.bind (Confined.set ht) fun _ => ?_
      split
      · exact Confined.pure _
      · exact Confined.bind (confined_handle _) fun _ => ih

theorem confined_sendTo (e : Event) (target : String) :
    Confined (World.ScriptsUnder h) (¬ ·.IsUnknownScript) (sendTo me e target) := by
  unfold sendTo
  refine Confined.bind (confined_deliver _ _) fun _ => Confined.current_bind fun _ _ => ?_
  split
  · exact confined_settle_observe confined_macrostep
  · exact Confined.pure _

end

/-! ### The runtime keeps the scripts known -/

def Preserves (I : World → Prop) (x : StateM World α) : Prop := ∀ w, I w → I (x.run w).2

namespace Preserves
variable {I : World → Prop}

theorem pure (a : α) : Preserves I (Pure.pure a : StateM World α) := fun _ hw => hw

theorem bind {x : StateM World α} {f : α → StateM World β} (hx : Preserves I x)
    (hf : ∀ a, Preserves I (f a)) : Preserves I (x >>= f) :=
  fun w hw => hf _ _ (hx w hw)

theorem get_bind {f : World → StateM World β} (hf : ∀ w, I w → Preserves I (f w)) :
    Preserves I (get >>= f) :=
  fun w hw => hf w hw w hw

theorem modify {f : World → World} (hf : ∀ w, I w → I (f w)) : Preserves I (modify f : StateM World PUnit) :=
  fun w hw => hf w hw

theorem set {w' : World} (hw' : I w') : Preserves I (set w' : StateM World PUnit) := fun _ _ => hw'

theorem run_bind {ε : Type} {p : ε → Prop} {x : ExceptT ε (StateM World) α}
    {f : Except ε α → StateM World β} (hx : Confined I p x)
    (hf : ∀ r, (∀ e, r = .error e → p e) → Preserves I (f r)) : Preserves I (x.run >>= f) :=
  fun w hw => hf (eval x w).1 (hx w hw).2 _ (hx w hw).1

end Preserves

section
variable {h : Hooks} {me : Nat}

theorem preserves_finish (result : Except SessionError Outcome)
    (hr : ∀ e, result = .error e → ¬ e.IsUnknownScript) :
    Preserves (World.ScriptsUnder h) (finish me result) := by
  refine Preserves.modify fun w hw => ?_
  refine World.ScriptsUnder.close ?_ _
  refine hw.modifySession me fun s hs => ⟨hs.1, fun e he => hr e ?_⟩
  cases he
  rfl

theorem preserves_defer : Preserves (World.ScriptsUnder h) (defer me) := by
  refine Preserves.modify fun w hw => World.ScriptsUnder.congr ?_ rfl rfl
  refine hw.modifySession me fun s hs => ⟨hs.1, fun e he => ?_⟩
  cases he

theorem preserves_serve (b : Nat) : Preserves (World.ScriptsUnder h) (serve me b) := by
  induction b with
  | zero =>
    unfold serve
    refine Preserves.get_bind fun _ _ => ?_
    dsimp only
    split
    · exact preserves_finish _ fun _ h => by cases h
    · exact preserves_defer
  | succ b ih =>
    unfold serve
    refine Preserves.get_bind fun w _ => ?_
    dsimp only
    split
    · exact preserves_finish _ fun _ h => by cases h
    · refine Preserves.get_bind fun w' hw' => ?_
      have ht := hw'.take (w.session me).mailbox
      generalize w'.take (w.session me).mailbox = t at ht ⊢
      obtain ⟨env, w₁⟩ := t
      refine Preserves.bind (Preserves.set ht) fun _ => ?_
      split
      · -- nothing queued: the task waits
        refine Preserves.modify fun _ hw => hw.modifySession me fun s hs => ⟨hs.1, fun e he => ?_⟩
        cases he
      · refine Preserves.run_bind (confined_handle _) fun r hr => ?_
        split
        · exact preserves_finish _ fun e he => by cases he; exact hr _ rfl
        · exact ih

theorem preserves_poll (budget : Nat) : Preserves (World.ScriptsUnder h) (poll budget me) := by
  unfold poll
  refine Preserves.get_bind fun _ _ => ?_
  split
  · -- a fresh task starts with its data bag
    refine Preserves.bind (Preserves.modify fun _ hw => hw.modifySession me fun s hs => ⟨hs.1, fun e he => ?_⟩)
      fun _ => Preserves.run_bind (confined_start _) fun r hr => ?_
    · cases he
    · split
      · exact preserves_finish _ fun e he => by cases he; exact hr _ rfl
      · exact preserves_serve _
  · exact preserves_serve _
  · exact Preserves.pure _

theorem preserves_nextTask (interval : Nat) : Preserves (World.ScriptsUnder h) (nextTask interval) := by
  unfold nextTask
  refine Preserves.get_bind fun w hw => ?_
  dsimp only
  split
  · split
    · exact Preserves.bind (Preserves.set (hw.congr rfl rfl)) fun _ => Preserves.pure _
    · exact Preserves.bind (Preserves.set (hw.congr rfl rfl)) fun _ => Preserves.pure _
  · split
    · exact Preserves.bind (Preserves.set (hw.congr rfl rfl)) fun _ => Preserves.pure _
    · exact Preserves.bind (Preserves.set (hw.congr rfl rfl)) fun _ => Preserves.pure _

theorem preserves_pollRound (rt : Runtime) (n : Nat) :
    Preserves (World.ScriptsUnder h) (pollRound rt n) := by
  induction n with
  | zero => exact Preserves.pure _
  | succ n ih =>
    unfold pollRound
    refine Preserves.bind (preserves_nextTask _) fun t => ?_
    split
    · exact Preserves.pure _
    · exact Preserves.bind (preserves_poll _) fun _ => ih

theorem preserves_yieldTimes (rt : Runtime) (k : Nat) :
    Preserves (World.ScriptsUnder h) (yieldTimes rt k) := by
  induction k with
  | zero => exact Preserves.pure _
  | succ k ih =>
    unfold yieldTimes
    exact Preserves.bind (Preserves.modify fun _ hw => hw.congr rfl rfl) fun _ =>
      Preserves.bind (preserves_pollRound _ _) fun _ =>
      Preserves.bind (Preserves.modify fun _ hw => hw.congr rfl rfl) fun _ =>
      Preserves.bind (Preserves.modify fun _ hw => hw.congr rfl rfl) fun _ => ih

/-- An invocation of a document that calls an unknown script starts no session: with a runtime,
it fails with `serviceFailed` carrying the content error's message, and changes nothing. -/
theorem eval_spawnChild_unknownScript {w : World} {i : Nat} {node : InvokeNode Document} {doc : Document}
    {err : ContentError} (hr : w.runtime = true) (hd : doc.unknownScript w.registry.hooks = some err) :
    eval (spawnChild i node doc) w = (.error (.serviceFailed node.id err.message), w) := by
  unfold spawnChild
  simp [eval_bind, hr, hd]

end

end Engine

theorem SessionCall.confined_step {h : Hooks} {me : Nat} (c : SessionCall) :
    Engine.Confined (World.ScriptsUnder h) (¬ ·.IsUnknownScript) (c.step me) := by
  open Engine in
  cases c with
  | host c =>
    cases c with
    | start data => exact confined_start data
    | send e => exact Confined.current_bind fun _ _ => confined_post _ _
    | cancel => exact Confined.current_bind fun _ _ => confined_post _ _
    | runPending => exact Confined.bind confined_ensureStarted fun _ => confined_runQueued _
    | handle env => exact confined_handle env
    | sendTo e target => exact confined_sendTo e target
  | processNext env => exact Confined.bind confined_ensureStarted fun _ => confined_handle env

/-- What a host does to the world: a call on one of the sessions, polling one task with a budget,
yielding `k` times to a runtime, a service posting to a mailbox, or a service going away. -/
inductive HostAct where
  | call (me : Nat) (c : SessionCall)
  | poll (me budget : Nat)
  | yield (rt : Runtime) (k : Nat)
  | post (m : Nat) (env : Envelope)
  | close (m : Nat)

namespace HostAct
open Engine

/-- The world after the act. -/
def apply : HostAct → World → World
  | call me c, w => (eval (c.step me) w).2
  | poll me budget, w => ((Engine.poll budget me).run w).2
  | yield rt k, w => ((yieldTimes rt k).run w).2
  | post m env, w => w.postQuiet m env
  | close m, w => w.close m

def run : List HostAct → World → World
  | [], w => w
  | a :: as, w => run as (a.apply w)

variable {h : Hooks}

theorem scriptsUnder_apply (a : HostAct) {w : World} (hw : w.ScriptsUnder h) : (a.apply w).ScriptsUnder h := by
  cases a with
  | call me c => exact (c.confined_step w hw).1
  | poll me budget => exact preserves_poll budget w hw
  | yield rt k => exact preserves_yieldTimes rt k w hw
  | post m env => exact hw.postQuiet m env
  | close m => exact hw.close m

theorem scriptsUnder_run (as : List HostAct) {w : World} (hw : w.ScriptsUnder h) :
    (run as w).ScriptsUnder h := by
  induction as generalizing w with
  | nil => exact hw
  | cons a as ih => exact ih (a.scriptsUnder_apply hw)

end HostAct

theorem scriptsUnder_hostWorld (d : Document) (config : SessionConfig) (registry : Registry) (runtime : Bool) :
    (Request.hostWorld d config registry runtime).ScriptsUnder registry.hooks ↔ d.unknownScript registry.hooks = none := by
  constructor
  · intro hw
    exact (hw.2 0).1
  · intro hd
    refine ⟨rfl, fun i => ?_⟩
    rcases i with _ | i
    · exact ⟨hd, fun e he => by cases he⟩
    · have hdef : (Request.hostWorld d config registry runtime).session (i + 1) = default :=
        World.session_of_le (by simp [Request.hostWorld])
      rw [hdef]
      exact ⟨rfl, fun e he => by cases he⟩

/-- A session made for a document whose content calls only registered scripts never fails on an
unknown script, nor does any session it invokes, whatever the host does: no call on a session of
the world fails so, no task ends so, and every session's document calls only registered scripts.
An invocation of a document that calls an unknown script starts no session: with a runtime it
fails with `serviceFailed`, changing nothing. -/
theorem unknown_script_never_fails_content (d : Document) (config : SessionConfig) (registry : Registry)
    (runtime : Bool) (hd : d.unknownScript registry.hooks = none) (acts : List HostAct) :
    let w := HostAct.run acts (Request.hostWorld d config registry runtime)
    (∀ me (c : SessionCall) e, (Engine.eval (c.step me) w).1 = .error e → ¬ e.IsUnknownScript) ∧
    (∀ i e, (w.session i).drive = .finished (.error e) → ¬ e.IsUnknownScript) ∧
    (∀ i, (w.session i).doc.unknownScript registry.hooks = none) ∧
    (∀ me node doc err, w.runtime = true → doc.unknownScript registry.hooks = some err →
      Engine.eval (Engine.spawnChild me node doc) w = (.error (.serviceFailed node.id err.message), w)) := by
  intro w
  have hw : w.ScriptsUnder registry.hooks :=
    HostAct.scriptsUnder_run acts ((scriptsUnder_hostWorld d config registry runtime).2 hd)
  refine ⟨fun me c e he => (c.confined_step w hw).2 e he, fun i => (hw.2 i).2, fun i => (hw.2 i).1,
    fun me node doc err hr hdoc => Engine.eval_spawnChild_unknownScript hr ?_⟩
  rw [hw.1]
  exact hdoc

/-- A chart whose first state runs a registered script on entry, started, polled and left to the
command-line host's runtime. -/
theorem registered_script_chart_runs :
    let d : Document :=
      ⟨#[{ id := "$root", mode := .compound, order := 0, depth := -1, children := [1],
            descendants := [1], initial := some 0 },
          { id := "a", mode := .atomic, order := 1, depth := 0, parent := some 0, ancestors := [0],
            onEntry := [.script "tick"] }],
        #[{ source := 0, targets := [1], events := [], kind := .external, cond := none,
            content := [.script "tick"], order := 0 }],
        #[]⟩
    let registry : Registry := { hooks := { scripts := [("tick", none)] } }
    let w := HostAct.run [.call 0 (.host (.start {})), .poll 0 3, .yield Runtime.host 1] (Request.hostWorld d { name := "main" } registry true)
    d.unknownScript registry.hooks = none ∧
    (∀ me (c : SessionCall) e, (Engine.eval (c.step me) w).1 = .error e → ¬ e.IsUnknownScript) ∧
    (∀ i e, (w.session i).drive = .finished (.error e) → ¬ e.IsUnknownScript) ∧
    (∀ i, (w.session i).doc.unknownScript registry.hooks = none) ∧
    (∀ me node doc err, w.runtime = true → doc.unknownScript registry.hooks = some err →
      Engine.eval (Engine.spawnChild me node doc) w = (.error (.serviceFailed node.id err.message), w)) :=
  ⟨by decide, unknown_script_never_fails_content _ _ _ _ (by decide) _⟩

end Hsm
