import Hsm.Proofs.Failure
/-!
# The macrostep loop

The loop of a macrostep described without a budget, as relations: `Look` for its next move and
`Turns` for a run of microsteps. A macrostep fails on its limit exactly when the loop would fire
one microstep past the budget (`macrostep_limit_iff`), and one that succeeds leaves the session
stable (`macrostep_stable`).
-/

namespace Hsm
namespace Session

/-- Nothing is left to do without an external event: no internal event is queued and no eventless
transition is enabled for the data and the last event. -/
def Quiescent (s : Session) : Prop :=
  s.internal = [] ∧ s.selector.selectEventless s.data s.event = .ok {}

@[simp] theorem selector_queue (s : Session) (q : List Event) (e : Event) :
    { s with internal := q, event := e }.selector = s.selector := rfl

@[simp] theorem selector_internal (s : Session) (q : List Event) :
    { s with internal := q }.selector = s.selector := rfl

theorem Quiescent.of_agrees {s s' : Session} (hq : s.Quiescent) (hag : s.Agrees s')
    (hi : s'.internal = []) : s'.Quiescent := by
  obtain ⟨-, hsel⟩ := hq
  obtain ⟨-, hdoc, -, hconf, hhist, hdata, hev, -⟩ := hag
  refine ⟨hi, ?_⟩
  simp only [Session.selector, hdoc, hconf, hhist, hdata, hev] at hsel ⊢
  exact hsel

end Session

namespace World
variable {me i : Nat} {f : Session → Session}

def Stable (w : World) (me : Nat) : Prop :=
  (w.session me).isRunning = true → (w.session me).Quiescent

theorem Stable.of_not_running {w : World} (h : (w.session me).isRunning = false) : w.Stable me := by
  simp [Stable, h]

theorem Stable.modifySession {w : World} (hs : w.Stable me)
    (hf : ∀ s : Session, (f s).isRunning = true → s.isRunning = true ∧ (s.Quiescent → (f s).Quiescent)) :
    (w.modifySession i f).Stable me := by
  intro hr
  rcases Nat.lt_or_ge me w.sessions.size with h | h
  · rw [session_modifySession _ _ _ h] at hr ⊢
    split at hr
    · rw [if_pos ‹_›]
      exact (hf _ hr).2 (hs (hf _ hr).1)
    · rw [if_neg ‹_›]
      exact hs hr
  · rw [session_modifySession_of_le h] at hr ⊢
    exact hs hr

end World

namespace Engine
variable {me : Nat}

/-- Looking for the next enabled transitions changes only the internal queue and the current event
of the session; when it finds none, the queue is used up and no eventless transition is enabled. -/
theorem eval_nextEnabled (q : List Event) (w : World) (hme : me < w.sessions.size) :
    (eval (nextEnabled me q) w).2.sessions.size = w.sessions.size ∧
      ∃ q' ev, (eval (nextEnabled me q) w).2.session me = { w.session me with internal := q', event := ev } ∧
        ((eval (nextEnabled me q) w).1 = .ok none → q' = [] ∧
          ((eval (nextEnabled me q) w).2.session me).Quiescent) := by
  induction q generalizing w with
  | nil =>
    simp only [nextEnabled, eval_bind, eval_update, eval_selectEventless,
      World.session_modifySession_self _ _ hme, Session.selector_internal]
    cases h : (w.session me).selector.selectEventless (w.session me).data (w.session me).event with
    | error e => simp [World.session_modifySession_self _ _ hme]
    | ok r =>
      by_cases hr : r.isEmpty
      · have hr' : r = {} := by cases r; simp_all [OrderedSet.isEmpty]
        subst hr'
        simp [World.session_modifySession_self _ _ hme, Session.Quiescent, h, OrderedSet.isEmpty]
      · simp [World.session_modifySession_self _ _ hme, hr]
  | cons e rest ih =>
    simp only [nextEnabled, eval_bind, eval_update, eval_selectEventless,
      World.session_modifySession_self _ _ hme, Session.selector_internal]
    cases h : (w.session me).selector.selectEventless (w.session me).data (w.session me).event with
    | error err => simp [World.session_modifySession_self _ _ hme]
    | ok r =>
      by_cases hr : r.isEmpty
      · -- nothing eventless is enabled: the next event is taken from the queue
        simp only [hr, Bool.not_true, Bool.false_eq_true, ite_false, eval_bind, eval_update,
          eval_selectCurrent, World.session_modifySession_self _ _ hme, World.modifySession_modifySession,
          Function.comp_apply, Session.selector_queue]
        cases h₂ : (w.session me).selector.selectFor (w.session me).data e with
        | error err => simp [World.session_modifySession_self _ _ hme]
        | ok r₂ =>
          by_cases hr₂ : r₂.isEmpty
          · simp only [hr₂, Bool.not_true, Bool.false_eq_true, ite_false]
            obtain ⟨hsize, q', ev, hs, hnone⟩ := ih (w.modifySession me
              ((fun s => { s with internal := rest, event := e }) ∘ fun s => { s with internal := e :: rest }))
              (by simpa using hme)
            exact ⟨by simpa using hsize, q', ev,
              by rw [hs, World.session_modifySession_self _ _ hme]; rfl, hnone⟩
          · simp [World.session_modifySession_self _ _ hme, hr₂]
      · simp [World.session_modifySession_self _ _ hme, hr]

end Engine

/-- What the macrostep loop of a session does next when it looks for transitions to fire. -/
inductive LoopStep where
  /-- It fires these transitions, from this world. -/
  | fire (enabled : OrderedSet Nat) (w : World)
  /-- It comes to rest in this world, with the session running or not. -/
  | rest (running : Bool) (w : World)
  /-- A guard fails. -/
  | fail (e : SessionError) (w : World)

namespace Engine

/-- The loop of session `me` finds nothing to fire in `w`, starts invocations, and these raise
events it goes on with from `w'`. -/
def Resumes (me : Nat) (w w' : World) : Prop :=
  (w.session me).isRunning = true ∧ ∃ w₁, eval (nextEnabled me (w.session me).internal) w = (.ok none, w₁) ∧
    eval (startInvokes me) w₁ = (.ok (), w') ∧ (w'.session me).internal ≠ []

/-- The macrostep loop of session `me`, without a microstep budget, goes on from `w` as `o` says. -/
inductive Look (me : Nat) : World → LoopStep → Prop
  | stopped {w : World} : (w.session me).isRunning = false → Look me w (.rest false w)
  | found {w w' : World} {en : OrderedSet Nat} : (w.session me).isRunning = true →
      eval (nextEnabled me (w.session me).internal) w = (.ok (some en), w') → Look me w (.fire en w')
  | broken {w w' : World} {e : SessionError} : (w.session me).isRunning = true →
      eval (nextEnabled me (w.session me).internal) w = (.error e, w') → Look me w (.fail e w')
  | settled {w w₁ w₂ : World} : (w.session me).isRunning = true →
      eval (nextEnabled me (w.session me).internal) w = (.ok none, w₁) →
      eval (startInvokes me) w₁ = (.ok (), w₂) → (w₂.session me).internal = [] → Look me w (.rest true w₂)
  | resumed {w w' : World} {o : LoopStep} : Resumes me w w' → Look me w' o → Look me w o

/-- The macrostep loop of session `me`, without a microstep budget, fires `n` microsteps from `w`
and reaches `w'`. -/
inductive Turns (me : Nat) : World → Nat → World → Prop
  | zero (w : World) : Turns me w 0 w
  | fire {w w₁ w₂ w₃ : World} {en : OrderedSet Nat} {n : Nat} : Look me w (.fire en w₁) →
      eval (microstep me en.items) w₁ = (.ok (), w₂) → Turns me w₂ n w₃ → Turns me w (n + 1) w₃

/-- How the loop's next move `o` ends a run that has `k` microsteps of its budget `limit` left:
it rests or a guard fails; or with nothing left it fails on the limit, and otherwise the microstep
it fires fails. -/
def Settles (me limit k : Nat) : LoopStep → Except SessionError Bool × World → Prop
  | .rest b w', r => r = (.ok b, w')
  | .fail e w', r => r = (.error e, w')
  | .fire en w₂, r => (k = 0 ∧ r = (.error (.microstepLimit limit), w₂)) ∨
      (0 < k ∧ ∃ e, r.1 = .error e ∧ eval (microstep me en.items) w₂ = (.error e, r.2))

variable {me : Nat}

/-- One turn of draining: while the session runs, look for enabled transitions and fire them,
failing on the limit when the budget is used up. -/
theorem eval_drain (L left : Nat) (w : World) :
    eval (drain me L left) w =
      if (w.session me).isRunning then
        match eval (nextEnabled me (w.session me).internal) w with
        | (.ok none, w') => (.ok left, w')
        | (.ok (some en), w') =>
          match left with
          | 0 => (.error (.microstepLimit L), w')
          | k + 1 =>
            match eval (microstep me en.items) w' with
            | (.ok (), w'') => eval (drain me L k) w''
            | (.error e, w'') => (.error e, w'')
        | (.error e, w') => (.error e, w')
      else (.ok left, w) := by
  cases left with
  | zero =>
    unfold drain
    simp only [eval_bind, eval_current]
    by_cases hr : (w.session me).isRunning <;> simp only [hr, Bool.not_true, Bool.not_false, ite_true, ite_false,
      Bool.false_eq_true, eval_pure, eval_bind, eval_current]
    rcases eval (nextEnabled me (w.session me).internal) w with ⟨r, w'⟩
    rcases r with e | _ | en <;> rfl
  | succ k =>
    conv => lhs; rw [drain]
    simp only [eval_bind, eval_current]
    by_cases hr : (w.session me).isRunning <;> simp only [hr, Bool.not_true, Bool.not_false, ite_true, ite_false,
      Bool.false_eq_true, eval_pure, eval_bind, eval_current]
    rcases eval (nextEnabled me (w.session me).internal) w with ⟨r, w'⟩
    rcases r with e | _ | en
    · rfl
    · rfl
    · simp only [eval_bind]
      rcases eval (microstep me en.items) w' with ⟨r', w''⟩
      rcases r' with e | ⟨⟩ <;> rfl

/-- Draining fires microsteps while the budget lasts, until the loop finds nothing to fire or the
session stops; it fails when a guard, a microstep or the budget does. -/
theorem drain_ends (L left : Nat) (w : World) :
    ∃ n ≤ left, ∃ w₁, Turns me w n w₁ ∧
      (((w₁.session me).isRunning = false ∧ eval (drain me L left) w = (.ok (left - n), w₁)) ∨
       ((w₁.session me).isRunning = true ∧
          eval (nextEnabled me (w₁.session me).internal) w₁ = (.ok none, (eval (drain me L left) w).2) ∧
          (eval (drain me L left) w).1 = .ok (left - n)) ∨
       (∃ e o, (eval (drain me L left) w).1 = .error e ∧ Look me w₁ o ∧
          Settles me L (left - n) o (.error e, (eval (drain me L left) w).2))) := by
  induction left generalizing w with
  | zero =>
    rw [eval_drain]
    by_cases hr : (w.session me).isRunning
    · simp only [hr, ite_true]
      rcases hn : eval (nextEnabled me (w.session me).internal) w with ⟨r, w'⟩
      refine ⟨0, Nat.le_refl _, w, .zero w, ?_⟩
      rcases r with e | _ | en
      · exact .inr (.inr ⟨e, .fail e w', rfl, .broken hr hn, rfl⟩)
      · exact .inr (.inl ⟨hr, hn, rfl⟩)
      · exact .inr (.inr ⟨_, .fire en w', rfl, .found hr hn, .inl ⟨rfl, rfl⟩⟩)
    · simp only [hr, Bool.false_eq_true, ite_false]
      exact ⟨0, Nat.le_refl _, w, .zero w, .inl ⟨by simpa using hr, rfl⟩⟩
  | succ left ih =>
    rw [eval_drain]
    by_cases hr : (w.session me).isRunning
    · simp only [hr, ite_true]
      rcases hn : eval (nextEnabled me (w.session me).internal) w with ⟨r, w'⟩
      rcases r with e | _ | en
      · exact ⟨0, Nat.zero_le _, w, .zero w, .inr (.inr ⟨e, .fail e w', rfl, .broken hr hn, rfl⟩)⟩
      · exact ⟨0, Nat.zero_le _, w, .zero w, .inr (.inl ⟨hr, hn, rfl⟩)⟩
      · simp only
        rcases hm : eval (microstep me en.items) w' with ⟨r', w''⟩
        rcases r' with e | ⟨⟩
        · exact ⟨0, Nat.zero_le _, w, .zero w,
            .inr (.inr ⟨e, .fire en w', rfl, .found hr hn, .inr ⟨by omega, e, rfl, hm⟩⟩)⟩
        · -- the microstep fired: what follows is a drain from its world with one less
          obtain ⟨n, hn', w₁, ht, hend⟩ := ih w''
          refine ⟨n + 1, by omega, w₁, .fire (.found hr hn) hm ht, ?_⟩
          simpa only [Nat.add_sub_add_right] using hend
    · simp only [hr, Bool.false_eq_true, ite_false]
      exact ⟨0, Nat.zero_le _, w, .zero w, .inl ⟨by simpa using hr, rfl⟩⟩

theorem Turns.append {w w₁ w₂ : World} {n m : Nat} (h₁ : Turns me w n w₁) (h₂ : Turns me w₁ m w₂) :
    Turns me w (n + m) w₂ := by
  induction h₁ with
  | zero => simpa using h₂
  | fire hl hm _ ih => simpa [Nat.add_right_comm] using Turns.fire hl hm (ih h₂)

theorem Turns.resume {w w' w₁ : World} {n : Nat} {o : LoopStep} (hr : Resumes me w w')
    (ht : Turns me w' n w₁) (hl : Look me w₁ o) : ∃ w₀, Turns me w n w₀ ∧ Look me w₀ o := by
  cases ht with
  | zero => exact ⟨w, .zero w, .resumed hr hl⟩
  | fire hf hm ht => exact ⟨w₁, .fire (.resumed hr hf) hm ht, hl⟩

/-- One round: drain, then, while the session runs, start invocations and go on when that raised
events. -/
theorem eval_rounds_succ (L f left : Nat) (w : World) :
    eval (rounds me L (f + 1) left) w =
      match eval (drain me L left) w with
      | (.ok left', w₁) =>
        if (w₁.session me).isRunning then
          match eval (startInvokes me) w₁ with
          | (.ok (), w₂) =>
            if (w₂.session me).internal.isEmpty then (.ok true, w₂) else eval (rounds me L f left') w₂
          | (.error e, w₂) => (.error e, w₂)
        else (.ok false, w₁)
      | (.error e, w₁) => (.error e, w₁) := by
  simp only [rounds, eval_bind]
  rcases eval (drain me L left) w with ⟨r, w₁⟩
  rcases r with e | left'
  · rfl
  · by_cases hr : (w₁.session me).isRunning
    · simp only [eval_current, hr, Bool.not_true, Bool.false_eq_true, ite_false, ite_true, eval_bind]
      rcases eval (startInvokes me) w₁ with ⟨r, w₂⟩
      rcases r with e | ⟨⟩
      · rfl
      · by_cases hi : (w₂.session me).internal.isEmpty <;> simp [hi]
    · simp [eval_current, hr]

theorem nextEnabled_none {w w' : World} (hr : (w.session me).isRunning = true)
    (h : eval (nextEnabled me (w.session me).internal) w = (.ok none, w')) :
    (w'.session me).isRunning = true ∧ (w'.session me).toInvoke = (w.session me).toInvoke ∧
      (w'.session me).internal = [] ∧ (w'.session me).Quiescent := by
  obtain ⟨-, q', ev, hs, hq⟩ := eval_nextEnabled (w.session me).internal w (World.lt_of_isRunning hr)
  rw [h] at hs hq
  obtain ⟨rfl, hqs⟩ := hq rfl
  simp only at hs
  exact ⟨by rw [hs]; exact hr, by rw [hs], by rw [hs], hqs⟩

theorem startInvokes_agrees {w w' : World} (hr : (w.session me).isRunning = true)
    (h : eval (startInvokes me) w = (.ok (), w')) :
    me < w'.sessions.size ∧ ({ w.session me with toInvoke := {} } : Session).Agrees (w'.session me) := by
  have hk := @keeps_startInvokes me w
  rw [h] at hk
  have hme := World.lt_of_isRunning hr
  obtain ⟨hme', hag⟩ := hk (by simpa using hme)
  rw [World.session_modifySession_self _ _ hme] at hag
  exact ⟨hme', hag⟩

/-- The rounds of a macrostep, with fuel enough for each round but the last to follow a
microstep, end as the loop does once it has fired at most its budget of microsteps. -/
theorem rounds_ends (L f left : Nat) (w : World)
    (hf : left + 2 ≤ f ∨ ((w.session me).toInvoke.items = [] ∧ left + 1 ≤ f)) :
    ∃ n ≤ left, ∃ w₁ o, Turns me w n w₁ ∧ Look me w₁ o ∧
      Settles me L (left - n) o (eval (rounds me L f left) w) := by
  induction f generalizing left w with
  | zero => omega
  | succ f ih =>
    rw [eval_rounds_succ]
    obtain ⟨n, hn, w₁, ht, hend⟩ := @drain_ends me L left w
    rcases hend with ⟨hr, hd⟩ | ⟨hr, hq, hd⟩ | ⟨e, o, hd, hl, hs⟩
    · -- the session stopped
      rw [hd]
      simp only [hr, Bool.false_eq_true, ite_false]
      exact ⟨n, hn, w₁, _, ht, .stopped hr, rfl⟩
    · -- nothing is enabled: start invocations
      rcases hde : eval (drain me L left) w with ⟨r, w₁'⟩
      rw [hde] at hq hd
      cases hd
      obtain ⟨hr', hti, hint, -⟩ := nextEnabled_none hr hq
      simp only [hr', ite_true]
      rcases hsi : eval (startInvokes me) w₁' with ⟨r₂, w₂⟩
      have hok : r₂ = .ok () := by simpa [hsi] using eval_startInvokes_ok me w₁'
      subst hok
      simp only
      by_cases hi : (w₂.session me).internal.isEmpty
      · simp only [hi, ite_true]
        exact ⟨n, hn, w₁, _, ht, .settled hr hq hsi (by simpa using hi), rfl⟩
      · simp only [hi, Bool.false_eq_true, ite_false]
        obtain ⟨-, hag⟩ := startInvokes_agrees hr' hsi
        have hres : Resumes me w₁ w₂ := ⟨hr, w₁', hq, hsi, by simpa using hi⟩
        -- the next round starts with nothing to invoke, so it too needs one unit of fuel per microstep
        have hf' : left - n + 1 ≤ f := by
          rcases hf with hf | ⟨hti₀, hf⟩
          · omega
          · rcases Nat.eq_zero_or_pos n with rfl | hpos
            · cases ht
              have hi' : (w₂.session me).internal = [] := by
                rw [eval_startInvokes_of_isEmpty w₁' (by rw [hti]; exact hti₀)] at hsi
                cases hsi
                rw [World.session_modifySession_self _ _ (World.lt_of_isRunning hr')]
                exact hint
              exact absurd (by simp [hi']) hi
            · omega
        obtain ⟨n', hn', w₃, o, ht', hl, hs⟩ := ih (left - n) w₂ (.inr ⟨by rw [hag.2.2.2.2.2.2.2], hf'⟩)
        obtain ⟨w₀, ht₀, hl₀⟩ := Turns.resume hres ht' hl
        exact ⟨n + n', by omega, w₀, o, ht.append ht₀, hl₀, by simpa only [Nat.sub_add_eq] using hs⟩
    · -- a guard, a microstep or the budget failed
      rcases hde : eval (drain me L left) w with ⟨r, w'⟩
      rw [hde] at hd hs
      cases hd
      exact ⟨n, hn, w₁, o, ht, hl, hs⟩

/-- The loop's next move is determined by the world. -/
theorem Look.det {w : World} {o₁ o₂ : LoopStep} (h₁ : Look me w o₁) (h₂ : Look me w o₂) : o₁ = o₂ := by
  induction h₁ with
  | stopped hr =>
    cases h₂ with
    | stopped => rfl
    | found hr' => simp [hr] at hr'
    | broken hr' => simp [hr] at hr'
    | settled hr' => simp [hr] at hr'
    | resumed hres => exact absurd hres.1 (by simp [hr])
  | found hr hn =>
    cases h₂ with
    | stopped hr' => simp [hr] at hr'
    | found _ hn' => rw [hn] at hn'; cases hn'; rfl
    | broken _ hn' => rw [hn] at hn'; cases hn'
    | settled _ hn' => rw [hn] at hn'; cases hn'
    | resumed hres => obtain ⟨-, _, hn', -⟩ := hres; rw [hn] at hn'; cases hn'
  | broken hr hn =>
    cases h₂ with
    | stopped hr' => simp [hr] at hr'
    | found _ hn' => rw [hn] at hn'; cases hn'
    | broken _ hn' => rw [hn] at hn'; cases hn'; rfl
    | settled _ hn' => rw [hn] at hn'; cases hn'
    | resumed hres => obtain ⟨-, _, hn', -⟩ := hres; rw [hn] at hn'; cases hn'
  | settled hr hn hs hi =>
    cases h₂ with
    | stopped hr' => simp [hr] at hr'
    | found _ hn' => rw [hn] at hn'; cases hn'
    | broken _ hn' => rw [hn] at hn'; cases hn'
    | settled _ hn' hs' => rw [hn] at hn'; cases hn'; rw [hs] at hs'; cases hs'; rfl
    | resumed hres =>
      obtain ⟨-, _, hn', hs', hi'⟩ := hres
      rw [hn] at hn'; cases hn'; rw [hs] at hs'; cases hs'; exact absurd hi hi'
  | resumed hres _ ih =>
    obtain ⟨hr, w₁, hn, hs, hi⟩ := hres
    cases h₂ with
    | stopped hr' => simp [hr] at hr'
    | found _ hn' => rw [hn] at hn'; cases hn'
    | broken _ hn' => rw [hn] at hn'; cases hn'
    | settled _ hn' hs' hi' => rw [hn] at hn'; cases hn'; rw [hs] at hs'; cases hs'; exact absurd hi' hi
    | resumed hres' =>
      obtain ⟨-, _, hn', hs', -⟩ := hres'
      rw [hn] at hn'; cases hn'; rw [hs] at hs'; cases hs'; exact ih ‹_›

theorem Turns.det {w w₁ w₂ : World} {n : Nat} (h₁ : Turns me w n w₁) (h₂ : Turns me w n w₂) : w₁ = w₂ := by
  induction h₁ generalizing w₂ with
  | zero => cases h₂; rfl
  | fire hl hm _ ih =>
    cases h₂ with
    | fire hl' hm' ht' =>
      cases Look.det hl hl'
      rw [hm] at hm'; cases hm'
      exact ih ht'

theorem Turns.split {w w' : World} {n k : Nat} (h : Turns me w (n + k) w') :
    ∃ w₁, Turns me w n w₁ ∧ Turns me w₁ k w' := by
  induction n generalizing w with
  | zero => exact ⟨w, .zero w, by simpa using h⟩
  | succ n ih =>
    rw [Nat.add_right_comm] at h
    cases h with
    | fire hl hm ht =>
      obtain ⟨w₁, h₁, h₂⟩ := ih ht
      exact ⟨w₁, .fire hl hm h₁, h₂⟩


theorem Look.rest {w w' : World} {b : Bool} (h : Look me w (.rest b w')) :
    (w'.session me).isRunning = b ∧ (b = true → (w'.session me).Quiescent) := by
  generalize ho : LoopStep.rest b w' = o at h
  induction h with
  | stopped hr => cases ho; exact ⟨hr, by simp⟩
  | found => cases ho
  | broken => cases ho
  | settled hr hn hs hi =>
    cases ho
    obtain ⟨hr₁, -, -, hq⟩ := nextEnabled_none hr hn
    obtain ⟨-, hag⟩ := startInvokes_agrees hr₁ hs
    refine ⟨by rw [Session.isRunning, hag.1]; exact hr₁, fun _ => Session.Quiescent.of_agrees ?_ hag hi⟩
    -- forgetting the states to invoke changes nothing quiescence reads
    exact ⟨hq.1, hq.2⟩
  | resumed _ _ ih => exact ih ho

theorem Look.fail {w w' : World} {e : SessionError} (h : Look me w (.fail e w')) : e.IsGuard := by
  generalize ho : LoopStep.fail e w' = o at h
  induction h with
  | broken _ hn => cases ho; exact nextEnabled_error me _ _ _ _ hn
  | stopped => cases ho
  | found => cases ho
  | settled => cases ho
  | resumed _ _ ih => exact ih ho

theorem Turns.fires_before {w w₁ w₁' : World} {n m : Nat} {o : LoopStep} (h : Turns me w n w₁)
    (hl : Look me w₁ o) (h' : Turns me w m w₁') (hn : n < m) :
    ∃ en w₂ w₃, o = .fire en w₂ ∧ eval (microstep me en.items) w₂ = (.ok (), w₃) := by
  obtain ⟨w₁'', h₁, h₂⟩ := Turns.split (k := m - n) (by rwa [Nat.add_sub_cancel' (Nat.le_of_lt hn)])
  cases Turns.det h h₁
  obtain ⟨k, hk⟩ : ∃ k, m - n = k + 1 := ⟨m - n - 1, by omega⟩
  rw [hk] at h₂
  cases h₂ with
  | fire hf hm _ => exact ⟨_, _, _, Look.det hl hf, hm⟩

theorem eval_macrostep (w : World) :
    eval (macrostep me) w =
      match eval (rounds me (w.session me).config.maxMicrosteps ((w.session me).config.maxMicrosteps + 2)
          (w.session me).config.maxMicrosteps) w with
      | (.ok true, w') => eval (publish me) w'
      | (.ok false, w') => (.ok (), w')
      | (.error e, w') => (.error e, w') := by
  simp only [macrostep, eval_bind, eval_current]
  rcases eval (rounds me _ _ _) w with ⟨r, w'⟩
  rcases r with e | _ | _ <;> rfl

variable (me) in
theorem macrostep_rounds_end (w : World) :
    ∃ n ≤ (w.session me).config.maxMicrosteps, ∃ w₁ o, Turns me w n w₁ ∧ Look me w₁ o ∧
      Settles me (w.session me).config.maxMicrosteps ((w.session me).config.maxMicrosteps - n) o
        (eval (rounds me (w.session me).config.maxMicrosteps ((w.session me).config.maxMicrosteps + 2)
          (w.session me).config.maxMicrosteps) w) :=
  rounds_ends _ _ _ w (.inl (Nat.le_refl _))

/-- The loop's move `o`, after `n` microsteps, is where rounds with the budget `limit` stop: it
rests, a guard fails, the budget is used up, or the microstep it fires fails. -/
def Stops (me limit n : Nat) : LoopStep → Prop
  | .fire en w₂ => n = limit ∨ ∃ e w₃, eval (microstep me en.items) w₂ = (.error e, w₃)
  | _ => True

/-- Any way the loop stops within the budget is how the rounds of the macrostep end. -/
theorem rounds_settles {w w₁ : World} {n : Nat} {o : LoopStep} (ht : Turns me w n w₁)
    (hl : Look me w₁ o) (hn : n ≤ (w.session me).config.maxMicrosteps)
    (hs : Stops me (w.session me).config.maxMicrosteps n o) :
    Settles me (w.session me).config.maxMicrosteps ((w.session me).config.maxMicrosteps - n) o
      (eval (rounds me (w.session me).config.maxMicrosteps ((w.session me).config.maxMicrosteps + 2)
        (w.session me).config.maxMicrosteps) w) := by
  obtain ⟨n', hn', w₁', o', ht', hl', hs'⟩ := macrostep_rounds_end me w
  rcases Nat.lt_trichotomy n' n with hlt | rfl | hgt
  · -- the rounds would have stopped before a microstep the loop fires and completes
    obtain ⟨en, w₂, w₃, rfl, hm⟩ := Turns.fires_before ht' hl' ht hlt
    rcases hs' with ⟨hk, -⟩ | ⟨-, e, -, hm'⟩
    · omega
    · rw [hm] at hm'; cases hm'
  · cases Turns.det ht ht'
    cases Look.det hl hl'
    exact hs'
  · obtain ⟨en, w₂, w₃, rfl, hm⟩ := Turns.fires_before ht hl ht' hgt
    rcases hs with rfl | ⟨e, w₄, hm'⟩
    · omega
    · rw [hm] at hm'; cases hm'

theorem rounds_ok {w w' : World} {b : Bool}
    (h : eval (rounds me (w.session me).config.maxMicrosteps ((w.session me).config.maxMicrosteps + 2)
      (w.session me).config.maxMicrosteps) w = (.ok b, w')) :
    ∃ n ≤ (w.session me).config.maxMicrosteps, ∃ w₁, Turns me w n w₁ ∧ Look me w₁ (.rest b w') := by
  obtain ⟨n, hn, w₁, o, ht, hl, hs⟩ := macrostep_rounds_end me w
  rw [h] at hs
  cases o with
  | rest b' w₂ => cases hs; exact ⟨n, hn, w₁, ht, hl⟩
  | fail e w₂ => cases hs
  | fire en w₂ =>
    rcases hs with ⟨-, hs⟩ | ⟨-, e, he, -⟩
    · cases hs
    · cases he

/-- A macrostep fails on its microstep limit exactly when its loop, after firing that many
microsteps, would fire one more. -/
theorem macrostep_limit_iff (w : World) :
    (eval (macrostep me) w).1 = .error (.microstepLimit (w.session me).config.maxMicrosteps) ↔
      ∃ w₁ en w₂, Turns me w (w.session me).config.maxMicrosteps w₁ ∧ Look me w₁ (.fire en w₂) := by
  rw [eval_macrostep]
  constructor
  · intro h
    obtain ⟨n, hn, w₁, o, ht, hl, hs⟩ := macrostep_rounds_end me w
    rcases hr : eval (rounds me _ _ _) w with ⟨r, w'⟩
    rw [hr] at h hs
    cases o with
    | rest b w₂ => cases hs; cases b <;> simp [publish] at h
    | fail e w₂ =>
      cases hs
      cases h
      obtain ⟨_, _, he⟩ := hl.fail
      cases he
    | fire en w₂ =>
      rcases hs with ⟨hk, -⟩ | ⟨-, e, he, hm⟩
      · exact ⟨w₁, en, w₂, by rwa [show n = (w.session me).config.maxMicrosteps by omega] at ht, hl⟩
      · cases he
        cases h
        obtain ⟨_, he⟩ := microstep_error me _ _ _ _ hm
        cases he
  · rintro ⟨w₁, en, w₂, ht, hl⟩
    rcases rounds_settles ht hl (Nat.le_refl _) (.inl rfl) with ⟨-, hs⟩ | ⟨hk, -⟩
    · rw [hs]
    · omega

theorem macrostep_ok_iff (w : World) :
    (eval (macrostep me) w).1 = .ok () ↔
      ∃ n ≤ (w.session me).config.maxMicrosteps, ∃ w₁ b w₂, Turns me w n w₁ ∧ Look me w₁ (.rest b w₂) := by
  rw [eval_macrostep]
  constructor
  · intro h
    rcases hr : eval (rounds me _ _ _) w with ⟨_ | b, w'⟩
    · rw [hr] at h; cases h
    · obtain ⟨n, hn, w₁, ht, hl⟩ := rounds_ok hr
      exact ⟨n, hn, w₁, b, w', ht, hl⟩
  · rintro ⟨n, hn, w₁, b, w₂, ht, hl⟩
    have hs : eval (rounds me _ _ _) w = (.ok b, w₂) := rounds_settles ht hl hn trivial
    rw [hs]
    cases b <;> rfl

/-- A macrostep fails only on its microstep limit, a guard or content. -/
theorem macrostep_error (w : World) {e : SessionError} (h : (eval (macrostep me) w).1 = .error e) :
    e = .microstepLimit (w.session me).config.maxMicrosteps ∨ e.IsGuard ∨ e.IsContent := by
  obtain ⟨n, -, w₁, o, -, hl, hs⟩ := macrostep_rounds_end me w
  rw [eval_macrostep] at h
  generalize hL : (w.session me).config.maxMicrosteps = L at *
  rcases hr : eval (rounds me L (L + 2) L) w with ⟨_ | _ | _, w'⟩ <;> rw [hr] at h hs
  · cases h
    cases o with
    | rest b w₂ => cases hs
    | fail e' w₂ => cases hs; exact .inr (.inl hl.fail)
    | fire en w₂ =>
      rcases hs with ⟨-, hs⟩ | ⟨-, e', he, hm⟩
      · cases hs; exact .inl rfl
      · cases he; exact .inr (.inr (microstep_error me _ _ _ _ hm))
  · cases h
  · simp [publish] at h

theorem stable_publish {w : World} (hs : w.Stable me) : (eval (publish me) w).2.Stable me :=
  hs.modifySession fun _ hr => ⟨hr, fun hq => hq⟩

theorem macrostep_stable (w : World) (h : (eval (macrostep me) w).1 = .ok ()) :
    (eval (macrostep me) w).2.Stable me := by
  rw [eval_macrostep] at h ⊢
  rcases hr : eval (rounds me _ _ _) w with ⟨_ | _ | _, w'⟩
  · rw [hr] at h; cases h
  · obtain ⟨_, -, _, -, hl⟩ := rounds_ok hr
    exact World.Stable.of_not_running hl.rest.1
  · obtain ⟨_, -, _, -, hl⟩ := rounds_ok hr
    exact stable_publish fun _ => hl.rest.2 rfl

end Engine
end Hsm
