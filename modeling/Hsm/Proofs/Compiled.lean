import Hsm.Proofs.Walk
import Hsm.Proofs.Entry
/-!
# What compiling a description gives

Finishing resolves targets, makes default entries and history defaults, and keeps
`Lowering.Finishing` (`Lowering.finish_finished`). A description that compiles gives a document
laid out as `DocumentSchema.Lowered` says (`DocumentSchema.build_lowered`).
-/

namespace Hsm

namespace Lowering
variable {α β : Type}

/-- `l` is `l₀` with problems possibly reported since. -/
structure Reported (l₀ l : Lowering) : Prop where
  eq : l = { l₀ with issues := l.issues }
  grows : l.issues = #[] → l₀.issues = #[]

namespace Reported
variable {l₀ l₁ l₂ : Lowering}

theorem refl (l : Lowering) : Reported l l := ⟨rfl, id⟩

theorem trans (h₁ : Reported l₀ l₁) (h₂ : Reported l₁ l₂) : Reported l₀ l₂ :=
  ⟨by rw [h₂.eq, h₁.eq], fun h => h₁.grows (h₂.grows h)⟩

theorem push (l : Lowering) (i : Issue) : Reported l { l with issues := l.issues.push i } :=
  ⟨rfl, fun h => by simp at h⟩

theorem issues_ne (h : Reported l₀ l₁) (h₀ : l₀.issues ≠ #[]) : l₁.issues ≠ #[] :=
  fun h' => h₀ (h.grows h')

theorem states (h : Reported l₀ l₁) : l₁.states = l₀.states := by
  rw [h.eq]

theorem walk {C : List Nat} (h : Reported l₀ l₁) (hw : Walk C l₀) : Walk C l₁ := by
  rw [h.eq]
  exact hw.of_eq rfl rfl rfl (Nat.le_refl _)

theorem described {X : List (String × StateMode)} (h : Reported l₀ l₁) (hx : Described X l₀) :
    Described X l₁ := fun hi => by
  rw [h.eq]
  exact hx (h.grows hi)

end Reported

/-- Resolving names reports the unknown ones and changes nothing else; unless it reported one, it
resolves every name. -/
theorem resolve_reported (issue : String → Issue) (names : List String) (l₀ : Lowering) :
    Triple (· = l₀) (resolve issue names)
      (fun ts l => Reported l₀ l ∧ (ts.length = names.length ∨ l.issues ≠ #[])) := by
  induction names generalizing l₀ with
  | nil => exact Triple.pure fun l hl => hl ▸ ⟨.refl _, .inl rfl⟩
  | cons name names ih =>
    unfold resolve
    rw [List.filterMapM_cons]
    refine Triple.bind (Q := fun r l => Reported l₀ l ∧ (r.isSome ∨ l.issues ≠ #[]))
      (Triple.get_bind fun l₁ => ?_) fun r => ?_
    · split
      · exact Triple.pure fun l ⟨h₀, _⟩ => h₀ ▸ ⟨.refl _, .inl rfl⟩
      · refine Triple.bind (Q := fun _ l => l = { l₀ with issues := l₀.issues.push (issue name) })
          (fun l ⟨h₀, _⟩ => by subst h₀; rfl) fun _ => Triple.pure fun l hl => ?_
        subst hl
        exact ⟨.push _ _, .inr (by simp)⟩
    · refine Triple.of_eq fun l₁ ⟨h₁, hr⟩ => ?_
      cases r with
      | none =>
        refine (ih l₁).conseq (fun _ h => h) fun ts l ⟨h₂, _⟩ => ⟨h₁.trans h₂, .inr ?_⟩
        exact h₂.issues_ne (hr.resolve_left (by simp))
      | some b =>
        refine Triple.bind (ih l₁) fun ts => Triple.pure fun l ⟨h₂, hlen⟩ => ⟨h₁.trans h₂, ?_⟩
        simpa using hlen

namespace Triple

theorem forM_rest {I : List β → Lowering → Prop} {f : β → StateM Lowering PUnit}
    (h : ∀ a as, Triple (I (a :: as)) (f a) fun _ => I as) :
    ∀ as, Triple (I as) (as.forM f) fun _ => I []
  | [] => Triple.pure fun _ h => h
  | a :: as => Triple.bind (h a as) fun _ => forM_rest h as

end Triple

/-- What finishing keeps: every state closed and laid out, fresh document orders, and default
entries only on compound states, each to a transition with targets unless a problem has been
reported. -/
structure Finishing (l : Lowering) : Prop where
  laid : l.document.Laid []
  numbered : l.Numbered
  initial_compound : ∀ {s t}, (l.document.state s).initial = some t →
    (l.document.state s).mode = .compound
  initial_targets : ∀ {s t}, (l.document.state s).initial = some t →
    (l.document.transition t).targets ≠ [] ∨ l.issues ≠ #[]

namespace Finishing
variable {l l₀ : Lowering}

theorem of_walk (hw : Walk [] l) : Finishing l where
  laid := hw.laid
  numbered := hw.numbered
  initial_compound h := by rw [hw.initial_none] at h; cases h
  initial_targets h := by rw [hw.initial_none] at h; cases h

theorem reported (hf : Finishing l₀) (h : Reported l₀ l) : Finishing l := by
  rw [h.eq]
  exact ⟨hf.laid, hf.numbered.of_eq rfl rfl (Nat.le_refl _), hf.initial_compound,
    fun ht => (hf.initial_targets ht).imp id h.issues_ne⟩

theorem push_transition (hf : Finishing l) (n : TransitionNode) (hn : n.order = l.order) :
    Finishing { l with order := l.order + 1, transitions := l.transitions.push n } := by
  have htr : ∀ t, ({ l with order := l.order + 1, transitions := l.transitions.push n } :
      Lowering).document.transition t =
        if t = l.document.transitions.size then n else l.document.transition t :=
    Document.transition_push l.document n
  refine ⟨hf.laid.of_layout rfl fun _ => rfl, hf.numbered.push_transition n hn, hf.initial_compound,
    fun {s t} ht => (hf.initial_targets ht).imp (fun h => ?_) id⟩
  rw [htr, if_neg]
  · exact h
  · rintro rfl
    exact h (by simp [Document.transition, document]; rfl)

/-- Changing a state without touching its layout or its order, and giving it a default entry
only when it is compound and the entry has targets, keeps finishing. -/
theorem modify_states (hf : Finishing l) {s : Nat} {f : StateNode → StateNode}
    (hlay : ∀ m, (f m).layout = m.layout ∧ (f m).order = m.order)
    (hinit : ∀ {t}, (f (l.document.state s)).initial = some t →
      (l.document.state s).mode = .compound ∧
        ((l.document.transition t).targets ≠ [] ∨ l.issues ≠ #[])) :
    Finishing { l with states := l.states.modify s f } := by
  have hst : ∀ t, ({ l with states := l.states.modify s f } : Lowering).document.state t =
      if t = s ∧ s < l.document.size then f (l.document.state s) else l.document.state t :=
    fun t => Document.state_modify l.document s f t
  refine ⟨hf.laid.of_layout (by simp [document, Document.size]) fun t => ?_,
    hf.numbered.modify_states fun m => (hlay m).2, fun {t u} h => ?_, fun {t u} h => ?_⟩
  · rw [hst]
    split
    · rename_i h
      rw [(hlay _).1, h.1]
    · rfl
  · rw [hst] at h ⊢
    split at h
    · rw [if_pos ‹_›, show (f (l.document.state s)).mode = (l.document.state s).mode from
        congrArg StateLayout.mode (hlay _).1]
      exact (hinit h).1
    · rw [if_neg ‹_›]
      exact hf.initial_compound h
  · rw [hst] at h
    split at h
    · exact (hinit h).2
    · exact hf.initial_targets h

end Finishing

theorem state_of_modify {l l' : Lowering} {s : Nat} {f : StateNode → StateNode}
    (h : l'.states = l.states.modify s f) (t : Nat) :
    l'.document.state t =
      if t = s ∧ s < l.document.size then f (l.document.state s) else l.document.state t := by
  show l'.states.getD t default = _
  rw [h]
  exact Document.state_modify l.document s f t

theorem size_of_modify {l l' : Lowering} {s : Nat} {f : StateNode → StateNode}
    (h : l'.states = l.states.modify s f) : l'.document.size = l.document.size := by
  simp [document, Document.size, h]

theorem keys_modify (l : Lowering) {s : Nat} {f : StateNode → StateNode}
    (hf : ∀ m, (f m).layout = m.layout) :
    ({ l with states := l.states.modify s f } : Lowering).keys = l.keys := by
  rw [keys_eq_layouts, keys_eq_layouts, layouts_modify l hf]

/-- The default entries still to make, `rest`, are of compound states, and name states when they
list ids; every other compound state has its default entry. -/
structure PendingRest (rest : List PendingInitial) (l : Lowering) : Prop where
  covered : ∀ {s}, s < l.document.size → (l.document.state s).mode = .compound →
    (l.document.state s).initial.isSome ∨ s ∈ rest.map PendingInitial.state
  pending : ∀ e ∈ rest, e.state < l.document.size ∧ (l.document.state e.state).mode = .compound ∧
    ∀ names, e.rule = .ids names → names ≠ []

/-- Giving the first waiting state its default entry. -/
theorem PendingRest.step {e : PendingInitial} {rest : List PendingInitial} {l l' : Lowering}
    (hp : PendingRest (e :: rest) l) {t : Nat}
    (hs : l'.states = l.states.modify e.state fun n => { n with initial := some t }) :
    PendingRest rest l' := by
  have hst := state_of_modify hs
  have hsz := size_of_modify hs
  obtain ⟨hlt, -, -⟩ := hp.pending e List.mem_cons_self
  have hmode : ∀ u, (l'.document.state u).mode = (l.document.state u).mode := fun u => by
    rw [hst]
    split <;> simp_all
  refine ⟨fun {u} hu hc => ?_, fun e' he' => ?_⟩
  · rw [hsz] at hu
    rw [hmode] at hc
    by_cases hue : u = e.state
    · left
      rw [hst, if_pos ⟨hue, hlt⟩]
      rfl
    · rcases hp.covered hu hc with h | h
      · left
        rw [hst, if_neg fun h' => hue h'.1]
        exact h
      · right
        simpa [hue] using h
  · obtain ⟨h₁, h₂, h₃⟩ := hp.pending e' (List.mem_cons_of_mem _ he')
    exact ⟨hsz ▸ h₁, (hmode _).trans h₂, h₃⟩

/-- Making the default entry of the first waiting state, to `ts`: the transition is added and
named as the state's default entry. -/
theorem initialEntry_step {Y : List (String × StateMode)} {e : PendingInitial}
    {rest : List PendingInitial} {ts : List Nat} {l : Lowering} (hf : Finishing l)
    (hx : Described Y l) (hp : PendingRest (e :: rest) l) (hts : ts ≠ [] ∨ l.issues ≠ #[]) :
    Triple (· = l) (pushSynthetic e.state ts e.content >>= fun tid =>
        modifyNode e.state fun n => { n with initial := some tid })
      (fun _ l => Finishing l ∧ Described Y l ∧ PendingRest rest l) := by
  refine Triple.bind (Q := fun tid l' => tid = l.transitions.size ∧ l' = { l with
      order := l.order + 1
      transitions := l.transitions.push
        { source := e.state, targets := ts, events := [], kind := .external, cond := none,
          content := e.content, order := l.order } })
    (fun l' hl' => by subst hl'; exact ⟨rfl, rfl⟩) fun tid => Triple.modify fun l' ⟨htid, hl'⟩ => ?_
  subst htid hl'
  obtain ⟨-, hmode, -⟩ := hp.pending e List.mem_cons_self
  refine ⟨(hf.push_transition _ rfl).modify_states (fun _ => ⟨rfl, rfl⟩) fun ht => ⟨hmode, ?_⟩,
    hx.of_eq (keys_modify _ fun _ => rfl) rfl, hp.step rfl⟩
  cases ht
  simpa [Document.transition, document] using hts

theorem PendingRest.of_states {rest : List PendingInitial} {l l' : Lowering}
    (hp : PendingRest rest l) (hs : l'.states = l.states) : PendingRest rest l' := by
  have hst : ∀ u, l'.document.state u = l.document.state u := fun u => by
    simp [document, Document.state, hs]
  have hsz : l'.document.size = l.document.size := by simp [document, Document.size, hs]
  exact ⟨fun hu hc => by rw [hst] at hc ⊢; exact hp.covered (hsz ▸ hu) hc,
    fun e he => by rw [hsz, hst]; exact hp.pending e he⟩

/-- Listing one more transition of a state. -/
theorem PendingRest.add_transition {rest : List PendingInitial} {l l' : Lowering}
    (hp : PendingRest rest l) {s t : Nat}
    (hs : l'.states = l.states.modify s fun n => { n with transitions := n.transitions ++ [t] }) :
    PendingRest rest l' := by
  have hst := state_of_modify hs
  have hsz := size_of_modify hs
  have hkeep : ∀ u, (l'.document.state u).mode = (l.document.state u).mode ∧
      (l'.document.state u).initial = (l.document.state u).initial := fun u => by
    rw [hst]
    split
    · rename_i h
      rw [h.1]
      exact ⟨rfl, rfl⟩
    · exact ⟨rfl, rfl⟩
  refine ⟨fun hu hc => ?_, fun e he => ?_⟩
  · rw [(hkeep _).2]
    exact hp.covered (hsz ▸ hu) ((hkeep _).1 ▸ hc)
  · rw [hsz, (hkeep _).1]
    exact hp.pending e he

/-- The history pseudo-states still to give a default transition, `rest`; every other one has a
transition. -/
def HistoryRest (rest : List Nat) (l : Lowering) : Prop :=
  ∀ {s}, s < l.document.size → l.document.isHistory s = true →
    (l.document.state s).transitions ≠ [] ∨ s ∈ rest

/-- Giving the first waiting history pseudo-state a transition. -/
theorem HistoryRest.step {h : Nat} {rest : List Nat} {l l' : Lowering} (hh : HistoryRest (h :: rest) l)
    {t : Nat} (hs : l'.states = l.states.modify h fun n => { n with transitions := n.transitions ++ [t] }) :
    HistoryRest rest l' := by
  have hst := state_of_modify hs
  intro u hu hu'
  have hmode : (l'.document.state u).mode = (l.document.state u).mode := by
    rw [hst]
    split <;> simp_all
  rw [size_of_modify hs] at hu
  rw [Document.isHistory_iff, hmode, ← Document.isHistory_iff] at hu'
  by_cases huh : u = h
  · left
    rw [hst, if_pos ⟨huh, huh ▸ hu⟩]
    simp
  · rcases hh hu hu' with h' | h'
    · left
      rw [hst, if_neg fun h'' => huh h''.1]
      exact h'
    · right
      simpa [huh] using h'

/-- Giving the first waiting history pseudo-state a default transition, to `ts`. -/
theorem historyDefault_step {Y : List (String × StateMode)} {h : Nat} {rest : List Nat}
    {ts : List Nat} {l : Lowering} (hf : Finishing l) (hx : Described Y l) (hp : PendingRest [] l)
    (hh : HistoryRest (h :: rest) l) :
    Triple (· = l) (pushSynthetic h ts [] >>= fun tid =>
        modifyNode h fun n => { n with transitions := n.transitions ++ [tid] })
      (fun _ l => Finishing l ∧ Described Y l ∧ PendingRest [] l ∧ HistoryRest rest l) := by
  refine Triple.bind (Q := fun tid l' => tid = l.transitions.size ∧ l' = { l with
      order := l.order + 1
      transitions := l.transitions.push
        { source := h, targets := ts, events := [], kind := .external, cond := none,
          content := [], order := l.order } })
    (fun l' hl' => by subst hl'; exact ⟨rfl, rfl⟩) fun tid => Triple.modify fun l' ⟨htid, hl'⟩ => ?_
  subst htid hl'
  have hf' := hf.push_transition
    { source := h, targets := ts, events := [], kind := .external, cond := none, content := [],
      order := l.order } rfl
  exact ⟨hf'.modify_states (fun _ => ⟨rfl, rfl⟩) fun ht => ⟨hf'.initial_compound ht, hf'.initial_targets ht⟩,
    hx.of_eq (keys_modify _ fun _ => rfl) rfl, hp.add_transition rfl, hh.step rfl⟩

/-- What finishing gives, beside what it keeps: every compound state has its default entry, and
every history pseudo-state a transition. -/
structure Finished (l : Lowering) : Prop extends Finishing l where
  compound_initial : ∀ {s}, s < l.document.size → (l.document.state s).mode = .compound →
    (l.document.state s).initial.isSome
  history_transitions : ∀ {s}, s < l.document.size → l.document.isHistory s = true →
    (l.document.state s).transitions ≠ []

theorem finish_finished {Y : List (String × StateMode)} :
    Triple (fun l => Walk [] l ∧ Described Y l) finish (fun _ l => Finished l ∧ Described Y l) := by
  unfold finish
  refine Triple.get_bind fun l₀ => ?_
  -- resolving the targets of the transitions keeps the walk and the queue of default entries
  refine Triple.bind (Q := fun _ l => Walk [] l ∧ Described Y l ∧ l.pendingInitial = l₀.pendingInitial)
    ((Triple.forM fun x _ => ?_).conseq (fun l ⟨⟨hw, hx⟩, hl⟩ => hl ▸ ⟨hw, hx, rfl⟩)
      fun _ _ h => h) fun _ => ?_
  · obtain ⟨tid, names⟩ := x
    refine Triple.get_bind fun l₁ => Triple.get_bind fun l₂ => ?_
    refine Triple.of_eq fun l₃ ⟨⟨⟨hw, hx, hp⟩, _⟩, _⟩ => ?_
    refine Triple.bind (resolve_reported _ _ l₃) fun ts => Triple.modify fun l ⟨hr, _⟩ => ?_
    refine ⟨(hr.walk hw).of_eq rfl (map_toList_modify _ _ _ _ fun _ => rfl) rfl (Nat.le_refl _),
      (hr.described hx).of_eq rfl rfl, (congrArg pendingInitial hr.eq).trans hp⟩
  -- the default entries, one for each state still waiting for one
  refine Triple.bind (Q := fun _ l => Finishing l ∧ Described Y l ∧ PendingRest [] l)
    ((Triple.forM_rest (I := fun rest l => Finishing l ∧ Described Y l ∧ PendingRest rest l)
      (fun e rest => ?_) l₀.pendingInitial.toList).conseq
      (fun l ⟨hw, hx, hp⟩ => ⟨.of_walk hw, hx, ?_⟩) fun _ _ h => h) fun _ => ?_
  · refine Triple.of_eq fun l ⟨hf, hx, hp⟩ => ?_
    lift_lets
    intro jp
    obtain ⟨-, -, hids⟩ := hp.pending e List.mem_cons_self
    -- from `l`, with problems possibly reported since, making the entry to targets `ts`
    have hjp : ∀ ts l', Reported l l' → (ts ≠ [] ∨ l'.issues ≠ #[]) →
        Triple (· = l') (jp ts) fun _ l => Finishing l ∧ Described Y l ∧ PendingRest rest l :=
      fun ts l' hr hts => initialEntry_step (hf.reported hr) (hr.described hx)
        (hp.of_states hr.states) hts
    split
    · rename_i c _
      refine Triple.bind (Q := fun ts l' => ts = [c] ∧ l' = l) (Triple.pure fun l' hl' => ⟨rfl, hl'⟩)
        fun ts => Triple.of_eq fun l' ⟨hts, hl'⟩ => ?_
      subst hts hl'
      exact hjp _ _ (.refl _) (.inl (List.cons_ne_nil _ _))
    · rename_i names hn
      refine Triple.get_bind fun l₁ => Triple.of_eq fun l₂ ⟨h₁, h₂⟩ => ?_
      subst h₁ h₂
      refine Triple.bind (resolve_reported _ _ _) fun ts => Triple.of_eq fun l' ⟨hr, hlen⟩ => ?_
      refine hjp ts l' hr (hlen.imp_left fun h h' => hids names hn ?_)
      rw [h', List.length_nil] at h
      exact List.eq_nil_of_length_eq_zero h.symm
  · -- the queue holds exactly the compound states, none with a default entry yet
    refine ⟨fun hs hc => .inr ?_, fun e he => ?_⟩
    · rw [← hp]
      exact (hw.pending_iff _).2 ⟨hs, hc⟩
    · have hmem : e.state ∈ l.pendingInitial.toList.map PendingInitial.state := by
        rw [hp]
        exact List.mem_map_of_mem he
      obtain ⟨hlt, hc⟩ := (hw.pending_iff _).1 hmem
      exact ⟨hlt, hc, hw.pending_ids e (hp ▸ he)⟩
  -- a default transition for each history pseudo-state without a transition
  refine Triple.get_bind fun l₂ => ?_
  lift_lets
  intro histories
  refine (Triple.forM_rest (I := fun rest l => Finishing l ∧ Described Y l ∧ PendingRest [] l ∧
      HistoryRest rest l) (fun h rest => ?_) histories).conseq
    (fun l ⟨⟨hf, hx, hp⟩, hl⟩ => ⟨hf, hx, hp, ?_⟩)
    fun _ l ⟨hf, hx, hp, hh⟩ => ⟨⟨hf, fun hs hc => ?_, fun hs hi => ?_⟩, hx⟩
  · refine Triple.get_bind fun l₃ => ?_
    lift_lets
    intro home targets
    refine Triple.of_eq fun l₄ ⟨⟨hf, hx, hp, hh⟩, hl⟩ => ?_
    subst hl
    exact historyDefault_step hf hx hp hh
  · subst hl
    intro s hs hi
    obtain ⟨k, hk⟩ := (Document.isHistory_iff _ _).1 hi
    by_cases ht : (l.document.state s).transitions = []
    · right
      simp only [histories, List.mem_filter, List.mem_range]
      refine ⟨hs, ?_⟩
      simp only [Document.state, document] at hk ht
      simp only [hk, ht, List.isEmpty_nil, Bool.and_self]
    · exact .inl ht
  · simpa using hp.covered hs hc
  · simpa using hh hs hi

theorem state_empty (s : Nat) : ({} : Lowering).document.state s =
    if s = 0 then { id := Document.rootId, mode := .atomic, order := 0, depth := -1 } else default := by
  simp only [Lowering.document, Document.state, Array.getD_eq_getD_getElem?]
  cases s <;> simp

theorem parent_empty (s : Nat) : (({} : Lowering).document.state s).parent = none := by
  rw [state_empty]
  split <;> rfl

theorem withParent_empty (s : Nat) (h : Bool) : ({} : Lowering).document.withParent s h = [] := by
  show (List.range 1).filter _ = []
  simp [parent_empty]

/-- Before anything is compiled the root is alone, and open. -/
theorem laid_empty : ({} : Lowering).document.Laid [0] where
  nested := nested_empty
  size_pos := by decide
  root_id := rfl
  root_depth := rfl
  root_parent := rfl
  parent_isSome _ h := absurd h (by change ¬ _ < 1; omega)
  depth_eq h := by rw [parent_empty] at h; cases h
  partitioned := ⟨fun s => by rw [withParent_empty, state_empty]; split <;> rfl,
    fun s => by rw [withParent_empty, state_empty]; split <;> rfl⟩
  convex _ _ h _ := absurd h (by change ¬ _ < 1; omega)
  parent_not_history h := by rw [parent_empty] at h; cases h
  chain_eq heq := by
    obtain ⟨rfl, rfl⟩ := List.cons.inj heq
    exact ⟨by decide, rfl⟩
  open_mode ha := by
    rw [List.mem_singleton.1 ha]
    exact .inl rfl
  tail ha hab hb := by
    rw [List.mem_singleton.1 ha] at hab
    change _ < 1 at hb
    omega
  closed hs hsC := absurd (List.mem_singleton.2 (by change _ < 1 at hs; omega)) hsC

/-- The arena before anything is compiled: the root alone, open, with the first document order
and no default entry to make. -/
theorem walk_empty : Walk [0] {} where
  laid := laid_empty
  numbered := ⟨fun _ h => absurd h (by change ¬ _ < 1; omega), by decide, fun o ho => by
    simp [orders] at ho
    rw [ho]
    decide⟩
  initial_none s := by
    rw [state_empty]
    split <;> rfl
  pending_iff s := by
    rw [state_empty]
    simp only [List.map_nil, List.not_mem_nil, false_iff, not_and]
    intro hs
    rw [if_pos (by change _ < 1 at hs; omega)]
    simp
  pending_ids _ he := by simp at he

theorem described_empty : Described [(Document.rootId, .atomic)] {} := fun _ => rfl

theorem key_state {l : Lowering} {j : Nat} (hj : j < l.keys.length) :
    (l.document.state j).key = l.keys[j] := by
  have hj' : j < l.states.size := by simpa [keys] using hj
  simp only [keys, List.getElem_map, Array.getElem_toList, document, Document.state,
    Array.getD_eq_getD_getElem?, Array.getElem?_eq_getElem hj', Option.getD_some]

end Lowering

namespace Document
variable {d : Document}

/-- A closed state described with a mode other than compound has the mode closing gives it. -/
theorem Closed.mode_eq {s : Nat} (hc : d.Closed s) {m : StateMode} (hm : m ≠ .compound)
    (hd : (d.state s).mode.described = m) :
    (d.state s).mode = closedMode m (d.state s).children := by
  unfold closedMode
  cases h : (d.state s).mode with
  | compound =>
    rw [h] at hd
    subst hd
    simp [StateMode.described, hc.compound h]
  | atomic =>
    rw [h] at hd
    subst hd
    simp [StateMode.described, hc.atomic h]
  | _ =>
    rw [h] at hd
    subst hd
    simp [StateMode.described]

theorem Laid.ancestors_getLast {C : List Nat} (hl : d.Laid C) {s : Nat} (hs : 0 < s)
    (hsz : s < d.size) : (d.state s).ancestors.getLast? = some 0 := by
  induction s using Nat.strongRecOn with
  | ind s ih =>
    obtain ⟨p, hp⟩ := Option.isSome_iff_exists.1 (hl.parent_isSome hs hsz)
    have hps := hl.nested.parent_lt hp
    rw [hl.nested.ancestors_eq s]
    simp only [hp, List.getLast?_cons]
    rcases Nat.eq_zero_or_pos p with rfl | hp0
    · rw [hl.nested.ancestors_eq 0, hl.root_parent]
      rfl
    · rw [ih p hps hp0 (by omega)]
      rfl

end Document

namespace DocumentSchema

/-- What compiling a description gives: the root first, then the described states in pre-order,
each below its parent with depth and ancestors to match, its children and history pseudo-states
and its descendants listed in document order, and its mode that of its kind, compound for a plain
state with children; document orders grow with the index and are never shared by two states or
transitions; exactly the compound states have a default entry, and it has targets; every history
pseudo-state has a transition; and sorting states by exit order reverses entry order. -/
structure Lowered (ds : DocumentSchema) (d : Document) : Prop where
  root : (d.state 0).id = Document.rootId ∧ (d.state 0).depth = -1 ∧ (d.state 0).parent = none ∧
    (d.state 0).ancestors = []
  root_mode : (d.state 0).mode = Document.closedMode .atomic (d.state 0).children
  size_eq : d.size = ds.preorder.length + 1
  preorder : ∀ i (hi : i < ds.preorder.length), (d.state (i + 1)).id = ds.preorder[i].id ∧
    (d.state (i + 1)).mode =
      Document.closedMode (Lowering.StateKind.mode ds.preorder[i].kind) (d.state (i + 1)).children
  order_lt : ∀ {s s'}, s < s' → s' < d.size → (d.state s).order < (d.state s').order
  order_nodup :
    (d.states.toList.map StateNode.order ++ d.transitions.toList.map TransitionNode.order).Nodup
  parent : ∀ {s}, 0 < s → s < d.size → ∃ p, (d.state s).parent = some p ∧
    (d.state s).depth = (d.state p).depth + 1 ∧ (d.state s).ancestors = p :: (d.state p).ancestors ∧
    (d.state s).ancestors.getLast? = some 0
  children_eq : ∀ s, (d.state s).children = d.withParent s false
  history_eq : ∀ s, (d.state s).history = d.withParent s true
  descendants_eq : ∀ {s}, s < d.size → (d.state s).descendants = d.statesBelow s
  initial_iff : ∀ {s}, s < d.size → ((d.state s).initial.isSome ↔ (d.state s).mode = .compound)
  initial_targets : ∀ {s t}, (d.state s).initial = some t → (d.transition t).targets ≠ []
  history_transitions : ∀ {s}, s < d.size → d.isHistory s = true → (d.state s).transitions ≠ []
  exit_reverse : ∀ xs : List Nat, (∀ s ∈ xs, s < d.size) →
    sortBy d.exitCmp xs = (sortBy d.entryCmp xs).reverse

open Lowering in
/-- A finished arena with no problem reported, whose states are those described, holds a document
laid out as `Lowered` says. -/
theorem lowered_of_finished {ds : DocumentSchema} {l : Lowering} (hf : Finished l)
    (hx : Described ((Document.rootId, .atomic) :: ds.preorder.map StateSchema.key) l)
    (hi : l.issues = #[]) : ds.Lowered l.document := by
  have hk := hx hi
  have hlen : l.keys.length = ds.preorder.length + 1 := by rw [hk]; simp
  have hsize : l.document.size = ds.preorder.length + 1 := by
    rw [← hlen]
    simp [keys, document, Document.size]
  have hclosed : ∀ {s}, s < l.document.size → l.document.Closed s := fun hs =>
    hf.laid.closed hs List.not_mem_nil
  have hkey : ∀ i (hi : i < ds.preorder.length),
      (l.document.state (i + 1)).key = ds.preorder[i].key := fun i hi => by
    rw [key_state (by omega)]
    simp [hk]
  have hroot : (l.document.state 0).key = (Document.rootId, .atomic) := by
    rw [key_state (by omega)]
    simp [hk]
  refine ⟨⟨hf.laid.root_id, hf.laid.root_depth, hf.laid.root_parent, ?_⟩, ?_, hsize,
    fun i hi => ?_, hf.numbered.state_lt, hf.numbered.nodup, fun {s} hs hsz => ?_,
    hf.laid.partitioned.children_eq, hf.laid.partitioned.history_eq,
    fun hs => (hclosed hs).descendants_eq, fun hs => ?_,
    fun ht => (hf.initial_targets ht).resolve_right (not_not.2 hi), hf.history_transitions,
    fun xs hxs => Document.sortBy_exitCmp_eq_reverse fun a ha b hb hab => ?_⟩
  · rw [hf.laid.nested.ancestors_eq 0, hf.laid.root_parent]
  · exact (hclosed hf.laid.size_pos).mode_eq (by decide) (congrArg Prod.snd hroot)
  · have h := hkey i hi
    refine ⟨congrArg Prod.fst h, (hclosed (by omega)).mode_eq (StateKind.mode_ne_compound _)
      (congrArg Prod.snd h)⟩
  · obtain ⟨p, hp⟩ := Option.isSome_iff_exists.1 (hf.laid.parent_isSome hs hsz)
    refine ⟨p, hp, hf.laid.depth_eq hp, ?_, hf.laid.ancestors_getLast hs hsz⟩
    rw [hf.laid.nested.ancestors_eq s, hp]
  · refine ⟨fun h => ?_, hf.compound_initial hs⟩
    obtain ⟨t, ht⟩ := Option.isSome_iff_exists.1 h
    exact hf.initial_compound ht
  · -- two states in one place share their document order, so they are one state
    have ho : (l.document.state a).order = (l.document.state b).order := congrArg Place.order hab
    rcases Nat.lt_trichotomy a b with h | h | h
    · exact absurd ho (Nat.ne_of_lt (hf.numbered.state_lt h (hxs b hb)))
    · exact h
    · exact absurd ho.symm (Nat.ne_of_lt (hf.numbered.state_lt h (hxs a ha)))

open Lowering in
theorem lowered_of_run {ds : DocumentSchema} {x : StateM Lowering Unit}
    (hx : Triple (fun l => Walk [0] l ∧ Described [(Document.rootId, .atomic)] l) x
      (fun _ l => Finished l ∧
        Described ((Document.rootId, .atomic) :: ds.preorder.map StateSchema.key) l))
    (hnil : (x.run {}).2.issues.toList ++ (x.run {}).2.document.problems = []) :
    ds.Lowered (x.run {}).2.document := by
  obtain ⟨hf, hd⟩ := hx {} ⟨walk_empty, described_empty⟩
  refine lowered_of_finished hf hd ?_
  simpa using (List.append_eq_nil_iff.1 hnil).1

open Lowering in
/-- Every description that compiles gives a document laid out as `Lowered` says. -/
theorem build_lowered {ds : DocumentSchema} {d : Document} (h : ds.build = .ok d) :
    ds.Lowered d := by
  unfold build at h
  dsimp only at h
  split at h
  · rename_i hnil
    cases h
    refine lowered_of_run ?_ hnil
    -- the top-level states are compiled below the root, which is then closed
    refine Triple.bind (lowerEach_walk 0 [] ds.states _) fun marked =>
      Triple.bind (finishChildren_walk 0 ds.initial marked) fun r => ?_
    have hY : ∀ l, Described ([(Document.rootId, .atomic)] ++
        (StateSchema.preorderEach ds.states).map StateSchema.key) l →
        Described ((Document.rootId, .atomic) :: ds.preorder.map StateSchema.key) l :=
      fun l h => by simpa [DocumentSchema.preorder] using h
    cases r with
    | none =>
      exact finish_finished.conseq (fun l h => ⟨(h ds.onInitial).1, hY l (h ds.onInitial).2⟩)
        fun _ _ h => h
    | some rule =>
      refine Triple.bind (Q := fun _ l => Walk [] l ∧
          Described ((Document.rootId, .atomic) :: ds.preorder.map StateSchema.key) l)
        (Triple.modify fun l h => ⟨(h ds.onInitial).1, (hY l (h ds.onInitial).2).of_eq rfl rfl⟩)
        fun _ => finish_finished
  · cases h

/-- A plain state `A` with a child and a shallow history pseudo-state, a parallel state `P` with
two regions, and a final state. -/
def layoutChart : DocumentSchema :=
  { states := [
      { id := "A"
        children := [
          { id := "a", transitions := [{ events := ["go"], targets := ["P"] }] },
          { id := "h", kind := .history .shallow }] },
      { id := "P", kind := .parallel, children := [{ id := "r1" }, { id := "r2" }] },
      { id := "done", kind := .final }] }

theorem layoutChart_lowered : ∃ d, layoutChart.build = .ok d ∧ layoutChart.Lowered d := by
  have hok : layoutChart.build.isOk = true := by decide +kernel
  match h : layoutChart.build, hok with
  | .ok d, _ => exact ⟨d, rfl, build_lowered h⟩
  | .error _, hok => cases hok

end DocumentSchema
end Hsm
