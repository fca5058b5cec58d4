import Hsm.Proofs.Checks
/-!
# Compiling accepts exactly the well-formed descriptions

Compiling succeeds exactly on a well-formed description
(`DocumentSchema.build_ok_iff_wellFormed`), and finishing reports each unknown name in order and
nothing else (`Lowering.finish_issues`). Names given only below a final state or history
pseudo-state are reported unknown (`DocumentSchema.belowFinal_target_unresolved`).
-/

namespace Hsm

theorem StateKind.isLeaf_of_isHistory {k : StateKind} (h : k.isHistory = true) : k.isLeaf = true := by
  cases k <;> simp_all [StateKind.isHistory, StateKind.isLeaf]

namespace StateSchema

theorem mem_edgesFrom {k : Nat} {ss : List StateSchema} {e : Nat × List String} :
    e ∈ edgesFrom k ss ↔ ∃ i, ∃ hi : i < ss.length, ∃ tr ∈ ss[i].transitions, e = (k + i, tr.targets) := by
  induction ss generalizing k with
  | nil => simp [edgesFrom]
  | cons s ss ih =>
    simp only [edgesFrom, List.mem_append, List.mem_map, ih]
    constructor
    · rintro (⟨tr, htr, rfl⟩ | ⟨i, hi, tr, htr, rfl⟩)
      · exact ⟨0, by simp, tr, htr, rfl⟩
      · exact ⟨i + 1, by simpa using hi, tr, htr, Prod.ext (by omega) rfl⟩
    · rintro ⟨i, hi, tr, htr, rfl⟩
      cases i with
      | zero => exact .inl ⟨tr, htr, rfl⟩
      | succ i => exact .inr ⟨i, by simpa using hi, tr, htr, Prod.ext (by omega) rfl⟩

end StateSchema

namespace Lowering
variable {ds : DocumentSchema} {V : List StateSchema} {E : List (Nat × List String)} {l : Lowering}

def unknown (l : Lowering) (names : List String) : List String :=
  names.filter fun n => (l.find? n).isNone

theorem find?_congr {l l' : Lowering} (h : l'.states = l.states) : l'.find? = l.find? := by
  funext n
  simp only [find?, h]

theorem name_eq_keys (l : Lowering) (s : Nat) :
    l.document.name s = (l.keys.map Prod.fst).getD s (default : StateNode).id := by
  simp only [Document.name, document, Document.state, Array.getD_eq_getD_getElem?, keys,
    List.map_map, List.getD_eq_getElem?_getD, List.getElem?_map, Array.getElem?_toList]
  cases l.states[s]? <;> rfl

theorem name_congr {l l' : Lowering} (h : l'.keys = l.keys) (s : Nat) :
    l'.document.name s = l.document.name s := by
  rw [name_eq_keys, name_eq_keys, h]

theorem unknown_congr {l l' : Lowering} (h : l'.keys = l.keys) (names : List String) :
    l'.unknown names = l.unknown names := by
  have hsome : ∀ n, (l'.find? n).isSome = (l.find? n).isSome := fun n =>
    Bool.eq_iff_iff.2 (by rw [find?_isSome_iff, find?_isSome_iff, h])
  simp only [unknown, ← Option.not_isSome, hsome]

/-- Resolving names reports each unknown one, in order, and changes nothing else. -/
theorem resolve_issues (issue : String → Issue) (names : List String) (l₀ : Lowering) :
    Triple (· = l₀) (resolve issue names) (fun ts l => ts = names.filterMap l₀.find? ∧
      l = { l₀ with issues := l₀.issues ++ ((l₀.unknown names).map issue).toArray }) := by
  induction names generalizing l₀ with
  | nil => exact Triple.pure fun l hl => ⟨rfl, by subst hl; simp [unknown]⟩
  | cons name names ih =>
    unfold resolve
    rw [List.filterMapM_cons]
    -- the first name: found, or reported
    let l₁ : Lowering :=
      if (l₀.find? name).isSome then l₀ else { l₀ with issues := l₀.issues.push (issue name) }
    refine Triple.bind (Q := fun r l => r = l₀.find? name ∧ l = l₁)
      (Triple.get_bind fun l' => ?_) fun r => ?_
    · refine Triple.of_eq fun l ⟨hl, hl'⟩ => ?_
      subst hl hl'
      split
      · rename_i s hs
        exact Triple.pure fun l hl => ⟨hs.symm, by simp [l₁, hs, hl]⟩
      · rename_i hs
        exact Triple.bind (Q := fun _ l => l = l₁) (fun l hl => by subst hl; simp [l₁, hs]; rfl)
          fun _ => Triple.pure fun l hl => ⟨hs.symm, hl⟩
    · refine Triple.of_eq fun l ⟨hr, hl⟩ => ?_
      subst hr hl
      -- `l₁` differs from `l₀` at most in its problems
      have hfind : l₁.find? = l₀.find? := by simp only [l₁]; split <;> rfl
      cases h : l₀.find? name with
      | none =>
        refine (ih l₁).conseq (fun _ h => h) fun ts l ⟨hts, hl⟩ => ⟨?_, ?_⟩
        · simp [hts, hfind, h]
        · simp [hl, l₁, h, unknown]
          rfl
      | some s =>
        refine Triple.bind (ih l₁) fun ts => Triple.pure fun l ⟨hts, hl⟩ => ⟨?_, ?_⟩
        · simp [hts, hfind, h]
        · simp [hl, l₁, h, unknown]

theorem pushSynthetic_keys (s : Nat) (ts : List Nat) (content : List Command)
    {f : Nat → StateNode → StateNode} (hf : ∀ t m, (f t m).layout = m.layout) (l₀ : Lowering) :
    Triple (· = l₀) (pushSynthetic s ts content >>= fun tid => modifyNode s (f tid))
      (fun _ l => l.keys = l₀.keys ∧ l.issues = l₀.issues) := by
  refine Triple.bind (Q := fun _ l => l.states = l₀.states ∧ l.issues = l₀.issues)
    (fun l hl => by subst hl; exact ⟨rfl, rfl⟩) fun tid => Triple.modify fun l ⟨hs, hi⟩ => ?_
  refine ⟨?_, hi⟩
  rw [keys_modify _ (hf tid)]
  simp [keys, hs]

/-- The problems resolving the names `e.2` queued for the transition `e.1` reports: each unknown
name, with the id of the transition's source. -/
def missedTarget (l : Lowering) (e : Nat × List String) : List Issue :=
  (l.unknown e.2).map (.unresolvedTarget (l.document.name (l.document.transition e.1).source))

def missedInitial (l : Lowering) (p : PendingInitial) : List Issue :=
  match p.rule with
  | .child _ => []
  | .ids names => (l.unknown names).map (.unresolvedInitial (l.document.name p.state))

/-- Finishing reports the unknown target names of the queued transitions, in order, then those of
the queued default entries, and keeps every state's id and described mode. -/
theorem finish_issues (l₀ : Lowering) :
    Triple (· = l₀) finish fun _ l => l.keys = l₀.keys ∧ l.issues.toList =
      l₀.issues.toList ++ l₀.pendingTargets.toList.flatMap l₀.missedTarget ++
        l₀.pendingInitial.toList.flatMap l₀.missedInitial := by
  unfold finish
  refine Triple.get_bind fun l₁ => Triple.of_eq fun l hl => ?_
  obtain ⟨hl, hl₁⟩ := hl
  subst hl₁
  subst l
  -- resolving transition targets touches only their targets and the problems
  refine Triple.bind (Q := fun _ l => l.states = l₀.states ∧ l.issues.toList =
      l₀.issues.toList ++ l₀.pendingTargets.toList.flatMap l₀.missedTarget)
    ((Triple.forM_rest (I := fun rest l => ∃ done, done ++ rest = l₀.pendingTargets.toList ∧
        l.states = l₀.states ∧
        (∀ t, (l.document.transition t).source = (l₀.document.transition t).source) ∧
        l.issues.toList = l₀.issues.toList ++ done.flatMap l₀.missedTarget)
      (fun e rest => ?_) _).conseq (fun l hl => ⟨[], by simp, by subst hl; simp⟩)
      fun _ l h => by
        obtain ⟨done, hdone, hs, _, hi⟩ := h
        exact ⟨hs, by rw [hi, ← hdone, List.append_nil]⟩) fun _ => ?_
  · obtain ⟨tid, names⟩ := e
    refine Triple.get_bind fun l₂ => Triple.get_bind fun l₃ => ?_
    refine Triple.of_eq fun l h => ?_
    obtain ⟨⟨⟨done, hdone, hs, hsrc, hi⟩, hl₂⟩, hl₃⟩ := h
    subst hl₂ hl₃
    refine Triple.bind (resolve_issues _ _ _) fun ts => Triple.modify fun l' h' => ?_
    obtain ⟨_, hl'⟩ := h'
    subst hl'
    refine ⟨done ++ [(tid, names)], by simpa using hdone, hs, fun t => ?_, ?_⟩
    · have h := hsrc t
      simp only [Document.transition, document, Array.getD_eq_getD_getElem?] at h ⊢
      rw [Array.getElem?_modify, ← h]
      split <;> cases l.transitions[t]? <;> rfl
    · have hname : (l.states.getD (l.transitions.getD tid default).source default).id =
          l₀.document.name (l₀.document.transition tid).source := by
        rw [← hsrc tid]
        simp only [Document.name, Document.state, Document.transition, document, hs]
      have hunk : l.unknown names = l₀.unknown names := by simp only [unknown, find?_congr hs]
      simp only [Array.toList_append, hi, List.flatMap_append, List.flatMap_singleton,
        List.append_assoc, missedTarget, hname, hunk]
  -- the default entries: resolving explicit targets reports their unknown names
  refine Triple.bind (Q := fun _ l => l.keys = l₀.keys ∧ l.issues.toList = l₀.issues.toList ++
      l₀.pendingTargets.toList.flatMap l₀.missedTarget ++
        l₀.pendingInitial.toList.flatMap l₀.missedInitial)
    ((Triple.forM_rest (I := fun rest l => ∃ done, done ++ rest = l₀.pendingInitial.toList ∧
        l.keys = l₀.keys ∧ l.issues.toList = l₀.issues.toList ++
          l₀.pendingTargets.toList.flatMap l₀.missedTarget ++ done.flatMap l₀.missedInitial)
      (fun p rest => ?_) _).conseq
      (fun l h => ⟨[], rfl, by simp [keys, h.1], by simpa using h.2⟩)
      fun _ l h => by
        obtain ⟨done, hdone, hk, hi⟩ := h
        exact ⟨hk, by rw [hi, ← hdone, List.append_nil]⟩) fun _ => ?_
  · refine Triple.of_eq fun l h => ?_
    obtain ⟨done, hdone, hk, hi⟩ := h
    lift_lets
    intro jp
    -- once the targets are resolved, making the entry reports nothing more
    have hjp : ∀ ts l', l'.keys = l₀.keys → l'.issues.toList = l₀.issues.toList ++
        l₀.pendingTargets.toList.flatMap l₀.missedTarget ++ (done ++ [p]).flatMap l₀.missedInitial →
        Triple (· = l') (jp ts) fun _ l => ∃ done, done ++ rest = l₀.pendingInitial.toList ∧
          l.keys = l₀.keys ∧ l.issues.toList = l₀.issues.toList ++
            l₀.pendingTargets.toList.flatMap l₀.missedTarget ++ done.flatMap l₀.missedInitial :=
      fun ts l' hk' hi' => (pushSynthetic_keys p.state ts p.content
        (f := fun tid n => { n with initial := some tid }) (fun _ _ => rfl) l').conseq
        (fun _ h => h) fun _ l h =>
          ⟨done ++ [p], by simpa using hdone, h.1.trans hk', by rw [h.2, hi']⟩
    split
    · rename_i c hc
      refine Triple.bind (Q := fun ts l' => ts = [c] ∧ l' = l) (Triple.pure fun l' hl' => ⟨rfl, hl'⟩)
        fun ts => Triple.of_eq fun l' h => ?_
      obtain ⟨hts, hl'⟩ := h
      subst hts hl'
      exact hjp _ _ hk (by simp [hi, missedInitial, hc])
    · rename_i names hn
      refine Triple.get_bind fun l₁ => Triple.of_eq fun l₂ h => ?_
      obtain ⟨h₁, h₂⟩ := h
      subst h₁ h₂
      refine Triple.bind (resolve_issues _ _ _) fun ts => Triple.of_eq fun l' h' => ?_
      obtain ⟨_, hl'⟩ := h'
      subst hl'
      have hname : (l₂.states.getD p.state default).id = l₀.document.name p.state :=
        name_congr hk _
      refine hjp ts _ hk ?_
      simp only [Array.toList_append, hi, List.flatMap_append, List.flatMap_singleton,
        List.append_assoc, missedInitial, hn, hname, unknown_congr hk]
  -- the history defaults report nothing
  refine Triple.get_bind fun l₂ => ?_
  lift_lets
  intro histories
  refine (Triple.forM fun h _ => ?_).conseq (fun l h => h.1) fun _ _ h => h
  refine Triple.get_bind fun l₃ => ?_
  lift_lets
  intro home targets
  refine Triple.of_eq fun l hl => ?_
  obtain ⟨⟨hk, hi⟩, hl⟩ := hl
  subst hl
  exact (pushSynthetic_keys h targets []
    (f := fun tid n => { n with transitions := n.transitions ++ [tid] }) (fun _ _ => rfl) l).conseq
    (fun _ h => h) fun _ l' h' => ⟨h'.1.trans hk, by rw [h'.2, hi]⟩

namespace Tracked

theorem name_zero (h : Tracked ds V E l) : l.document.name 0 = Document.rootId := by
  rw [name_eq_keys, h.keys]
  rfl

theorem name_succ (h : Tracked ds V E l) {i : Nat} (hi : i < V.length) :
    l.document.name (i + 1) = V[i].id := by
  rw [name_eq_keys, h.keys]
  simp [List.getD_eq_getElem?_getD, hi, StateSchema.key]

theorem found_iff (h : Tracked ds V E l) {n : String} :
    (l.find? n).isSome = true ↔ n ≠ Document.rootId ∧ n ∈ V.map StateSchema.id := by
  rw [find?_isSome_iff, h.keys]
  simp only [List.map_cons, List.mem_cons, List.map_map]
  constructor
  · rintro ⟨hn, hr | hmem⟩
    · exact absurd hr hn
    · exact ⟨hn, by simpa [StateSchema.key] using hmem⟩
  · rintro ⟨hn, hmem⟩
    exact ⟨hn, .inr (by simpa [StateSchema.key] using hmem)⟩

theorem mem_pending (h : Tracked ds V E l) {e : Nat × List String} :
    e ∈ l.pendingTargets.toList ↔ ∃ t, ∃ ht : t < E.length, e = (t, E[t].2) := by
  rw [h.pending, List.mem_iff_getElem]
  simp only [List.length_zip, List.length_range, List.length_map, Nat.min_self, List.getElem_zip,
    List.getElem_range, List.getElem_map]
  exact ⟨fun ⟨t, ht, he⟩ => ⟨t, ht, he.symm⟩, fun ⟨t, ht, he⟩ => ⟨t, ht, he.symm⟩⟩

theorem not_names_of_unknown (h : Tracked ds V E l) (hV : V = ds.preorder) {n : String}
    {names : List String} (hn : n ∈ l.unknown names) : ¬ ds.Names n := fun hN => by
  have hfound := h.found_iff.2 (by rw [hV]; exact hN)
  simp only [unknown, List.mem_filter] at hn
  rw [← Option.not_isSome, hfound] at hn
  exact absurd hn.2 (by decide)

theorem missedTarget_flags (h : Tracked ds V (StateSchema.edgesFrom 1 V) l) (hV : V = ds.preorder)
    {e : Nat × List String} (he : e ∈ l.pendingTargets.toList) {i : Issue}
    (hi : i ∈ l.missedTarget e) : ds.Flags i := by
  obtain ⟨t, ht, rfl⟩ := h.mem_pending.1 he
  obtain ⟨k, hk, tr, htr, hEt⟩ := StateSchema.mem_edgesFrom.1 (List.getElem_mem ht)
  obtain ⟨n, hn, rfl⟩ := List.mem_map.1 hi
  have hsrc : (l.document.transition t).source = k + 1 := by
    rw [h.source_eq ht, hEt]
    omega
  have hmem : V[k] ∈ ds.preorder := by rw [← hV]; exact List.getElem_mem hk
  refine ⟨⟨V[k], hmem, by rw [hsrc, h.name_succ hk], tr, htr, ?_⟩, h.not_names_of_unknown hV hn⟩
  have hn' := (List.mem_filter.1 hn).1
  rwa [hEt] at hn'

/-- An unknown name among explicit default targets reported by finishing names no described
state. -/
theorem missedInitial_flags (h : Tracked ds V E l) (hV : V = ds.preorder) {p : PendingInitial}
    (hp : p ∈ l.pendingInitial.toList) {i : Issue} (hi : i ∈ l.missedInitial p) : ds.Flags i := by
  obtain ⟨hlt, hfit⟩ := h.initials p hp
  unfold missedInitial at hi
  split at hi
  · cases hi
  · rename_i names hr
    rw [hr] at hfit
    obtain ⟨n, hn, rfl⟩ := List.mem_map.1 hi
    refine ⟨?_, h.not_names_of_unknown hV hn⟩
    have hnames : n ∈ ds.explicitAt V p.state := hfit ▸ (List.mem_filter.1 hn).1
    cases hs : p.state with
    | zero =>
      rw [hs] at hnames
      exact .inr ⟨h.name_zero, hnames⟩
    | succ k =>
      have hk : k < V.length := by rw [h.size_eq] at hlt; omega
      rw [hs] at hnames
      have hmem : V[k] ∈ ds.preorder := by rw [← hV]; exact List.getElem_mem hk
      refine .inl ⟨V[k], hmem, (h.name_succ hk).symm, ?_⟩
      simpa [DocumentSchema.explicitAt, hk] using hnames

theorem found_of_targets (h : Tracked ds V (StateSchema.edgesFrom 1 V) l)
    (hnil : l.pendingTargets.toList.flatMap l.missedTarget = []) {k : Nat} (hk : k < V.length)
    {tr : TransitionSchema} (htr : tr ∈ V[k].transitions) {n : String} (hn : n ∈ tr.targets) :
    (l.find? n).isSome = true := by
  obtain ⟨t, ht, hEt⟩ := List.mem_iff_getElem.1
    (StateSchema.mem_edgesFrom.2 ⟨k, hk, tr, htr, rfl⟩)
  have hmiss := List.flatMap_eq_nil_iff.1 hnil _ (h.mem_pending.2 ⟨t, ht, rfl⟩)
  simp only [missedTarget, List.map_eq_nil_iff, unknown, List.filter_eq_nil_iff] at hmiss
  have hnone : ¬ (l.find? n).isNone = true := hmiss n (by rw [hEt]; exact hn)
  cases hf : l.find? n with
  | none => simp [hf] at hnone
  | some _ => rfl

theorem found_of_initial (hnil : l.pendingInitial.toList.flatMap l.missedInitial = [])
    {names : List String} (hq : InitialRule.ids names ∈ l.pendingInitial.toList.map PendingInitial.rule)
    {n : String} (hn : n ∈ names) : (l.find? n).isSome = true := by
  obtain ⟨p, hp, hr⟩ := List.mem_map.1 hq
  have hmiss := List.flatMap_eq_nil_iff.1 hnil p hp
  simp only [missedInitial, hr, List.map_eq_nil_iff, unknown, List.filter_eq_nil_iff] at hmiss
  have hnone : ¬ (l.find? n).isNone = true := hmiss n hn
  cases hf : l.find? n with
  | none => simp [hf] at hnone
  | some _ => rfl

end Tracked

end Lowering

namespace Document

/-- What validating a compiled document checks: every default entry targets states strictly below
its state, and the targets of every default entry and of every transition may all be active
together. -/
def Valid (d : Document) : Prop :=
  ∀ s < d.size, (∀ t, (d.state s).initial = some t →
      ∀ x ∈ (d.transition t).targets, d.isDescendant x s = true) ∧
    ∀ t ∈ (d.state s).initial.toList ++ (d.state s).transitions,
      d.isLegalSet (d.transition t).targets = true

theorem targetSetIssue_eq_nil_iff (d : Document) (t : Nat) :
    d.targetSetIssue t = [] ↔ d.isLegalSet (d.transition t).targets = true := by
  unfold targetSetIssue
  dsimp only
  split <;> simp_all

/-- Validation finds no problem exactly on a valid document. -/
theorem problems_eq_nil_iff (d : Document) : d.problems = [] ↔ d.Valid := by
  simp only [problems, List.flatMap_eq_nil_iff, List.mem_range, Valid]
  refine forall_congr' fun s => imp_congr_right fun _ => ?_
  cases h : (d.state s).initial with
  | none => simp [targetSetIssue_eq_nil_iff]
  | some t =>
    simp only [List.append_eq_nil_iff, List.filterMap_eq_nil_iff, targetSetIssue_eq_nil_iff,
      List.flatMap_eq_nil_iff, Option.toList_some, List.cons_append, List.mem_cons,
      forall_eq_or_imp, Option.some.injEq, forall_eq']
    constructor
    · rintro ⟨⟨hd, hl⟩, ht⟩
      refine ⟨fun x hx => ?_, hl, ht⟩
      have := hd x hx
      split at this <;> simp_all
    · rintro ⟨hd, hl, ht⟩
      exact ⟨⟨fun x hx => by simp [hd x hx], hl⟩, ht⟩

end Document

namespace DocumentSchema
variable {ds : DocumentSchema}

/-- Every problem validation finds names a default entry or a transition of the compiled document
that breaks its condition. -/
theorem flags_of_mem_problems {i : Issue} (hi : i ∈ ds.arena.document.problems) : ds.Flags i := by
  simp only [Document.problems, List.mem_flatMap, List.mem_range, List.mem_append] at hi
  obtain ⟨s, hs, hi⟩ := hi
  -- the problems of `s`: those of its default entry, then those of its transitions
  rcases hi with hi | hi
  · split at hi
    · rename_i t ht
      rcases List.mem_append.1 hi with hi | hi
      · obtain ⟨x, hx, hix⟩ := List.mem_filterMap.1 hi
        split at hix
        · cases hix
        · rename_i hnd
          cases hix
          exact ⟨s, hs, t, x, rfl, ht, hx, rfl, by simpa using hnd⟩
      · unfold Document.targetSetIssue at hi
        dsimp only at hi
        split at hi
        · cases hi
        · rename_i hl
          rw [List.mem_singleton] at hi
          subst hi
          exact ⟨s, hs, t, by simp [ht], rfl, rfl, by simpa using hl⟩
    · cases hi
  · obtain ⟨t, ht, hi⟩ := hi
    unfold Document.targetSetIssue at hi
    dsimp only at hi
    split at hi
    · cases hi
    · rename_i hl
      rw [List.mem_singleton] at hi
      subst hi
      exact ⟨s, hs, t, List.mem_append_right _ ht, rfl, rfl, by simpa using hl⟩

theorem visited_eq_preorder_of_leaves (hL : ds.LeavesChildless) : ds.visited = ds.preorder :=
  StateSchema.visitedEach_eq_preorderEach ds.states fun x hx =>
    hL x ((StateSchema.visitedEach_sublist ds.states).subset hx)

variable (ds) in
theorem arena_walked : ∃ l, Lowering.Walked ds l ∧ ds.arena.keys = l.keys ∧
    ds.arena.issues.toList = l.issues.toList ++ l.pendingTargets.toList.flatMap l.missedTarget ++
      l.pendingInitial.toList.flatMap l.missedInitial :=
  Lowering.walk_walked (S := fun _ a => ∃ l, Lowering.Walked ds l ∧ a.keys = l.keys ∧
      a.issues.toList = l.issues.toList ++ l.pendingTargets.toList.flatMap l.missedTarget ++
        l.pendingInitial.toList.flatMap l.missedInitial)
    (fun l hw => (Lowering.finish_issues l).conseq (fun _ h => h) fun _ _ ⟨hk, hi⟩ => ⟨l, hw, hk, hi⟩)
    {} rfl

theorem arena_issues_flagged (hL : ds.LeavesChildless) :
    ∀ i ∈ ds.arena.issues.toList, ds.Flags i := by
  obtain ⟨l, hw, -, hi⟩ := ds.arena_walked
  have hV := visited_eq_preorder_of_leaves hL
  intro i hmem
  rw [hi] at hmem
  simp only [List.mem_append, List.mem_flatMap] at hmem
  rcases hmem with (hmem | ⟨e, he, hie⟩) | ⟨p, hp, hip⟩
  · exact hw.tracked.flagged i hmem
  · exact hw.tracked.missedTarget_flags hV he hie
  · exact hw.tracked.missedInitial_flags hV hp hip

variable (ds) in
/-- A description compiling accepts. Ids are distinct and none is the root's; final states and
history pseudo-states have no children; explicit default targets sit only on states that become
compound (and on the root only when it does); every target name and every explicit default target
names a described state; and the compiled document is valid. -/
structure WellFormed : Prop where
  no_reserved : Document.rootId ∉ ds.preorder.map StateSchema.id
  distinct : (ds.preorder.map StateSchema.id).Nodup
  leaves_childless : ds.LeavesChildless
  initial_compound : ∀ s ∈ ds.preorder, s.initialTargets ≠ [] → s.BecomesCompound
  root_initial_compound : ds.initial ≠ [] → ∃ c ∈ ds.states, c.kind.isHistory = false
  targets_named : ∀ s ∈ ds.preorder, ∀ t ∈ s.transitions, ∀ n ∈ t.targets, ds.Names n
  initial_named : ∀ s ∈ ds.preorder, ∀ n ∈ s.initialTargets, ds.Names n
  root_initial_named : ∀ n ∈ ds.initial, ds.Names n
  valid : ds.arena.document.Valid

/-- A description whose arena holds no problem and whose compiled document is valid is well
formed. -/
theorem wellFormed_of_clean (hi : ds.arena.issues = #[]) (hv : ds.arena.document.Valid) :
    ds.WellFormed := by
  obtain ⟨l, hw, -, hiss⟩ := ds.arena_walked
  rw [hi, Array.toList_empty] at hiss
  have hparts := List.append_eq_nil_iff.1 hiss.symm
  have hmt := (List.append_eq_nil_iff.1 hparts.1).2
  have hmi := hparts.2
  have hl : l.issues = #[] := Array.toList_eq_nil_iff.1 (List.append_eq_nil_iff.1 hparts.1).1
  obtain ⟨hvis, hroot⟩ := hw.checked hl
  obtain ⟨hnodup, hnoroot⟩ := hw.tracked.clean hl
  have hV : ds.visited = ds.preorder :=
    StateSchema.visitedEach_eq_preorderEach ds.states fun x hx => (hvis x hx).1.1
  -- a name found in the walked arena names a described state
  have hnames : ∀ n, (l.find? n).isSome = true → ds.Names n := fun n hn => by
    have h := hw.tracked.found_iff.1 hn
    rw [hV] at h
    exact h
  refine ⟨fun hmem => ?_, hV ▸ hnodup, fun s hs => (hvis s (hV ▸ hs)).1.1,
    fun s hs => (hvis s (hV ▸ hs)).1.2, fun hne => (hroot hne).1, fun s hs t ht n hn => ?_,
    fun s hs n hn => ?_, fun n hn => ?_, hv⟩
  · obtain ⟨s, hs, hid⟩ := List.mem_map.1 hmem
    exact hnoroot s (hV ▸ hs) hid
  · obtain ⟨k, hk, rfl⟩ := List.mem_iff_getElem.1 (hV ▸ hs : s ∈ ds.visited)
    exact hnames n (hw.tracked.found_of_targets hmt hk ht hn)
  · have hne : s.initialTargets ≠ [] := List.ne_nil_of_mem hn
    exact hnames n (Lowering.Tracked.found_of_initial hmi ((hvis s (hV ▸ hs)).2 hne) hn)
  · have hne : ds.initial ≠ [] := List.ne_nil_of_mem hn
    exact hnames n (Lowering.Tracked.found_of_initial hmi (hroot hne).2 hn)

/-- On a well-formed description no problem holds. -/
theorem WellFormed.not_flags (h : ds.WellFormed) (i : Issue) : ¬ ds.Flags i := by
  cases i with
  | reservedStateId id =>
    rintro ⟨rfl, hmem⟩
    exact h.no_reserved hmem
  | duplicateStateId id =>
    intro (hc : 2 ≤ _)
    have := List.nodup_iff_count_le_one.1 h.distinct id
    omega
  | finalWithChildren id =>
    rintro ⟨s, hs, -, hk, hc⟩
    exact hc (h.leaves_childless s hs (by rw [hk]; rfl))
  | historyWithChildren id =>
    rintro ⟨s, hs, -, hk, hc⟩
    exact hc (h.leaves_childless s hs (StateKind.isLeaf_of_isHistory hk))
  | initialOnNonCompound id =>
    rintro (⟨s, hs, -, hne, hnb⟩ | ⟨-, hne, hall⟩)
    · exact hnb (h.initial_compound s hs hne)
    · obtain ⟨c, hc, hch⟩ := h.root_initial_compound hne
      simp [hall c hc] at hch
  | unresolvedTarget source name =>
    rintro ⟨⟨s, hs, -, t, ht, hn⟩, hN⟩
    exact hN (h.targets_named s hs t ht name hn)
  | unresolvedInitial state name =>
    rintro ⟨⟨s, hs, -, hn⟩ | ⟨-, hn⟩, hN⟩
    · exact hN (h.initial_named s hs name hn)
    · exact hN (h.root_initial_named name hn)
  | initialNotDescendant state name =>
    rintro ⟨s, hs, t, x, -, hinit, hx, -, hd⟩
    rw [(h.valid s hs).1 t hinit x hx] at hd
    cases hd
  | illegalTargetSet state names =>
    rintro ⟨s, hs, t, ht, -, -, hl⟩
    rw [(h.valid s hs).2 t ht] at hl
    cases hl

/-- Compiling succeeds exactly on a well-formed description. When it fails on a description with
no final state or history pseudo-state described with children, every problem it reports names a
condition the description breaks. -/
theorem build_ok_iff_wellFormed (ds : DocumentSchema) :
    ((∃ d, ds.build = .ok d) ↔ ds.WellFormed) ∧
      (ds.LeavesChildless → ∀ issues, ds.build = .error issues → ∀ i ∈ issues, ds.Flags i) := by
  -- every problem reported: the arena's, then validation's
  have hsound : ds.LeavesChildless →
      ∀ i ∈ ds.arena.issues.toList ++ ds.arena.document.problems, ds.Flags i := fun hL i hi =>
    (List.mem_append.1 hi).elim (arena_issues_flagged hL i) flags_of_mem_problems
  have hclean : ds.arena.issues.toList ++ ds.arena.document.problems = [] →
      ds.build = .ok ds.arena.document := fun h => by
    unfold build
    dsimp only
    rw [h]
  have hdirty : ∀ i is, ds.arena.issues.toList ++ ds.arena.document.problems = i :: is →
      ds.build = .error (i :: is) := fun i is h => by
    unfold build
    dsimp only
    rw [h]
  refine ⟨⟨fun hd => ?_, fun h => ?_⟩, fun hL issues he => ?_⟩
  · obtain ⟨d, hd⟩ := hd
    cases hlist : ds.arena.issues.toList ++ ds.arena.document.problems with
    | cons i is =>
      rw [hdirty i is hlist] at hd
      cases hd
    | nil =>
      obtain ⟨hi, hp⟩ := List.append_eq_nil_iff.1 hlist
      exact wellFormed_of_clean (Array.toList_eq_nil_iff.1 hi) ((Document.problems_eq_nil_iff _).1 hp)
  · have hnil : ds.arena.issues.toList ++ ds.arena.document.problems = [] :=
      List.eq_nil_iff_forall_not_mem.2 fun i hi => h.not_flags i (hsound h.leaves_childless i hi)
    exact ⟨_, hclean hnil⟩
  · cases hlist : ds.arena.issues.toList ++ ds.arena.document.problems with
    | nil =>
      rw [hclean hlist] at he
      cases he
    | cons i is =>
      rw [hdirty i is hlist] at he
      cases he
      exact fun j hj => hsound hL j (hlist ▸ hj)

def twinStates : DocumentSchema := { states := [{ id := "a" }, { id := "a" }] }

theorem twinStates_flagged : twinStates.LeavesChildless ∧ twinStates.Flags (.duplicateStateId "a") := by
  have hL : twinStates.LeavesChildless := by
    intro s hs _
    simp [twinStates, DocumentSchema.preorder, StateSchema.preorderEach, StateSchema.preorder] at hs
    rw [hs]
  have hb : twinStates.build.map (fun _ => ()) = .error [.duplicateStateId "a"] := by decide +kernel
  refine ⟨hL, ?_⟩
  cases h : twinStates.build with
  | ok d =>
    rw [h] at hb
    cases hb
  | error is =>
    rw [h] at hb
    cases hb
    exact (build_ok_iff_wellFormed twinStates).2 hL _ h _ List.mem_cons_self

def finalWithChild : DocumentSchema :=
  { states := [{ id := "F", kind := .final, children := [{ id := "c" }] },
      { id := "s", transitions := [{ events := ["GO"], targets := ["c"] }] }] }

/-- Compiling skips what is described below a final state, so the transition to the child is
reported unresolved although the description names the child. -/
theorem belowFinal_target_unresolved : ∃ issues, finalWithChild.build = .error issues ∧
    Issue.unresolvedTarget "s" "c" ∈ issues ∧
    ¬ finalWithChild.Flags (.unresolvedTarget "s" "c") := by
  have hb : (match finalWithChild.build with
      | .error is => decide (is = [.finalWithChildren "F", .unresolvedTarget "s" "c"])
      | .ok _ => false) = true := by decide +kernel
  match h : finalWithChild.build, hb with
  | .error is, hb =>
    refine ⟨is, rfl, by simp [of_decide_eq_true hb], fun hf => hf.2 ⟨by decide, ?_⟩⟩
    simp [finalWithChild, DocumentSchema.preorder, StateSchema.preorderEach, StateSchema.preorder]

end DocumentSchema

end Hsm
