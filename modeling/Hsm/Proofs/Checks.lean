import Hsm.Proofs.Compiled
/-!
# What compiling checks, state by state

The walk checks each state it visits (`StateSchema.visited`) and keeps `Lowering.Tracked`: what it
adds is what it visited, and every problem it reports holds of the description
(`DocumentSchema.Flags`).
-/

namespace Hsm

def StateKind.isHistory : StateKind → Bool
  | .history _ => true
  | _ => false

def StateKind.isLeaf : StateKind → Bool
  | .final | .history _ => true
  | .state | .parallel => false

@[simp] theorem StateKind.isHistory_mode (k : StateKind) :
    (Lowering.StateKind.mode k).isHistory = k.isHistory := by
  cases k <;> rfl

namespace StateSchema

mutual

/-- A described state followed by the states compiling visits below it, in pre-order: nothing
below a final state or a history pseudo-state. -/
def visited : StateSchema → List StateSchema
  | s@⟨_, kind, _, _, _, children, _, _, _, _, _⟩ =>
    s :: if kind.isLeaf then [] else visitedEach children

def visitedEach : List StateSchema → List StateSchema
  | [] => []
  | s :: ss => visited s ++ visitedEach ss

end

theorem visited_eq (s : StateSchema) :
    s.visited = s :: if s.kind.isLeaf then [] else visitedEach s.children := by
  cases s
  rw [visited]

mutual

theorem visited_sublist : ∀ s : StateSchema, List.Sublist s.visited s.preorder
  | ⟨sid, kind, im, it, ic, ch, ts, is, en, ex, dd⟩ => by
    rw [visited_eq, preorder_eq]
    refine List.Sublist.cons_cons _ ?_
    split
    · exact List.nil_sublist _
    · exact visitedEach_sublist ch

theorem visitedEach_sublist : ∀ ss : List StateSchema, List.Sublist (visitedEach ss) (preorderEach ss)
  | [] => by rw [visitedEach, preorderEach]
  | s :: ss => by
    rw [visitedEach, preorderEach]
    exact (visited_sublist s).append (visitedEach_sublist ss)

end

mutual

theorem visited_eq_preorder : ∀ s : StateSchema,
    (∀ x ∈ s.visited, x.kind.isLeaf → x.children = []) → s.visited = s.preorder
  | ⟨sid, kind, im, it, ic, ch, ts, is, en, ex, dd⟩, h => by
    rw [visited_eq, preorder_eq]
    congr 1
    split
    · rename_i hleaf
      have hch : ch = [] := h _ (by rw [visited_eq]; exact List.mem_cons_self) hleaf
      subst hch
      rfl
    · rename_i hleaf
      refine visitedEach_eq_preorderEach ch fun x hx => h x ?_
      rw [visited_eq]
      exact List.mem_cons_of_mem _ (by simpa [hleaf] using hx)

theorem visitedEach_eq_preorderEach : ∀ ss : List StateSchema,
    (∀ x ∈ visitedEach ss, x.kind.isLeaf → x.children = []) → visitedEach ss = preorderEach ss
  | [], _ => by rw [visitedEach, preorderEach]
  | s :: ss, h => by
    rw [visitedEach, preorderEach, visited_eq_preorder s fun x hx => h x (by
      rw [visitedEach]; exact List.mem_append_left _ hx),
      visitedEach_eq_preorderEach ss fun x hx => h x (by
      rw [visitedEach]; exact List.mem_append_right _ hx)]

end

/-- A plain state with a child that is not a history pseudo-state: compiling makes it compound. -/
def BecomesCompound (s : StateSchema) : Prop :=
  s.kind = .state ∧ ∃ c ∈ s.children, c.kind.isHistory = false

/-- What compiling checks of a state once its children are in place: a final state or a history
pseudo-state has none, and explicit default targets sit only on a state that becomes compound. -/
def Fine (s : StateSchema) : Prop :=
  (s.kind.isLeaf → s.children = []) ∧ (s.initialTargets ≠ [] → s.BecomesCompound)

/-- The described transitions of the states `ss`, each with the index of its state, counted from
`k`, and the names of its targets, in order. -/
def edgesFrom : Nat → List StateSchema → List (Nat × List String)
  | _, [] => []
  | k, s :: ss => s.transitions.map (fun t => (k, t.targets)) ++ edgesFrom (k + 1) ss

theorem edgesFrom_append (k : Nat) (ss ts : List StateSchema) :
    edgesFrom k (ss ++ ts) = edgesFrom k ss ++ edgesFrom (k + ss.length) ts := by
  induction ss generalizing k with
  | nil => rfl
  | cons s ss ih =>
    simp only [List.cons_append, edgesFrom, ih, List.append_assoc, List.length_cons]
    rw [Nat.add_assoc, Nat.add_comm 1]

end StateSchema

namespace DocumentSchema
variable (ds : DocumentSchema)

def visited : List StateSchema := StateSchema.visitedEach ds.states

def Names (name : String) : Prop := name ≠ Document.rootId ∧ name ∈ ds.preorder.map StateSchema.id

def LeavesChildless : Prop := ∀ s ∈ ds.preorder, s.kind.isLeaf → s.children = []

/-- The explicit default targets of the state at index `k` of an arena holding the root and then
the states `V`. -/
def explicitAt (V : List StateSchema) : Nat → List String
  | 0 => ds.initial
  | k + 1 => (V[k]?.map StateSchema.initialTargets).getD []

/-- What each problem says of the description: the condition it names. A problem found in the
compiled arena names a default entry or a transition there, by the id of its state or source. -/
def Flags : Issue → Prop
  | .reservedStateId id => id = Document.rootId ∧ id ∈ ds.preorder.map StateSchema.id
  | .duplicateStateId id => 2 ≤ (ds.preorder.map StateSchema.id).count id
  | .finalWithChildren id => ∃ s ∈ ds.preorder, s.id = id ∧ s.kind = .final ∧ s.children ≠ []
  | .historyWithChildren id =>
    ∃ s ∈ ds.preorder, s.id = id ∧ s.kind.isHistory = true ∧ s.children ≠ []
  | .initialOnNonCompound id =>
    (∃ s ∈ ds.preorder, s.id = id ∧ s.initialTargets ≠ [] ∧ ¬ s.BecomesCompound) ∨
      (id = Document.rootId ∧ ds.initial ≠ [] ∧ ∀ c ∈ ds.states, c.kind.isHistory = true)
  | .unresolvedTarget source name =>
    (∃ s ∈ ds.preorder, s.id = source ∧ ∃ t ∈ s.transitions, name ∈ t.targets) ∧ ¬ ds.Names name
  | .unresolvedInitial state name =>
    ((∃ s ∈ ds.preorder, s.id = state ∧ name ∈ s.initialTargets) ∨
      (state = Document.rootId ∧ name ∈ ds.initial)) ∧ ¬ ds.Names name
  | .initialNotDescendant state name =>
    ∃ s < ds.arena.document.size, ∃ t x, ds.arena.document.name s = state ∧
      (ds.arena.document.state s).initial = some t ∧ x ∈ (ds.arena.document.transition t).targets ∧
      ds.arena.document.name x = name ∧ ds.arena.document.isDescendant x s = false
  | .illegalTargetSet state names =>
    ∃ s < ds.arena.document.size,
      ∃ t ∈ (ds.arena.document.state s).initial.toList ++ (ds.arena.document.state s).transitions,
      ds.arena.document.name (ds.arena.document.transition t).source = state ∧
      (ds.arena.document.transition t).targets.map ds.arena.document.name = names ∧
      ds.arena.document.isLegalSet (ds.arena.document.transition t).targets = false

end DocumentSchema

/-- A default entry made by a rule fits a state described with explicit targets: it makes those
targets when there are any, and a child otherwise. -/
def InitialRule.Fits (explicit : List String) : InitialRule → Prop
  | .ids names => names = explicit
  | .child _ => explicit = []

namespace DocumentSchema

theorem explicitAt_append (ds : DocumentSchema) {V : List StateSchema} (W : List StateSchema)
    {k : Nat} (hk : k ≤ V.length) : ds.explicitAt (V ++ W) k = ds.explicitAt V k := by
  cases k with
  | zero => rfl
  | succ k => simp [explicitAt, List.getElem?_append_left (Nat.lt_of_succ_le hk)]

end DocumentSchema

namespace Lowering
variable {ds : DocumentSchema} {V : List StateSchema} {E : List (Nat × List String)} {l : Lowering}

/-- An authored name is found exactly when it is not the root's and some state has it. -/
theorem find?_isSome_iff {name : String} :
    (l.find? name).isSome = true ↔ name ≠ Document.rootId ∧ name ∈ l.keys.map Prod.fst := by
  have hids : l.keys.map Prod.fst = l.states.toList.map StateNode.id := by
    simp [keys, StateNode.key]
  unfold find?
  split
  · simp_all
  · rename_i hroot
    rw [Array.findIdx?_isSome, hids, Array.any_eq_true]
    simp only [beq_iff_eq, ne_eq, hroot, not_false_eq_true, List.mem_map, Array.mem_toList_iff,
      true_and]
    constructor
    · rintro ⟨i, hi, rfl⟩
      exact ⟨_, Array.getElem_mem hi, rfl⟩
    · rintro ⟨a, ha, rfl⟩
      obtain ⟨i, hi, rfl⟩ := Array.mem_iff_getElem.1 ha
      exact ⟨i, hi, rfl⟩

/-- What the walk keeps of the description `ds`, having visited the states `V` and added the
transitions `E`, each as the index of its state and the names of its targets. -/
structure Tracked (ds : DocumentSchema) (V : List StateSchema) (E : List (Nat × List String))
    (l : Lowering) : Prop where
  keys : l.keys = (Document.rootId, .atomic) :: V.map StateSchema.key
  sources : l.transitions.toList.map TransitionNode.source = E.map Prod.fst
  pending : l.pendingTargets.toList = (List.range E.length).zip (E.map Prod.snd)
  edge_lt : ∀ e ∈ E, e.1 < l.states.size
  /-- A state lists the transitions that leave it, in the order they were added. -/
  outgoing : ∀ s, (l.document.state s).transitions =
    (List.range E.length).filter fun t => (l.document.transition t).source == s
  initials : ∀ e ∈ l.pendingInitial.toList, e.state < l.states.size ∧
    e.rule.Fits (ds.explicitAt V e.state)
  chosen : ∀ e ∈ l.pendingInitial.toList, ∀ c, e.rule = .child c →
    c ∈ (l.document.state e.state).children
  flagged : ∀ i ∈ l.issues.toList, ds.Flags i
  clean : l.issues = #[] → (V.map StateSchema.id).Nodup ∧ ∀ s ∈ V, s.id ≠ Document.rootId

theorem state_eq_getElem {l : Lowering} {s : Nat} (hs : s < l.states.size) :
    l.document.state s = l.states[s] := by
  simp [document, Document.state, Array.getD_eq_getD_getElem?, Array.getElem?_eq_getElem hs]

theorem transition_of_push {l l' : Lowering} {n : TransitionNode}
    (h : l'.transitions = l.transitions.push n) (t : Nat) :
    l'.document.transition t = if t = l.transitions.size then n else l.document.transition t := by
  show l'.transitions.getD t default = _
  rw [h]
  exact Document.transition_push l.document n t

namespace Tracked

theorem size_eq (h : Tracked ds V E l) : l.states.size = V.length + 1 := by
  simpa [Lowering.keys] using congrArg List.length h.keys

theorem length_eq (h : Tracked ds V E l) : l.transitions.size = E.length := by
  simpa using congrArg List.length h.sources

theorem source_eq (h : Tracked ds V E l) {t : Nat} (ht : t < E.length) :
    (l.document.transition t).source = E[t].1 := by
  have h' := congrArg (·[t]?) h.sources
  simp only [List.getElem?_map, Array.getElem?_toList, List.getElem?_eq_getElem ht,
    Option.map_some] at h'
  simp only [document, Document.transition, Array.getD_eq_getD_getElem?]
  cases hx : l.transitions[t]? <;> simp_all

/-- Steps that touch neither the states, nor the transitions, nor the queues, nor the problems. -/
theorem of_eq {l' : Lowering} (h : Tracked ds V E l) (hs : l'.states = l.states)
    (ht : l'.transitions = l.transitions) (hp : l'.pendingTargets = l.pendingTargets)
    (hi : l'.pendingInitial = l.pendingInitial) (his : l'.issues = l.issues) :
    Tracked ds V E l' := by
  have hst : ∀ s, l'.document.state s = l.document.state s := fun s => by
    simp [document, Document.state, hs]
  have htr : ∀ t, l'.document.transition t = l.document.transition t := fun t => by
    simp [document, Document.transition, ht]
  refine ⟨?_, ?_, ?_, ?_, fun s => ?_, ?_, ?_, ?_, ?_⟩
  · simpa only [Lowering.keys, hs] using h.keys
  · rw [ht]; exact h.sources
  · rw [hp]; exact h.pending
  · rw [hs]; exact h.edge_lt
  · simp only [hst, htr]; exact h.outgoing s
  · rw [hi, hs]; exact h.initials
  · rw [hi]; simp only [hst]; exact h.chosen
  · rw [his]; exact h.flagged
  · rw [his]; exact h.clean

theorem report (h : Tracked ds V E l) {i : Issue} (hi : ds.Flags i) :
    Tracked ds V E { l with issues := l.issues.push i } where
  keys := h.keys
  sources := h.sources
  pending := h.pending
  edge_lt := h.edge_lt
  outgoing := h.outgoing
  initials := h.initials
  chosen := h.chosen
  flagged j hj := by
    rcases (by simpa using hj : j ∈ l.issues ∨ j = i) with hj | rfl
    · exact h.flagged j (by simpa using hj)
    · exact hi
  clean hnil := by simp at hnil

/-- Changing a state without touching its id, its described mode or its transitions, and without
dropping a child. -/
theorem modify_state (h : Tracked ds V E l) {s : Nat} {f : StateNode → StateNode}
    (hkey : (f (l.document.state s)).key = (l.document.state s).key)
    (htr : (f (l.document.state s)).transitions = (l.document.state s).transitions)
    (hch : (l.document.state s).children ⊆ (f (l.document.state s)).children) :
    Tracked ds V E { l with states := l.states.modify s f } := by
  have hst := state_of_modify (l := l)
    (rfl : ({ l with states := l.states.modify s f } : Lowering).states = l.states.modify s f)
  refine ⟨?_, h.sources, h.pending, ?_, fun u => ?_, ?_, fun e he c hc => ?_, h.flagged, h.clean⟩
  · rw [← h.keys]
    exact map_toList_modify_at _ _ _ _ fun hs => by rw [← state_eq_getElem hs]; exact hkey
  · simpa using h.edge_lt
  · rw [hst]
    split
    · rename_i hu
      rw [htr, hu.1]
      exact h.outgoing s
    · exact h.outgoing u
  · simpa using h.initials
  · rw [hst]
    split
    · rename_i hu
      exact hch (hu.1 ▸ h.chosen e he c hc)
    · exact h.chosen e he c hc

theorem edge_lt_size (h : Tracked ds V E l) {t : Nat} (ht : t < E.length) :
    (l.document.transition t).source < l.states.size := by
  rw [h.source_eq ht]
  exact h.edge_lt _ (List.getElem_mem ht)

/-- Adding a transition of the state `s`, listing it there, and queueing it with the names of its
targets. -/
theorem add_transition {l' : Lowering} (h : Tracked ds V E l) {s : Nat} (hs : s < l.states.size)
    {n : TransitionNode} (hn : n.source = s) (names : List String)
    (hstates : l'.states = l.states.modify s fun m =>
      { m with transitions := m.transitions ++ [l.transitions.size] })
    (htrans : l'.transitions = l.transitions.push n)
    (hpend : l'.pendingTargets = l.pendingTargets.push (l.transitions.size, names))
    (hinit : l'.pendingInitial = l.pendingInitial) (hiss : l'.issues = l.issues) :
    Tracked ds V (E ++ [(s, names)]) l' := by
  have hlen := h.length_eq
  have hst := state_of_modify hstates
  have htr := transition_of_push htrans
  have hsize : l'.states.size = l.states.size := by simp [hstates]
  refine ⟨?_, ?_, ?_, ?_, fun u => ?_, ?_, fun e he c hc => ?_, ?_, ?_⟩
  · rw [← h.keys]
    show l'.states.toList.map StateNode.key = _
    rw [hstates]
    exact map_toList_modify _ _ _ _ fun _ => rfl
  · simp [htrans, h.sources, hn]
  · rw [hpend, Array.toList_push, h.pending, List.length_append, List.length_singleton,
      List.range_succ, List.map_append, List.zip_append (by simp), hlen]
    rfl
  · intro e he
    rw [hsize]
    rcases List.mem_append.1 he with he | he
    · exact h.edge_lt e he
    · rw [List.mem_singleton.1 he]
      exact hs
  · rw [hst, List.length_append, List.length_singleton, List.range_succ, List.filter_append]
    -- the transitions added before keep their sources; the new one leaves `s`
    have hold : ((List.range E.length).filter fun v => (l'.document.transition v).source == u) =
        (List.range E.length).filter fun v => (l.document.transition v).source == u := by
      refine List.filter_congr fun v hv => ?_
      rw [htr, if_neg (by rw [hlen]; exact Nat.ne_of_lt (List.mem_range.1 hv))]
    have hnew : (l'.document.transition E.length).source = s := by
      rw [htr, if_pos hlen.symm, hn]
    rw [hold, List.filter_singleton, hnew, ← h.outgoing u]
    split
    · rename_i hu
      rw [hu.1, hlen]
      simp
    · rename_i hu
      have hsu : (s == u) = false := by simpa using fun h' => hu ⟨h'.symm, hs⟩
      rw [hsu]
      simp
  · rw [hinit, hsize]
    exact h.initials
  · rw [hinit] at he
    rw [hst]
    split
    · rename_i hu
      exact hu.1 ▸ h.chosen e he c hc
    · exact h.chosen e he c hc
  · rw [hiss]
    exact h.flagged
  · rw [hiss]
    exact h.clean

theorem lowerTransition (h : Tracked ds V E l) {s : Nat} (hs : s < l.states.size)
    (t : TransitionSchema) :
    Tracked ds V (E ++ [(s, t.targets)]) ((Lowering.lowerTransition s t).run l).2 := by
  rw [lowerTransition_run]
  exact h.add_transition hs rfl t.targets rfl rfl rfl rfl rfl

theorem lowerInvoke (h : Tracked ds V E l) (s : Nat) (i : InvokeSchema) :
    Tracked ds V E ((Lowering.lowerInvoke s i).run l).2 := by
  rw [lowerInvoke_run]
  exact (h.of_eq (l := l) (rfl : ({ l with order := l.order + 1, invokes := _ } : Lowering).states = _)
    rfl rfl rfl rfl).modify_state rfl rfl (List.Subset.refl _)

/-- Queueing the default entry of the state `n`, fitting its explicit targets. -/
theorem queue (h : Tracked ds V E l) {n : Nat} (hn : n < l.states.size) {rule : InitialRule}
    (hfit : rule.Fits (ds.explicitAt V n))
    (hch : ∀ c, rule = .child c → c ∈ (l.document.state n).children) (content : List Command) :
    Tracked ds V E { l with pendingInitial := l.pendingInitial.push ⟨n, rule, content⟩ } where
  keys := h.keys
  sources := h.sources
  pending := h.pending
  edge_lt := h.edge_lt
  outgoing := h.outgoing
  initials e he := by
    rcases (by simpa using he : e ∈ l.pendingInitial ∨ e = ⟨n, rule, content⟩) with he | rfl
    · exact h.initials e (by simpa using he)
    · exact ⟨hn, hfit⟩
  chosen e he := by
    rcases (by simpa using he : e ∈ l.pendingInitial ∨ e = ⟨n, rule, content⟩) with he | rfl
    · exact h.chosen e (by simpa using he)
    · exact hch
  flagged := h.flagged
  clean := h.clean

/-- Checking the id of a state and adding it, without transitions: a reserved id and an id
already taken are reported, and otherwise the state visited so far keep distinct ids. -/
theorem enter (h : Tracked ds V E l) {sch : StateSchema}
    (hsub : List.Sublist (V ++ [sch]) ds.preorder) {iss : Array Issue}
    (hiss : (iss = l.issues ∧ ¬ sch.id = Document.rootId ∧ ¬ (l.find? sch.id).isSome = true) ∨
      (iss = l.issues.push (.reservedStateId sch.id) ∧ sch.id = Document.rootId) ∨
      (iss = l.issues.push (.duplicateStateId sch.id) ∧ (l.find? sch.id).isSome = true))
    {node : StateNode} (hkey : node.key = sch.key) (htr : node.transitions = []) :
    Tracked ds (V ++ [sch]) E { l with issues := iss, states := l.states.push node } := by
  have hsize := h.size_eq
  have hst : ∀ u, ({ l with issues := iss, states := l.states.push node } : Lowering).document.state u =
      if u = l.states.size then node else l.document.state u := fun u =>
    Document.state_push l.document node u
  have hmem : sch ∈ ds.preorder := hsub.subset (List.mem_append_right _ List.mem_cons_self)
  -- a problem with the id holds of the description
  have hflag : ∀ i ∈ iss.toList, ds.Flags i := by
    rcases hiss with ⟨rfl, -⟩ | ⟨rfl, hroot⟩ | ⟨rfl, hfound⟩
    · exact h.flagged
    · intro i hi
      rcases (by simpa using hi : i ∈ l.issues ∨ i = _) with hi | rfl
      · exact h.flagged i (by simpa using hi)
      · exact ⟨hroot, List.mem_map_of_mem hmem⟩
    · intro i hi
      rcases (by simpa using hi : i ∈ l.issues ∨ i = _) with hi | rfl
      · exact h.flagged i (by simpa using hi)
      · obtain ⟨hne, hin⟩ := find?_isSome_iff.1 hfound
        rw [h.keys, List.map_cons, List.map_map] at hin
        have hV : sch.id ∈ V.map StateSchema.id :=
          (List.mem_cons.1 hin).resolve_left hne
        show 2 ≤ _
        calc 2 ≤ ((V ++ [sch]).map StateSchema.id).count sch.id := by
              have hpos := List.count_pos_iff.2 hV
              rw [List.map_append, List.count_append, List.map_singleton,
                List.count_singleton_self]
              omega
          _ ≤ (ds.preorder.map StateSchema.id).count sch.id := (hsub.map _).count_le _
  refine ⟨?_, h.sources, h.pending, fun e he => ?_, fun u => ?_, fun e he => ?_, fun e he c hc => ?_,
    hflag, fun hnil => ?_⟩
  · have hk : l.states.toList.map StateNode.key = _ := h.keys
    simp [Lowering.keys, ← hkey, hk]
  · simpa using Nat.lt_succ_of_lt (h.edge_lt e he)
  · rw [hst]
    split
    · rename_i hu
      rw [htr]
      refine (List.filter_eq_nil_iff.2 fun v hv => ?_).symm
      have hlt := h.edge_lt_size (List.mem_range.1 hv)
      simp only [beq_iff_eq]
      intro heq
      have heq' : (l.document.transition v).source = u := heq
      rw [heq', hu] at hlt
      exact Nat.lt_irrefl _ hlt
    · exact h.outgoing u
  · obtain ⟨hlt, hfit⟩ := h.initials e he
    refine ⟨by simpa using Nat.lt_succ_of_lt hlt, ?_⟩
    rw [ds.explicitAt_append _ (by omega)]
    exact hfit
  · have hlt := (h.initials e he).1
    rw [hst, if_neg (Nat.ne_of_lt hlt)]
    exact h.chosen e he c hc
  · rcases hiss with ⟨rfl, hroot, hfound⟩ | ⟨rfl, -⟩ | ⟨rfl, -⟩
    · obtain ⟨hnd, hne⟩ := h.clean hnil
      have hnot : sch.id ∉ V.map StateSchema.id := fun hin => by
        have := find?_isSome_iff.2 ⟨hroot, by
          rw [h.keys, List.map_cons, List.map_map]
          exact List.mem_cons_of_mem _ hin⟩
        exact hfound this
      refine ⟨?_, fun x hx => ?_⟩
      · rw [List.map_append, List.nodup_append]
        exact ⟨hnd, List.nodup_singleton _, fun a ha b hb => by
          rw [List.mem_singleton.1 hb]
          exact fun h' => hnot (h' ▸ ha)⟩
      · rcases List.mem_append.1 hx with hx | hx
        · exact hne x hx
        · rw [List.mem_singleton.1 hx]
          exact hroot
    · simp at hnil
    · simp at hnil

end Tracked

/-- `l` keeps every state of `l₀` but `p`, adds states after them, and keeps the default entries
queued. -/
structure Frame (p : Nat) (l₀ l : Lowering) : Prop where
  size_le : l₀.states.size ≤ l.states.size
  keeps : ∀ s < l₀.states.size, s ≠ p → l.document.state s = l₀.document.state s
  queued : l₀.pendingInitial.toList ⊆ l.pendingInitial.toList

namespace Frame
variable {p : Nat} {l₀ l₁ l₂ : Lowering}

theorem refl (p : Nat) (l : Lowering) : Frame p l l :=
  ⟨Nat.le_refl _, fun _ _ _ => rfl, List.Subset.refl _⟩

theorem trans (h₁ : Frame p l₀ l₁) (h₂ : Frame p l₁ l₂) : Frame p l₀ l₂ :=
  ⟨Nat.le_trans h₁.size_le h₂.size_le, fun s hs hsp =>
    (h₂.keeps s (Nat.lt_of_lt_of_le hs h₁.size_le) hsp).trans (h₁.keeps s hs hsp),
    List.Subset.trans h₁.queued h₂.queued⟩

theorem trans_fresh {q : Nat} (h₁ : Frame p l₀ l₁) (h₂ : Frame q l₁ l₂) (hq : l₀.states.size ≤ q) :
    Frame p l₀ l₂ :=
  ⟨Nat.le_trans h₁.size_le h₂.size_le, fun s hs hsp =>
    (h₂.keeps s (Nat.lt_of_lt_of_le hs h₁.size_le) (by omega)).trans (h₁.keeps s hs hsp),
    List.Subset.trans h₁.queued h₂.queued⟩

theorem of_issues (h : l = { l₀ with issues := l.issues }) : Frame p l₀ l := by
  rw [h]
  exact ⟨Nat.le_refl _, fun _ _ _ => rfl, List.Subset.refl _⟩

end Frame

/-- `l` is `l₀` with transitions or invocations listed at the state `s` only. -/
structure Edited (s : Nat) (l₀ l : Lowering) : Prop where
  layouts : l.layouts = l₀.layouts
  keeps : ∀ u, u ≠ s → l.document.state u = l₀.document.state u
  issues : l.issues = l₀.issues
  queue : l.pendingInitial = l₀.pendingInitial

namespace Edited
variable {s : Nat} {l₀ l l' : Lowering}

theorem refl (s : Nat) (l : Lowering) : Edited s l l := ⟨rfl, fun _ _ => rfl, rfl, rfl⟩

theorem step (he : Edited s l₀ l) {f : StateNode → StateNode} (hf : ∀ m, (f m).layout = m.layout)
    (hs : l'.states = l.states.modify s f) (hi : l'.issues = l.issues)
    (hq : l'.pendingInitial = l.pendingInitial) : Edited s l₀ l' := by
  have hst := state_of_modify hs
  refine ⟨?_, fun u hu => ?_, hi.trans he.issues, hq.trans he.queue⟩
  · rw [← he.layouts]
    show l'.states.toList.map StateNode.layout = _
    rw [hs]
    exact layouts_modify l hf
  · rw [hst, if_neg fun h => hu h.1]
    exact he.keeps u hu

theorem size_eq (he : Edited s l₀ l) : l.states.size = l₀.states.size := by
  have := size_eq_of_layouts he.layouts
  simpa only [document, Document.size] using this

theorem frame (he : Edited s l₀ l) : Frame s l₀ l :=
  ⟨he.size_eq.ge, fun u _ hu => he.keeps u hu, by rw [he.queue]; exact List.Subset.refl _⟩

end Edited

theorem Triple.of_run {x : StateM Lowering α} {k : α → StateM Lowering β} {S : β → Lowering → Prop}
    {l₀ : Lowering} (h : Triple (· = (x.run l₀).2) (k (x.run l₀).1) S) :
    Triple (· = l₀) (x >>= k) S := fun l hl => by
  subst hl
  rw [Lowering.run_bind]
  exact h _ rfl

/-- Adding the transitions and the invocations of the state `s`: the transitions are tracked, and
nothing changes but what `s` lists. -/
theorem Triple.edges_tracked {s : Nat} (ts : List TransitionSchema) (is : List InvokeSchema)
    {l₀ : Lowering} (hs : s < l₀.states.size) (hT : Tracked ds V E l₀)
    {f : PUnit → StateM Lowering β} {S : β → Lowering → Prop}
    (h : ∀ l, Tracked ds V (E ++ ts.map fun t => (s, t.targets)) l → Edited s l₀ l →
      Triple (· = l) (f ()) S) :
    Triple (· = l₀) (ts.forM (lowerTransition s) >>= fun _ => is.forM (lowerInvoke s) >>= f) S := by
  have hsize : ∀ {l}, Edited s l₀ l → s < l.states.size := fun he => he.size_eq ▸ hs
  refine Triple.bind (Q := fun _ l => Tracked ds V (E ++ ts.map fun t => (s, t.targets)) l ∧
      Edited s l₀ l)
    ((Triple.forM_rest (I := fun rest l => ∃ done, done ++ rest = ts ∧
        Tracked ds V (E ++ done.map fun t => (s, t.targets)) l ∧ Edited s l₀ l)
      (fun t rest => ?_) ts).conseq (fun l hl => ⟨[], rfl, by subst hl; simpa using hT, hl ▸ .refl _ _⟩)
      fun _ l ⟨done, hdone, hT', he⟩ => ⟨by simpa [← hdone] using hT', he⟩) fun _ => ?_
  · refine Triple.of_eq fun l ⟨done, hdone, hT', he⟩ => fun l' hl' => ?_
    subst hl'
    refine ⟨done ++ [t], by simpa using hdone, ?_, ?_⟩
    · simpa using hT'.lowerTransition (hsize he) t
    · rw [lowerTransition_run]
      exact he.step (f := fun n => { n with transitions := n.transitions ++ [l'.transitions.size] })
        (fun _ => rfl) rfl rfl rfl
  · refine Triple.bind (Q := fun _ l => Tracked ds V (E ++ ts.map fun t => (s, t.targets)) l ∧
      Edited s l₀ l) (Triple.forM fun i _ => fun l ⟨hT', he⟩ => ?_) fun _ =>
        Triple.of_eq fun l ⟨hT', he⟩ => h l hT' he
    refine ⟨hT'.lowerInvoke s i, ?_⟩
    rw [lowerInvoke_run]
    exact he.step (f := fun n => { n with invokes := n.invokes ++ [l.invokes.size] })
      (fun _ => rfl) rfl rfl rfl

theorem finishChildren_run (n : Nat) (explicit : List String) (marked : Option Nat) (l : Lowering) :
    (finishChildren n explicit marked).run l =
      if Document.closedMode (l.document.state n).mode (l.document.state n).children = .compound then
        (if explicit.isEmpty then (marked <|> (l.document.state n).children.head?).map .child
          else some (.ids explicit), { l with states := l.states.modify n (closeNode l n) })
      else
        (none, { l with
          states := l.states.modify n (closeNode l n)
          issues := if explicit.isEmpty then l.issues
            else l.issues.push (.initialOnNonCompound (l.document.state n).id) }) := by
  have hfc : finishChildren n explicit marked = (do
      let l ← get
      modifyNode n (closeNode l n)
      if Document.closedMode (l.document.state n).mode (l.document.state n).children != .compound then
        if !explicit.isEmpty then report (.initialOnNonCompound (l.document.state n).id)
        pure none
      else if !explicit.isEmpty then pure (some (.ids explicit))
      else pure ((marked <|> (l.document.state n).children.head?).map .child)) := rfl
  rw [hfc]
  by_cases hc : Document.closedMode (l.document.state n).mode (l.document.state n).children = .compound
  · cases explicit.isEmpty <;> simp [hc, modifyNode] <;> rfl
  · cases explicit.isEmpty <;> simp [hc, modifyNode, report] <;> rfl

/-- After the states `cs` are added below `p`: `p` lists new children `xs` and new history
pseudo-states `ys`, no child was added exactly when every state of `cs` is a history
pseudo-state, and the state marked initial, if any, is among the new children. -/
def Joined (p : Nat) (l₀ l : Lowering) (cs : List StateSchema) (marked : Option Nat) : Prop :=
  ∃ xs ys, l.document.state p = { l₀.document.state p with
      children := (l₀.document.state p).children ++ xs
      history := (l₀.document.state p).history ++ ys } ∧
    (xs = [] ↔ ∀ c ∈ cs, c.kind.isHistory = true) ∧ ∀ m, marked = some m → m ∈ xs

theorem closedMode_eq_compound_iff {m : StateMode} (hm : m ≠ .compound) {cs : List Nat} :
    Document.closedMode m cs = .compound ↔ m = .atomic ∧ cs ≠ [] := by
  unfold Document.closedMode
  split
  · rename_i h
    simp only [Bool.and_eq_true, beq_iff_eq, Bool.not_eq_true', List.isEmpty_eq_false_iff] at h
    simp [h]
  · rename_i h
    simp only [Bool.and_eq_true, beq_iff_eq, Bool.not_eq_true', List.isEmpty_eq_false_iff,
      not_and] at h
    exact ⟨fun h' => absurd h' hm, fun ⟨ha, hc⟩ => absurd hc (h ha)⟩

theorem StateKind.mode_eq_atomic_iff {k : StateKind} : StateKind.mode k = .atomic ↔ k = .state := by
  cases k <;> simp [StateKind.mode]

theorem state_adopt {l : Lowering} {p : Nat} (hp : p < l.states.size) (node : StateNode) (h : Bool)
    (iss : Array Issue) (u : Nat) :
    ({ l with issues := iss, states := (l.states.push node).modify p (StateNode.adopt h l.states.size) } :
      Lowering).document.state u =
      if u = p then (l.document.state p).adopt h l.states.size
      else if u = l.states.size then node else l.document.state u := by
  have hpush : ∀ v, ({ l with states := l.states.push node } : Lowering).document.state v =
      if v = l.states.size then node else l.document.state v := fun v =>
    Document.state_push l.document node v
  rw [state_of_modify (l := { l with states := l.states.push node }) rfl]
  by_cases hu : u = p
  · subst hu
    rw [if_pos ⟨rfl, by simp [document, Document.size]; omega⟩, if_pos rfl, hpush,
      if_neg (Nat.ne_of_lt hp)]
  · rw [if_neg fun h => hu h.1, if_neg hu, hpush]

/-- A state described as `sch`, its mode that of `sch`'s kind and with children exactly when
`sch` has one that is not a history pseudo-state, becomes compound exactly as `sch` says. -/
theorem closedMode_eq_compound_iff_becomes {sch : StateSchema} {m : StateNode}
    (hmode : m.mode = StateKind.mode sch.kind)
    (hch : m.children = [] ↔ ∀ c ∈ sch.children, c.kind.isHistory = true) :
    Document.closedMode m.mode m.children = .compound ↔ sch.BecomesCompound := by
  rw [closedMode_eq_compound_iff (by rw [hmode]; exact StateKind.mode_ne_compound _), hmode,
    StateKind.mode_eq_atomic_iff, StateSchema.BecomesCompound, Ne, hch]
  simp

/-- Closing the state `n`, with explicit default targets `ex`, once its children are in place: it
becomes compound exactly when `B` holds, explicit targets on a state that does not are reported,
and the default entry it gives fits `ex` and enters a child otherwise. -/
theorem Triple.close_tracked {W : List StateSchema} {F : List (Nat × List String)} {n : Nat}
    {ex : List String} {B : Prop} {marked : Option Nat} {l₀ : Lowering} (hT : Tracked ds W F l₀)
    (hn : n < l₀.states.size)
    (hB : Document.closedMode (l₀.document.state n).mode (l₀.document.state n).children =
      .compound ↔ B)
    (hflag : ex ≠ [] → ¬ B → ds.Flags (.initialOnNonCompound (l₀.document.state n).id))
    (hmarked : ∀ m, marked = some m → m ∈ (l₀.document.state n).children)
    {k : Option InitialRule → StateM Lowering β} {S : β → Lowering → Prop}
    (hk : ∀ r l, Tracked ds W F l → Frame n l₀ l →
      (l.issues = #[] → l₀.issues = #[] ∧ (ex ≠ [] → B ∧ r = some (.ids ex))) →
      (∀ rule, r = some rule → rule.Fits ex ∧
        ∀ c, rule = .child c → c ∈ (l.document.state n).children) →
      Triple (· = l) (k r) S) :
    Triple (· = l₀) (finishChildren n ex marked >>= k) S := by
  refine Triple.of_run ?_
  rw [finishChildren_run]
  have hclosed : ∀ (iss : Array Issue) u,
      ({ l₀ with issues := iss, states := l₀.states.modify n (closeNode l₀ n) } :
        Lowering).document.state u =
      if u = n ∧ n < l₀.document.size then closeNode l₀ n (l₀.document.state n)
      else l₀.document.state u := fun _ => state_of_modify rfl
  have hT' : Tracked ds W F { l₀ with states := l₀.states.modify n (closeNode l₀ n) } :=
    hT.modify_state (key_closeNode l₀ n _ rfl) rfl (List.Subset.refl _)
  have hF' : ∀ iss, Frame n l₀
      { l₀ with issues := iss, states := l₀.states.modify n (closeNode l₀ n) } := fun iss =>
    ⟨by simp, fun u _ hu => by rw [hclosed, if_neg fun h => hu h.1], List.Subset.refl _⟩
  have hchildren : (({ l₀ with states := l₀.states.modify n (closeNode l₀ n) } :
      Lowering).document.state n).children = (l₀.document.state n).children := by
    rw [hclosed l₀.issues, if_pos ⟨rfl, hn⟩]
    rfl
  have hex : ex ≠ [] ↔ ex.isEmpty = false := by simp
  by_cases hc : Document.closedMode (l₀.document.state n).mode (l₀.document.state n).children =
    .compound
  · rw [if_pos hc]
    refine hk _ _ hT' (hF' _) (fun hnil => ⟨hnil, fun hne => ⟨hB.1 hc, ?_⟩⟩) fun rule hr => ?_
    · rw [hex.1 hne, if_neg (by simp)]
    · rw [hchildren]
      cases hexe : ex.isEmpty
      · rw [hexe, if_neg (by simp)] at hr
        cases hr
        exact ⟨rfl, fun c hc' => by cases hc'⟩
      · rw [hexe, if_pos rfl] at hr
        obtain ⟨c, hc', rfl⟩ := Option.map_eq_some_iff.1 hr
        refine ⟨List.isEmpty_iff.1 hexe, fun c' hc'' => ?_⟩
        cases hc''
        cases hm : marked with
        | some m => rw [hm] at hc'; cases hc'; exact hmarked c hm
        | none =>
          rw [hm] at hc'
          exact List.mem_of_mem_head? hc'
  · rw [if_neg hc]
    cases hexe : ex.isEmpty
    · -- explicit targets on a state that does not become compound
      simp only [Bool.false_eq_true, if_false]
      refine hk _ _ (hT'.report (hflag (hex.2 hexe) fun hb => hc (hB.2 hb))) (hF' _)
        (fun hnil => by simp at hnil) fun rule hr => by cases hr
    · simp only [if_true]
      refine hk _ _ hT' (hF' _) (fun hnil => ⟨hnil, fun hne => absurd (List.isEmpty_iff.1 hexe) hne⟩)
        fun rule hr => by cases hr

/-- Unless a problem has been reported since `l₀`, none was before `l₀`, every state of `ss` passed
its checks, and each with explicit default targets has its default entry queued to them. -/
def Checked (l₀ l : Lowering) (ss : List StateSchema) : Prop :=
  l.issues = #[] → l₀.issues = #[] ∧ ∀ s ∈ ss, s.Fine ∧
    (s.initialTargets ≠ [] →
      InitialRule.ids s.initialTargets ∈ l.pendingInitial.toList.map PendingInitial.rule)

theorem Checked.append {l₀ l₁ l₂ : Lowering} {ss ts : List StateSchema} (h₁ : Checked l₀ l₁ ss)
    (h₂ : Checked l₁ l₂ ts) (hq : l₁.pendingInitial.toList ⊆ l₂.pendingInitial.toList) :
    Checked l₀ l₂ (ss ++ ts) := fun hnil => by
  obtain ⟨h₁nil, hts⟩ := h₂ hnil
  obtain ⟨h₀nil, hss⟩ := h₁ h₁nil
  refine ⟨h₀nil, fun s hs => ?_⟩
  rcases List.mem_append.1 hs with hs | hs
  · obtain ⟨hfine, hqueued⟩ := hss s hs
    exact ⟨hfine, fun hne => List.map_subset _ hq (hqueued hne)⟩
  · exact hts s hs

theorem modify_bind {f : Lowering → Lowering} {k : PUnit → StateM Lowering β}
    {S : β → Lowering → Prop} {l : Lowering} (h : Triple (· = f l) (k ()) S) :
    Triple (· = l) (modify f >>= k) S := fun l' hl => by
  subst hl
  rw [run_bind]
  exact h _ rfl

/-- Adding a state described as `sch` below `p`, its id checked, and listing it there. -/
theorem Triple.adopt_tracked {W : List StateSchema} {F : List (Nat × List String)} {p : Nat}
    {sch : StateSchema} (hT : Tracked ds W F l) (hp : p < l.states.size)
    (hsub : List.Sublist (W ++ [sch]) ds.preorder) {iss : Array Issue}
    (hiss : (iss = l.issues ∧ ¬ sch.id = Document.rootId ∧ ¬ (l.find? sch.id).isSome = true) ∨
      (iss = l.issues.push (.reservedStateId sch.id) ∧ sch.id = Document.rootId) ∨
      (iss = l.issues.push (.duplicateStateId sch.id) ∧ (l.find? sch.id).isSome = true))
    {node : StateNode} (hkey : node.key = sch.key) (htr : node.transitions = []) :
    Triple (· = { l with issues := iss, states := l.states.push node })
      (modifyNode p (StateNode.adopt node.mode.isHistory l.states.size)) fun _ l' =>
        Tracked ds (W ++ [sch]) F l' ∧ Frame p l l' ∧
        l'.document.state p = (l.document.state p).adopt node.mode.isHistory l.states.size ∧
        l'.document.state l.states.size = node ∧ (l'.issues = #[] → l.issues = #[]) := by
  refine Triple.modify fun l' hl' => ?_
  subst hl'
  have hst := state_adopt hp node node.mode.isHistory iss
  refine ⟨(hT.enter hsub hiss hkey htr).modify_state (by simp [StateNode.key])
      (by cases node.mode.isHistory <;> rfl) (by cases node.mode.isHistory <;> simp [StateNode.adopt]), ⟨by simp, fun u hu hup => ?_, List.Subset.refl _⟩,
    by rw [hst, if_pos rfl], by rw [hst, if_neg (Nat.ne_of_gt hp), if_pos rfl], ?_⟩
  · rw [hst, if_neg hup, if_neg (Nat.ne_of_lt hu)]
  · rcases hiss with ⟨rfl, -⟩ | ⟨rfl, -⟩ | ⟨rfl, -⟩ <;> simp

/-- The checks of a final state or a history pseudo-state described as `sch`, once its transitions
are added: children are reported with `i`, else explicit default targets are. -/
theorem leaf_checked {sch : StateSchema} (hT : Tracked ds V E l) (hmem : sch ∈ ds.preorder)
    (hleaf : sch.kind.isLeaf = true) {i : Issue} (hi : sch.children ≠ [] → ds.Flags i) (a : Nat) :
    Triple (· = l)
      (if (!sch.children.isEmpty) = true then report i >>= fun _ => pure a
        else if (!sch.initialTargets.isEmpty) = true then
          report (.initialOnNonCompound sch.id) >>= fun _ => pure a
        else pure a)
      fun b l' => b = a ∧ Tracked ds V E l' ∧ l' = { l with issues := l'.issues } ∧
        (l'.issues = #[] → l.issues = #[] ∧ sch.Fine) := by
  have hnc : ¬ sch.BecomesCompound := fun h => by
    rw [h.1] at hleaf
    cases hleaf
  split
  · rename_i hch
    refine Triple.bind (Q := fun _ l' => l' = { l with issues := l.issues.push i })
      (fun l' hl' => by subst hl'; rfl) fun _ => Triple.pure fun l' hl' => ?_
    subst hl'
    exact ⟨rfl, hT.report (hi (by simpa using hch)), rfl, fun h => by simp at h⟩
  · rename_i hch
    split
    · rename_i hit
      refine Triple.bind
        (Q := fun _ l' => l' = { l with issues := l.issues.push (.initialOnNonCompound sch.id) })
        (fun l' hl' => by subst hl'; rfl) fun _ => Triple.pure fun l' hl' => ?_
      subst hl'
      exact ⟨rfl, hT.report (Or.inl ⟨sch, hmem, rfl, by simpa using hit, hnc⟩), rfl,
        fun h => by simp at h⟩
    · rename_i hit
      refine Triple.pure fun l' hl' => ?_
      subst hl'
      exact ⟨rfl, hT, rfl, fun h => ⟨h, fun _ => by simpa using hch,
        fun hne => absurd (by simpa using hit) hne⟩⟩

mutual

/-- Compiling a state described as `sch` below `p`: the states it visits and the transitions they
describe are tracked, `p` lists the new state and nothing else compiled before changes, and unless
a problem is reported every state visited passes its checks. -/
theorem lowerState_tracked (p : Nat) :
    ∀ (sch : StateSchema) (W : List StateSchema) (F : List (Nat × List String)) (l₀ : Lowering),
    Tracked ds W F l₀ → p < l₀.states.size → List.Sublist (W ++ sch.visited) ds.preorder →
    Triple (· = l₀) (lowerState p sch) fun id l =>
      Tracked ds (W ++ sch.visited) (F ++ StateSchema.edgesFrom (W.length + 1) sch.visited) l ∧
      id = l₀.states.size ∧ Frame p l₀ l ∧
      l.document.state p = (l₀.document.state p).adopt sch.kind.isHistory l₀.states.size ∧
      Checked l₀ l sch.visited
  | ⟨sid, kind, im, it, ic, ch, ts, is, en, ex, dd⟩, W, F, l₀, hT, hp, hsub => by
    rw [lowerState]
    generalize hsch : (⟨sid, kind, im, it, ic, ch, ts, is, en, ex, dd⟩ : StateSchema) = sch at hsub ⊢
    refine Triple.bind (Q := fun o l => o = l₀.order ∧ l = { l₀ with order := l₀.order + 1 })
      (fun l hl => by subst hl; exact ⟨rfl, rfl⟩) fun order => Triple.get_bind fun l₁ => ?_
    refine Triple.of_eq fun l₂ ⟨⟨ho, hl₂⟩, hl₁⟩ => ?_
    subst ho hl₂ hl₁
    lift_lets
    intro id pnode
    refine Triple.check_cases _ fun iss hiss => ?_
    dsimp -zeta only
    have hT₁ : Tracked ds W F { l₀ with order := l₀.order + 1 } := hT.of_eq rfl rfl rfl rfl rfl
    have hmem : sch ∈ ds.preorder :=
      hsub.subset (List.mem_append_right _ (by rw [StateSchema.visited_eq]; exact List.mem_cons_self))
    have hsub₁ : List.Sublist (W ++ [sch]) ds.preorder := by
      refine List.Sublist.trans ?_ hsub
      rw [StateSchema.visited_eq]
      exact List.Sublist.append_left (List.cons_sublist_cons.2 (List.nil_sublist _)) W
    have hsid : sch.id = sid := by rw [← hsch]
    have hch : sch.children = ch := by rw [← hsch]
    have hit : sch.initialTargets = it := by rw [← hsch]
    have hts : sch.transitions = ts := by rw [← hsch]
    rw [← hsid] at hiss
    have hF₀ : Frame p l₀ { l₀ with order := l₀.order + 1 } :=
      ⟨Nat.le_refl _, fun _ _ _ => rfl, List.Subset.refl _⟩
    have hid : id = W.length + 1 := hT.size_eq
    have hle : l₀.states.size ≤ id := Nat.le_refl _
    refine modify_bind ?_
    cases kind with
    | state | parallel =>
      refine Triple.bind (Triple.adopt_tracked hT₁ hp hsub₁ hiss ?hkey rfl)
        fun _ => Triple.of_eq fun l₂ ⟨hT₂, hF₂, hp₂, hnode₂, hnil₂⟩ => ?_
      case hkey => subst hsch; rfl
      have hlt₂ : id < l₂.states.size := by rw [hT₂.size_eq, hid]; simp
      refine Triple.edges_tracked ts is hlt₂ hT₂ fun l₃ hT₃ hE₃ => ?_
      -- the state, still as it was added, gets its children
      have hnode₃ := (layout_eq_of_layouts hE₃.layouts id).trans (congrArg StateNode.layout hnode₂)
      have hvis : sch.visited = sch :: StateSchema.visitedEach ch := by
        subst hsch
        rw [StateSchema.visited_eq]
        rfl
      have hsub₃ : List.Sublist (W ++ [sch] ++ StateSchema.visitedEach ch) ds.preorder := by
        simpa [hvis] using hsub
      refine Triple.bind (lowerEach_tracked id ch _ _ l₃ hT₃ (hE₃.size_eq ▸ hlt₂) hsub₃)
        fun marked => Triple.of_eq fun l₄ ⟨hT₄, hF₄, hJ₄, hC₄⟩ => ?_
      obtain ⟨xs, ys, hs₄, hxs, hmk⟩ := hJ₄
      have hch₃ : (l₃.document.state id).children = [] := congrArg StateLayout.children hnode₃
      have hchildren₄ : (l₄.document.state id).children = xs := by rw [hs₄, hch₃]; rfl
      have hB : Document.closedMode (l₄.document.state id).mode (l₄.document.state id).children =
          .compound ↔ sch.BecomesCompound := by
        subst hsch
        exact closedMode_eq_compound_iff_becomes (by rw [hs₄]; exact congrArg StateLayout.mode hnode₃)
          (by rw [hchildren₄]; exact hxs)
      have hsid₄ : (l₄.document.state id).id = sid := by
        rw [hs₄]
        exact congrArg StateLayout.id hnode₃
      refine Triple.close_tracked hT₄ (Nat.lt_of_lt_of_le (hE₃.size_eq ▸ hlt₂) hF₄.size_le) hB
        (fun hne hnb => Or.inl ⟨sch, hmem, hsid.trans hsid₄.symm, hit ▸ hne, hnb⟩)
        (fun m hm => hchildren₄ ▸ hmk m hm) fun r l₅ hT₅ hF₅ hc₅ hr₅ => ?_
      -- what holds once the default entry, if any, is queued
      have hpost : ∀ l₆, Tracked ds (W ++ [sch] ++ StateSchema.visitedEach ch)
          (F ++ ts.map (fun t => (id, t.targets)) ++
            StateSchema.edgesFrom ((W ++ [sch]).length + 1) (StateSchema.visitedEach ch)) l₆ →
          Frame id l₅ l₆ → l₆.issues = l₅.issues →
          (∀ rule, r = some rule → rule ∈ l₆.pendingInitial.toList.map PendingInitial.rule) →
          Tracked ds (W ++ sch.visited) (F ++ StateSchema.edgesFrom (W.length + 1) sch.visited) l₆ ∧
          id = l₀.states.size ∧ Frame p l₀ l₆ ∧
          l₆.document.state p = (l₀.document.state p).adopt sch.kind.isHistory l₀.states.size ∧
          Checked l₀ l₆ sch.visited := by
        intro l₆ hT₆ hF₆ hi₆ hq₆
        have hF : Frame id l₂ l₆ := ((hE₃.frame.trans hF₄).trans hF₅).trans hF₆
        refine ⟨?_, rfl, (hF₀.trans hF₂).trans_fresh hF hle, ?_, fun hnil => ?_⟩
        · rw [hvis]
          simpa [StateSchema.edgesFrom, hid, hts, Nat.add_assoc] using hT₆
        · rw [show sch.kind.isHistory = false by subst hsch; rfl]
          exact (hF.keeps p (by omega) (by omega)).trans hp₂
        · obtain ⟨h₄, hcomp⟩ := hc₅ (hi₆ ▸ hnil)
          obtain ⟨h₃, hrest⟩ := hC₄ h₄
          refine ⟨hnil₂ (hE₃.issues ▸ h₃), fun s hs => ?_⟩
          rw [hvis] at hs
          rcases List.mem_cons.1 hs with rfl | hs
          · subst hsch
            exact ⟨⟨fun h => by simp [StateKind.isLeaf] at h, fun hne => (hcomp hne).1⟩,
              fun hne => hq₆ _ (hcomp hne).2⟩
          · obtain ⟨hfine, hqueued⟩ := hrest s hs
            exact ⟨hfine, fun hne => List.map_subset _ (hF₅.trans hF₆).queued (hqueued hne)⟩
      cases r with
      | none =>
        exact Triple.pure fun l hl => hl ▸ hpost l₅ hT₅ (.refl _ _) rfl fun _ h => by cases h
      | some rule =>
        obtain ⟨hfit, hchosen⟩ := hr₅ rule rfl
        have hexp : ds.explicitAt (W ++ [sch] ++ StateSchema.visitedEach ch) id = it := by
          rw [ds.explicitAt_append _ (by simp [hid]), hid, ← hsch]
          simp [DocumentSchema.explicitAt]
        refine modify_bind (Triple.pure fun l hl => hl ▸ hpost _
          (hT₅.queue (Nat.lt_of_lt_of_le (hE₃.size_eq ▸ hlt₂) (Nat.le_trans hF₄.size_le hF₅.size_le))
            (hexp ▸ hfit) hchosen ic) ⟨Nat.le_refl _, fun _ _ _ => rfl, by simp⟩ rfl ?_)
        intro rule' hr'
        cases hr'
        simp
    | final | history k =>
      refine Triple.bind (Triple.adopt_tracked hT₁ hp hsub₁ hiss ?hkey rfl)
        fun _ => Triple.of_eq fun l₂ ⟨hT₂, hF₂, hp₂, _, hnil₂⟩ => ?_
      case hkey => subst hsch; rfl
      have hlt₂ : id < l₂.states.size := by rw [hT₂.size_eq, hid]; simp
      refine Triple.edges_tracked ts is hlt₂ hT₂ fun l₃ hT₃ hE₃ => ?_
      rw [← hch, ← hit, ← hsid]
      refine (leaf_checked hT₃ hmem (by subst hsch; rfl) ?_ id).conseq (fun _ h => h)
        fun b l ⟨hb, hT', heq, hc⟩ => ?_
      · exact fun hne => ⟨sch, hmem, rfl, by subst hsch; rfl, hne⟩
      subst hb
      have hvis : sch.visited = [sch] := by
        subst hsch
        rw [StateSchema.visited_eq]
        rfl
      have hF : Frame id l₂ l := hE₃.frame.trans (Frame.of_issues heq)
      refine ⟨?_, rfl, (hF₀.trans hF₂).trans_fresh hF hle, ?_, fun hnil => ?_⟩
      · rw [hvis]
        simpa [StateSchema.edgesFrom, hid, hts] using hT'
      · subst hsch
        exact (hF.keeps p (by omega) (by omega)).trans hp₂
      · obtain ⟨h₃, hfine⟩ := hc hnil
        refine ⟨hnil₂ (hE₃.issues ▸ h₃), fun s hs => ?_⟩
        rw [hvis, List.mem_singleton] at hs
        subst hs
        exact ⟨hfine, fun hne => absurd (hfine.2 hne).1 (by subst hsch; simp)⟩

/-- Compiling the states `cs` below `p` in order: the states they visit and the transitions those
describe are tracked, `p` lists them, and unless a problem is reported every state visited passes
its checks. -/
theorem lowerEach_tracked (p : Nat) :
    ∀ (cs : List StateSchema) (W : List StateSchema) (F : List (Nat × List String)) (l₀ : Lowering),
    Tracked ds W F l₀ → p < l₀.states.size →
    List.Sublist (W ++ StateSchema.visitedEach cs) ds.preorder →
    Triple (· = l₀) (lowerEach p cs) fun marked l =>
      Tracked ds (W ++ StateSchema.visitedEach cs)
        (F ++ StateSchema.edgesFrom (W.length + 1) (StateSchema.visitedEach cs)) l ∧
      Frame p l₀ l ∧ Joined p l₀ l cs marked ∧ Checked l₀ l (StateSchema.visitedEach cs)
  | [], W, F, l₀, hT, _, _ => by
    rw [lowerEach]
    refine Triple.pure fun l hl => ?_
    subst hl
    refine ⟨by simpa [StateSchema.visitedEach, StateSchema.edgesFrom] using hT, .refl _ _,
      ⟨[], [], by simp, by simp, by simp⟩, fun h => ⟨h, by simp [StateSchema.visitedEach]⟩⟩
  | c :: cs, W, F, l₀, hT, hp, hsub => by
    rw [lowerEach]
    have hvis : StateSchema.visitedEach (c :: cs) = c.visited ++ StateSchema.visitedEach cs := by
      rw [StateSchema.visitedEach]
    rw [hvis] at hsub ⊢
    refine Triple.bind (lowerState_tracked p c W F l₀ hT hp
      (List.Sublist.trans (by simp) hsub)) fun id => Triple.of_eq fun l₁ ⟨hT₁, hid, hF₁, hp₁, hC₁⟩ => ?_
    refine Triple.bind (lowerEach_tracked p cs _ _ l₁ hT₁ (Nat.lt_of_lt_of_le hp hF₁.size_le)
      (by simpa using hsub)) fun rest => Triple.pure fun l ⟨hT₂, hF₂, hJ₂, hC₂⟩ => ?_
    refine ⟨?_, hF₁.trans hF₂, ?_, hC₁.append hC₂ hF₂.queued⟩
    · rw [StateSchema.edgesFrom_append]
      have hk : W.length + 1 + c.visited.length = (W ++ c.visited).length + 1 := by simp; omega
      simpa [hk] using hT₂
    · -- `c` is listed first, as a child unless it is a history pseudo-state
      obtain ⟨xs, ys, hs₂, hxs, hmk⟩ := hJ₂
      refine ⟨(if c.kind.isHistory then [] else [id]) ++ xs,
        (if c.kind.isHistory then [id] else []) ++ ys, ?_, ?_, fun m hm => ?_⟩
      · rw [hs₂, hp₁, hid]
        cases c.kind.isHistory <;> simp [StateNode.adopt]
      · cases hk : c.kind.isHistory <;> simp [hxs, hk]
      · rcases ite_eq_iff.1 hm with ⟨hflag, hm⟩ | ⟨-, hm⟩
        · cases hm
          have hc : c.kind.isHistory = false := by
            revert hflag
            cases c.kind <;> simp [StateKind.mode, StateKind.isHistory]
          simp [hc]
        · exact List.mem_append_right _ (hmk m hm)

end

theorem Tracked.empty : Tracked ds [] [] {} where
  keys := rfl
  sources := rfl
  pending := rfl
  edge_lt _ he := by cases he
  outgoing s := by
    rw [state_empty]
    split <;> rfl
  initials _ he := by cases he
  chosen _ he := by cases he
  flagged _ he := by cases he
  clean _ := ⟨List.nodup_nil, fun _ hs => by cases hs⟩

/-- What the walk leaves before names are resolved: the states visited and the transitions they
describe tracked, and unless a problem was reported, every state visited passed its checks and has
its explicit default targets queued, and so has the root. -/
structure Walked (ds : DocumentSchema) (l : Lowering) : Prop where
  tracked : Tracked ds ds.visited (StateSchema.edgesFrom 1 ds.visited) l
  checked : l.issues = #[] →
    (∀ s ∈ ds.visited, s.Fine ∧ (s.initialTargets ≠ [] →
      InitialRule.ids s.initialTargets ∈ l.pendingInitial.toList.map PendingInitial.rule)) ∧
    (ds.initial ≠ [] → (∃ c ∈ ds.states, c.kind.isHistory = false) ∧
      InitialRule.ids ds.initial ∈ l.pendingInitial.toList.map PendingInitial.rule)

/-- The walk: the top-level states compiled below the root, then the root closed, its default
entry queued, and the arena handed to `finish`. -/
theorem walk_walked {S : Unit → Lowering → Prop}
    (hfin : ∀ l, Walked ds l → Triple (· = l) Lowering.finish S) :
    Triple (· = {}) ds.walk S := by
  unfold DocumentSchema.walk
  refine Triple.bind (lowerEach_tracked 0 ds.states [] [] {} Tracked.empty (by decide)
    (StateSchema.visitedEach_sublist ds.states)) fun marked =>
      Triple.of_eq fun l₁ ⟨hT₁, hF₁, hJ₁, hC₁⟩ => ?_
  obtain ⟨xs, ys, hs₁, hxs, hmk⟩ := hJ₁
  -- the root lists the top-level states; it becomes compound when one is not a history
  -- pseudo-state
  have hroot : l₁.document.state 0 =
      { id := Document.rootId, mode := .atomic, order := 0, depth := -1, children := xs,
        history := ys } := by
    simp [hs₁, state_empty]
  have hB : Document.closedMode (l₁.document.state 0).mode (l₁.document.state 0).children =
      .compound ↔ ∃ c ∈ ds.states, c.kind.isHistory = false := by
    rw [hroot, closedMode_eq_compound_iff (by simp)]
    simp [hxs]
  refine Triple.close_tracked hT₁ (Nat.lt_of_lt_of_le (by decide) hF₁.size_le) hB
    (fun hne hnb => Or.inr ⟨by rw [hroot], hne, by simpa using hnb⟩)
    (fun m hm => by rw [hroot]; exact hmk m hm) fun r l₂ hT₂ hF₂ hc₂ hr₂ => ?_
  have hpost : ∀ l₃, Tracked ds ([] ++ ds.visited) ([] ++ StateSchema.edgesFrom 1 ds.visited) l₃ →
      Frame 0 l₂ l₃ → l₃.issues = l₂.issues →
      (∀ rule, r = some rule → rule ∈ l₃.pendingInitial.toList.map PendingInitial.rule) →
      Walked ds l₃ := by
    intro l₃ hT₃ hF₃ hi₃ hq₃
    refine ⟨by simpa using hT₃, fun hnil => ?_⟩
    obtain ⟨h₁, hcomp⟩ := hc₂ (hi₃ ▸ hnil)
    obtain ⟨-, hvis⟩ := hC₁ h₁
    refine ⟨fun s hs => ?_, fun hne => ⟨(hcomp hne).1, hq₃ _ (hcomp hne).2⟩⟩
    obtain ⟨hfine, hqueued⟩ := hvis s hs
    exact ⟨hfine, fun hne => List.map_subset _ (hF₂.trans hF₃).queued (hqueued hne)⟩
  cases r with
  | none => exact hfin _ (hpost l₂ hT₂ (.refl _ _) rfl fun _ h => by cases h)
  | some rule =>
    obtain ⟨hfit, hchosen⟩ := hr₂ rule rfl
    refine modify_bind (hfin _ (hpost _ (hT₂.queue (n := 0) (Nat.lt_of_lt_of_le (by decide)
      (Nat.le_trans hF₁.size_le hF₂.size_le)) hfit hchosen ds.onInitial)
      ⟨Nat.le_refl _, fun _ _ _ => rfl, by simp⟩ rfl ?_))
    intro rule' hr'
    cases hr'
    simp

end Lowering

end Hsm
