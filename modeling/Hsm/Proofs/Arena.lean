import Hsm.Proofs.Tree
/-!
# What compiling keeps, step by step

A property every step of compiling keeps (`Lowering.Keeps`) holds of every document that
compiles. Here it is `Document.Anchored`, which with `Document.Nested` makes lying below transitive
and puts every state below the root.
-/

namespace Hsm

namespace Document

theorem transition_push (d : Document) (n : TransitionNode) (t : Nat) :
    (⟨d.states, d.transitions.push n, d.invokes⟩ : Document).transition t =
      if t = d.transitions.size then n else d.transition t := by
  simp only [Document.transition, Array.getD_eq_getD_getElem?, Array.getElem?_push]
  split <;> simp_all

theorem transition_modify (d : Document) (t : Nat) (f : TransitionNode → TransitionNode) (u : Nat) :
    (⟨d.states, d.transitions.modify t f, d.invokes⟩ : Document).transition u =
      if u = t ∧ t < d.transitions.size then f (d.transition t) else d.transition u := by
  simp only [Document.transition, Array.getD_eq_getD_getElem?, Array.getElem?_modify]
  by_cases h : u = t
  · subst h
    by_cases ht : u < d.transitions.size <;> simp [ht]
  · simp [h, Ne.symm h]

/-- Every state but the root hangs from a parent, every transition a state lists starts at that
state, and a compound state has children and states below it. -/
structure Anchored (d : Document) : Prop where
  parent_isSome : ∀ {s}, 0 < s → s < d.size → (d.state s).parent.isSome
  listed_lt : ∀ {s t}, t ∈ (d.state s).transitions → t < d.transitions.size
  source_eq : ∀ {s t}, t ∈ (d.state s).transitions → (d.transition t).source = s
  children_ne_nil : ∀ {s}, (d.state s).mode = .compound → (d.state s).children ≠ []
  descendants_ne_nil : ∀ {s}, (d.state s).mode = .compound → (d.state s).descendants ≠ []

namespace Anchored
variable {d : Document}

theorem of_eq {d' : Document} (ha : d.Anchored) (hs : d'.states = d.states)
    (ht : d'.transitions = d.transitions) : d'.Anchored := by
  obtain ⟨d₁, d₂, d₃⟩ := d
  obtain ⟨e₁, e₂, e₃⟩ := d'
  cases hs
  cases ht
  exact ⟨ha.1, ha.2, ha.3, ha.4, ha.5⟩

/-- Adding a state with a parent, no transitions and a mode other than compound. -/
theorem push (ha : d.Anchored) {n : StateNode} (hpar : n.parent.isSome) (htr : n.transitions = [])
    (hmode : n.mode ≠ .compound) : (⟨d.states.push n, d.transitions, d.invokes⟩ : Document).Anchored := by
  have hsize : (⟨d.states.push n, d.transitions, d.invokes⟩ : Document).size = d.size + 1 := by
    simp [Document.size]
  constructor
  · intro s hs hlt
    rw [Document.state_push]
    split
    · exact hpar
    · exact ha.parent_isSome hs (by omega)
  · intro s t h
    rw [Document.state_push] at h
    split at h
    · simp [htr] at h
    · exact ha.listed_lt h
  · intro s t h
    rw [Document.state_push] at h
    split at h
    · simp [htr] at h
    · exact ha.source_eq h
  · intro s h
    rw [Document.state_push] at h ⊢
    split at h
    · exact absurd h hmode
    · rw [if_neg ‹_›]; exact ha.children_ne_nil h
  · intro s h
    rw [Document.state_push] at h ⊢
    split at h
    · exact absurd h hmode
    · rw [if_neg ‹_›]; exact ha.descendants_ne_nil h

/-- Changing a state without giving it a parent, listing only transitions it listed or that start
at it, and keeping a compound state over children and descendants. -/
theorem modify (ha : d.Anchored) {s : Nat} {f : StateNode → StateNode}
    (hpar : (f (d.state s)).parent = (d.state s).parent)
    (htr : ∀ t ∈ (f (d.state s)).transitions, t ∈ (d.state s).transitions ∨
      (t < d.transitions.size ∧ (d.transition t).source = s))
    (hmode : (f (d.state s)).mode = .compound →
      (f (d.state s)).children ≠ [] ∧ (f (d.state s)).descendants ≠ []) :
    (⟨d.states.modify s f, d.transitions, d.invokes⟩ : Document).Anchored := by
  have hsize : (⟨d.states.modify s f, d.transitions, d.invokes⟩ : Document).size = d.size := by
    simp [Document.size]
  constructor
  · intro u hu hlt
    rw [Document.state_modify]
    split
    · rename_i h
      rw [hpar]
      exact ha.parent_isSome (h.1 ▸ hu) h.2
    · exact ha.parent_isSome hu (by omega)
  · intro u t h
    rw [Document.state_modify] at h
    split at h
    · rename_i hu
      rcases htr t h with h | h
      · exact ha.listed_lt h
      · exact h.1
    · exact ha.listed_lt h
  · intro u t h
    rw [Document.state_modify] at h
    split at h
    · rename_i hu
      rw [hu.1]
      rcases htr t h with h | h
      · exact ha.source_eq h
      · exact h.2
    · exact ha.source_eq h
  · intro u h
    rw [Document.state_modify] at h ⊢
    split at h
    · rename_i hu; rw [if_pos hu]; exact (hmode h).1
    · rw [if_neg ‹_›]; exact ha.children_ne_nil h
  · intro u h
    rw [Document.state_modify] at h ⊢
    split at h
    · rename_i hu; rw [if_pos hu]; exact (hmode h).2
    · rw [if_neg ‹_›]; exact ha.descendants_ne_nil h

theorem push_transition (ha : d.Anchored) (n : TransitionNode) :
    (⟨d.states, d.transitions.push n, d.invokes⟩ : Document).Anchored := by
  refine ⟨ha.parent_isSome, fun h => ?_, fun h => ?_, ha.children_ne_nil, ha.descendants_ne_nil⟩
  · show _ < (d.transitions.push n).size
    rw [Array.size_push]
    exact Nat.lt_succ_of_lt (ha.listed_lt h)
  · rw [Document.transition_push, if_neg (Nat.ne_of_lt (ha.listed_lt h))]
    exact ha.source_eq h

theorem push_listed (ha : d.Anchored) {s : Nat} {n : TransitionNode} (hn : n.source = s) :
    (⟨d.states.modify s (fun m => { m with transitions := m.transitions ++ [d.transitions.size] }),
      d.transitions.push n, d.invokes⟩ : Document).Anchored := by
  have hp := ha.push_transition n
  refine hp.modify rfl (fun t h => ?_) fun h => ?_
  · rcases List.mem_append.1 h with h | h
    · exact .inl h
    · right
      rw [List.mem_singleton.1 h]
      refine ⟨by simp, ?_⟩
      show (Document.transition ⟨d.states, d.transitions.push n, d.invokes⟩ _).source = s
      rw [Document.transition_push, if_pos rfl, hn]
  · exact ⟨hp.children_ne_nil h, hp.descendants_ne_nil h⟩

theorem modify_transition (ha : d.Anchored) {t : Nat} {f : TransitionNode → TransitionNode}
    (hf : ∀ n, (f n).source = n.source) :
    (⟨d.states, d.transitions.modify t f, d.invokes⟩ : Document).Anchored := by
  refine ⟨ha.parent_isSome, fun h => by simpa using ha.listed_lt h, fun {u t'} h => ?_,
    ha.children_ne_nil, ha.descendants_ne_nil⟩
  rw [Document.transition_modify]
  split
  · rename_i ht; rw [hf, ← ht.1]; exact ha.source_eq h
  · exact ha.source_eq h

end Anchored

namespace Nested
variable {d : Document}

theorem ancestors_subset (hd : d.Nested) {s a : Nat} (h : d.isDescendant s a = true) :
    (d.state a).ancestors ⊆ (d.state s).ancestors := by
  induction s using Nat.strongRecOn with
  | ind s ih =>
    simp only [Document.isDescendant, List.contains_iff_mem] at h
    rw [hd.ancestors_eq s] at h ⊢
    cases hp : (d.state s).parent with
    | none => simp [hp] at h
    | some p =>
      rw [hp] at h
      dsimp only
      rcases List.mem_cons.1 h with rfl | h
      · exact List.subset_cons_self _ _
      · have hsub := ih p (hd.parent_lt hp) (by simpa [Document.isDescendant] using h)
        exact List.Subset.trans hsub (List.subset_cons_self _ _)

theorem isDescendant_trans (hd : d.Nested) {a b c : Nat} (hab : d.isDescendant a b = true)
    (hbc : d.isDescendant b c = true) : d.isDescendant a c = true := by
  simp only [Document.isDescendant, List.contains_iff_mem] at hbc ⊢
  exact hd.ancestors_subset hab hbc

theorem not_isDescendant_self (hd : d.Nested) (s : Nat) : d.isDescendant s s = false := by
  cases h : d.isDescendant s s
  · rfl
  · exact absurd (hd.level_lt_of_isDescendant h) (Nat.lt_irrefl _)

theorem not_isDescendant_of_isDescendant (hd : d.Nested) {a b : Nat}
    (h : d.isDescendant a b = true) : d.isDescendant b a = false := by
  cases h' : d.isDescendant b a
  · rfl
  · exact absurd (hd.level_lt_of_isDescendant h)
      (Nat.lt_asymm (hd.level_lt_of_isDescendant h'))

theorem mem_ancestors_of_mem_properAncestors {s a : Nat} (h : a ∈ d.properAncestors s none) :
    d.isDescendant s a = true := by
  simp only [Document.properAncestors] at h
  simpa [Document.isDescendant] using (List.takeWhile_sublist _).subset h

end Nested

theorem Anchored.isDescendant_root_of_lt {d : Document} (ha : d.Anchored) (hd : d.Nested) {s : Nat}
    (hs : 0 < s) (hlt : s < d.size) : d.isDescendant s 0 = true := by
  induction s using Nat.strongRecOn with
  | ind s ih =>
    obtain ⟨p, hp⟩ := Option.isSome_iff_exists.1 (ha.parent_isSome hs hlt)
    simp only [Document.isDescendant, List.contains_iff_mem]
    rw [hd.ancestors_eq s, hp]
    rcases Nat.eq_zero_or_pos p with rfl | hp0
    · exact List.mem_cons_self
    · have hlt' := Nat.lt_trans (hd.parent_lt hp) hlt
      have := ih p (hd.parent_lt hp) hp0 hlt'
      simp only [Document.isDescendant, List.contains_iff_mem] at this
      exact List.mem_cons_of_mem _ this

theorem Anchored.isDescendant_root {d : Document} (ha : d.Anchored) (hd : d.Nested) {s a : Nat}
    (h : d.isDescendant s a = true) : d.isDescendant s 0 = true := by
  obtain ⟨p, hp⟩ := Option.isSome_iff_exists.1 (hd.parent_isSome_of_isDescendant h)
  exact ha.isDescendant_root_of_lt hd (Nat.lt_of_le_of_lt (Nat.zero_le _) (hd.parent_lt hp))
    (lt_size_of_parent hp)

end Document

namespace Lowering
variable {α β : Type} {I : Lowering → Prop}

def Keeps (I : Lowering → Prop) (x : StateM Lowering α) (l : Lowering) : Prop := I l → I (x.run l).2

namespace Keeps

theorem of_eq {x : StateM Lowering α} {l : Lowering} (h : (x.run l).2 = l) : Keeps I x l := by
  intro hl
  rw [h]
  exact hl

theorem pure (a : α) (l : Lowering) : Keeps I (Pure.pure a : StateM Lowering α) l := of_eq rfl

theorem bind {x : StateM Lowering α} {f : α → StateM Lowering β} {l : Lowering} (hx : Keeps I x l)
    (hf : ∀ a l', x.run l = (a, l') → Keeps I (f a) l') : Keeps I (x >>= f) l := by
  intro hl
  rw [run_bind]
  exact hf _ _ rfl (hx hl)

theorem get_bind {f : Lowering → StateM Lowering β} {l : Lowering} (h : Keeps I (f l) l) :
    Keeps I (get >>= f) l := h

theorem forM {as : List β} {f : β → StateM Lowering PUnit} (h : ∀ a ∈ as, ∀ l, Keeps I (f a) l)
    (l : Lowering) : Keeps I (as.forM f) l := by
  induction as generalizing l with
  | nil => exact pure _ l
  | cons a as ih =>
    exact bind (h a (List.mem_cons_self ..) l) fun _ _ _ =>
      ih (fun b hb => h b (List.mem_cons_of_mem _ hb)) _

theorem of_arena {P : Document → Prop} {x : StateM Lowering α} {l : Lowering}
    (hP : ∀ {d d' : Document}, P d → d'.states = d.states → d'.transitions = d.transitions → P d')
    (hs : (x.run l).2.states = l.states) (ht : (x.run l).2.transitions = l.transitions) :
    Keeps (fun l => P l.document) x l :=
  fun hl => hP hl hs ht

end Keeps

abbrev AnchoredArena (l : Lowering) : Prop := l.document.Anchored

theorem keeps_of_arena {x : StateM Lowering α} {l : Lowering} (hs : (x.run l).2.states = l.states)
    (ht : (x.run l).2.transitions = l.transitions) : Keeps AnchoredArena x l :=
  Keeps.of_arena (P := Document.Anchored) (fun h hs ht => h.of_eq hs ht) hs ht

theorem report_anchored (i : Issue) (l : Lowering) : Keeps AnchoredArena (report i) l :=
  keeps_of_arena rfl rfl

theorem nextOrder_anchored (l : Lowering) : Keeps AnchoredArena nextOrder l := keeps_of_arena rfl rfl

theorem modifyNode_anchored {s : Nat} {f : StateNode → StateNode} {l : Lowering}
    (hpar : (f (l.document.state s)).parent = (l.document.state s).parent)
    (htr : ∀ t ∈ (f (l.document.state s)).transitions, t ∈ (l.document.state s).transitions)
    (hmode : (f (l.document.state s)).mode = .compound →
      (f (l.document.state s)).children ≠ [] ∧ (f (l.document.state s)).descendants ≠ []) :
    Keeps AnchoredArena (modifyNode s f) l := fun ha => ha.modify hpar (fun t h => .inl (htr t h)) hmode

theorem modifyNode_anchored_of_frame {s : Nat} {f : StateNode → StateNode} {l : Lowering}
    (hpar : ∀ n, (f n).parent = n.parent) (htr : ∀ n, (f n).transitions = n.transitions)
    (hmode : ∀ n, (f n).mode = n.mode) (hch : ∀ n, n.children ⊆ (f n).children)
    (hdesc : ∀ n, (f n).descendants = n.descendants) : Keeps AnchoredArena (modifyNode s f) l :=
  fun ha => ha.modify (hpar _) (fun t h => .inl (by rwa [htr] at h)) fun h => by
    rw [hmode] at h
    refine ⟨fun hnil => ha.children_ne_nil h ?_, by rw [hdesc]; exact ha.descendants_ne_nil h⟩
    exact List.eq_nil_of_subset_nil (hnil ▸ hch _)

theorem modifyTransition_anchored {t : Nat} {f : TransitionNode → TransitionNode} {l : Lowering}
    (hf : ∀ n, (f n).source = n.source) :
    Keeps AnchoredArena (modify fun l : Lowering => { l with transitions := l.transitions.modify t f })
      l := fun ha => ha.modify_transition hf

theorem lowerTransition_anchored (source : Nat) (t : TransitionSchema) (l : Lowering) :
    Keeps AnchoredArena (lowerTransition source t) l := by
  unfold lowerTransition
  refine Keeps.bind (nextOrder_anchored l) fun _ l₀ _ => Keeps.get_bind ?_
  exact fun ha => ha.push_listed rfl

theorem lowerInvoke_anchored (state : Nat) (i : InvokeSchema) (l : Lowering) :
    Keeps AnchoredArena (lowerInvoke state i) l := by
  unfold lowerInvoke
  refine Keeps.bind (nextOrder_anchored l) fun _ l₀ _ => Keeps.get_bind ?_
  refine Keeps.bind (keeps_of_arena rfl rfl) fun _ _ _ => ?_
  exact modifyNode_anchored_of_frame (fun _ => rfl) (fun _ => rfl) (fun _ => rfl)
    (fun _ => List.Subset.refl _) fun _ => rfl

/-- Closing a state makes it compound only with children, and then it has states below it. -/
theorem finishChildren_anchored (parent : Nat) (explicit : List String) (marked : Option Nat)
    (l : Lowering) : Keeps AnchoredArena (finishChildren parent explicit marked) l := by
  unfold finishChildren
  refine Keeps.get_bind (Keeps.bind ?_ fun _ l' _ => ?_)
  · refine fun ha => modifyNode_anchored rfl (fun t h => h) (fun hc => ?_) ha
    dsimp only at hc ⊢
    have hch : (l.states.getD parent default).children ≠ [] := by
      split at hc
      · rename_i h
        obtain ⟨-, h⟩ := Bool.and_eq_true_iff.1 h
        simpa using h
      · exact ha.children_ne_nil hc
    refine ⟨hch, fun hnil => hch ?_⟩
    obtain ⟨c, cs, hcs⟩ := List.exists_cons_of_ne_nil hch
    rw [hcs] at hnil
    simp at hnil
  · refine keeps_of_arena ?_ ?_ <;>
    · dsimp only
      repeat' split
      all_goals rfl

mutual

theorem lowerState_anchored (parent : Nat) :
    ∀ (sch : StateSchema) (l : Lowering), Keeps AnchoredArena (lowerState parent sch) l
  | ⟨sid, kind, im, initialTargets, initialContent, children, transitions, invokes, onEntry, onExit,
      doneData⟩, l => by
    rw [lowerState]
    refine Keeps.bind (nextOrder_anchored l) fun _ l₀ _ => Keeps.get_bind ?_
    lift_lets
    intro new node mode
    -- problems of the id leave the arena as it is
    have check : ∀ {c₁ c₂ : Prop} [Decidable c₁] [Decidable c₂] {i₁ i₂ : Issue}
        {jp : Unit → StateM Lowering Nat}, (∀ l', Keeps AnchoredArena (jp ()) l') →
        Keeps AnchoredArena (if c₁ then report i₁ >>= jp else if c₂ then report i₂ >>= jp else jp ())
          l₀ := by
      intro c₁ c₂ _ _ i₁ i₂ jp hjp
      split
      · exact Keeps.bind (report_anchored _ _) fun _ _ _ => hjp _
      · split
        · exact Keeps.bind (report_anchored _ _) fun _ _ _ => hjp _
        · exact hjp _
    refine check fun l₁ => ?_
    dsimp -zeta only
    have hmode : mode ≠ .compound := by
      simp only [mode]
      cases kind <;> simp [StateKind.mode]
    refine Keeps.bind (fun ha => ha.push rfl rfl hmode) fun _ l₂ _ => ?_
    simp only [mode]
    split <;> refine Keeps.bind (modifyNode_anchored_of_frame (fun _ => rfl) (fun _ => rfl)
      (fun _ => rfl) (fun _ => by first | exact List.Subset.refl _ | exact List.subset_append_left _ _)
      fun _ => rfl) fun _ l₃ _ => ?_
    all_goals
      refine Keeps.bind (Keeps.forM (fun t _ => lowerTransition_anchored new t) _) fun _ l₄ _ => ?_
      refine Keeps.bind (Keeps.forM (fun i _ => lowerInvoke_anchored new i) _) fun _ l₅ _ => ?_
      split
      · split
        · exact Keeps.bind (report_anchored _ _) fun _ _ _ => Keeps.pure _ _
        · split
          · exact Keeps.bind (report_anchored _ _) fun _ _ _ => Keeps.pure _ _
          · exact Keeps.pure _ _
      · split
        · exact Keeps.bind (report_anchored _ _) fun _ _ _ => Keeps.pure _ _
        · split
          · exact Keeps.bind (report_anchored _ _) fun _ _ _ => Keeps.pure _ _
          · exact Keeps.pure _ _
      · refine Keeps.bind (lowerEach_anchored new children l₅) fun _ l₆ _ => ?_
        refine Keeps.bind (finishChildren_anchored _ _ _ l₆) fun _ l₇ _ => ?_
        split
        · exact Keeps.bind (keeps_of_arena rfl rfl) fun _ _ _ => Keeps.pure _ _
        · exact Keeps.pure _ _

theorem lowerEach_anchored (parent : Nat) :
    ∀ (cs : List StateSchema) (l : Lowering), Keeps AnchoredArena (lowerEach parent cs) l
  | [], l => Keeps.pure _ l
  | c :: cs, l => by
    rw [lowerEach]
    refine Keeps.bind (lowerState_anchored parent c l) fun _ l' _ => ?_
    exact Keeps.bind (lowerEach_anchored parent cs l') fun _ _ _ => Keeps.pure _ _

end

theorem resolve_anchored (issue : String → Issue) (names : List String) (l : Lowering) :
    Keeps AnchoredArena (resolve issue names) l := by
  induction names generalizing l with
  | nil => exact Keeps.pure _ l
  | cons name names ih =>
    unfold resolve
    rw [List.filterMapM_cons]
    refine Keeps.bind (Keeps.get_bind ?_) fun r l' _ => ?_
    · split
      · exact Keeps.pure _ _
      · exact Keeps.bind (report_anchored _ _) fun _ _ _ => Keeps.pure _ _
    · split
      · exact ih l'
      · exact Keeps.bind (ih l') fun _ _ _ => Keeps.pure _ _

theorem pushSynthetic_run (source : Nat) (targets : List Nat) (content : List Command)
    (l : Lowering) : (pushSynthetic source targets content).run l =
      (l.transitions.size, { l with
        order := l.order + 1
        transitions := l.transitions.push
          { source, targets, events := [], kind := .external, cond := none, content,
            order := l.order } }) := rfl

theorem pushSynthetic_anchored (source : Nat) (targets : List Nat) (content : List Command)
    (l : Lowering) : Keeps AnchoredArena (pushSynthetic source targets content) l := by
  intro ha
  rw [pushSynthetic_run]
  exact ha.push_transition _

/-- Resolving targets, adding default-entry transitions, and adding and listing default
transitions of history pseudo-states keep the arena anchored. -/
theorem finish_anchored (l : Lowering) : Keeps AnchoredArena finish l := by
  unfold finish
  refine Keeps.get_bind (Keeps.bind (Keeps.forM (fun _ _ l => ?_) _) fun _ l₁ _ => ?_)
  · refine Keeps.get_bind (Keeps.get_bind ?_)
    exact Keeps.bind (resolve_anchored _ _ _) fun _ _ _ => modifyTransition_anchored fun _ => rfl
  · refine Keeps.bind (Keeps.forM (fun _ _ l => ?_) _) fun _ l₂ _ => Keeps.get_bind ?_
    · lift_lets
      intro jp
      have hjp : ∀ ts l', Keeps AnchoredArena (jp ts) l' := fun ts l' =>
        Keeps.bind (pushSynthetic_anchored _ _ _ l') fun _ _ _ =>
          modifyNode_anchored_of_frame (fun _ => rfl) (fun _ => rfl) (fun _ => rfl)
            (fun _ => List.Subset.refl _) fun _ => rfl
      split
      · exact Keeps.bind (Keeps.pure _ _) fun _ _ _ => hjp _ _
      · exact Keeps.get_bind (Keeps.bind (resolve_anchored _ _ _) fun _ _ _ => hjp _ _)
    · refine Keeps.forM (fun h _ l => Keeps.get_bind ?_) _
      intro ha
      rw [run_bind, pushSynthetic_run]
      exact ha.push_listed rfl

/-- The arena before anything is compiled holds the root alone. -/
theorem anchored_empty : ({} : Lowering).document.Anchored := by
  have hstate : ∀ s, ({} : Lowering).document.state s =
      if s = 0 then { id := Document.rootId, mode := .atomic, order := 0, depth := -1 }
      else default := fun s => by
    simp only [Lowering.document, Document.state, Array.getD_eq_getD_getElem?]
    cases s <;> simp
  constructor
  · intro s hs hlt
    simp [Lowering.document, Document.size] at hlt
    omega
  · intro s t h
    rw [hstate] at h
    split at h <;> cases h
  · intro s t h
    rw [hstate] at h
    split at h <;> cases h
  · intro s h
    rw [hstate] at h
    split at h <;> cases h
  · intro s h
    rw [hstate] at h
    split at h <;> cases h

end Lowering

namespace DocumentSchema

theorem anchored_of_build {ds : DocumentSchema} {d : Document} (h : ds.build = .ok d) :
    d.Anchored := by
  unfold build at h
  dsimp only at h
  split at h
  · cases h
    refine Lowering.Keeps.bind (Lowering.lowerEach_anchored 0 ds.states {}) ?_
      Lowering.anchored_empty
    intro _ l₁ _
    refine Lowering.Keeps.bind (Lowering.finishChildren_anchored _ _ _ l₁) fun _ l₂ _ => ?_
    split
    · exact Lowering.Keeps.bind (Lowering.keeps_of_arena rfl rfl) fun _ _ _ =>
        Lowering.finish_anchored _
    · exact Lowering.finish_anchored _
  · cases h

end DocumentSchema

end Hsm
