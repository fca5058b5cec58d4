import Mathlib
import Hsm.Document.Build
/-!
# The tree a compiled document holds

Every state but the root has an earlier parent, ancestors follow parents and children name their
parent (`Document.Nested`); every step of compiling keeps it (`Lowering.Grows`), so every document
that compiles has it (`DocumentSchema.nested_of_build`).
-/

namespace Hsm

namespace Document

/-- The states of a document form a tree. -/
structure Nested (d : Document) : Prop where
  /-- A parent comes before its children. -/
  parent_lt : ∀ {s p : Nat}, (d.state s).parent = some p → p < s
  /-- The ancestors of a state are its parent and the parent's ancestors. -/
  ancestors_eq : ∀ s, (d.state s).ancestors = match (d.state s).parent with
    | none => []
    | some p => p :: (d.state p).ancestors
  /-- Every child of a state names it as its parent. -/
  parent_of_mem_children : ∀ {s c : Nat}, c ∈ (d.state s).children → (d.state c).parent = some s
  /-- A history pseudo-state has a parent. -/
  parent_of_isHistory : ∀ {s : Nat}, d.isHistory s = true → (d.state s).parent.isSome

theorem lt_size_of_parent {d : Document} {s p : Nat} (h : (d.state s).parent = some p) :
    s < d.size := by
  refine Nat.lt_of_not_le fun hs => ?_
  have hout : ¬ s < d.states.size := Nat.not_lt.2 hs
  simp [Document.state, Array.getD, hout] at h

theorem state_push (d : Document) (n : StateNode) (s : Nat) :
    (⟨d.states.push n, d.transitions, d.invokes⟩ : Document).state s =
      if s = d.size then n else d.state s := by
  simp only [Document.state, Document.size, Array.getD_eq_getD_getElem?, Array.getElem?_push]
  split <;> simp_all

theorem state_modify (d : Document) (s : Nat) (f : StateNode → StateNode) (t : Nat) :
    (⟨d.states.modify s f, d.transitions, d.invokes⟩ : Document).state t =
      if t = s ∧ s < d.size then f (d.state s) else d.state t := by
  simp only [Document.state, Document.size, Array.getD_eq_getD_getElem?, Array.getElem?_modify]
  by_cases h : t = s
  · subst h
    by_cases hs : t < d.states.size
    · simp [hs]
    · simp [hs]
  · simp [h, Ne.symm h]

theorem isHistory_iff (d : Document) (s : Nat) :
    d.isHistory s = true ↔ ∃ k, (d.state s).mode = .history k := by
  simp only [Document.isHistory, Document.historyKind?]
  split <;> simp_all

namespace Nested
variable {d : Document}

theorem lt_size_of_parent_eq (hd : d.Nested) {s p : Nat} (h : (d.state s).parent = some p) :
    p < d.size ∧ s < d.size :=
  ⟨Nat.lt_trans (hd.parent_lt h) (lt_size_of_parent h), lt_size_of_parent h⟩

/-- Adding a state, without children, below one already there keeps the states a tree. -/
theorem push (hd : d.Nested) {n : StateNode} {p : Nat} (hp : p < d.size)
    (hpar : n.parent = some p) (hanc : n.ancestors = p :: (d.state p).ancestors)
    (hch : n.children = []) : (⟨d.states.push n, d.transitions, d.invokes⟩ : Document).Nested := by
  have hne : ∀ {s q}, (d.state s).parent = some q → s ≠ d.size ∧ q ≠ d.size := fun h =>
    ⟨Nat.ne_of_lt (hd.lt_size_of_parent_eq h).2, Nat.ne_of_lt (hd.lt_size_of_parent_eq h).1⟩
  constructor
  · intro s q hq
    rw [Document.state_push] at hq
    split at hq
    · rw [hpar] at hq
      cases hq
      omega
    · exact hd.parent_lt hq
  · intro s
    rw [Document.state_push]
    split
    · rw [hpar, hanc]
      dsimp only
      rw [Document.state_push, if_neg (Nat.ne_of_lt hp)]
    · rw [hd.ancestors_eq s]
      split
      · rfl
      · rename_i q hq
        rw [Document.state_push, if_neg (hne hq).2]
  · intro s c hc
    rw [Document.state_push] at hc
    split at hc
    · rw [hch] at hc
      cases hc
    · have hcp := hd.parent_of_mem_children hc
      rw [Document.state_push, if_neg (hne hcp).1]
      exact hcp
  · intro s hs
    rw [isHistory_iff, Document.state_push] at hs
    rw [Document.state_push]
    split
    · simp [hpar]
    · rename_i hs'
      rw [if_neg hs'] at hs
      exact hd.parent_of_isHistory ((isHistory_iff d s).2 hs)

/-- Changing what a state holds beside its place, and adding children that name it, keeps the
states a tree. -/
theorem modify (hd : d.Nested) {s : Nat} {f : StateNode → StateNode}
    (hpar : (f (d.state s)).parent = (d.state s).parent)
    (hanc : (f (d.state s)).ancestors = (d.state s).ancestors)
    (hkind : ∀ k, (f (d.state s)).mode = .history k → (d.state s).mode = .history k)
    (hch : ∀ c ∈ (f (d.state s)).children, c ∈ (d.state s).children ∨ (d.state c).parent = some s) :
    (⟨d.states.modify s f, d.transitions, d.invokes⟩ : Document).Nested := by
  -- the parent and the ancestors of every state read the same after the change
  have hpar' : ∀ t, (Document.state ⟨d.states.modify s f, d.transitions, d.invokes⟩ t).parent =
      (d.state t).parent := fun t => by
    rw [Document.state_modify]
    split
    · rename_i h
      rw [h.1, hpar]
    · rfl
  have hanc' : ∀ t, (Document.state ⟨d.states.modify s f, d.transitions, d.invokes⟩ t).ancestors =
      (d.state t).ancestors := fun t => by
    rw [Document.state_modify]
    split
    · rename_i h
      rw [h.1, hanc]
    · rfl
  constructor
  · intro t q hq
    rw [hpar'] at hq
    exact hd.parent_lt hq
  · intro t
    rw [hanc', hpar', hd.ancestors_eq t]
    split
    · rfl
    · rw [hanc']
  · intro t c hc
    rw [hpar']
    rw [Document.state_modify] at hc
    split at hc
    · rename_i h
      obtain ⟨rfl, -⟩ := h
      rcases hch c hc with hc | hc
      · exact hd.parent_of_mem_children hc
      · exact hc
    · exact hd.parent_of_mem_children hc
  · intro t ht
    rw [hpar']
    rw [isHistory_iff, Document.state_modify] at ht
    split at ht
    · rename_i h
      obtain ⟨k, hk⟩ := ht
      obtain ⟨rfl, -⟩ := h
      exact hd.parent_of_isHistory ((isHistory_iff d t).2 ⟨k, hkind k hk⟩)
    · exact hd.parent_of_isHistory ((isHistory_iff d t).2 ht)

theorem of_states_eq {d' : Document} (hd : d.Nested) (h : d'.states = d.states) : d'.Nested := by
  have hs : ∀ t, d'.state t = d.state t := fun t => by simp [Document.state, h]
  have hh : ∀ t, d'.isHistory t = d.isHistory t := fun t => by
    simp [Document.isHistory, Document.historyKind?, hs]
  exact ⟨fun hq => hd.parent_lt (by rwa [← hs]), fun t => by simpa [hs] using hd.ancestors_eq t,
    fun hc => by rw [hs] at hc ⊢; exact hd.parent_of_mem_children hc,
    fun ht => by rw [hs]; exact hd.parent_of_isHistory (by rwa [← hh])⟩

/-! ### Levels

The level of a state is the number of its ancestors: the root and the states outside the document
are at level zero, and a state is one level below its parent. -/

theorem level_of_parent (hd : d.Nested) {s p : Nat} (h : (d.state s).parent = some p) :
    (d.state s).ancestors.length = (d.state p).ancestors.length + 1 := by
  rw [hd.ancestors_eq s, h]
  rfl

theorem parent_isSome_of_isDescendant (hd : d.Nested) {s a : Nat}
    (h : d.isDescendant s a = true) : (d.state s).parent.isSome := by
  simp only [Document.isDescendant, List.contains_iff_mem] at h
  rw [hd.ancestors_eq s] at h
  cases hp : (d.state s).parent with
  | none => simp [hp] at h
  | some p => rfl

theorem isDescendant_parent (hd : d.Nested) {s p u : Nat} (hp : (d.state s).parent = some p)
    (h : d.isDescendant s u = true) (hne : p ≠ u) : d.isDescendant p u = true := by
  simp only [Document.isDescendant, List.contains_iff_mem] at h ⊢
  rw [hd.ancestors_eq s, hp] at h
  exact (List.mem_cons.1 h).resolve_left fun h => hne h.symm

theorem level_le (hd : d.Nested) (s : Nat) : (d.state s).ancestors.length ≤ s := by
  induction s using Nat.strongRecOn with
  | ind s ih =>
    cases hp : (d.state s).parent with
    | none => simp [hd.ancestors_eq s, hp]
    | some p =>
      have hlt := hd.parent_lt hp
      rw [hd.level_of_parent hp]
      exact Nat.succ_le_of_lt (Nat.lt_of_le_of_lt (ih p hlt) hlt)

theorem level_lt_size (hd : d.Nested) {s p : Nat} (h : (d.state s).parent = some p) :
    (d.state s).ancestors.length < d.size :=
  Nat.lt_of_le_of_lt (hd.level_le s) (lt_size_of_parent h)

theorem level_lt_of_isDescendant (hd : d.Nested) {s a : Nat} (h : d.isDescendant s a = true) :
    (d.state a).ancestors.length < (d.state s).ancestors.length := by
  induction s using Nat.strongRecOn with
  | ind s ih =>
    simp only [Document.isDescendant, List.contains_iff_mem] at h
    rw [hd.ancestors_eq s] at h
    cases hp : (d.state s).parent with
    | none => simp [hp] at h
    | some p =>
      rw [hp] at h
      rw [hd.level_of_parent hp]
      rcases List.mem_cons.1 h with rfl | h
      · exact Nat.lt_succ_self _
      · have := ih p (hd.parent_lt hp) (by simpa [Document.isDescendant] using h)
        omega

/-- The ancestors of `t` up to `u`, for `t` below `u`, all lie below `u`. -/
theorem isDescendant_of_mem_properAncestors (hd : d.Nested) {t u a : Nat}
    (hu : d.isDescendant t u = true) (ha : a ∈ d.properAncestors t (some u)) :
    d.isDescendant a u = true := by
  unfold Document.properAncestors at ha
  dsimp only at ha
  by_cases hc : (u == t || (d.state t).parent == some u || d.isDescendant u t) = true
  · rw [if_pos hc] at ha
    cases ha
  · rw [if_neg hc] at ha
    clear hc
    -- walk up from `t`: every ancestor taken comes before `u` and so still has `u` above it
    generalize hq : (fun a => a != u && a != 0) = q at ha
    have hqu : ∀ x, q x = true → x ≠ u := by
      intro x hx hxu
      subst hq hxu
      simp at hx
    clear hq
    induction t using Nat.strongRecOn with
    | ind t ih =>
      simp only [Document.isDescendant, List.contains_iff_mem] at hu ⊢
      rw [hd.ancestors_eq t] at hu ha
      cases hp : (d.state t).parent with
      | none => simp [hp] at hu
      | some p =>
        rw [hp] at hu ha
        rw [List.takeWhile_cons] at ha
        split at ha
        · rename_i hqp
          have hup : u ∈ (d.state p).ancestors :=
            (List.mem_cons.1 hu).resolve_left fun h => hqu p hqp h.symm
          rcases List.mem_cons.1 ha with rfl | ha
          · exact hup
          · simpa [Document.isDescendant] using
              ih p (hd.parent_lt hp) (by simpa [Document.isDescendant] using hup) ha
        · cases ha

end Nested

theorem lt_size_of_initial {d : Document} {s i : Nat} (h : (d.state s).initial = some i) :
    s < d.size := by
  refine Nat.lt_of_not_le fun hs => ?_
  have hout : ¬ s < d.states.size := Nat.not_lt.2 hs
  simp [Document.state, Array.getD, hout] at h

theorem initial_below_of_problems {d : Document} (h : d.problems = []) {s i r : Nat}
    (hi : (d.state s).initial = some i) (hr : r ∈ (d.transition i).targets) :
    d.isDescendant r s = true := by
  have hs : s ∈ List.range d.size := List.mem_range.2 (lt_size_of_initial hi)
  unfold problems at h
  have hnil := List.flatMap_eq_nil_iff.1 h s hs
  simp only [hi, List.append_eq_nil_iff, List.filterMap_eq_nil_iff] at hnil
  have hr' := hnil.1.1 r hr
  split at hr'
  · assumption
  · cases hr'

end Document

namespace Lowering
variable {α β : Type}

/-- A step of compiling that, from `l`, keeps the states a tree and drops none of them. -/
def Grows (x : StateM Lowering α) (l : Lowering) : Prop :=
  l.document.Nested → (x.run l).2.document.Nested ∧ l.states.size ≤ (x.run l).2.states.size

theorem run_bind (x : StateM Lowering α) (f : α → StateM Lowering β) (l : Lowering) :
    (x >>= f).run l = (f (x.run l).1).run (x.run l).2 := rfl

namespace Grows

theorem of_states {x : StateM Lowering α} {l : Lowering} (h : (x.run l).2.states = l.states) :
    Grows x l := fun hn => ⟨hn.of_states_eq h, Nat.le_of_eq (congrArg Array.size h.symm)⟩

theorem pure (a : α) (l : Lowering) : Grows (Pure.pure a : StateM Lowering α) l := of_states rfl

theorem bind {x : StateM Lowering α} {f : α → StateM Lowering β} {l : Lowering} (hx : Grows x l)
    (hf : ∀ a l', x.run l = (a, l') → l.states.size ≤ l'.states.size → Grows (f a) l') :
    Grows (x >>= f) l := by
  intro hn
  obtain ⟨h₁, h₂⟩ := hx hn
  obtain ⟨h₃, h₄⟩ := hf _ _ rfl h₂ h₁
  rw [run_bind]
  exact ⟨h₃, Nat.le_trans h₂ h₄⟩

theorem keep_bind {x : StateM Lowering α} {f : α → StateM Lowering β} {l : Lowering}
    (hx : ∀ l, (x.run l).2.states = l.states) (hf : ∀ a l', l'.states = l.states → Grows (f a) l') :
    Grows (x >>= f) l :=
  bind (of_states (hx l)) fun _ _ h _ => hf _ _ (by rw [← hx l, h])

theorem get_bind {f : Lowering → StateM Lowering β} {l : Lowering} (h : Grows (f l) l) :
    Grows (get >>= f) l := h

theorem forM {as : List β} {f : β → StateM Lowering PUnit} (h : ∀ a ∈ as, ∀ l, Grows (f a) l)
    (l : Lowering) : Grows (as.forM f) l := by
  induction as generalizing l with
  | nil => exact pure _ l
  | cons a as ih =>
    exact bind (h a (List.mem_cons_self ..) l) fun _ _ _ _ =>
      ih (fun b hb => h b (List.mem_cons_of_mem _ hb)) _

theorem modifyNode {s : Nat} {f : StateNode → StateNode} {l : Lowering}
    (hpar : (f (l.document.state s)).parent = (l.document.state s).parent)
    (hanc : (f (l.document.state s)).ancestors = (l.document.state s).ancestors)
    (hkind : ∀ k, (f (l.document.state s)).mode = .history k → (l.document.state s).mode = .history k)
    (hch : ∀ c ∈ (f (l.document.state s)).children,
      c ∈ (l.document.state s).children ∨ (l.document.state c).parent = some s) :
    Grows (Lowering.modifyNode s f) l := fun hn =>
  ⟨hn.modify hpar hanc hkind hch, Nat.le_of_eq (Array.size_modify ..).symm⟩

theorem push {n : StateNode} {p : Nat} {l : Lowering} (hp : p < l.states.size)
    (hpar : n.parent = some p) (hanc : n.ancestors = p :: (l.document.state p).ancestors)
    (hch : n.children = []) :
    Grows (modify fun l : Lowering => { l with states := l.states.push n }) l := fun hn =>
  ⟨hn.push hp hpar hanc hch, show l.states.size ≤ (l.states.push n).size by simp⟩

theorem check {jp : Unit → StateM Lowering β} {l : Lowering} {c₁ c₂ : Prop} [Decidable c₁]
    [Decidable c₂] {i₁ i₂ : Issue} (hjp : ∀ l', l'.states = l.states → Grows (jp ()) l') :
    Grows (if c₁ then report i₁ >>= jp else if c₂ then report i₂ >>= jp else jp ()) l := by
  split
  · exact keep_bind (fun _ => rfl) fun _ => hjp
  · split
    · exact keep_bind (fun _ => rfl) fun _ => hjp
    · exact hjp _ rfl

end Grows

theorem lowerTransition_grows (source : Nat) (t : TransitionSchema) (l : Lowering) :
    Grows (lowerTransition source t) l := by
  unfold lowerTransition
  refine Grows.keep_bind (fun _ => rfl) fun _ _ _ => Grows.get_bind ?_
  refine Grows.bind (Grows.of_states rfl) fun _ _ _ _ => ?_
  exact Grows.modifyNode rfl rfl (fun _ h => h) fun _ h => .inl h

theorem lowerInvoke_grows (state : Nat) (i : InvokeSchema) (l : Lowering) :
    Grows (lowerInvoke state i) l := by
  unfold lowerInvoke
  refine Grows.keep_bind (fun _ => rfl) fun _ _ _ => Grows.get_bind ?_
  refine Grows.bind (Grows.of_states rfl) fun _ _ _ _ => ?_
  exact Grows.modifyNode rfl rfl (fun _ h => h) fun _ h => .inl h

theorem finishChildren_grows (parent : Nat) (explicit : List String) (marked : Option Nat)
    (l : Lowering) : Grows (finishChildren parent explicit marked) l := by
  unfold finishChildren
  refine Grows.get_bind (Grows.bind (Grows.modifyNode rfl rfl ?_ fun _ h => .inl h) fun _ _ _ _ => ?_)
  · intro k hk
    dsimp only at hk
    split at hk
    · cases hk
    · exact hk
  · refine Grows.of_states ?_
    dsimp only
    repeat' split
    all_goals rfl

mutual

theorem lowerState_grows (parent : Nat) :
    ∀ (sch : StateSchema) (l : Lowering), parent < l.states.size → Grows (lowerState parent sch) l
  | ⟨sid, kind, im, initialTargets, initialContent, children, transitions, invokes, onEntry, onExit,
      doneData⟩, l, hp => by
    rw [lowerState]
    refine Grows.keep_bind (fun _ => rfl) fun _ l₀ hl₀ => Grows.get_bind ?_
    lift_lets
    intro new node mode
    refine Grows.check fun l₁ hl₁ => ?_
    dsimp -zeta only
    -- the new state, below its parent
    refine Grows.bind (Grows.push (p := parent) (by rw [hl₁, hl₀]; exact hp) rfl ?_ rfl)
      fun _ l₂ h₂ _ => ?_
    · show parent :: node.ancestors = parent :: (l₁.states.getD parent default).ancestors
      rw [hl₁]
    have hs₂ : l₂.states = l₁.states.push _ := (congrArg (·.2.states) h₂).symm
    have hid : new < l₂.states.size := by
      rw [hs₂, Array.size_push, hl₁]
      exact Nat.lt_succ_self _
    have hlink : (l₂.document.state new).parent = some parent := by
      show (l₂.states.getD new default).parent = some parent
      rw [hs₂, Array.getD_eq_getD_getElem?, Array.getElem?_push, if_pos (by rw [hl₁])]
      rfl
    -- its parent lists it, as a child or as a history pseudo-state
    simp only [mode]
    split <;> refine Grows.bind (Grows.modifyNode rfl rfl (fun _ h => h) (by
      first
      | exact fun _ h => .inl h
      | exact fun c hc => (List.mem_append.1 hc).imp (fun h => h) fun hc => by
          rw [List.mem_singleton.1 hc]
          exact hlink)) fun _ l₃ _ hs₃ => ?_
    all_goals
      refine Grows.bind (Grows.forM (fun t _ => lowerTransition_grows new t) _) fun _ l₄ _ hs₄ => ?_
      refine Grows.bind (Grows.forM (fun i _ => lowerInvoke_grows new i) _) fun _ l₅ _ hs₅ => ?_
      split
      · exact Grows.check fun _ _ => Grows.pure _ _
      · exact Grows.check fun _ _ => Grows.pure _ _
      · refine Grows.bind (lowerEach_grows new children l₅ (by omega)) fun _ l₆ _ _ => ?_
        refine Grows.bind (finishChildren_grows _ _ _ l₆) fun _ l₇ _ _ => ?_
        split
        · exact Grows.keep_bind (fun _ => rfl) fun _ _ _ => Grows.pure _ _
        · exact Grows.pure _ _

theorem lowerEach_grows (parent : Nat) :
    ∀ (cs : List StateSchema) (l : Lowering), parent < l.states.size → Grows (lowerEach parent cs) l
  | [], l, _ => Grows.pure _ l
  | c :: cs, l, hp => by
    rw [lowerEach]
    refine Grows.bind (lowerState_grows parent c l hp) fun _ l' _ hs => ?_
    refine Grows.bind (lowerEach_grows parent cs l' (Nat.lt_of_lt_of_le hp hs)) fun _ _ _ _ => ?_
    exact Grows.pure _ _

end

theorem resolve_grows (issue : String → Issue) (names : List String) (l : Lowering) :
    Grows (resolve issue names) l := by
  induction names generalizing l with
  | nil => exact Grows.pure _ l
  | cons name names ih =>
    unfold resolve
    rw [List.filterMapM_cons]
    refine Grows.bind (Grows.get_bind ?_) fun r l' _ _ => ?_
    · split
      · exact Grows.pure _ _
      · exact Grows.keep_bind (fun _ => rfl) fun _ _ _ => Grows.pure _ _
    · split
      · exact ih l'
      · exact Grows.bind (ih l') fun _ _ _ _ => Grows.pure _ _

theorem pushSynthetic_grows (source : Nat) (targets : List Nat) (content : List Command)
    (l : Lowering) : Grows (pushSynthetic source targets content) l :=
  Grows.keep_bind (fun _ => rfl) fun _ _ _ => Grows.of_states rfl

/-- Resolving targets and adding default transitions keeps the states a tree. -/
theorem finish_grows (l : Lowering) : Grows finish l := by
  unfold finish
  refine Grows.get_bind (Grows.bind (Grows.forM (fun _ _ l => ?_) _) fun _ l₁ _ _ => ?_)
  · refine Grows.get_bind (Grows.get_bind ?_)
    exact Grows.bind (resolve_grows _ _ _) fun _ _ _ _ => Grows.of_states rfl
  · refine Grows.bind (Grows.forM (fun _ _ l => ?_) _) fun _ l₂ _ _ => Grows.get_bind ?_
    · lift_lets
      intro jp
      have hjp : ∀ ts l', Grows (jp ts) l' := fun ts l' =>
        Grows.bind (pushSynthetic_grows _ _ _ l') fun _ _ _ _ =>
          Grows.modifyNode rfl rfl (fun _ h => h) fun _ h => .inl h
      split
      · exact Grows.bind (Grows.pure _ _) fun _ _ _ _ => hjp _ _
      · exact Grows.get_bind (Grows.bind (resolve_grows _ _ _) fun _ _ _ _ => hjp _ _)
    · exact Grows.forM (fun _ _ l => Grows.get_bind (Grows.bind (pushSynthetic_grows _ _ _ l)
        fun _ _ _ _ => Grows.modifyNode rfl rfl (fun _ h => h) fun _ h => .inl h)) _

/-- The arena before anything is compiled holds the root alone. -/
theorem nested_empty : ({} : Lowering).document.Nested := by
  have hstate : ∀ s, ({} : Lowering).document.state s =
      if s = 0 then { id := Document.rootId, mode := .atomic, order := 0, depth := -1 }
      else default := fun s => by
    simp only [Lowering.document, Document.state, Array.getD_eq_getD_getElem?]
    cases s <;> simp
  constructor
  · intro s p h
    rw [hstate] at h
    split at h <;> cases h
  · intro s
    rw [hstate]
    split <;> rfl
  · intro s c h
    rw [hstate] at h
    split at h <;> cases h
  · intro s h
    rw [Document.isHistory_iff, hstate] at h
    split at h <;> obtain ⟨_, h⟩ := h <;> cases h

end Lowering

namespace DocumentSchema

private theorem grows_of_build {ds : DocumentSchema} {d : Document} (h : ds.build = .ok d) :
    d.Nested ∧ ({} : Lowering).states.size ≤ d.size := by
  unfold build at h
  dsimp only at h
  split at h
  · cases h
    refine Lowering.Grows.bind (Lowering.lowerEach_grows 0 ds.states {} (by decide)) ?_
      Lowering.nested_empty
    intro _ l₁ _ _
    refine Lowering.Grows.bind (Lowering.finishChildren_grows _ _ _ l₁) fun _ l₂ _ _ => ?_
    split
    · exact Lowering.Grows.keep_bind (fun _ => rfl) fun _ _ _ => Lowering.finish_grows _
    · exact Lowering.finish_grows _
  · cases h

theorem nested_of_build {ds : DocumentSchema} {d : Document} (h : ds.build = .ok d) : d.Nested :=
  (grows_of_build h).1

theorem size_pos_of_build {ds : DocumentSchema} {d : Document} (h : ds.build = .ok d) :
    0 < d.size :=
  (grows_of_build h).2

theorem initial_below_of_build {ds : DocumentSchema} {d : Document} (h : ds.build = .ok d)
    {s i r : Nat} (hi : (d.state s).initial = some i) (hr : r ∈ (d.transition i).targets) :
    d.isDescendant r s = true := by
  unfold build at h
  dsimp only at h
  split at h
  · rename_i hnil
    cases h
    exact Document.initial_below_of_problems (List.append_eq_nil_iff.1 hnil).2 hi hr
  · cases h

end DocumentSchema

end Hsm
