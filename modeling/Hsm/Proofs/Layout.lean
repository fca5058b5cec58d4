import Hsm.Proofs.Arena
/-!
# The layout of a document under construction

Compiling walks the description in pre-order; `Document.Laid C d` is what holds of the states at
every step with open chain `C`. Adding, opening and closing a state keep it (`Laid.enter`,
`Laid.open`, `Laid.close`); closing is where descendants are computed.
-/

namespace Hsm

/-- What the layout of a document reads of a state. -/
structure StateLayout where
  id : String
  mode : StateMode
  depth : Int
  parent : Option Nat
  ancestors : List Nat
  descendants : List Nat
  children : List Nat
  history : List Nat

def StateNode.layout (n : StateNode) : StateLayout :=
  ⟨n.id, n.mode, n.depth, n.parent, n.ancestors, n.descendants, n.children, n.history⟩

/-- List `c` among the history pseudo-states of a state when `history` holds, among its children
otherwise. -/
def StateNode.adopt (history : Bool) (c : Nat) (m : StateNode) : StateNode :=
  if history then { m with history := m.history ++ [c] } else { m with children := m.children ++ [c] }

def StateMode.isHistory : StateMode → Bool
  | .history _ => true
  | _ => false

namespace StateNode
variable (h : Bool) (c : Nat) (m : StateNode)

@[simp] theorem adopt_id : (m.adopt h c).id = m.id := by cases h <;> rfl
@[simp] theorem adopt_mode : (m.adopt h c).mode = m.mode := by cases h <;> rfl
@[simp] theorem adopt_depth : (m.adopt h c).depth = m.depth := by cases h <;> rfl
@[simp] theorem adopt_parent : (m.adopt h c).parent = m.parent := by cases h <;> rfl
@[simp] theorem adopt_ancestors : (m.adopt h c).ancestors = m.ancestors := by cases h <;> rfl
@[simp] theorem adopt_descendants : (m.adopt h c).descendants = m.descendants := by
  cases h <;> rfl
@[simp] theorem adopt_initial : (m.adopt h c).initial = m.initial := by cases h <;> rfl
@[simp] theorem adopt_order : (m.adopt h c).order = m.order := by cases h <;> rfl
@[simp] theorem adopt_children :
    (m.adopt h c).children = if h then m.children else m.children ++ [c] := by cases h <;> rfl
@[simp] theorem adopt_history :
    (m.adopt h c).history = if h then m.history ++ [c] else m.history := by cases h <;> rfl

end StateNode

namespace Place

theorem entryCmp_swap (a b : Place) : b.entryCmp a = (a.entryCmp b).swap := by
  simp only [entryCmp, Ordering.swap_then]
  rw [← Std.OrientedCmp.eq_swap, ← Std.OrientedCmp.eq_swap]

theorem entryCmp_eq_eq {a b : Place} : a.entryCmp b = .eq ↔ a = b := by
  obtain ⟨d₁, o₁⟩ := a
  obtain ⟨d₂, o₂⟩ := b
  simp [entryCmp, Ordering.then_eq_eq]

theorem entryCmp_trans {a b c : Place} (hab : (a.entryCmp b != .gt) = true)
    (hbc : (b.entryCmp c != .gt) = true) : (a.entryCmp c != .gt) = true := by
  obtain ⟨d₁, o₁⟩ := a
  obtain ⟨d₂, o₂⟩ := b
  obtain ⟨d₃, o₃⟩ := c
  simp only [entryCmp, bne_iff_ne, ne_eq, Ordering.then_eq_gt] at *
  simp only [Nat.compare_eq_gt, Int.compare_eq_gt, Int.compare_eq_eq] at *
  omega

theorem entryCmp_total (a b : Place) : (a.entryCmp b != .gt || b.entryCmp a != .gt) = true := by
  obtain ⟨d₁, o₁⟩ := a
  obtain ⟨d₂, o₂⟩ := b
  simp only [entryCmp, bne_iff_ne, ne_eq, Ordering.then_eq_gt, Bool.or_eq_true]
  simp only [Nat.compare_eq_gt, Int.compare_eq_gt, Int.compare_eq_eq]
  omega

theorem exitCmp_eq (a b : Place) : a.exitCmp b = b.entryCmp a := by
  rw [exitCmp, entryCmp_swap a b]

end Place

namespace Document
variable {d : Document}

theorem pairwise_sortBy_exitCmp (xs : List Nat) :
    (sortBy d.exitCmp xs).Pairwise fun a b => (d.exitCmp a b != .gt) = true := by
  refine List.pairwise_mergeSort (fun a b c hab hbc => ?_) (fun a b => ?_) xs
  · simp only [exitCmp, Place.exitCmp_eq] at hab hbc ⊢
    exact Place.entryCmp_trans hbc hab
  · simp only [exitCmp, Place.exitCmp_eq]
    exact Place.entryCmp_total (d.place b) (d.place a)

/-- Sorting states by exit order lists them in the reverse of entry order, when no two of them
share a place. -/
theorem sortBy_exitCmp_eq_reverse {xs : List Nat}
    (hinj : ∀ a ∈ xs, ∀ b ∈ xs, d.place a = d.place b → a = b) :
    sortBy d.exitCmp xs = (sortBy d.entryCmp xs).reverse := by
  -- both sides are sorted for the exit comparison and are permutations of `xs`
  have hexit := pairwise_sortBy_exitCmp (d := d) xs
  unfold sortBy at hexit ⊢
  have hentry : (xs.mergeSort fun a b => d.entryCmp a b != .gt).Pairwise
      fun a b => (d.entryCmp a b != .gt) = true := by
    refine List.pairwise_mergeSort (fun a b c hab hbc => ?_) (fun a b => ?_) xs
    · simp only [entryCmp] at hab hbc ⊢
      exact Place.entryCmp_trans hab hbc
    · exact Place.entryCmp_total (d.place a) (d.place b)
  refine List.Perm.eq_of_pairwise
    (fun a b ha hb (hab : (d.exitCmp a b != .gt) = true) hba => ?_) hexit ?_ ?_
  · simp only [exitCmp, Place.exitCmp_eq] at hab hba
    have heq : (d.place a).entryCmp (d.place b) = .eq := by
      rw [Place.entryCmp_swap (d.place a) (d.place b)] at hab
      revert hab hba
      cases (d.place a).entryCmp (d.place b) <;> simp
    exact hinj a (List.mem_mergeSort.1 ha) b
      (List.mem_mergeSort.1 (List.mem_reverse.1 hb)) (Place.entryCmp_eq_eq.1 heq)
  · rw [List.pairwise_reverse]
    refine hentry.imp fun {a b} h => ?_
    simp only [exitCmp, Place.exitCmp_eq]
    exact h
  · exact (List.mergeSort_perm _ _).trans ((List.mergeSort_perm _ _).symm.trans
      (List.reverse_perm _).symm)

def statesBelow (d : Document) (s : Nat) : List Nat :=
  (List.range d.size).filter fun c => d.isDescendant c s && !d.isHistory c

/-- The states whose parent is `s`, history pseudo-states when `history` holds and the others
when it does not, in index order. -/
def withParent (d : Document) (s : Nat) (history : Bool) : List Nat :=
  (List.range d.size).filter fun c => (d.state c).parent == some s && d.isHistory c == history

theorem mem_statesBelow {s c : Nat} :
    c ∈ d.statesBelow s ↔ c < d.size ∧ d.isDescendant c s = true ∧ d.isHistory c = false := by
  simp [statesBelow]

theorem mem_withParent {s c : Nat} {history : Bool} :
    c ∈ d.withParent s history ↔
      c < d.size ∧ (d.state c).parent = some s ∧ d.isHistory c = history := by
  simp [withParent]

theorem pairwise_statesBelow (s : Nat) : (d.statesBelow s).Pairwise (· < ·) :=
  List.pairwise_lt_range.filter _

/-- The children and the history pseudo-states of each state are the states that name it as
their parent, split by kind, in index order. -/
structure Partitioned (d : Document) : Prop where
  children_eq : ∀ s, (d.state s).children = d.withParent s false
  history_eq : ∀ s, (d.state s).history = d.withParent s true

/-- The states below a state occupy consecutive indices: whatever comes between a state and one
below it lies below it too. -/
def Convex (d : Document) : Prop :=
  ∀ {a b c : Nat}, a < b → b < c → c < d.size → d.isDescendant c a = true →
    d.isDescendant b a = true

/-- A state whose children are all in place: its descendants are the states below it, and it is
compound exactly when it is not atomic and has children. -/
structure Closed (d : Document) (s : Nat) : Prop where
  descendants_eq : (d.state s).descendants = d.statesBelow s
  atomic : (d.state s).mode = .atomic → (d.state s).children = []
  compound : (d.state s).mode = .compound → (d.state s).children ≠ []

namespace Nested

theorem lt_of_isDescendant (hd : d.Nested) {c a : Nat} (h : d.isDescendant c a = true) :
    a < c := by
  induction c using Nat.strongRecOn with
  | ind c ih =>
    obtain ⟨p, hp⟩ := Option.isSome_iff_exists.1 (hd.parent_isSome_of_isDescendant h)
    by_cases hpa : p = a
    · subst hpa
      exact hd.parent_lt hp
    · exact Nat.lt_trans (ih p (hd.parent_lt hp) (hd.isDescendant_parent hp h hpa))
        (hd.parent_lt hp)

theorem isDescendant_of_parent (hd : d.Nested) {c p : Nat} (h : (d.state c).parent = some p) :
    d.isDescendant c p = true := by
  simp only [isDescendant, List.contains_iff_mem]
  rw [hd.ancestors_eq c, h]
  exact List.mem_cons_self

end Nested

/-- In a tree whose children are listed by parent, whose subtrees occupy consecutive indices and
whose history pseudo-states have nothing below them, the states below `s` are its children in
order, each followed by the states below it. -/
theorem flatMap_children_eq_statesBelow (hd : d.Nested) (hp : d.Partitioned) (hv : d.Convex)
    (hh : ∀ {c p}, (d.state c).parent = some p → d.isHistory p = false) {s : Nat}
    (hc : ∀ c ∈ (d.state s).children, (d.state c).descendants = d.statesBelow c) :
    (d.state s).children.flatMap (fun c => c :: (d.state c).descendants) = d.statesBelow s := by
  have hch : ∀ {c}, c ∈ (d.state s).children ↔
      c < d.size ∧ (d.state c).parent = some s ∧ d.isHistory c = false := by
    intro c
    rw [hp.children_eq]
    exact mem_withParent
  -- a child is not below another child
  have hsib : ∀ {c₁ c₂}, c₁ ∈ (d.state s).children → c₂ ∈ (d.state s).children →
      d.isDescendant c₂ c₁ = false := by
    intro c₁ c₂ h₁ h₂
    cases h : d.isDescendant c₂ c₁
    · rfl
    · have hpar₂ := (hch.1 h₂).2.1
      have hup : d.isDescendant s c₁ = true := by
        refine hd.isDescendant_parent hpar₂ h fun hs => ?_
        subst hs
        exact absurd (hd.parent_lt (hch.1 h₁).2.1) (Nat.lt_irrefl _)
      have hdown := hd.isDescendant_of_parent (hch.1 h₁).2.1
      rw [hd.not_isDescendant_of_isDescendant hup] at hdown
      cases hdown
  have hmem : ∀ {c x}, c ∈ (d.state s).children → x ∈ c :: (d.state c).descendants →
      x = c ∨ x ∈ d.statesBelow c := by
    intro c x hc' hx
    rw [hc c hc'] at hx
    exact List.mem_cons.1 hx
  refine List.Pairwise.eq_of_mem_iff (r := (· < ·)) ?_ (pairwise_statesBelow s) fun x => ?_
  · -- sorted: each child precedes what lies below it, and a later child follows all of it
    refine List.pairwise_flatMap.2 ⟨fun c hc' => ?_, ?_⟩
    · rw [hc c hc', List.pairwise_cons]
      exact ⟨fun x hx => hd.lt_of_isDescendant (mem_statesBelow.1 hx).2.1, pairwise_statesBelow c⟩
    · rw [hp.children_eq]
      refine (List.pairwise_lt_range.filter _).imp_of_mem fun {c₁ c₂} h₁ h₂ hlt x hx y hy => ?_
      rw [← hp.children_eq] at h₁ h₂
      have hx_lt : x < c₂ := by
        rcases hmem h₁ hx with rfl | hx
        · exact hlt
        · refine Nat.lt_of_not_le fun hle => ?_
          rcases Nat.lt_or_eq_of_le hle with hlt' | rfl
          · have := hv hlt hlt' (mem_statesBelow.1 hx).1 (mem_statesBelow.1 hx).2.1
            rw [hsib h₁ h₂] at this
            cases this
          · have hbelow := (mem_statesBelow.1 hx).2.1
            rw [hsib h₁ h₂] at hbelow
            cases hbelow
      rcases hmem h₂ hy with rfl | hy
      · exact hx_lt
      · exact Nat.lt_trans hx_lt (hd.lt_of_isDescendant (mem_statesBelow.1 hy).2.1)
  · constructor
    · intro hx
      obtain ⟨c, hc', hx⟩ := List.mem_flatMap.1 hx
      obtain ⟨hcl, hcp, hch'⟩ := hch.1 hc'
      rcases hmem hc' hx with rfl | hx
      · exact mem_statesBelow.2 ⟨hcl, hd.isDescendant_of_parent hcp, hch'⟩
      · obtain ⟨hxl, hxc, hxh⟩ := mem_statesBelow.1 hx
        exact mem_statesBelow.2 ⟨hxl, hd.isDescendant_trans hxc (hd.isDescendant_of_parent hcp), hxh⟩
    · -- walk up from `x` to the child of `s` it lies in
      intro hx
      induction x using Nat.strongRecOn with
      | ind x ih =>
        obtain ⟨hxl, hxs, hxh⟩ := mem_statesBelow.1 hx
        obtain ⟨q, hq⟩ := Option.isSome_iff_exists.1 (hd.parent_isSome_of_isDescendant hxs)
        by_cases hqs : q = s
        · subst hqs
          exact List.mem_flatMap.2 ⟨x, hch.2 ⟨hxl, hq, hxh⟩, List.mem_cons_self⟩
        · have hqb : q ∈ d.statesBelow s := mem_statesBelow.2 ⟨Nat.lt_trans (hd.parent_lt hq) hxl,
            hd.isDescendant_parent hq hxs hqs, hh hq⟩
          obtain ⟨c, hc', hqc⟩ := List.mem_flatMap.1 (ih q (hd.parent_lt hq) hqb)
          have hxc : d.isDescendant x c = true := by
            rcases hmem hc' hqc with rfl | hqc
            · exact hd.isDescendant_of_parent hq
            · exact hd.isDescendant_trans (hd.isDescendant_of_parent hq) (mem_statesBelow.1 hqc).2.1
          refine List.mem_flatMap.2 ⟨c, hc', ?_⟩
          rw [hc c hc']
          exact List.mem_cons_of_mem _ (mem_statesBelow.2 ⟨hxl, hxc, hxh⟩)

/-- The layout of a document being compiled while the states `C`, nearest first, are open. -/
structure Laid (C : List Nat) (d : Document) : Prop where
  nested : d.Nested
  size_pos : 0 < d.size
  root_id : (d.state 0).id = rootId
  root_depth : (d.state 0).depth = -1
  root_parent : (d.state 0).parent = none
  parent_isSome : ∀ {s}, 0 < s → s < d.size → (d.state s).parent.isSome
  depth_eq : ∀ {s p}, (d.state s).parent = some p → (d.state s).depth = (d.state p).depth + 1
  partitioned : d.Partitioned
  convex : d.Convex
  parent_not_history : ∀ {c p}, (d.state c).parent = some p → d.isHistory p = false
  /-- The open states are the nearest one and its ancestors. -/
  chain_eq : ∀ {h R}, C = h :: R → h < d.size ∧ R = (d.state h).ancestors
  open_mode : ∀ {a}, a ∈ C → (d.state a).mode = .atomic ∨ (d.state a).mode = .parallel
  /-- Every state added after an open state lies below it. -/
  tail : ∀ {a b}, a ∈ C → a < b → b < d.size → d.isDescendant b a = true
  closed : ∀ {s}, s < d.size → s ∉ C → d.Closed s

namespace Laid
variable {C R : List Nat} {p : Nat}

theorem lt_size_of_mem (hl : d.Laid C) {a : Nat} (ha : a ∈ C) : a < d.size := by
  obtain ⟨h, R, rfl⟩ := List.exists_cons_of_ne_nil (List.ne_nil_of_mem ha)
  obtain ⟨hh, hR⟩ := hl.chain_eq rfl
  rcases List.mem_cons.1 ha with rfl | ha
  · exact hh
  · rw [hR] at ha
    have hlt := hl.nested.lt_of_isDescendant (a := a) (c := h) (by simpa [isDescendant] using ha)
    exact Nat.lt_trans hlt hh

/-- A document whose states read the same to its layout, in the same number, is laid out the
same way. -/
theorem of_layout {d' : Document} (hl : d.Laid C) (hsize : d'.size = d.size)
    (hst : ∀ s, (d'.state s).layout = (d.state s).layout) : d'.Laid C := by
  have hid : ∀ s, (d'.state s).id = (d.state s).id := fun s => congrArg StateLayout.id (hst s)
  have hmode : ∀ s, (d'.state s).mode = (d.state s).mode := fun s =>
    congrArg StateLayout.mode (hst s)
  have hdepth : ∀ s, (d'.state s).depth = (d.state s).depth := fun s =>
    congrArg StateLayout.depth (hst s)
  have hpar : ∀ s, (d'.state s).parent = (d.state s).parent := fun s =>
    congrArg StateLayout.parent (hst s)
  have hanc : ∀ s, (d'.state s).ancestors = (d.state s).ancestors := fun s =>
    congrArg StateLayout.ancestors (hst s)
  have hdesc : ∀ s, (d'.state s).descendants = (d.state s).descendants := fun s =>
    congrArg StateLayout.descendants (hst s)
  have hch : ∀ s, (d'.state s).children = (d.state s).children := fun s =>
    congrArg StateLayout.children (hst s)
  have hhist : ∀ s, (d'.state s).history = (d.state s).history := fun s =>
    congrArg StateLayout.history (hst s)
  have hisHist : ∀ s, d'.isHistory s = d.isHistory s := fun s => by
    simp [isHistory, historyKind?, hmode]
  have hisDesc : ∀ a b, d'.isDescendant a b = d.isDescendant a b := fun a b => by
    simp [isDescendant, hanc]
  have hbelow : ∀ s, d'.statesBelow s = d.statesBelow s := fun s => by
    simp only [statesBelow, hsize, hisDesc, hisHist]
  have hwith : ∀ s h, d'.withParent s h = d.withParent s h := fun s h => by
    simp only [withParent, hsize, hpar, hisHist]
  have hnested : d'.Nested := by
    refine ⟨fun h => hl.nested.parent_lt (by rwa [← hpar]), fun s => ?_, fun h => ?_, fun h => ?_⟩
    · rw [hanc, hpar, hl.nested.ancestors_eq s]
      cases (d.state s).parent <;> simp [hanc]
    · rw [hpar]
      rw [hch] at h
      exact hl.nested.parent_of_mem_children h
    · rw [hpar]
      rw [hisHist] at h
      exact hl.nested.parent_of_isHistory h
  refine ⟨hnested, hsize ▸ hl.size_pos, (hid 0).trans hl.root_id, (hdepth 0).trans hl.root_depth,
    (hpar 0).trans hl.root_parent, fun h₀ hs => ?_, fun h => ?_, ⟨fun s => ?_, fun s => ?_⟩,
    fun hab hbc hc h => ?_, fun h => ?_, fun h => ?_, fun ha => ?_, fun ha hab hb => ?_,
    fun hs hC => ?_⟩
  · rw [hpar]
    exact hl.parent_isSome h₀ (hsize ▸ hs)
  · rw [hdepth, hdepth]
    exact hl.depth_eq (by rwa [← hpar])
  · rw [hch, hwith]
    exact hl.partitioned.children_eq s
  · rw [hhist, hwith]
    exact hl.partitioned.history_eq s
  · rw [hisDesc] at h ⊢
    exact hl.convex hab hbc (hsize ▸ hc) h
  · rw [hisHist]
    exact hl.parent_not_history (by rwa [← hpar])
  · rw [hsize, hanc]
    exact hl.chain_eq h
  · rw [hmode]
    exact hl.open_mode ha
  · rw [hisDesc]
    exact hl.tail ha hab (hsize ▸ hb)
  · have hc := hl.closed (hsize ▸ hs) hC
    exact ⟨by rw [hdesc, hbelow]; exact hc.1, by rw [hmode, hch]; exact hc.2,
      by rw [hmode, hch]; exact hc.3⟩

end Laid

theorem state_enter (d : Document) (n : StateNode) {p : Nat} (f : StateNode → StateNode)
    (hp : p < d.size) (s : Nat) :
    (⟨(d.states.push n).modify p f, d.transitions, d.invokes⟩ : Document).state s =
      if s = d.size then n else if s = p then f (d.state p) else d.state s := by
  have h := Document.state_modify ⟨d.states.push n, d.transitions, d.invokes⟩ p f s
  have hsz : (⟨d.states.push n, d.transitions, d.invokes⟩ : Document).size = d.size + 1 := by
    simp [Document.size]
  rw [hsz] at h
  rw [h, Document.state_push, Document.state_push, if_neg (Nat.ne_of_lt hp)]
  by_cases hs : s = d.size
  · rw [if_neg fun h => Nat.ne_of_gt hp (hs ▸ h.1), if_pos hs, if_pos hs]
  · by_cases hsp : s = p
    · rw [if_pos ⟨hsp, Nat.lt_succ_of_lt hp⟩, if_neg hs, if_pos hsp]
    · rw [if_neg fun h => hsp h.1, if_neg hs, if_neg hs, if_neg hsp]

theorem isHistory_eq_mode (d : Document) (s : Nat) :
    d.isHistory s = (d.state s).mode.isHistory := by
  simp only [isHistory, historyKind?]
  cases (d.state s).mode <;> rfl

def enter (d : Document) (n : StateNode) (p : Nat) : Document :=
  ⟨(d.states.push n).modify p (StateNode.adopt n.mode.isHistory d.size), d.transitions, d.invokes⟩

section Enter
variable {n : StateNode} {p : Nat}

theorem size_enter : (d.enter n p).size = d.size + 1 := by
  simp [enter, Document.size]

theorem state_enter_new (hp : p < d.size) : (d.enter n p).state d.size = n := by
  rw [enter, state_enter d n _ hp, if_pos rfl]

theorem state_enter_old (hp : p < d.size) {s : Nat} (hs : s ≠ d.size) :
    (d.enter n p).state s = if s = p then (d.state p).adopt n.mode.isHistory d.size else d.state s := by
  rw [enter, state_enter d n _ hp, if_neg hs]

theorem layout_enter_old (hp : p < d.size) {s : Nat} (hs : s ≠ d.size) :
    ((d.enter n p).state s).mode = (d.state s).mode ∧
      ((d.enter n p).state s).parent = (d.state s).parent ∧
      ((d.enter n p).state s).ancestors = (d.state s).ancestors ∧
      ((d.enter n p).state s).depth = (d.state s).depth ∧
      ((d.enter n p).state s).id = (d.state s).id ∧
      ((d.enter n p).state s).descendants = (d.state s).descendants := by
  rw [state_enter_old hp hs]
  split
  · rename_i h
    subst h
    simp
  · simp

theorem isDescendant_enter_old (hp : p < d.size) {a : Nat} (ha : a ≠ d.size) (b : Nat) :
    (d.enter n p).isDescendant a b = d.isDescendant a b := by
  simp only [isDescendant, (layout_enter_old hp ha).2.2.1]

theorem isHistory_enter_old (hp : p < d.size) {s : Nat} (hs : s ≠ d.size) :
    (d.enter n p).isHistory s = d.isHistory s := by
  rw [isHistory_eq_mode, isHistory_eq_mode, (layout_enter_old hp hs).1]

theorem isHistory_enter_new (hp : p < d.size) :
    (d.enter n p).isHistory d.size = n.mode.isHistory := by
  rw [isHistory_eq_mode, state_enter_new hp]

theorem filter_range_enter (q : Document → Nat → Bool)
    (hq : ∀ c, c < d.size → q (d.enter n p) c = q d c) :
    (List.range (d.enter n p).size).filter (q (d.enter n p)) =
      (List.range d.size).filter (q d) ++ (if q (d.enter n p) d.size then [d.size] else []) := by
  rw [size_enter, List.range_succ, List.filter_append,
    List.filter_congr fun c hc => hq c (List.mem_range.1 hc), List.filter_cons, List.filter_nil]

theorem statesBelow_enter (hp : p < d.size) (s : Nat) :
    (d.enter n p).statesBelow s = d.statesBelow s ++
      (if (d.enter n p).isDescendant d.size s && !n.mode.isHistory then [d.size] else []) := by
  have h := filter_range_enter (n := n) (p := p) (fun e c => e.isDescendant c s && !e.isHistory c)
    fun c hc => by
      rw [isDescendant_enter_old hp (Nat.ne_of_lt hc), isHistory_enter_old hp (Nat.ne_of_lt hc)]
  rw [isHistory_enter_new hp] at h
  exact h

theorem withParent_enter (hp : p < d.size) (hpar : n.parent = some p) (s : Nat) (h : Bool) :
    (d.enter n p).withParent s h = d.withParent s h ++
      (if p = s ∧ n.mode.isHistory = h then [d.size] else []) := by
  have hf := filter_range_enter (n := n) (p := p)
    (fun e c => (e.state c).parent == some s && e.isHistory c == h) fun c hc => by
      rw [(layout_enter_old hp (Nat.ne_of_lt hc)).2.1, isHistory_enter_old hp (Nat.ne_of_lt hc)]
  rw [state_enter_new hp, isHistory_enter_new hp, hpar] at hf
  rw [withParent, hf]
  congr 1
  by_cases hps : p = s <;> by_cases hh : n.mode.isHistory = h <;> simp [hps, hh]

end Enter

theorem Nested.withParent_size (hd : d.Nested) (h : Bool) : d.withParent d.size h = [] :=
  List.eq_nil_iff_forall_not_mem.2 fun c hc => by
    obtain ⟨hc, hpar, -⟩ := mem_withParent.1 hc
    exact absurd (Nat.lt_trans (hd.parent_lt hpar) hc) (Nat.lt_irrefl _)

theorem Nested.statesBelow_size (hd : d.Nested) : d.statesBelow d.size = [] :=
  List.eq_nil_iff_forall_not_mem.2 fun c hc => by
    obtain ⟨hc, hbelow, -⟩ := mem_statesBelow.1 hc
    exact absurd (Nat.lt_trans (hd.lt_of_isDescendant hbelow) hc) (Nat.lt_irrefl _)

namespace Laid
variable {C R : List Nat} {p : Nat} {n : StateNode}

/-- Adding a state below the nearest open state, with nothing below it yet, keeps the layout; the
new state is closed. -/
theorem enter (hl : d.Laid (p :: R)) (hpar : n.parent = some p)
    (hdepth : n.depth = (d.state p).depth + 1) (hanc : n.ancestors = p :: (d.state p).ancestors)
    (hdesc : n.descendants = []) (hch : n.children = []) (hhist : n.history = [])
    (hmode : n.mode ≠ .compound) : (d.enter n p).Laid (p :: R) := by
  obtain ⟨hp, hR⟩ := hl.chain_eq rfl
  have hne : ∀ {s}, s < d.size → s ≠ d.size := fun h => Nat.ne_of_lt h
  have hold : ∀ {s}, s ≠ d.size → _ := fun hs => layout_enter_old (n := n) hp hs
  -- the new state lies below exactly the open states
  have hnew : ∀ b, (d.enter n p).isDescendant d.size b = true ↔ b ∈ p :: R := fun b => by
    simp [isDescendant, state_enter_new hp, hanc, hR]
  have hnested : (d.enter n p).Nested := by
    refine (hl.nested.push hp hpar hanc hch).modify (f := StateNode.adopt n.mode.isHistory d.size)
      (by simp) (by simp) (by simp) fun c hc => ?_
    simp only [StateNode.adopt_children] at hc
    split at hc
    · exact .inl hc
    · rcases List.mem_append.1 hc with hc | hc
      · exact .inl hc
      · right
        rw [List.mem_singleton.1 hc, Document.state_push, if_pos rfl]
        exact hpar
  have h0 := hold (hne hl.size_pos)
  refine ⟨hnested, by rw [size_enter]; omega, h0.2.2.2.2.1.trans hl.root_id,
    h0.2.2.2.1.trans hl.root_depth, h0.2.1.trans hl.root_parent, ?_, ?_, ⟨?_, ?_⟩, ?_, ?_, ?_, ?_,
    ?_, ?_⟩
  · intro s hs0 hs
    by_cases hsN : s = d.size
    · rw [hsN, state_enter_new hp, hpar]
      rfl
    · rw [(hold hsN).2.1]
      rw [size_enter] at hs
      exact hl.parent_isSome hs0 (by omega)
  · intro s q hq
    by_cases hsN : s = d.size
    · rw [hsN, state_enter_new hp, hpar] at hq
      cases hq
      rw [hsN, state_enter_new hp, hdepth, (hold (hne hp)).2.2.2.1]
    · rw [(hold hsN).2.1] at hq
      have hqN : q ≠ d.size := hne (hl.nested.lt_size_of_parent_eq hq).1
      rw [(hold hsN).2.2.2.1, (hold hqN).2.2.2.1]
      exact hl.depth_eq hq
  · -- children: the new state joins those of `p` unless it is a history pseudo-state
    intro s
    rw [withParent_enter hp hpar]
    by_cases hsN : s = d.size
    · rw [hsN, state_enter_new hp, hch, hl.nested.withParent_size, if_neg fun h => hne hp h.1]
      rfl
    · rw [state_enter_old hp hsN]
      split
      · rename_i hsp
        subst hsp
        rw [StateNode.adopt_children, hl.partitioned.children_eq]
        cases n.mode.isHistory <;> simp
      · rename_i hsp
        rw [hl.partitioned.children_eq, if_neg fun h => hsp h.1.symm, List.append_nil]
  · intro s
    rw [withParent_enter hp hpar]
    by_cases hsN : s = d.size
    · rw [hsN, state_enter_new hp, hhist, hl.nested.withParent_size, if_neg fun h => hne hp h.1]
      rfl
    · rw [state_enter_old hp hsN]
      split
      · rename_i hsp
        subst hsp
        rw [StateNode.adopt_history, hl.partitioned.history_eq]
        cases n.mode.isHistory <;> simp
      · rename_i hsp
        rw [hl.partitioned.history_eq, if_neg fun h => hsp h.1.symm, List.append_nil]
  · -- consecutive subtrees: what lies between an open state and the new one lies below it
    intro a b c hab hbc hc h
    rw [size_enter] at hc
    have hbN : b < d.size := by omega
    rw [isDescendant_enter_old hp (hne hbN)]
    by_cases hcN : c = d.size
    · rw [hcN, hnew] at h
      rcases List.mem_cons.1 h with rfl | ha
      · exact hl.tail List.mem_cons_self hab hbN
      · have hpa : d.isDescendant p a = true := by
          rw [hR] at ha
          simpa [isDescendant] using ha
        rcases Nat.lt_trichotomy b p with hbp | rfl | hbp
        · exact hl.convex hab hbp hp hpa
        · exact hpa
        · exact hl.nested.isDescendant_trans (hl.tail List.mem_cons_self hbp hbN) hpa
    · rw [isDescendant_enter_old hp hcN] at h
      exact hl.convex hab hbc (by omega) h
  · intro c q hq
    by_cases hcN : c = d.size
    · rw [hcN, state_enter_new hp, hpar] at hq
      cases hq
      rw [isHistory_enter_old hp (hne hp), isHistory_eq_mode]
      rcases hl.open_mode List.mem_cons_self with h | h <;> rw [h] <;> rfl
    · rw [(hold hcN).2.1] at hq
      rw [isHistory_enter_old hp (hne (hl.nested.lt_size_of_parent_eq hq).1)]
      exact hl.parent_not_history hq
  · intro h R' heq
    obtain ⟨rfl, rfl⟩ := List.cons.inj heq
    refine ⟨by rw [size_enter]; omega, ?_⟩
    rw [(hold (hne hp)).2.2.1]
    exact hR
  · intro a ha
    rw [(hold (hne (hl.lt_size_of_mem ha))).1]
    exact hl.open_mode ha
  · intro a b ha hab hb
    rw [size_enter] at hb
    by_cases hbN : b = d.size
    · rw [hbN]
      exact (hnew a).2 ha
    · rw [isDescendant_enter_old hp hbN]
      exact hl.tail ha hab (by omega)
  · -- the new state is closed, and nothing closed gains a state below it
    intro s hs hsC
    rw [size_enter] at hs
    by_cases hsN : s = d.size
    · subst hsN
      refine ⟨?_, fun _ => ?_, fun h => absurd ?_ hmode⟩
      · have hout : (d.enter n p).isDescendant d.size d.size = false := by
          cases h : (d.enter n p).isDescendant d.size d.size
          · rfl
          · exact absurd ((hnew _).1 h) hsC
        rw [state_enter_new hp, hdesc, statesBelow_enter hp, hl.nested.statesBelow_size, hout]
        rfl
      · rw [state_enter_new hp]
        exact hch
      · rwa [state_enter_new hp] at h
    · have hsp : s ≠ p := fun h => hsC (h ▸ List.mem_cons_self)
      have hc := hl.closed (by omega : s < d.size) hsC
      have hout : (d.enter n p).isDescendant d.size s = false := by
        cases h : (d.enter n p).isDescendant d.size s
        · rfl
        · exact absurd ((hnew _).1 h) hsC
      refine ⟨?_, ?_, ?_⟩
      · rw [(hold hsN).2.2.2.2.2, statesBelow_enter hp, hout, ← hc.1, Bool.false_and]
        exact (List.append_nil _).symm
      · rw [state_enter_old hp hsN, if_neg hsp]
        exact hc.2
      · rw [state_enter_old hp hsN, if_neg hsp]
        exact hc.3

/-- Opening the last state added, an atomic or parallel state below the nearest open state. -/
theorem descend (hl : d.Laid C) {n : Nat} (hn : n + 1 = d.size) (hC : C = (d.state n).ancestors)
    (hmode : (d.state n).mode = .atomic ∨ (d.state n).mode = .parallel) : d.Laid (n :: C) := by
  refine { hl with chain_eq := ?_, open_mode := ?_, tail := ?_, closed := ?_ }
  · intro h R heq
    obtain ⟨rfl, rfl⟩ := List.cons.inj heq
    exact ⟨by omega, hC⟩
  · intro a ha
    rcases List.mem_cons.1 ha with rfl | ha
    · exact hmode
    · exact hl.open_mode ha
  · intro a b ha hab hb
    rcases List.mem_cons.1 ha with rfl | ha
    · omega
    · exact hl.tail ha hab hb
  · intro s hs hsC
    exact hl.closed hs fun h => hsC (List.mem_cons_of_mem _ h)

end Laid

/-- The mode a state takes once its children are in place: a plain state with children becomes
compound. -/
def closedMode (m : StateMode) (children : List Nat) : StateMode :=
  if m == .atomic && !children.isEmpty then .compound else m

/-- The document after closing `n`: its descendants are its children in order, each followed by
its own descendants, and its mode is fixed. -/
def close (d : Document) (n : Nat) : Document :=
  ⟨d.states.modify n fun m => { m with
      descendants := (d.state n).children.flatMap fun c => c :: (d.state c).descendants
      mode := closedMode (d.state n).mode (d.state n).children }, d.transitions, d.invokes⟩

theorem children_ne_nil_of_closedMode {m : StateMode} {children : List Nat}
    (h : closedMode m children = .compound) (hm : m ≠ .compound) : children ≠ [] := by
  unfold closedMode at h
  split at h
  · rename_i hc
    simp only [Bool.and_eq_true, Bool.not_eq_true', List.isEmpty_eq_false_iff] at hc
    exact hc.2
  · exact absurd h hm

theorem closedMode_ne_history {m : StateMode} {children : List Nat} (k : HistoryKind)
    (h : closedMode m children = .history k) : m = .history k := by
  unfold closedMode at h
  split at h
  · cases h
  · exact h

namespace Laid
variable {C : List Nat} {n : Nat}

/-- Closing the nearest open state, once its children are in place, keeps the layout. -/
theorem close (hl : d.Laid (n :: C)) : (d.close n).Laid C := by
  obtain ⟨hn, hC⟩ := hl.chain_eq rfl
  have hst : ∀ s, (d.close n).state s = if s = n then { d.state n with
      descendants := (d.state n).children.flatMap fun c => c :: (d.state c).descendants
      mode := closedMode (d.state n).mode (d.state n).children } else d.state s := by
    intro s
    rw [Document.close, Document.state_modify]
    by_cases hs : s = n
    · rw [if_pos ⟨hs, hn⟩, if_pos hs]
    · rw [if_neg fun h => hs h.1, if_neg hs]
  -- closing changes the descendants and the mode of `n` alone
  have hfix : ∀ s, ((d.close n).state s).id = (d.state s).id ∧
      ((d.close n).state s).depth = (d.state s).depth ∧
      ((d.close n).state s).parent = (d.state s).parent ∧
      ((d.close n).state s).ancestors = (d.state s).ancestors ∧
      ((d.close n).state s).children = (d.state s).children ∧
      ((d.close n).state s).history = (d.state s).history := fun s => by
    rw [hst]
    split
    · rename_i h
      subst h
      exact ⟨rfl, rfl, rfl, rfl, rfl, rfl⟩
    · exact ⟨rfl, rfl, rfl, rfl, rfl, rfl⟩
  have hmode : ∀ s, s ≠ n → ((d.close n).state s).mode = (d.state s).mode := fun s hs => by
    rw [hst, if_neg hs]
  have hopen := hl.open_mode List.mem_cons_self
  have hisHist : ∀ s, (d.close n).isHistory s = d.isHistory s := fun s => by
    by_cases hs : s = n
    · subst hs
      rw [isHistory_eq_mode, isHistory_eq_mode, hst, if_pos rfl]
      dsimp only
      unfold closedMode
      rcases hopen with h | h <;> rw [h] <;> split <;> rfl
    · rw [isHistory_eq_mode, isHistory_eq_mode, hmode s hs]
  have hisDesc : ∀ a b, (d.close n).isDescendant a b = d.isDescendant a b := fun a b => by
    simp only [isDescendant, (hfix a).2.2.2.1]
  have hsize : (d.close n).size = d.size := by simp [Document.close, Document.size]
  have hbelow : ∀ s, (d.close n).statesBelow s = d.statesBelow s := fun s => by
    simp only [statesBelow, hsize, hisDesc, hisHist]
  have hwith : ∀ s h, (d.close n).withParent s h = d.withParent s h := fun s h => by
    simp only [withParent, hsize, (hfix _).2.2.1, hisHist]
  -- the open states above `n` come before it
  have hCn : ∀ {a}, a ∈ C → a ≠ n := fun {a} ha h => by
    subst h
    rw [hC] at ha
    exact absurd (hl.nested.lt_of_isDescendant (c := a) (by simpa [isDescendant] using ha))
      (Nat.lt_irrefl _)
  have hnested : (d.close n).Nested :=
    hl.nested.modify rfl rfl (fun k h => closedMode_ne_history k h) fun c hc => .inl hc
  refine ⟨hnested, hsize ▸ hl.size_pos, (hfix 0).1.trans hl.root_id,
    (hfix 0).2.1.trans hl.root_depth, (hfix 0).2.2.1.trans hl.root_parent, fun h₀ hs => ?_,
    fun h => ?_, ⟨fun s => ?_, fun s => ?_⟩, fun hab hbc hc h => ?_, fun h => ?_, fun h => ?_,
    fun ha => ?_, fun ha hab hb => ?_, fun hs hsC => ?_⟩
  · rw [(hfix _).2.2.1]
    exact hl.parent_isSome h₀ (hsize ▸ hs)
  · rw [(hfix _).2.1, (hfix _).2.1]
    exact hl.depth_eq (by rwa [← (hfix _).2.2.1])
  · rw [(hfix s).2.2.2.2.1, hwith]
    exact hl.partitioned.children_eq s
  · rw [(hfix s).2.2.2.2.2, hwith]
    exact hl.partitioned.history_eq s
  · rw [hisDesc] at h ⊢
    exact hl.convex hab hbc (hsize ▸ hc) h
  · rw [hisHist]
    exact hl.parent_not_history (by rwa [← (hfix _).2.2.1])
  · -- the next open state is the parent of `n`
    rw [hC, hl.nested.ancestors_eq n] at h
    cases hq : (d.state n).parent with
    | none => rw [hq] at h; cases h
    | some q =>
      rw [hq] at h
      obtain ⟨rfl, rfl⟩ := List.cons.inj h
      rw [hsize, (hfix _).2.2.2.1]
      exact ⟨Nat.lt_trans (hl.nested.parent_lt hq) hn, rfl⟩
  · rw [hmode _ (hCn ha)]
    exact hl.open_mode (List.mem_cons_of_mem _ ha)
  · rw [hisDesc]
    exact hl.tail (List.mem_cons_of_mem _ ha) hab (hsize ▸ hb)
  · rename_i s
    rw [hsize] at hs
    by_cases hsn : s = n
    · -- `n` is closed: its children are, so their concatenation is what lies below it
      subst hsn
      have hch : ∀ c ∈ (d.state s).children, (d.state c).descendants = d.statesBelow c := by
        intro c hc
        have hcp := hl.nested.parent_of_mem_children hc
        refine (hl.closed (hl.nested.lt_size_of_parent_eq hcp).2 fun hcC => ?_).1
        rcases List.mem_cons.1 hcC with rfl | hcC
        · exact absurd (hl.nested.parent_lt hcp) (Nat.lt_irrefl _)
        · rw [hC] at hcC
          have hup : d.isDescendant s c = true := by simpa [isDescendant] using hcC
          have hdown := hl.nested.isDescendant_of_parent hcp
          rw [hl.nested.not_isDescendant_of_isDescendant hup] at hdown
          cases hdown
      refine ⟨?_, fun h => ?_, fun h => ?_⟩
      · rw [hst, if_pos rfl, hbelow]
        exact flatMap_children_eq_statesBelow hl.nested hl.partitioned hl.convex
          hl.parent_not_history hch
      · rw [hst, if_pos rfl] at h ⊢
        dsimp only [closedMode] at h ⊢
        split at h
        · cases h
        · rename_i hcond
          rw [h] at hcond
          simpa using hcond
      · rw [hst, if_pos rfl] at h ⊢
        dsimp only [closedMode] at h ⊢
        split at h
        · rename_i hcond
          simp only [Bool.and_eq_true, Bool.not_eq_true', List.isEmpty_eq_false_iff] at hcond
          exact hcond.2
        · rcases hopen with h' | h' <;> rw [h'] at h <;> cases h
    · have hc := hl.closed hs fun h => (List.mem_cons.1 h).elim hsn hsC
      refine ⟨?_, ?_, ?_⟩
      · rw [hst, if_neg hsn, hbelow]
        exact hc.1
      · rw [hst, if_neg hsn]
        exact hc.2
      · rw [hst, if_neg hsn]
        exact hc.3

end Laid

end Document

end Hsm
