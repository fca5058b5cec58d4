import Hsm.Proofs.Compiled
import Hsm.Proofs.Validity
/-!
# Legal configurations

Two states clash when they lie in different children of a state that is not parallel
(`Document.Clash`), as `Document.compatible` computes (`Document.Shaped.compatible_iff`). A legal
configuration (`Document.Legal`) is closed under parents, complete below compound and parallel
states and free of clashes; `Document.Shaped` gathers what compiling gives.
-/

namespace Hsm

namespace Document
variable {d : Document}

def Within (d : Document) (s a : Nat) : Prop := s = a ∨ d.isDescendant s a = true

instance (s a : Nat) : Decidable (d.Within s a) := inferInstanceAs (Decidable (_ ∨ _))

theorem Within.refl (s : Nat) : d.Within s s := .inl rfl

theorem Within.of_isDescendant {s a : Nat} (h : d.isDescendant s a = true) : d.Within s a := .inr h

/-- Two states that cannot be active together: they lie in two different children of one state
that is not parallel. -/
def Clash (d : Document) (a b : Nat) : Prop :=
  ∃ x c₁ c₂, d.isParallel x = false ∧ c₁ ∈ (d.state x).children ∧ c₂ ∈ (d.state x).children ∧
    c₁ ≠ c₂ ∧ d.Within a c₁ ∧ d.Within b c₂

theorem Clash.symm {a b : Nat} (h : d.Clash a b) : d.Clash b a := by
  obtain ⟨x, c₁, c₂, hx, h₁, h₂, hne, ha, hb⟩ := h
  exact ⟨x, c₂, c₁, hx, h₂, h₁, Ne.symm hne, hb, ha⟩

namespace Nested
variable (hd : d.Nested)
include hd

theorem within_trans {a b c : Nat} (hab : d.Within a b) (hbc : d.Within b c) : d.Within a c := by
  rcases hab with rfl | hab
  · exact hbc
  · rcases hbc with rfl | hbc
    · exact .inr hab
    · exact .inr (hd.isDescendant_trans hab hbc)

/-- The ancestors of a state form a chain: two of them are equal or one lies below the other. -/
theorem isDescendant_total {z a b : Nat} (ha : d.isDescendant z a = true)
    (hb : d.isDescendant z b = true) :
    a = b ∨ d.isDescendant a b = true ∨ d.isDescendant b a = true := by
  induction z using Nat.strongRecOn with
  | ind z ih =>
    simp only [Document.isDescendant, List.contains_iff_mem] at ha hb ih ⊢
    rw [hd.ancestors_eq z] at ha hb
    cases hp : (d.state z).parent with
    | none => simp [hp] at ha
    | some p =>
      simp only [hp, List.mem_cons] at ha hb
      rcases ha with rfl | ha <;> rcases hb with rfl | hb
      · exact .inl rfl
      · exact .inr (.inl hb)
      · exact .inr (.inr ha)
      · exact ih p (hd.parent_lt hp) ha hb

theorem within_total {z a b : Nat} (ha : d.Within z a) (hb : d.Within z b) :
    d.Within a b ∨ d.Within b a := by
  rcases ha with rfl | ha
  · exact .inl hb
  · rcases hb with rfl | hb
    · exact .inr (.inr ha)
    · rcases hd.isDescendant_total ha hb with h | h | h
      · exact .inl (.inl h)
      · exact .inl (.inr h)
      · exact .inr (.inr h)

theorem isDescendant_of_within_child {s c x : Nat} (hc : c ∈ (d.state x).children)
    (hs : d.Within s c) : d.isDescendant s x = true := by
  have hcx := hd.isDescendant_of_parent (hd.parent_of_mem_children hc)
  rcases hs with rfl | hs
  · exact hcx
  · exact hd.isDescendant_trans hs hcx

theorem eq_of_within_children {x c₁ c₂ : Nat} (h₁ : c₁ ∈ (d.state x).children)
    (h₂ : c₂ ∈ (d.state x).children) (h : d.Within c₁ c₂) : c₁ = c₂ := by
  rcases h with h | h
  · exact h
  · have hxc₂ := hd.isDescendant_of_parent (hd.parent_of_mem_children h₂)
    by_cases hx : x = c₂
    · subst hx
      rw [hd.not_isDescendant_self] at hxc₂
      cases hxc₂
    · have := hd.isDescendant_trans (hd.isDescendant_parent (hd.parent_of_mem_children h₁) h hx)
        hxc₂
      rw [hd.not_isDescendant_self] at this
      cases this

theorem children_disjoint {x c₁ c₂ s : Nat} (h₁ : c₁ ∈ (d.state x).children)
    (h₂ : c₂ ∈ (d.state x).children) (hne : c₁ ≠ c₂) (hs₁ : d.Within s c₁)
    (hs₂ : d.Within s c₂) : False := by
  rcases hd.within_total hs₁ hs₂ with h | h
  · exact hne (hd.eq_of_within_children h₁ h₂ h)
  · exact hne (hd.eq_of_within_children h₂ h₁ h).symm

/-- An ancestor of a state within a child `c` of `x` that lies below `x` lies within `c`. -/
theorem within_child_of_between {x c s y : Nat} (hc : c ∈ (d.state x).children)
    (hs : d.Within s c) (hsy : d.isDescendant s y = true) (hyx : d.isDescendant y x = true) :
    d.Within y c := by
  rcases hd.within_total (.inr hsy) hs with h | h
  · exact h
  · rcases h with rfl | hcy
    · exact .refl _
    · -- `c` below `y` puts its parent `x` within `y`, and `y` lies below `x`
      have hxy : d.Within x y := by
        by_cases hxy : x = y
        · exact .inl hxy
        · exact .inr (hd.isDescendant_parent (hd.parent_of_mem_children hc) hcy hxy)
      rcases hxy with rfl | hxy
      · rw [hd.not_isDescendant_self] at hyx
        cases hyx
      · rw [hd.not_isDescendant_of_isDescendant hyx] at hxy
        cases hxy

end Nested

namespace Clash
variable (hd : d.Nested)
include hd

theorem mono {a b a' b' : Nat} (h : d.Clash a b) (ha : d.Within a' a) (hb : d.Within b' b) :
    d.Clash a' b' := by
  obtain ⟨x, c₁, c₂, hx, h₁, h₂, hne, ha₁, hb₂⟩ := h
  exact ⟨x, c₁, c₂, hx, h₁, h₂, hne, hd.within_trans ha ha₁, hd.within_trans hb hb₂⟩

theorem lift {z w c : Nat} (h : d.Clash z w) (hz : d.Within z c) (hw : ¬ d.Within w c) :
    d.Clash c w := by
  obtain ⟨x, c₁, c₂, hx, h₁, h₂, hne, hz₁, hw₂⟩ := h
  rcases hd.within_total hz hz₁ with hc | hc
  · exact ⟨x, c₁, c₂, hx, h₁, h₂, hne, hc, hw₂⟩
  · rcases hc with rfl | hc
    · exact ⟨x, c₁, c₂, hx, h₁, h₂, hne, .refl _, hw₂⟩
    · -- the children lie below `c`, and so would `w`
      refine absurd ?_ hw
      have hxc : d.Within x c := by
        by_cases hxc : x = c
        · exact .inl hxc
        · exact .inr (hd.isDescendant_parent (hd.parent_of_mem_children h₁) hc hxc)
      exact hd.within_trans (.inr (hd.isDescendant_of_within_child h₂ hw₂)) hxc

end Clash

namespace Nested
variable (hd : d.Nested)
include hd

theorem not_clash_of_within {a b : Nat} (h : d.Within a b) : ¬ d.Clash a b := by
  rintro ⟨x, c₁, c₂, hx, h₁, h₂, hne, ha₁, hb₂⟩
  exact hd.children_disjoint h₁ h₂ hne ha₁ (hd.within_trans h hb₂)

/-- Two regions of a parallel state never clash. -/
theorem not_clash_regions {x c₁ c₂ : Nat} (hx : d.isParallel x = true)
    (h₁ : c₁ ∈ (d.state x).children) (h₂ : c₂ ∈ (d.state x).children) : ¬ d.Clash c₁ c₂ := by
  rintro ⟨y, e₁, e₂, hy, he₁, he₂, hne, hc₁, hc₂⟩
  rcases hc₁ with rfl | hc₁
  · -- `c₁` is itself a child of `y`, so `y` is `x`
    have := hd.parent_of_mem_children h₁
    rw [hd.parent_of_mem_children he₁] at this
    cases this
    rw [hx] at hy
    cases hy
  · -- `c₁` lies below `e₁`, so its parent `x` and then `c₂` lie within `e₁`
    have hxe : d.Within x e₁ := by
      by_cases hxe : x = e₁
      · exact .inl hxe
      · exact .inr (hd.isDescendant_parent (hd.parent_of_mem_children h₁) hc₁ hxe)
    exact hd.children_disjoint he₁ he₂ hne
      (hd.within_trans (.inr (hd.isDescendant_of_within_child h₂ (.refl _))) hxe) hc₂

theorem not_clash_of_regions {x c₁ c₂ a b : Nat} (hx : d.isParallel x = true)
    (h₁ : c₁ ∈ (d.state x).children) (h₂ : c₂ ∈ (d.state x).children) (hne : c₁ ≠ c₂)
    (ha : d.Within a c₁) (hb : d.Within b c₂) : ¬ d.Clash a b := fun h =>
  have hb₁ : ¬ d.Within b c₁ := fun hb₁ => hd.children_disjoint h₁ h₂ hne hb₁ hb
  have hc₂₁ : ¬ d.Within c₁ c₂ := fun h => hne (hd.eq_of_within_children h₁ h₂ h)
  hd.not_clash_regions hx h₂ h₁ (((h.lift hd ha hb₁).symm.lift hd hb hc₂₁))

/-! ### The nearest common ancestor -/

/-- The first ancestor of `a` that `b` lies below has `a` and `b` below it, and `b` lies below no
ancestor of `a` nearer than it. -/
theorem find?_ancestors {a b x : Nat}
    (h : (d.state a).ancestors.find? (fun anc => d.isDescendant b anc) = some x) :
    d.isDescendant a x = true ∧ d.isDescendant b x = true ∧
      ∀ y, d.isDescendant a y = true → d.isDescendant y x = true → d.isDescendant b y = false := by
  induction a using Nat.strongRecOn with
  | ind a ih =>
    rw [hd.ancestors_eq a] at h
    cases hp : (d.state a).parent with
    | none => simp [hp] at h
    | some p =>
      simp only [hp, List.find?_cons] at h
      have hap := hd.isDescendant_of_parent hp
      -- an ancestor of `a` is its parent or an ancestor of the parent
      have hanc : ∀ y, d.isDescendant a y = true → y = p ∨ d.isDescendant p y = true := by
        intro y hy
        simp only [Document.isDescendant, List.contains_iff_mem] at hy ⊢
        rw [hd.ancestors_eq a, hp] at hy
        exact List.mem_cons.1 hy
      split at h
      · rename_i hbp
        cases h
        refine ⟨hap, hbp, fun y hy hyx => ?_⟩
        rcases hanc y hy with rfl | hpy
        · rw [hd.not_isDescendant_self] at hyx
          cases hyx
        · rw [hd.not_isDescendant_of_isDescendant hpy] at hyx
          cases hyx
      · rename_i hbp
        obtain ⟨hpx, hbx, hfirst⟩ := ih p (hd.parent_lt hp) h
        refine ⟨hd.isDescendant_trans hap hpx, hbx, fun y hy hyx => ?_⟩
        rcases hanc y hy with rfl | hpy
        · simpa using hbp
        · exact hfirst y hpy hyx

/-- The nearest common ancestor of `a` and `b` is an ancestor `x` of both below which no ancestor
of `a` has `b` below it. -/
theorem nearestCommonAncestor_eq {a b x : Nat} (hax : d.isDescendant a x = true)
    (hbx : d.isDescendant b x = true)
    (hfirst : ∀ y, d.isDescendant a y = true → d.isDescendant y x = true →
      d.isDescendant b y = false) :
    d.nearestCommonAncestor a b = x := by
  unfold nearestCommonAncestor
  have hmem : x ∈ (d.state a).ancestors := by simpa [Document.isDescendant] using hax
  cases h : (d.state a).ancestors.find? (fun anc => d.isDescendant b anc) with
  | none => exact absurd hbx (by simpa using List.find?_eq_none.1 h x hmem)
  | some y =>
    obtain ⟨hay, hby, hfy⟩ := hd.find?_ancestors h
    rcases hd.isDescendant_total hax hay with hxy | hxy | hxy
    · exact hxy.symm
    · rw [hfy x hax hxy] at hbx
      cases hbx
    · rw [hfirst y hay hxy] at hby
      cases hby

/-- Compatible states never clash. -/
theorem not_clash_of_compatible {a b : Nat} (h : d.compatible a b = true) : ¬ d.Clash a b := by
  simp only [compatible, Bool.or_eq_true, beq_iff_eq] at h
  rcases h with ((rfl | h) | h) | h
  · exact hd.not_clash_of_within (.refl a)
  · exact hd.not_clash_of_within (.inr h)
  · exact fun hc => hd.not_clash_of_within (.inr h) hc.symm
  · rintro ⟨x, c₁, c₂, hx, h₁, h₂, hne, ha₁, hb₂⟩
    -- the nearest common ancestor is `x`: an ancestor of `a` below it lies within `c₁`
    have hnca : d.nearestCommonAncestor a b = x := by
      refine hd.nearestCommonAncestor_eq (hd.isDescendant_of_within_child h₁ ha₁)
        (hd.isDescendant_of_within_child h₂ hb₂) fun y hy hyx => ?_
      have hyc := hd.within_child_of_between h₁ ha₁ hy hyx
      cases hby : d.isDescendant b y
      · rfl
      · exact (hd.children_disjoint h₁ h₂ hne (hd.within_trans (.inr hby) hyc) hb₂).elim
    rw [hnca, hx] at h
    cases h

end Nested

/-- What the theory of configurations uses of a compiled document: its states form an anchored
tree with the root first, the children and the history pseudo-states of a state are the states
naming it as their parent, split by kind, no history pseudo-state is a parent, descendants are
the states below, exactly the compound states have a default entry and it has targets, every
history pseudo-state has a transition, and validation finds no problem. -/
structure Shaped (d : Document) : Prop where
  nested : d.Nested
  anchored : d.Anchored
  size_pos : 0 < d.size
  root_parent : (d.state 0).parent = none
  root_mode : (d.state 0).mode = closedMode .atomic (d.state 0).children
  children_eq : ∀ s, (d.state s).children = d.withParent s false
  history_eq : ∀ s, (d.state s).history = d.withParent s true
  parent_not_history : ∀ {c p}, (d.state c).parent = some p → d.isHistory p = false
  descendants_eq : ∀ {s}, s < d.size → (d.state s).descendants = d.statesBelow s
  initial_iff : ∀ {s}, s < d.size → ((d.state s).initial.isSome ↔ (d.state s).mode = .compound)
  initial_targets : ∀ {s t}, (d.state s).initial = some t → (d.transition t).targets ≠ []
  history_transitions : ∀ {s}, s < d.size → d.isHistory s = true → (d.state s).transitions ≠ []
  valid : d.Valid

namespace Shaped
variable (hs : d.Shaped)
include hs

theorem mem_children {x c : Nat} :
    c ∈ (d.state x).children ↔ c < d.size ∧ (d.state c).parent = some x ∧ d.isHistory c = false := by
  rw [hs.children_eq, mem_withParent]

theorem exists_child_within {a x : Nat} (hax : d.isDescendant a x = true)
    (ha : d.isHistory a = false) : ∃ c ∈ (d.state x).children, d.Within a c := by
  induction a using Nat.strongRecOn with
  | ind a ih =>
    obtain ⟨p, hp⟩ := Option.isSome_iff_exists.1 (hs.nested.parent_isSome_of_isDescendant hax)
    by_cases hpx : p = x
    · subst hpx
      exact ⟨a, hs.mem_children.2 ⟨lt_size_of_parent hp, hp, ha⟩, .refl a⟩
    · obtain ⟨c, hc, hpc⟩ := ih p (hs.nested.parent_lt hp)
        (hs.nested.isDescendant_parent hp hax hpx) (hs.parent_not_history hp)
      exact ⟨c, hc, hs.nested.within_trans (.inr (hs.nested.isDescendant_of_parent hp)) hpc⟩

/-- Two states of the document other than the root, neither a history pseudo-state, that do not
clash are compatible. -/
theorem compatible_of_not_clash {a b : Nat} (ha : 0 < a ∧ a < d.size ∧ d.isHistory a = false)
    (hb : 0 < b ∧ b < d.size ∧ d.isHistory b = false) (h : ¬ d.Clash a b) :
    d.compatible a b = true := by
  have hd := hs.nested
  by_cases hn : a = b ∨ d.isDescendant a b = true ∨ d.isDescendant b a = true
  · simp only [compatible, Bool.or_eq_true, beq_iff_eq]
    rcases hn with h | h | h
    · exact .inl (.inl (.inl h))
    · exact .inl (.inl (.inr h))
    · exact .inl (.inr h)
  · simp only [not_or, Bool.not_eq_true] at hn
    obtain ⟨hab, hab', hba'⟩ := hn
    -- both lie below the root, so some ancestor of `a` has `b` below it
    have ha0 := hs.anchored.isDescendant_root_of_lt hd ha.1 ha.2.1
    have hb0 := hs.anchored.isDescendant_root_of_lt hd hb.1 hb.2.1
    obtain ⟨x, hx⟩ : ∃ x, (d.state a).ancestors.find? (fun anc => d.isDescendant b anc) = some x := by
      refine Option.isSome_iff_exists.1 (List.find?_isSome.2 ⟨0, ?_, hb0⟩)
      simpa [isDescendant] using ha0
    obtain ⟨hax, hbx, hfirst⟩ := hd.find?_ancestors hx
    obtain ⟨c₁, h₁, ha₁⟩ := hs.exists_child_within hax ha.2.2
    obtain ⟨c₂, h₂, hb₂⟩ := hs.exists_child_within hbx hb.2.2
    -- `a` and `b` lie in different children of `x`: one child holding both would be nearer
    have hne : c₁ ≠ c₂ := by
      rintro rfl
      rcases ha₁ with rfl | ha₁
      · rcases hb₂ with rfl | hb₂
        · exact hab rfl
        · rw [hb₂] at hba'
          cases hba'
      · rcases hb₂ with rfl | hb₂
        · rw [ha₁] at hab'
          cases hab'
        · rw [hfirst c₁ ha₁ (hd.isDescendant_of_within_child h₁ (.refl _))] at hb₂
          cases hb₂
    have hpar : d.isParallel x = true := by
      cases hx' : d.isParallel x
      · exact absurd ⟨x, c₁, c₂, hx', h₁, h₂, hne, ha₁, hb₂⟩ h
      · rfl
    simp [compatible, nearestCommonAncestor, hx, hpar]

end Shaped

/-! ### Legal configurations -/

theorem isLegalSet_iff (C : List Nat) :
    d.isLegalSet C = true ↔ C.Pairwise fun a b => d.compatible a b = true := by
  induction C with
  | nil => simp [isLegalSet]
  | cons a C ih => simp [isLegalSet, ih, List.all_eq_true]

/-- A legal, complete configuration: it holds neither the root nor a history pseudo-state, only
states of the document, and the parent of each of its states below the top level; of each
compound state it holds, and of the root when the root is compound, exactly one child; and every
child of each parallel state it holds. Any two of its states may then be active together. -/
structure Legal (d : Document) (C : List Nat) : Prop where
  mem : ∀ s ∈ C, 0 < s ∧ s < d.size ∧ d.isHistory s = false
  parent_mem : ∀ s ∈ C, ∀ p ∈ (d.state s).parent, p ≠ 0 → p ∈ C
  one_child : ∀ s ∈ 0 :: C, d.isCompound s = true →
    ∃ c ∈ (d.state s).children, c ∈ C ∧ ∀ c' ∈ (d.state s).children, c' ∈ C → c' = c
  all_children : ∀ s ∈ C, d.isParallel s = true → ∀ c ∈ (d.state s).children, c ∈ C
  legalSet : d.isLegalSet C = true

instance (C : List Nat) : Decidable (d.Legal C) :=
  decidable_of_iff ((∀ s ∈ C, 0 < s ∧ s < d.size ∧ d.isHistory s = false) ∧
      (∀ s ∈ C, ∀ p ∈ (d.state s).parent, p ≠ 0 → p ∈ C) ∧
      (∀ s ∈ 0 :: C, d.isCompound s = true →
        ∃ c ∈ (d.state s).children, c ∈ C ∧ ∀ c' ∈ (d.state s).children, c' ∈ C → c' = c) ∧
      (∀ s ∈ C, d.isParallel s = true → ∀ c ∈ (d.state s).children, c ∈ C) ∧
      d.isLegalSet C = true)
    ⟨fun ⟨h₁, h₂, h₃, h₄, h₅⟩ => ⟨h₁, h₂, h₃, h₄, h₅⟩, fun h => ⟨h.1, h.2, h.3, h.4, h.5⟩⟩

theorem Legal.apart (hd : d.Nested) {C : List Nat} (h : d.Legal C) :
    ∀ a ∈ C, ∀ b ∈ C, ¬ d.Clash a b := by
  have hp : C.Pairwise fun a b => ¬ d.Clash a b :=
    ((isLegalSet_iff C).1 h.legalSet).imp hd.not_clash_of_compatible
  have : Std.Symm fun a b => ¬ d.Clash a b := ⟨fun _ _ h hc => h hc.symm⟩
  intro a ha b hb
  by_cases hab : a = b
  · subst hab
    exact hd.not_clash_of_within (.refl a)
  · exact hp.forall ha hb hab

/-- A configuration is legal as soon as each compound state in it, and the root when compound,
has some child in it and no two of its states clash. -/
theorem Legal.of_apart (hs : d.Shaped) {C : List Nat}
    (hmem : ∀ s ∈ C, 0 < s ∧ s < d.size ∧ d.isHistory s = false)
    (hparent : ∀ s ∈ C, ∀ p ∈ (d.state s).parent, p ≠ 0 → p ∈ C)
    (hchild : ∀ s ∈ 0 :: C, d.isCompound s = true → ∃ c ∈ (d.state s).children, c ∈ C)
    (hpar : ∀ s ∈ C, d.isParallel s = true → ∀ c ∈ (d.state s).children, c ∈ C)
    (hapart : ∀ a ∈ C, ∀ b ∈ C, ¬ d.Clash a b) : d.Legal C := by
  refine ⟨hmem, hparent, fun s hsC hcomp => ?_, hpar, ?_⟩
  · -- two children of a compound state clash
    obtain ⟨c, hc, hcC⟩ := hchild s hsC hcomp
    refine ⟨c, hc, hcC, fun c' hc' hc'C => ?_⟩
    by_contra hne
    have hnp : d.isParallel s = false := by
      simp only [isCompound, beq_iff_eq] at hcomp
      simp [isParallel, hcomp]
    exact hapart c' hc'C c hcC ⟨s, c', c, hnp, hc', hc, hne, .refl _, .refl _⟩
  · exact (isLegalSet_iff C).2 (List.pairwise_of_forall_mem_list fun a ha b hb =>
      hs.compatible_of_not_clash (hmem a ha) (hmem b hb) (hapart a ha b hb))

end Document

namespace DocumentSchema
open Lowering

/-- A description that compiles ends in a finished arena whose document it is, with the states
described and no problem reported, and a document that validation finds no problem in. -/
theorem finished_of_build {ds : DocumentSchema} {d : Document} (h : ds.build = .ok d) :
    ∃ l : Lowering, Finished l ∧
      Described ((Document.rootId, .atomic) :: ds.preorder.map StateSchema.key) l ∧
      l.issues = #[] ∧ l.document = d ∧ d.problems = [] := by
  unfold build at h
  dsimp only at h
  split at h
  · rename_i hnil
    cases h
    have hx : Triple (fun l => Walk [0] l ∧ Described [(Document.rootId, .atomic)] l) ds.walk
        (fun _ l => Finished l ∧
          Described ((Document.rootId, .atomic) :: ds.preorder.map StateSchema.key) l) := by
      -- the top-level states are compiled below the root, which is then closed
      refine Triple.bind (lowerEach_walk 0 [] ds.states _) fun marked =>
        Triple.bind (finishChildren_walk 0 ds.initial marked) fun r => ?_
      have hY : ∀ l, Described ([(Document.rootId, .atomic)] ++
          (StateSchema.preorderEach ds.states).map StateSchema.key) l →
          Described ((Document.rootId, .atomic) :: ds.preorder.map StateSchema.key) l :=
        fun l h => by simpa [DocumentSchema.preorder] using h
      cases r with
      | none =>
        exact finish_finished.conseq (fun l h => ⟨(h ds.onInitial).1, hY l (h ds.onInitial).2⟩)
          fun _ _ h => h
      | some rule =>
        refine Triple.bind (Q := fun _ l => Walk [] l ∧
            Described ((Document.rootId, .atomic) :: ds.preorder.map StateSchema.key) l)
          (Triple.modify fun l h => ⟨(h ds.onInitial).1, (hY l (h ds.onInitial).2).of_eq rfl rfl⟩)
          fun _ => finish_finished
    obtain ⟨hf, hd⟩ := hx {} ⟨walk_empty, described_empty⟩
    obtain ⟨hi, hp⟩ := List.append_eq_nil_iff.1 hnil
    exact ⟨_, hf, hd, Array.toList_eq_nil_iff.1 hi, rfl, hp⟩
  · cases h

theorem lowered_of_build {ds : DocumentSchema} {d : Document} (h : ds.build = .ok d) : ds.Lowered d := by
  obtain ⟨l, hf, hd, hi, rfl, -⟩ := finished_of_build h
  exact lowered_of_finished hf hd hi

theorem shaped_of_build {ds : DocumentSchema} {d : Document} (h : ds.build = .ok d) : d.Shaped := by
  obtain ⟨l, hf, hd, hi, rfl, hp⟩ := finished_of_build h
  have hL := lowered_of_finished hf hd hi
  exact ⟨hf.laid.nested, anchored_of_build h, hf.laid.size_pos, hL.root.2.2.1, hL.root_mode,
    hL.children_eq, hL.history_eq, hf.laid.parent_not_history, hL.descendants_eq, hL.initial_iff,
    hL.initial_targets, hL.history_transitions, (Document.problems_eq_nil_iff _).1 hp⟩

end DocumentSchema

end Hsm
