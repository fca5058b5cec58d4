import Hsm.Proofs.Legal
import Hsm.Proofs.Termination
/-!
# Filling subtrees

A set of entered states is whole when each compound state in it has a child and each parallel one
all its regions (`Document.Whole`); it hangs below `u` when it holds the parent of each state other
than `u` (`Document.Hangs`). `Document.Pending` is what holds part way through entering the states
between the targets and their domain.
-/

namespace Hsm

namespace Document
variable {d : Document}

/-- States of which each compound one has a child among them and each parallel one all its
children, no two of which clash, and none of which is a history pseudo-state. -/
structure Whole (d : Document) (F : Nat → Prop) : Prop where
  compound : ∀ y, F y → d.isCompound y = true → ∃ c ∈ (d.state y).children, F c
  parallel : ∀ y, F y → d.isParallel y = true → ∀ c ∈ (d.state y).children, F c
  apart : ∀ y z, F y → F z → ¬ d.Clash y z
  not_history : ∀ y, F y → d.isHistory y = false

/-- `F` fills `x`: a whole set holding `x`, within `x`, with the parent of each of its states
other than `x`. -/
structure Fills (d : Document) (x : Nat) (F : Nat → Prop) : Prop extends d.Whole F where
  self : F x
  within : ∀ y, F y → d.Within y x
  up : ∀ y, F y → y ≠ x → ∀ p, (d.state y).parent = some p → F p

/-- `F` hangs below `u`: a whole set strictly below `u` with the parent of each of its states,
unless that parent is `u`. -/
structure Hangs (d : Document) (u : Nat) (F : Nat → Prop) : Prop extends d.Whole F where
  below : ∀ y, F y → d.isDescendant y u = true
  up : ∀ y, F y → ∀ p, (d.state y).parent = some p → p = u ∨ F p

/-- The state entering `x` puts states within: `x` itself, or the home of a history
pseudo-state. -/
def anchor (d : Document) (x : Nat) : Nat := if d.isHistory x then d.home x else x

/-- Where entering `x` puts states: within `x`, or strictly below the home of a history
pseudo-state. -/
def Reach (d : Document) (x y : Nat) : Prop :=
  if d.isHistory x then d.isDescendant y (d.home x) = true else d.Within y x

def Apart (d : Document) (a b : Nat) : Prop := ¬ d.Within a b ∧ ¬ d.Within b a

theorem Apart.symm {a b : Nat} (h : d.Apart a b) : d.Apart b a := ⟨h.2, h.1⟩

theorem anchor_of_isHistory {x : Nat} (hx : d.isHistory x = true) : d.anchor x = d.home x := by
  simp [anchor, hx]

theorem anchor_of_not_isHistory {x : Nat} (hx : d.isHistory x = false) : d.anchor x = x := by
  simp [anchor, hx]

theorem reach_of_isHistory {x y : Nat} (hx : d.isHistory x = true) :
    d.Reach x y ↔ d.isDescendant y (d.home x) = true := by
  simp [Reach, hx]

theorem reach_of_not_isHistory {x y : Nat} (hx : d.isHistory x = false) :
    d.Reach x y ↔ d.Within y x := by
  simp [Reach, hx]

/-- Targets spread below `u`: there are some, all strictly below `u`, no two of them clash, and
where one puts states lies apart from where another does. -/
structure Spread (d : Document) (u : Nat) (xs : List Nat) : Prop where
  ne_nil : xs ≠ []
  below : ∀ x ∈ xs, d.isDescendant x u = true
  apart : xs.Pairwise fun x y => d.Apart (d.anchor x) (d.anchor y) ∧ ¬ d.Clash x y

theorem Spread.apart_of_ne {u : Nat} {xs : List Nat} (h : d.Spread u xs) {x y : Nat}
    (hx : x ∈ xs) (hy : y ∈ xs) (hne : x ≠ y) :
    d.Apart (d.anchor x) (d.anchor y) ∧ ¬ d.Clash x y := by
  have : Std.Symm fun x y => d.Apart (d.anchor x) (d.anchor y) ∧ ¬ d.Clash x y :=
    ⟨fun _ _ h => ⟨h.1.symm, fun hc => h.2 hc.symm⟩⟩
  exact h.apart.forall hx hy hne

/-- What entering `x` puts in place: a whole set where entering `x` puts states, closed upwards
up to the anchor, with a state within the anchor. -/
structure Placed (d : Document) (x : Nat) (F : Nat → Prop) : Prop extends d.Whole F where
  reach : ∀ y, F y → d.Reach x y
  up : ∀ y, F y → ∀ p, (d.state y).parent = some p → F p ∨ d.Within (d.anchor x) p
  covers : ∃ s, F s ∧ d.Within s (d.anchor x)

/-- The states strictly below `u` that the anchor of one of the targets `xs` lies within. -/
def Above (d : Document) (u : Nat) (xs : List Nat) (q : Nat) : Prop :=
  d.isDescendant q u = true ∧ ∃ x ∈ xs, d.Within (d.anchor x) q

/-! ### Where targets put states -/

theorem within_anchor_of_reach {x y : Nat} (h : d.Reach x y) : d.Within y (d.anchor x) := by
  cases hx : d.isHistory x with
  | false => rwa [anchor_of_not_isHistory hx, ← reach_of_not_isHistory hx]
  | true => rw [anchor_of_isHistory hx]; exact .inr ((reach_of_isHistory hx).1 h)

namespace Nested
variable (hd : d.Nested)
include hd

theorem eq_or_isDescendant_parent {y u p : Nat} (hyu : d.isDescendant y u = true)
    (hp : (d.state y).parent = some p) : p = u ∨ d.isDescendant p u = true := by
  by_cases hpu : p = u
  · exact .inl hpu
  · exact .inr (hd.isDescendant_parent hp hyu hpu)

theorem isDescendant_iff_of_parent {y p a : Nat} (hp : (d.state y).parent = some p) :
    d.isDescendant y a = true ↔ a = p ∨ d.isDescendant p a = true := by
  simp only [isDescendant, List.contains_iff_mem]
  rw [hd.ancestors_eq y, hp, List.mem_cons]

theorem within_anchor (x : Nat) : d.Within x (d.anchor x) := by
  cases hx : d.isHistory x with
  | false => rw [anchor_of_not_isHistory hx]; exact .refl x
  | true =>
    obtain ⟨p, hp⟩ := Option.isSome_iff_exists.1 (hd.parent_of_isHistory hx)
    rw [anchor_of_isHistory hx, home_eq hp]
    exact .inr (hd.isDescendant_of_parent hp)

theorem within_anchor_of_isDescendant {x a : Nat} (h : d.isDescendant x a = true) :
    d.Within (d.anchor x) a := by
  cases hx : d.isHistory x with
  | false => rw [anchor_of_not_isHistory hx]; exact .inr h
  | true =>
    obtain ⟨p, hp⟩ := Option.isSome_iff_exists.1 (hd.parent_of_isHistory hx)
    rw [anchor_of_isHistory hx, home_eq hp]
    rcases (hd.isDescendant_iff_of_parent hp).1 h with rfl | hpa
    · exact .refl _
    · exact .inr hpa

theorem isDescendant_of_reach {x y u : Nat} (hxu : d.isDescendant x u = true)
    (h : d.Reach x y) : d.isDescendant y u = true := by
  cases hx : d.isHistory x with
  | false =>
    rcases (reach_of_not_isHistory hx).1 h with rfl | hyx
    · exact hxu
    · exact hd.isDescendant_trans hyx hxu
  | true =>
    obtain ⟨p, hp⟩ := Option.isSome_iff_exists.1 (hd.parent_of_isHistory hx)
    have hyp := (reach_of_isHistory hx).1 h
    rw [home_eq hp] at hyp
    rcases hd.eq_or_isDescendant_parent hxu hp with rfl | hpu
    · exact hyp
    · exact hd.isDescendant_trans hyp hpu

theorem not_reach_of_apart {x x' y : Nat} (h : d.Apart (d.anchor x) (d.anchor x'))
    (hy : d.Reach x y) : ¬ d.Reach x' y := fun hy' => by
  rcases hd.within_total (within_anchor_of_reach hy) (within_anchor_of_reach hy') with h' | h'
  · exact h.1 h'
  · exact h.2 h'

theorem not_clash_anchor {x x' : Nat} (h : ¬ d.Clash x x') :
    ¬ d.Clash (d.anchor x) (d.anchor x') := fun hc =>
  h (hc.mono hd (hd.within_anchor x) (hd.within_anchor x'))

theorem not_clash_within_side {a b y z : Nat} (hab : d.Apart a b) (hc : ¬ d.Clash a b)
    (hy : d.Within y a) (hz : d.Within z b ∨ d.Within b z) : ¬ d.Clash y z := fun h => by
  rcases hz with hz | hz
  · -- `z` lies outside `a`, so the clash lifts to `a`, then from `z` to `b`
    have hza : ¬ d.Within z a := fun hza => by
      rcases hd.within_total hza hz with h' | h'
      · exact hab.1 h'
      · exact hab.2 h'
    exact hc ((h.lift hd hy hza).symm.lift hd hz hab.1).symm
  · have hza : ¬ d.Within z a := fun hza => hab.2 (hd.within_trans hz hza)
    exact hc ((h.lift hd hy hza).mono hd (.refl a) hz)

theorem not_clash_of_sides {a b y z : Nat} (hab : d.Apart a b) (hc : ¬ d.Clash a b)
    (hy : d.Within y a ∨ d.Within a y) (hz : d.Within z b ∨ d.Within b z) : ¬ d.Clash y z := by
  rcases hy with hy | hy
  · exact hd.not_clash_within_side hab hc hy hz
  · rcases hz with hz | hz
    · exact fun h => hd.not_clash_within_side hab.symm (fun h' => hc h'.symm) hz (.inr hy) h.symm
    · exact fun h => hc (h.mono hd hy hz)

theorem not_clash_of_around {a y z : Nat} (hy : d.Within a y) (hz : d.Within a z) :
    ¬ d.Clash y z := by
  rcases hd.within_total hy hz with h | h
  · exact hd.not_clash_of_within h
  · exact fun hc => hd.not_clash_of_within h hc.symm

end Nested

/-! ### Pieces -/

theorem fills_self (hd : d.Nested) {x : Nat} (hx : d.isHistory x = false)
    (hc : d.isCompound x = false) (hp : d.isParallel x = false) : d.Fills x (· = x) where
  compound y hy hyc := by subst hy; rw [hc] at hyc; cases hyc
  parallel y hy hyp := by subst hy; rw [hp] at hyp; cases hyp
  apart y z hy hz := by subst hy hz; exact hd.not_clash_of_within (.refl _)
  not_history y hy := hy ▸ hx
  self := rfl
  within y hy := by subst hy; exact .refl _
  up y hy hyx := absurd hy hyx

/-- A state together with a set hanging below it, holding a child when the state is compound
and every child when it is parallel, fills the state. -/
theorem Hangs.fills (hd : d.Nested) {x : Nat} {F : Nat → Prop} (hF : d.Hangs x F)
    (hx : d.isHistory x = false)
    (hcomp : d.isCompound x = true → ∃ c ∈ (d.state x).children, F c)
    (hpar : d.isParallel x = true → ∀ c ∈ (d.state x).children, F c) :
    d.Fills x fun y => y = x ∨ F y where
  compound y hy hyc := by
    rcases hy with rfl | hy
    · obtain ⟨c, hc, hcF⟩ := hcomp hyc
      exact ⟨c, hc, .inr hcF⟩
    · obtain ⟨c, hc, hcF⟩ := hF.compound y hy hyc
      exact ⟨c, hc, .inr hcF⟩
  parallel y hy hyp c hc := by
    rcases hy with rfl | hy
    · exact .inr (hpar hyp c hc)
    · exact .inr (hF.parallel y hy hyp c hc)
  apart y z hy hz := by
    rcases hy with rfl | hy <;> rcases hz with rfl | hz
    · exact hd.not_clash_of_within (.refl _)
    · exact fun h => hd.not_clash_of_within (.inr (hF.below z hz)) h.symm
    · exact hd.not_clash_of_within (.inr (hF.below y hy))
    · exact hF.apart y z hy hz
  not_history y hy := by
    rcases hy with rfl | hy
    · exact hx
    · exact hF.not_history y hy
  self := .inl rfl
  within y hy := by
    rcases hy with rfl | hy
    · exact .refl _
    · exact .inr (hF.below y hy)
  up y hy hyx p hpar := by
    rcases hy with rfl | hy
    · exact absurd rfl hyx
    · exact hF.up y hy p hpar

theorem Fills.placed (hd : d.Nested) {x : Nat} {F : Nat → Prop} (hF : d.Fills x F)
    (hx : d.isHistory x = false) : d.Placed x F where
  toWhole := hF.toWhole
  reach y hy := (reach_of_not_isHistory hx).2 (hF.within y hy)
  up y hy p hpar := by
    rw [anchor_of_not_isHistory hx]
    by_cases hyx : y = x
    · subst hyx
      exact .inr (.inr (hd.isDescendant_of_parent hpar))
    · exact .inl (hF.up y hy hyx p hpar)
  covers := ⟨x, hF.self, by rw [anchor_of_not_isHistory hx]; exact .refl x⟩

theorem Hangs.placed (hd : d.Nested) {x : Nat} {F : Nat → Prop} (hF : d.Hangs (d.home x) F)
    (hx : d.isHistory x = true) (hc : ∃ c ∈ (d.state (d.home x)).children, F c) :
    d.Placed x F where
  toWhole := hF.toWhole
  reach y hy := (reach_of_isHistory hx).2 (hF.below y hy)
  up y hy p hpar := (hF.up y hy p hpar).symm.imp_right fun h => by
    rw [anchor_of_isHistory hx, h]
    exact .refl _
  covers := by
    obtain ⟨c, hc, hcF⟩ := hc
    rw [anchor_of_isHistory hx]
    exact ⟨c, hcF, .inr (hd.isDescendant_of_parent (hd.parent_of_mem_children hc))⟩

theorem Placed.not_clash (hd : d.Nested) {x : Nat} {F : Nat → Prop} (hF : d.Placed x F)
    {y z : Nat} (hy : F y ∨ d.Within (d.anchor x) y) (hz : F z ∨ d.Within (d.anchor x) z) :
    ¬ d.Clash y z := by
  rcases hy with hy | hy <;> rcases hz with hz | hz
  · exact hF.apart y z hy hz
  · exact hd.not_clash_of_within (hd.within_trans (within_anchor_of_reach (hF.reach y hy)) hz)
  · exact fun h => hd.not_clash_of_within
      (hd.within_trans (within_anchor_of_reach (hF.reach z hz)) hy) h.symm
  · exact hd.not_clash_of_around hy hz

/-! ### The root and proper ancestors -/

namespace Shaped
variable (hs : d.Shaped)
include hs

theorem root_not_isDescendant (s : Nat) : d.isDescendant 0 s = false := by
  simp [isDescendant, hs.nested.ancestors_eq 0, hs.root_parent]

theorem not_history_of_isDescendant {a y : Nat} (h : d.isDescendant a y = true) :
    d.isHistory y = false := by
  induction a using Nat.strongRecOn with
  | ind a ih =>
    obtain ⟨p, hp⟩ := Option.isSome_iff_exists.1 (hs.nested.parent_isSome_of_isDescendant h)
    rcases (hs.nested.isDescendant_iff_of_parent hp).1 h with rfl | hpy
    · exact hs.parent_not_history hp
    · exact ih p (hs.nested.parent_lt hp) hpy

theorem not_history_of_within {a y : Nat} (h : d.Within a y) (ha : d.isHistory a = false) :
    d.isHistory y = false := by
  rcases h with rfl | h
  · exact ha
  · exact hs.not_history_of_isDescendant h

theorem anchor_not_history (x : Nat) : d.isHistory (d.anchor x) = false := by
  cases hx : d.isHistory x with
  | false => rwa [anchor_of_not_isHistory hx]
  | true =>
    obtain ⟨p, hp⟩ := Option.isSome_iff_exists.1 (hs.nested.parent_of_isHistory hx)
    rw [anchor_of_isHistory hx, home_eq hp]
    exact hs.parent_not_history hp

theorem not_clash_region {a c z : Nat} (ha : d.isParallel a = true)
    (hc : c ∈ (d.state a).children) (haz : ¬ d.Clash a z) (hzc : ¬ d.Within z c)
    (hz : d.isHistory z = false) : ¬ d.Clash c z := fun h => by
  have hca : d.Within c a := .inr (hs.nested.isDescendant_of_parent (hs.nested.parent_of_mem_children hc))
  by_cases hza : d.Within z a
  · rcases hza with rfl | hza
    · exact hs.nested.not_clash_of_within hca h
    · obtain ⟨c', hc', hzc'⟩ := hs.exists_child_within hza hz
      have hne : c ≠ c' := fun he => hzc (he ▸ hzc')
      exact hs.nested.not_clash_of_regions ha hc hc' hne (.refl c) hzc' h
  · exact haz (h.lift hs.nested hca hza)

theorem properAncestors_some {y u : Nat} (hyu : d.isDescendant y u = true) :
    d.properAncestors y (some u) = (d.state y).ancestors.takeWhile fun a => a != u && a != 0 := by
  have huy : u ≠ y := fun he => by rw [he, hs.nested.not_isDescendant_self] at hyu; cases hyu
  have hdesc := hs.nested.not_isDescendant_of_isDescendant hyu
  unfold properAncestors
  cases hp : (d.state y).parent with
  | none => simp [hs.nested.ancestors_eq y, hp]
  | some p =>
    by_cases hpu : p = u
    · subst hpu
      simp [hs.nested.ancestors_eq y, hp]
    · simp [huy, hdesc, hpu]

theorem properAncestors_of_parent {y u p : Nat} (hyu : d.isDescendant y u = true)
    (hp : (d.state y).parent = some p) :
    d.properAncestors y (some u) = if p = u then [] else p :: d.properAncestors p (some u) := by
  rw [hs.properAncestors_some hyu, hs.nested.ancestors_eq y, hp]
  by_cases hpu : p = u
  · simp [hpu]
  · have hpu' := (hs.nested.eq_or_isDescendant_parent hyu hp).resolve_left hpu
    have hp0 : p ≠ 0 := fun h0 => by
      rw [h0, hs.root_not_isDescendant] at hpu'
      cases hpu'
    simp [hpu, hp0, hs.properAncestors_some hpu']

/-- The proper ancestors up to `u` of a state strictly below `u` are the states strictly between. -/
theorem mem_properAncestors {y u a : Nat} (hyu : d.isDescendant y u = true) :
    a ∈ d.properAncestors y (some u) ↔ d.isDescendant y a = true ∧ d.isDescendant a u = true := by
  induction y using Nat.strongRecOn with
  | ind y ih =>
    obtain ⟨p, hp⟩ := Option.isSome_iff_exists.1 (hs.nested.parent_isSome_of_isDescendant hyu)
    rw [hs.properAncestors_of_parent hyu hp, hs.nested.isDescendant_iff_of_parent hp]
    by_cases hpu : p = u
    · subst hpu
      simp only [if_true, List.not_mem_nil, false_iff, not_and]
      rintro (rfl | hpa) hap
      · rw [hs.nested.not_isDescendant_self] at hap
        cases hap
      · rw [hs.nested.not_isDescendant_of_isDescendant hpa] at hap
        cases hap
    · have hpu' := (hs.nested.eq_or_isDescendant_parent hyu hp).resolve_left hpu
      rw [if_neg hpu, List.mem_cons, ih p (hs.nested.parent_lt hp) hpu']
      constructor
      · rintro (rfl | ⟨hpa, hau⟩)
        · exact ⟨.inl rfl, hpu'⟩
        · exact ⟨.inr hpa, hau⟩
      · rintro ⟨rfl | hpa, hau⟩
        · exact .inl rfl
        · exact .inr ⟨hpa, hau⟩

end Shaped

/-! ### Entering below a state -/

def Slated (d : Document) (u : Nat) (Q : Nat → Prop) (S : List Nat) (y : Nat) : Prop :=
  (y ∈ S ∧ d.isDescendant y u = true) ∨ Q y

/-- Part way through entering below `u`, with `S` entered and `Q` still to come: the slated
states are closed upwards up to `u`, no two clash, none is a history pseudo-state, each compound
state entered below `u` has a child entered, each parallel one all its children slated unless
its regions are being entered (`ex`), and each state to come has a state entered within it. -/
structure Pending (d : Document) (u : Nat) (Q : Nat → Prop) (ex : Option Nat) (S : List Nat) :
    Prop where
  below : ∀ q, Q q → d.isDescendant q u = true
  up : ∀ y, d.Slated u Q S y → ∀ p, (d.state y).parent = some p → p = u ∨ d.Slated u Q S p
  apart : ∀ y z, d.Slated u Q S y → d.Slated u Q S z → ¬ d.Clash y z
  not_history : ∀ y, d.Slated u Q S y → d.isHistory y = false
  compound : ∀ y ∈ S, d.isDescendant y u = true → d.isCompound y = true →
    ∃ c ∈ (d.state y).children, c ∈ S
  parallel : ∀ y ∈ S, d.isDescendant y u = true → d.isParallel y = true → ex ≠ some y →
    ∀ c ∈ (d.state y).children, d.Slated u Q S c
  covered : ∀ q, Q q → ∃ s ∈ S, d.Within s q

namespace Slated
variable {u : Nat} {Q : Nat → Prop} {S S' : List Nat} {y : Nat}

theorem mono (h : d.Slated u Q S y) (hS : S ⊆ S') : d.Slated u Q S' y :=
  h.imp_left fun h => ⟨hS h.1, h.2⟩

theorem of_mem (hy : y ∈ S) (hyu : d.isDescendant y u = true) : d.Slated u Q S y := .inl ⟨hy, hyu⟩

end Slated

namespace Pending
variable {u : Nat} {Q : Nat → Prop} {ex : Option Nat} {S S' : List Nat}

theorem isDescendant (hp : d.Pending u Q ex S) {y : Nat} (hy : d.Slated u Q S y) :
    d.isDescendant y u = true := by
  rcases hy with hy | hy
  · exact hy.2
  · exact hp.below y hy

theorem empty (hS : ∀ y ∈ S, d.isDescendant y u = false) : d.Pending u (fun _ => False) ex S := by
  have hno : ∀ y, ¬ d.Slated u (fun _ => False) S y := by
    rintro y (⟨hy, hyu⟩ | hy)
    · rw [hS y hy] at hyu
      cases hyu
    · exact hy
  refine ⟨fun _ h => h.elim, fun y hy => (hno y hy).elim, fun y _ hy => (hno y hy).elim,
    fun y hy => (hno y hy).elim, fun y hy hyu => ?_, fun y hy hyu => ?_, fun _ h => h.elim⟩ <;>
    · rw [hS y hy] at hyu
      cases hyu

/-- Slated states are closed upwards within `u`: a state below `u` that a slated state lies
within is slated. -/
theorem slated_of_within (hd : d.Nested) (hp : d.Pending u Q ex S) {y c : Nat}
    (hy : d.Slated u Q S y) (hyc : d.Within y c) (hcu : d.isDescendant c u = true) :
    d.Slated u Q S c := by
  induction y using Nat.strongRecOn with
  | ind y ih =>
    rcases hyc with rfl | hyc
    · exact hy
    · obtain ⟨p, hpar⟩ := Option.isSome_iff_exists.1 (hd.parent_isSome_of_isDescendant hyc)
      rcases hp.up y hy p hpar with rfl | hpS
      · -- `u` would lie within `c`, which lies strictly below `u`
        have hcp : d.Within p c := by
          rcases hd.eq_or_isDescendant_parent hyc hpar with rfl | h
          · exact .refl _
          · exact .inr h
        rcases hcp with rfl | hcp
        · rw [hd.not_isDescendant_self] at hcu
          cases hcu
        · rw [hd.not_isDescendant_of_isDescendant hcu] at hcp
          cases hcp
      · refine ih p (hd.parent_lt hpar) hpS ?_
        rcases hd.eq_or_isDescendant_parent hyc hpar with rfl | h
        · exact .refl _
        · exact .inr h

theorem not_within_of_fresh (hd : d.Nested) (hp : d.Pending u Q ex S) {c z : Nat}
    (hfresh : ∀ s ∈ S, ¬ d.Within s c) (hz : d.Slated u Q S z) : ¬ d.Within z c := by
  rcases hz with ⟨hz, -⟩ | hz
  · exact hfresh z hz
  · obtain ⟨s, hs, hsz⟩ := hp.covered z hz
    exact fun hzc => hfresh s hs (hd.within_trans hsz hzc)

/-- Entering a slated state, with a child of it already entered when it is compound: its regions,
if it is parallel, are yet to be entered. -/
theorem add (hp : d.Pending u Q none S) {a : Nat} (ha : d.Slated u Q S a)
    (hchild : d.isCompound a = true → ∃ c ∈ (d.state a).children, c ∈ S)
    (hS' : ∀ y, y ∈ S' ↔ y ∈ S ∨ y = a) : d.Pending u Q (some a) S' := by
  have hsub : S ⊆ S' := fun y hy => (hS' y).2 (.inl hy)
  have hsl : ∀ y, d.Slated u Q S' y ↔ d.Slated u Q S y := fun y => by
    refine ⟨fun hy => ?_, fun hy => hy.mono hsub⟩
    rcases hy with ⟨hy, hyu⟩ | hy
    · rcases (hS' y).1 hy with hy | rfl
      · exact .of_mem hy hyu
      · exact ha
    · exact .inr hy
  refine ⟨hp.below, fun y hy p hpar => ?_, fun y z hy hz => ?_, fun y hy => ?_,
    fun y hy hyu hyc => ?_, fun y hy hyu hyp hne => ?_, fun q hq => ?_⟩
  · rw [hsl] at hy ⊢
    exact hp.up y hy p hpar
  · rw [hsl] at hy hz
    exact hp.apart y z hy hz
  · rw [hsl] at hy
    exact hp.not_history y hy
  · rcases (hS' y).1 hy with hy | rfl
    · obtain ⟨c, hc, hcS⟩ := hp.compound y hy hyu hyc
      exact ⟨c, hc, hsub hcS⟩
    · obtain ⟨c, hc, hcS⟩ := hchild hyc
      exact ⟨c, hc, hsub hcS⟩
  · rcases (hS' y).1 hy with hy | rfl
    · exact fun c hc => (hp.parallel y hy hyu hyp (by simp) c hc).mono hsub
    · exact absurd rfl hne
  · obtain ⟨s, hs, hsq⟩ := hp.covered q hq
    exact ⟨s, hsub hs, hsq⟩

theorem release (hp : d.Pending u Q (some a) S)
    (ha : d.isParallel a = true → ∀ c ∈ (d.state a).children, d.Slated u Q S c) :
    d.Pending u Q none S := by
  refine ⟨hp.below, hp.up, hp.apart, hp.not_history, hp.compound, fun y hy hyu hyp _ => ?_,
    hp.covered⟩
  by_cases hya : y = a
  · subst hya
    exact ha hyp
  · exact hp.parallel y hy hyu hyp (by simpa using Ne.symm hya)

/-- Filling a region `c` of a parallel state `a` that is `u` or slated, when nothing entered
lies within `c`, keeps what is pending and slates `c`. -/
theorem fill (hs : d.Shaped) (hp : d.Pending u Q ex S) {a c : Nat} {F : Nat → Prop}
    (ha : d.isParallel a = true) (hc : c ∈ (d.state a).children)
    (hau : a = u ∨ d.Slated u Q S a) (hcu : d.isDescendant c u = true)
    (hfresh : ∀ s ∈ S, ¬ d.Within s c) (hF : d.Fills c F) (hS' : ∀ y, y ∈ S' ↔ y ∈ S ∨ F y) :
    d.Pending u Q ex S' ∧ d.Slated u Q S' c := by
  have hd := hs.nested
  have hsub : S ⊆ S' := fun y hy => (hS' y).2 (.inl hy)
  have hFu : ∀ y, F y → d.isDescendant y u = true := fun y hy => by
    rcases hF.within y hy with rfl | hyc
    · exact hcu
    · exact hd.isDescendant_trans hyc hcu
  have hFs : ∀ y, F y → d.Slated u Q S' y := fun y hy => .of_mem ((hS' y).2 (.inr hy)) (hFu y hy)
  -- a slated state is an old one or one of `F`
  have hsl : ∀ y, d.Slated u Q S' y → d.Slated u Q S y ∨ F y := by
    rintro y (⟨hy, hyu⟩ | hy)
    · exact ((hS' y).1 hy).imp_left fun hy => .of_mem hy hyu
    · exact .inl (.inr hy)
  -- the old slated states do not clash with what fills `c`
  have hcross : ∀ y z, F y → d.Slated u Q S z → ¬ d.Clash y z := fun y z hy hz h => by
    have hzc := hp.not_within_of_fresh hd hfresh hz
    have haz : ¬ d.Clash a z := by
      rcases hau with rfl | hau
      · exact fun h' => hd.not_clash_of_within (.inr (hp.isDescendant hz)) h'.symm
      · exact hp.apart a z hau hz
    exact hs.not_clash_region ha hc haz hzc (hp.not_history z hz) (h.lift hd (hF.within y hy) hzc)
  refine ⟨⟨hp.below, fun y hy p hpar => ?_, fun y z hy hz => ?_, fun y hy => ?_,
    fun y hy hyu hyc => ?_, fun y hy hyu hyp hne => ?_, fun q hq => ?_⟩, hFs c hF.self⟩
  · rcases hsl y hy with hy | hy
    · exact (hp.up y hy p hpar).imp_right fun h => h.mono hsub
    · by_cases hyc : y = c
      · subst hyc
        rw [hd.parent_of_mem_children hc] at hpar
        cases hpar
        exact hau.imp_right fun h => h.mono hsub
      · exact .inr (hFs p (hF.up y hy hyc p hpar))
  · rcases hsl y hy with hy | hy <;> rcases hsl z hz with hz | hz
    · exact hp.apart y z hy hz
    · exact fun h => hcross z y hz hy h.symm
    · exact hcross y z hy hz
    · exact hF.apart y z hy hz
  · rcases hsl y hy with hy | hy
    · exact hp.not_history y hy
    · exact hF.not_history y hy
  · rcases (hS' y).1 hy with hy | hy
    · obtain ⟨c', hc', hcS⟩ := hp.compound y hy hyu hyc
      exact ⟨c', hc', hsub hcS⟩
    · obtain ⟨c', hc', hcF⟩ := hF.compound y hy hyc
      exact ⟨c', hc', (hS' c').2 (.inr hcF)⟩
  · rcases (hS' y).1 hy with hy | hy
    · exact fun c' hc' => (hp.parallel y hy hyu hyp hne c' hc').mono hsub
    · exact fun c' hc' => hFs c' (hF.parallel y hy hyp c' hc')
  · obtain ⟨s, hs, hsq⟩ := hp.covered q hq
    exact ⟨s, hsub hs, hsq⟩

/-- What the targets `xs`, spread below `u`, put in place is pending, with the states between
their anchors and `u` still to come. -/
theorem start (hs : d.Shaped) {xs : List Nat} {G : Nat → Nat → Prop}
    (hxs : d.Spread u xs) (hG : ∀ x ∈ xs, d.Placed x (G x))
    (hS : ∀ y ∈ S, d.isDescendant y u = true → ∃ x ∈ xs, G x y)
    (hGS : ∀ x ∈ xs, ∀ y, G x y → y ∈ S) : d.Pending u (d.Above u xs) none S := by
  have hd := hs.nested
  have hGu : ∀ x ∈ xs, ∀ y, G x y → d.isDescendant y u = true := fun x hx y hy =>
    hd.isDescendant_of_reach (hxs.below x hx) ((hG x hx).reach y hy)
  -- each slated state is put in place by a target or lies around its anchor
  have hside : ∀ y, d.Slated u (d.Above u xs) S y →
      ∃ x ∈ xs, G x y ∨ d.Within (d.anchor x) y := by
    rintro y (⟨hy, hyu⟩ | ⟨-, x, hx, hxy⟩)
    · obtain ⟨x, hx, hxy⟩ := hS y hy hyu
      exact ⟨x, hx, .inl hxy⟩
    · exact ⟨x, hx, .inr hxy⟩
  refine ⟨fun q hq => hq.1, fun y hy p hpar => ?_, fun y z hy hz => ?_, fun y hy => ?_,
    fun y hy hyu hyc => ?_, fun y hy hyu hyp _ => ?_, fun q hq => ?_⟩
  · have hyu : d.isDescendant y u = true := hy.elim (·.2) (·.1)
    refine (hd.eq_or_isDescendant_parent hyu hpar).imp_right fun hpu => ?_
    obtain ⟨x, hx, hxy | hxy⟩ := hside y hy
    · rcases (hG x hx).up y hxy p hpar with hxp | hxp
      · exact .of_mem (hGS x hx p hxp) hpu
      · exact .inr ⟨hpu, x, hx, hxp⟩
    · exact .inr ⟨hpu, x, hx, hd.within_trans hxy (.inr (hd.isDescendant_of_parent hpar))⟩
  · obtain ⟨x, hx, hxy⟩ := hside y hy
    obtain ⟨x', hx', hxz⟩ := hside z hz
    by_cases hxx : x = x'
    · subst hxx
      exact (hG x hx).not_clash hd hxy hxz
    · -- different targets: their anchors are apart and do not clash
      obtain ⟨hap, hcl⟩ := hxs.apart_of_ne hx hx' hxx
      exact hd.not_clash_of_sides hap (hd.not_clash_anchor hcl)
        (hxy.imp_left fun h => within_anchor_of_reach ((hG x hx).reach y h))
        (hxz.imp_left fun h => within_anchor_of_reach ((hG x' hx').reach z h))
  · obtain ⟨x, hx, hxy | hxy⟩ := hside y hy
    · exact (hG x hx).not_history y hxy
    · exact hs.not_history_of_within hxy (hs.anchor_not_history x)
  · obtain ⟨x, hx, hxy⟩ := hS y hy hyu
    obtain ⟨c, hc, hcx⟩ := (hG x hx).compound y hxy hyc
    exact ⟨c, hc, hGS x hx c hcx⟩
  · obtain ⟨x, hx, hxy⟩ := hS y hy hyu
    intro c hc
    have hcx := (hG x hx).parallel y hxy hyp c hc
    exact .of_mem (hGS x hx c hcx) (hGu x hx c hcx)
  · obtain ⟨-, x, hx, hxq⟩ := hq
    obtain ⟨s, hsx, hsa⟩ := (hG x hx).covers
    exact ⟨s, hGS x hx s hsx, hd.within_trans hsa hxq⟩

theorem hangs (hd : d.Nested) (hp : d.Pending u Q none S) (hQ : ∀ q, Q q → q ∈ S) :
    d.Hangs u fun y => y ∈ S ∧ d.isDescendant y u = true := by
  have hsl : ∀ y, d.Slated u Q S y ↔ y ∈ S ∧ d.isDescendant y u = true := fun y =>
    ⟨fun hy => ⟨hy.elim (·.1) (hQ y), hp.isDescendant hy⟩, fun hy => .inl hy⟩
  refine ⟨⟨fun y hy hyc => ?_, fun y hy hyp c hc => ?_, fun y z hy hz => ?_, fun y hy => ?_⟩,
    fun y hy => hy.2, fun y hy p hpar => ?_⟩
  · obtain ⟨c, hc, hcS⟩ := hp.compound y hy.1 hy.2 hyc
    exact ⟨c, hc, hcS,
      hd.isDescendant_trans (hd.isDescendant_of_parent (hd.parent_of_mem_children hc)) hy.2⟩
  · exact (hsl c).1 (hp.parallel y hy.1 hy.2 hyp (by simp) c hc)
  · exact hp.apart y z ((hsl y).2 hy) ((hsl z).2 hz)
  · exact hp.not_history y ((hsl y).2 hy)
  · exact (hp.up y ((hsl y).2 hy) p hpar).imp_right (hsl p).1

end Pending

end Document

end Hsm
