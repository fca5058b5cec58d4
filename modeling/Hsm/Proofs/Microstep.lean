import Hsm.Proofs.Orderly
import Hsm.Proofs.LastRecord
/-!
# A microstep keeps the configuration legal

Exiting below each domain and entering what hangs below it keeps a legal configuration legal when
the domains are compound and lie apart (`Document.Step.legal_after`). Transitions that selection
fires together are such a step (`Selector.Fires.legal_step`), and the records taken on exiting are
spread (`Selector.spreads_recordAll`).
-/

namespace Hsm

namespace Document
variable {d : Document}

theorem lt_size_of_isDescendant {s a : Nat} (h : d.isDescendant s a = true) : s < d.size := by
  refine Nat.lt_of_not_le fun hs => ?_
  have hout : ¬ s < d.states.size := Nat.not_lt.2 hs
  have hnone : (default : StateNode).ancestors = [] := rfl
  simp [isDescendant, state, Array.getD, hout, hnone] at h

theorem Shaped.isCompound_root (hs : d.Shaped) (h : (d.state 0).children ≠ []) :
    d.isCompound 0 = true := by
  simp [isCompound, hs.root_mode, closedMode, h]

/-- A state with something strictly below it in an orderly document has a child: a history
pseudo-state below it has a home at or below it, which stands for states strictly below it. -/
theorem Orderly.children_ne_nil (hs : d.Shaped) (ho : d.Orderly) {x u : Nat}
    (hx : d.isDescendant x u = true) : (d.state u).children ≠ [] := by
  have hchild : ∀ {a}, d.isDescendant a u = true → d.isHistory a = false →
      (d.state u).children ≠ [] := fun ha hah => by
    obtain ⟨c, hc, -⟩ := hs.exists_child_within ha hah
    exact List.ne_nil_of_mem hc
  cases hxh : d.isHistory x with
  | false => exact hchild hx hxh
  | true =>
    obtain ⟨p, hp⟩ := Option.isSome_iff_exists.1 (hs.nested.parent_of_isHistory hxh)
    rcases hs.nested.eq_or_isDescendant_parent hx hp with rfl | hpu
    · -- `x` belongs to `u`: its default transition targets states strictly below `u`
      obtain ⟨dt, rest, hdt⟩ := List.exists_cons_of_ne_nil
        (hs.history_transitions (lt_size_of_isDescendant hx) hxh)
      obtain ⟨hne, hbelow⟩ := ho.history_default x (lt_size_of_isDescendant hx) hxh dt (by simp [hdt])
      obtain ⟨r, hr⟩ := List.exists_mem_of_ne_nil _ hne
      rw [home_eq hp] at hbelow
      obtain ⟨hru, hrh⟩ := hbelow r hr
      cases hrhist : d.isHistory r with
      | false => exact hchild hru hrhist
      | true =>
        -- a history pseudo-state it targets belongs to a state strictly below `x`'s home
        obtain ⟨q, hq⟩ := Option.isSome_iff_exists.1 (hs.nested.parent_of_isHistory hrhist)
        rcases hs.nested.eq_or_isDescendant_parent hru hq with rfl | hqu
        · exact absurd hq (hrh hrhist)
        · exact hchild hqu (hs.parent_not_history hq)
    · exact hchild hpu (hs.parent_not_history hp)

namespace Legal
variable {C : List Nat}

theorem mem_of_isDescendant (hs : d.Shaped) (hL : d.Legal C) {s a : Nat} (hsC : s ∈ C)
    (ha : d.isDescendant s a = true) (ha0 : a ≠ 0) : a ∈ C := by
  induction s using Nat.strongRecOn with
  | ind s ih =>
    obtain ⟨p, hp⟩ := Option.isSome_iff_exists.1 (hs.nested.parent_isSome_of_isDescendant ha)
    have hp0 : p ≠ 0 := by
      rintro rfl
      rcases (hs.nested.isDescendant_iff_of_parent hp).1 ha with rfl | h
      · exact ha0 rfl
      · rw [hs.root_not_isDescendant] at h
        cases h
    have hpC := hL.parent_mem s hsC p hp hp0
    rcases (hs.nested.isDescendant_iff_of_parent hp).1 ha with rfl | h
    · exact hpC
    · exact ih p (hs.nested.parent_lt hp) hpC h

theorem mem_of_within (hs : d.Shaped) (hL : d.Legal C) {s a : Nat} (hsC : s ∈ C)
    (ha : d.Within s a) (ha0 : a ≠ 0) : a ∈ C := by
  rcases ha with rfl | ha
  · exact hsC
  · exact hL.mem_of_isDescendant hs hsC ha ha0

theorem isDescendant_root (hs : d.Shaped) (hL : d.Legal C) {s : Nat} (hsC : s ∈ C) :
    d.isDescendant s 0 = true :=
  hs.anchored.isDescendant_root_of_lt hs.nested (hL.mem s hsC).1 (hL.mem s hsC).2.1

end Legal

theorem Nested.not_clash_of_not_isDescendant (hd : d.Nested) {u a b : Nat}
    (hub : ¬ d.Clash u b) (hau : d.Within a u) (hbu : d.isDescendant b u = false) :
    ¬ d.Clash a b := by
  by_cases hw : d.Within u b
  · exact hd.not_clash_of_within (hd.within_trans hau hw)
  · refine hd.not_clash_within_side ⟨hw, ?_⟩ hub hau (.inl (.refl b))
    rintro (rfl | h)
    · exact hw (.refl _)
    · rw [hbu] at h
      cases h

theorem Nested.not_isDescendant_of_apart (hd : d.Nested) {a b y : Nat} (hab : d.Apart a b)
    (hya : d.isDescendant y a = true) : d.isDescendant y b = false := by
  cases hyb : d.isDescendant y b
  · rfl
  · rcases hd.isDescendant_total hya hyb with rfl | h | h
    · exact absurd (.refl _) hab.1
    · exact absurd (.of_isDescendant h) hab.1
    · exact absurd (.of_isDescendant h) hab.2

/-! ### One microstep -/

/-- A microstep on the legal configuration `C`: the transitions `ts` it fires have domains `dom`,
each an active state or the root, compound, the domains of two of them apart; what `t` enters,
`G t`, hangs below its domain with a child of it, and nothing without a domain. -/
structure Step (d : Document) (C ts : List Nat) (dom : Nat → Option Nat) (G : Nat → Nat → Prop) :
    Prop where
  legal : d.Legal C
  domain_mem : ∀ t ∈ ts, ∀ D, dom t = some D → D = 0 ∨ D ∈ C
  compound : ∀ t ∈ ts, ∀ D, dom t = some D → d.isCompound D = true
  apart : ts.Pairwise fun a b => ∀ Da Db, dom a = some Da → dom b = some Db → d.Apart Da Db
  hangs : ∀ t ∈ ts, ∀ D, dom t = some D → d.Hangs D (G t) ∧ ∃ c ∈ (d.state D).children, G t c
  none : ∀ t ∈ ts, dom t = none → ∀ y, ¬ G t y

def Exits (d : Document) (dom : Nat → Option Nat) (ts : List Nat) (x : Nat) : Prop :=
  ∃ t ∈ ts, ∃ D, dom t = some D ∧ d.isDescendant x D = true

namespace Step
variable {C ts : List Nat} {dom : Nat → Option Nat} {G : Nat → Nat → Prop}

variable (hs : d.Shaped) (hS : d.Step C ts dom G)
include hs hS

omit hs in
theorem apart_of_ne {a b Da Db : Nat} (ha : a ∈ ts) (hb : b ∈ ts) (hab : a ≠ b)
    (hDa : dom a = some Da) (hDb : dom b = some Db) : d.Apart Da Db := by
  have : Std.Symm fun x y : Nat => ∀ Dx Dy, dom x = some Dx → dom y = some Dy → d.Apart Dx Dy :=
    ⟨fun _ _ h Dy Dx hy hx => (h Dx Dy hx hy).symm⟩
  exact hS.apart.forall ha hb hab Da Db hDa hDb

theorem not_exits_domain {t D : Nat} (ht : t ∈ ts) (hD : dom t = some D) :
    ¬ d.Exits dom ts D := by
  rintro ⟨t', ht', D', hD', hbelow⟩
  by_cases htt : t = t'
  · subst htt
    rw [Option.some_inj.1 (hD.symm.trans hD'), hs.nested.not_isDescendant_self] at hbelow
    cases hbelow
  · exact (hS.apart_of_ne ht ht' htt hD hD').1 (.of_isDescendant hbelow)

omit hs in
theorem below_of_entered {t y : Nat} (ht : t ∈ ts) (hy : G t y) :
    ∃ D, dom t = some D ∧ d.isDescendant y D = true := by
  cases hD : dom t with
  | none => exact absurd hy (hS.none t ht hD y)
  | some D => exact ⟨D, rfl, ((hS.hangs t ht D hD).1.below y hy)⟩

omit hS in
theorem not_exits_parent {x p : Nat} (hx : ¬ d.Exits dom ts x)
    (hp : (d.state x).parent = some p) : ¬ d.Exits dom ts p := by
  rintro ⟨t, ht, D, hD, hpD⟩
  exact hx ⟨t, ht, D, hD, (hs.nested.isDescendant_iff_of_parent hp).2 (.inr hpD)⟩

theorem domain_kept {t D : Nat} (ht : t ∈ ts) (hD : dom t = some D) (hD0 : D ≠ 0) :
    D ∈ C ∧ ¬ d.Exits dom ts D :=
  ⟨(hS.domain_mem t ht D hD).resolve_left hD0, hS.not_exits_domain hs ht hD⟩

theorem exists_child {s : Nat} (hsC : s ∈ 0 :: C) (hsx : ¬ d.Exits dom ts s)
    (hc : d.isCompound s = true) :
    ∃ c ∈ (d.state s).children, (c ∈ C ∧ ¬ d.Exits dom ts c) ∨ ∃ t ∈ ts, G t c := by
  obtain ⟨c, hcs, hcC, -⟩ := hS.legal.one_child s hsC hc
  by_cases hcx : d.Exits dom ts c
  · -- its active child is exited, so it is the domain, and the entry gives it a child
    obtain ⟨t, ht, D, hD, hcD⟩ := hcx
    rcases hs.nested.eq_or_isDescendant_parent hcD (hs.nested.parent_of_mem_children hcs) with
      rfl | hsD
    · obtain ⟨c', hc', hGc'⟩ := (hS.hangs t ht s hD).2
      exact ⟨c', hc', .inr ⟨t, ht, hGc'⟩⟩
    · exact absurd ⟨t, ht, D, hD, hsD⟩ hsx
  · exact ⟨c, hcs, .inl ⟨hcC, hcx⟩⟩

theorem not_exits_region {s c : Nat} (hsx : ¬ d.Exits dom ts s)
    (hp : d.isParallel s = true) (hcs : c ∈ (d.state s).children) :
    ¬ d.Exits dom ts c := by
  rintro ⟨t, ht, D, hD, hcD⟩
  rcases hs.nested.eq_or_isDescendant_parent hcD (hs.nested.parent_of_mem_children hcs) with
    rfl | hsD
  · have hcomp := hS.compound t ht s hD
    simp only [isCompound, isParallel, beq_iff_eq] at hcomp hp
    rw [hcomp] at hp
    cases hp
  · exact hsx ⟨t, ht, D, hD, hsD⟩

theorem not_clash_entered_kept {t a b : Nat} (ht : t ∈ ts) (ha : G t a) (hbC : b ∈ C)
    (hbx : ¬ d.Exits dom ts b) : ¬ d.Clash a b := by
  obtain ⟨D, hD, haD⟩ := hS.below_of_entered ht ha
  have hbD : d.isDescendant b D = false := by
    cases h : d.isDescendant b D
    · rfl
    · exact absurd ⟨t, ht, D, hD, h⟩ hbx
  rcases hS.domain_mem t ht D hD with rfl | hDC
  · rw [hS.legal.isDescendant_root hs hbC] at hbD
    cases hbD
  · exact hs.nested.not_clash_of_not_isDescendant (hS.legal.apart hs.nested D hDC b hbC)
      (.of_isDescendant haD) hbD

/-- States entered for two transitions clash with each other no more than their domains do. -/
theorem not_clash_entered {t t' a b : Nat} (ht : t ∈ ts) (ht' : t' ∈ ts) (ha : G t a)
    (hb : G t' b) : ¬ d.Clash a b := by
  by_cases htt : t = t'
  · subst htt
    obtain ⟨D, hD, -⟩ := hS.below_of_entered ht ha
    exact (hS.hangs t ht D hD).1.apart a b ha hb
  · obtain ⟨D, hD, haD⟩ := hS.below_of_entered ht ha
    obtain ⟨D', hD', hbD'⟩ := hS.below_of_entered ht' hb
    have hap := hS.apart_of_ne ht ht' htt hD hD'
    -- two domains apart are both active: the root contains every state
    have hDC : ∀ {D₁ D₂ t₁}, t₁ ∈ ts → dom t₁ = some D₁ → d.Apart D₁ D₂ → D₂ = 0 ∨ D₂ ∈ C →
        D₁ ∈ C := fun ht₁ hD₁ hap₁ hD₂ => by
      rcases hS.domain_mem _ ht₁ _ hD₁ with rfl | h
      · rcases hD₂ with rfl | hD₂
        · exact absurd (.refl _) hap₁.1
        · exact absurd (.of_isDescendant (hS.legal.isDescendant_root hs hD₂)) hap₁.2
      · exact h
    have hDin := hDC ht hD hap (hS.domain_mem t' ht' D' hD')
    have hD'in := hDC ht' hD' hap.symm (hS.domain_mem t ht D hD)
    exact hs.nested.not_clash_within_side hap (hS.legal.apart hs.nested D hDin D' hD'in)
      (.of_isDescendant haD) (.inl (.of_isDescendant hbD'))

/-- After the microstep the configuration, the states kept and those entered, is legal. -/
theorem legal_after {C' : List Nat}
    (hC' : ∀ x, x ∈ C' ↔ (x ∈ C ∧ ¬ d.Exits dom ts x) ∨ ∃ t ∈ ts, G t x) :
    d.Legal C' := by
  refine Legal.of_apart hs (fun x hx => ?_) (fun x hx p hp hp0 => ?_) (fun s hs' hc => ?_)
    (fun s hs' hp c hc => ?_) (fun a ha b hb => ?_)
  · -- a state entered lies strictly below its domain
    rcases (hC' x).1 hx with ⟨hxC, -⟩ | ⟨t, ht, hx⟩
    · exact hS.legal.mem x hxC
    · obtain ⟨D, hD, hxD⟩ := hS.below_of_entered ht hx
      refine ⟨Nat.pos_of_ne_zero fun h => ?_, lt_size_of_isDescendant hxD,
        (hS.hangs t ht D hD).1.not_history x hx⟩
      rw [h, hs.root_not_isDescendant] at hxD
      cases hxD
  · rw [hC']
    rcases (hC' x).1 hx with ⟨hxC, hxx⟩ | ⟨t, ht, hx⟩
    · exact .inl ⟨hS.legal.parent_mem x hxC p hp hp0, not_exits_parent hs hxx hp⟩
    · obtain ⟨D, hD, -⟩ := hS.below_of_entered ht hx
      rcases (hS.hangs t ht D hD).1.up x hx p hp with rfl | hGp
      · exact .inl (hS.domain_kept hs ht hD hp0)
      · exact .inr ⟨t, ht, hGp⟩
  · -- the root and every kept compound state keep a child, or the entry gives one
    have hkept : (s ∈ 0 :: C ∧ ¬ d.Exits dom ts s) ∨ ∃ t ∈ ts, G t s := by
      rcases List.mem_cons.1 hs' with rfl | hs'
      · refine .inl ⟨List.mem_cons_self, ?_⟩
        rintro ⟨t, -, D, -, h0⟩
        rw [hs.root_not_isDescendant] at h0
        cases h0
      · rcases (hC' s).1 hs' with ⟨hsC, hsx⟩ | hG
        · exact .inl ⟨List.mem_cons_of_mem _ hsC, hsx⟩
        · exact .inr hG
    rcases hkept with ⟨hsC, hsx⟩ | ⟨t, ht, hGs⟩
    · obtain ⟨c, hcs, hc'⟩ := hS.exists_child hs hsC hsx hc
      exact ⟨c, hcs, (hC' c).2 hc'⟩
    · obtain ⟨D, hD, -⟩ := hS.below_of_entered ht hGs
      obtain ⟨c, hcs, hGc⟩ := (hS.hangs t ht D hD).1.compound s hGs hc
      exact ⟨c, hcs, (hC' c).2 (.inr ⟨t, ht, hGc⟩)⟩
  · rw [hC']
    rcases (hC' s).1 hs' with ⟨hsC, hsx⟩ | ⟨t, ht, hGs⟩
    · exact .inl ⟨hS.legal.all_children s hsC hp c hc, hS.not_exits_region hs hsx hp hc⟩
    · obtain ⟨D, hD, -⟩ := hS.below_of_entered ht hGs
      exact .inr ⟨t, ht, (hS.hangs t ht D hD).1.parallel s hGs hp c hc⟩
  · rcases (hC' a).1 ha with ⟨haC, hax⟩ | ⟨t, ht, hGa⟩ <;>
      rcases (hC' b).1 hb with ⟨hbC, hbx⟩ | ⟨t', ht', hGb⟩
    · exact hS.legal.apart hs.nested a haC b hbC
    · exact fun h => hS.not_clash_entered_kept hs ht' hGb haC hax h.symm
    · exact hS.not_clash_entered_kept hs ht hGa hbC hbx
    · exact hS.not_clash_entered hs ht ht' hGa hGb

end Step

/-- Entering, from no configuration at all, a set hanging below the root with a child of it
gives a legal configuration. -/
theorem legal_of_hangs_root (hs : d.Shaped) {F : Nat → Prop} (hF : d.Hangs 0 F)
    (hc : ∃ c ∈ (d.state 0).children, F c) {C' : List Nat} (hC' : ∀ x, x ∈ C' ↔ F x) :
    d.Legal C' := by
  refine Legal.of_apart hs (fun x hx => ?_) (fun x hx p hp hp0 => ?_) (fun s hs' hcomp => ?_)
    (fun s hs' hp c hc => ?_) (fun a ha b hb => hF.apart a b ((hC' a).1 ha) ((hC' b).1 hb))
  · have hx0 := hF.below x ((hC' x).1 hx)
    refine ⟨Nat.pos_of_ne_zero fun h => ?_, lt_size_of_isDescendant hx0,
      hF.not_history x ((hC' x).1 hx)⟩
    rw [h, hs.root_not_isDescendant] at hx0
    cases hx0
  · exact (hC' p).2 ((hF.up x ((hC' x).1 hx) p hp).resolve_left hp0)
  · rcases List.mem_cons.1 hs' with rfl | hs'
    · obtain ⟨c, hc, hFc⟩ := hc
      exact ⟨c, hc, (hC' c).2 hFc⟩
    · obtain ⟨c, hc, hFc⟩ := hF.compound s ((hC' s).1 hs') hcomp
      exact ⟨c, hc, (hC' c).2 hFc⟩
  · exact (hC' c).2 (hF.parallel s ((hC' s).1 hs') hp c hc)

theorem ne_zero_of_mem_properAncestors {s a : Nat} (h : a ∈ d.properAncestors s none) :
    a ≠ 0 := by
  simp only [properAncestors] at h
  simpa using List.mem_takeWhile_imp h

/-- The sorted states of a list lie spread below `u` when there are some, all strictly below
`u`, none a history pseudo-state, and any two of them lie apart without clashing. -/
theorem spread_sort {u : Nat} {L : List Nat} (hne : L ≠ [])
    (hbelow : ∀ x ∈ L, d.isDescendant x u = true) (hplain : ∀ x ∈ L, d.isHistory x = false)
    (hapart : ∀ x ∈ L, ∀ y ∈ L, x ≠ y → d.Apart x y ∧ ¬ d.Clash x y) :
    d.Spread u L.toFinset.sort := by
  have hmem : ∀ {x}, x ∈ L.toFinset.sort ↔ x ∈ L := by simp
  refine ⟨?_, fun x hx => hbelow x (hmem.1 hx), ?_⟩
  · obtain ⟨x, hx⟩ := List.exists_mem_of_ne_nil _ hne
    exact List.ne_nil_of_mem (hmem.2 hx)
  · refine (Finset.sort_nodup _ _).pairwise_of_forall_ne fun x hx y hy hxy => ?_
    rw [anchor_of_not_isHistory (hplain x (hmem.1 hx)), anchor_of_not_isHistory (hplain y (hmem.1 hy))]
    exact hapart x (hmem.1 hx) y (hmem.1 hy) hxy

namespace Legal
variable {C : List Nat}

/-- Every active state holds an active atomic state within it: a compound or parallel one has
an active child, and one without children is atomic. -/
theorem exists_atomic_within (hs : d.Shaped) (ho : d.Orderly) (hL : d.Legal C) {st : Nat}
    (hst : st ∈ C) : ∃ r ∈ C, d.isAtomic r = true ∧ d.Within r st := by
  induction hn : d.headroom st using Nat.strongRecOn generalizing st with
  | ind n ih =>
    have hsz := (hL.mem st hst).2.1
    by_cases hcp : d.isCompound st = true ∨ d.isParallel st = true
    · -- descend into an active child
      obtain ⟨c, hc, hcC⟩ : ∃ c ∈ (d.state st).children, c ∈ C := by
        rcases hcp with hcomp | hpar
        · obtain ⟨c, hc, hcC, -⟩ := hL.one_child st (List.mem_cons_of_mem _ hst) hcomp
          exact ⟨c, hc, hcC⟩
        · obtain ⟨c, hc⟩ := List.exists_mem_of_ne_nil _ ((ho.children_iff st hsz).2 (.inr hpar))
          exact ⟨c, hc, hL.all_children st hst hpar c hc⟩
      have hcp' := hs.nested.parent_of_mem_children hc
      have hlt : d.headroom c < n := by
        have := hs.nested.headroom_parent hcp'
        omega
      obtain ⟨r, hrC, hra, hrc⟩ := ih _ hlt hcC rfl
      exact ⟨r, hrC, hra, hs.nested.within_trans hrc (.of_isDescendant (hs.nested.isDescendant_of_parent hcp'))⟩
    · -- a state without children has nothing below it
      refine ⟨st, hst, ?_, .refl st⟩
      have hnil : (d.state st).children = [] := by
        by_contra hne
        exact hcp ((ho.children_iff st hsz).1 hne)
      have hbelow : d.statesBelow st = [] := by
        refine List.eq_nil_iff_forall_not_mem.2 fun y hy => ?_
        obtain ⟨-, hyst, hyh⟩ := mem_statesBelow.1 hy
        obtain ⟨c, hc, -⟩ := hs.exists_child_within hyst hyh
        simp [hnil] at hc
      simp only [not_or, Bool.not_eq_true] at hcp
      simp [isAtomic, hs.descendants_eq hsz, hbelow, isParallel] at hcp ⊢
      simpa using hcp.2

end Legal

end Document

namespace Selector
variable {sel : Selector}

namespace Orderly
variable (ho : sel.Orderly)
include ho

theorem domain_eq_none_iff (t : Nat) :
    sel.domain t = none ↔ (sel.doc.transition t).targets = [] := by
  cases hD : sel.domain t with
  | some D => simpa using (ho.domain_spec hD).1
  | none =>
    simp only [true_iff]
    unfold domain at hD
    simp only [ho.effectiveTargets_isEmpty] at hD
    split at hD
    · rename_i h
      simpa using h
    · split at hD <;> cases hD

/-- Entering transitions one after another, each listed by some state, none twice, with
domains below which no state lies twice: each transition with a domain enters a set hanging
below it with a child of it, and the entry holds exactly what was there and these sets. -/
theorem steps_entries {ts : List Nat} {e e' : EntrySet}
    (hlisted : ∀ t ∈ ts, ∃ s < sel.doc.size,
      t ∈ (sel.doc.state s).initial.toList ++ (sel.doc.state s).transitions)
    (hdisj : ts.Pairwise fun a b => ∀ Da Db, sel.domain a = some Da → sel.domain b = some Db →
      ∀ y, sel.doc.isDescendant y Da = true → sel.doc.isDescendant y Db = false)
    (hfresh : ∀ y ∈ e.states.items, ∀ t ∈ ts, ∀ D, sel.domain t = some D →
      sel.doc.isDescendant y D = false)
    (hnd : ts.Nodup) (h : Steps sel.Does (ts.flatMap sel.entryCalls) e e') :
    ∃ G : Nat → Nat → Prop, (∀ y, y ∈ e'.states.items ↔ y ∈ e.states.items ∨ ∃ t ∈ ts, G t y) ∧
      ∀ t ∈ ts, (sel.domain t = none → ∀ y, ¬ G t y) ∧ ∀ D, sel.domain t = some D →
        sel.doc.Hangs D (G t) ∧ ∃ c ∈ (sel.doc.state D).children, G t c := by
  induction ts generalizing e with
  | nil =>
    rw [List.flatMap_nil] at h
    obtain rfl := Steps.nil_eq h
    exact ⟨fun _ _ => False, fun y => by simp, fun t ht => absurd ht List.not_mem_nil⟩
  | cons t rest ih =>
    rw [List.flatMap_cons] at h
    obtain ⟨e₁, h₁, h₂⟩ := h.append
    -- what `t` enters: nothing without a domain, a set hanging below its domain otherwise
    obtain ⟨F, hF, hFnone, hFsome⟩ : ∃ F : Nat → Prop, e.Adds F e₁ ∧
        (sel.domain t = none → ∀ y, ¬ F y) ∧ ∀ D, sel.domain t = some D →
          sel.doc.Hangs D F ∧ ∃ c ∈ (sel.doc.state D).children, F c := by
      cases hD : sel.domain t with
      | none =>
        rw [ho.entryCalls_of_targets_eq_nil ((ho.domain_eq_none_iff t).1 hD)] at h₁
        obtain rfl := Steps.nil_eq h₁
        exact ⟨fun _ => False, fun y => by simp, fun _ _ h => h, fun D h => by cases h⟩
      | some D =>
        obtain ⟨s, hs, hts⟩ := hlisted t List.mem_cons_self
        obtain ⟨F, hF, hhang⟩ := ho.steps_entryCalls hs hts hD
          (fun y hy => hfresh y hy t List.mem_cons_self D hD) h₁
        refine ⟨F, hF, fun h => absurd h (Option.some_ne_none D), fun D' hD' => ?_⟩
        obtain rfl := Option.some_inj.1 hD'
        exact hhang
    -- the others enter on top of it, below domains apart from `t`'s
    have hfresh₁ : ∀ y ∈ e₁.states.items, ∀ t' ∈ rest, ∀ D, sel.domain t' = some D →
        sel.doc.isDescendant y D = false := by
      intro y hy t' ht' D' hD'
      rcases (hF y).1 hy with hy | hy
      · exact hfresh y hy t' (List.mem_cons_of_mem _ ht') D' hD'
      · cases hD : sel.domain t with
        | none => exact absurd hy (hFnone hD y)
        | some D =>
          exact (List.pairwise_cons.1 hdisj).1 t' ht' D D' hD hD' y
            ((hFsome D hD).1.below y hy)
    obtain ⟨G, hG, hGt⟩ := ih (fun t' ht' => hlisted t' (List.mem_cons_of_mem _ ht'))
      (List.pairwise_cons.1 hdisj).2 hfresh₁ (List.nodup_cons.1 hnd).2 h₂
    have hne : ∀ t' ∈ rest, t' ≠ t := fun t' ht' h => (List.nodup_cons.1 hnd).1 (h ▸ ht')
    refine ⟨fun t' y => if t' = t then F y else G t' y, fun y => ?_, fun t' ht' => ?_⟩
    · rw [hG, hF]
      simp only [List.mem_cons, exists_eq_or_imp]
      have hrest : (∃ t' ∈ rest, (if t' = t then F y else G t' y)) ↔ ∃ t' ∈ rest, G t' y :=
        ⟨fun ⟨t', ht', h⟩ => ⟨t', ht', by rwa [if_neg (hne t' ht')] at h⟩,
          fun ⟨t', ht', h⟩ => ⟨t', ht', by rwa [if_neg (hne t' ht')]⟩⟩
      rw [hrest]
      tauto
    · rcases List.mem_cons.1 ht' with rfl | ht'
      · simp only
        exact ⟨hFnone, hFsome⟩
      · simp only [if_neg (hne t' ht')]
        exact hGt t' ht'

/-- Entering the root's default targets from no configuration at all gives a legal
configuration: the root's default transition leaves the root, so its domain is the root. -/
theorem legal_initial {i : Nat} (hi : (sel.doc.state 0).initial = some i) {C' : List Nat}
    (hC' : ∀ x, x ∈ C' ↔ x ∈ (sel.entrySet [i]).states.items) : sel.doc.Legal C' := by
  have hsz := Document.lt_size_of_initial hi
  have hD : sel.domain i = some 0 := by
    cases hD : sel.domain i with
    | none => exact absurd ((ho.domain_eq_none_iff i).1 hD) (ho.shaped.initial_targets hi)
    | some D =>
      obtain ⟨-, -, hsrc, -⟩ := ho.domain_spec hD
      rw [ho.orderly.initial_source 0 hsz i hi] at hsrc
      rcases hsrc with rfl | rfl | h
      · rfl
      · rfl
      · rw [ho.shaped.root_not_isDescendant] at h
        cases h
  have h := ho.steps_entrySet [i]
  rw [List.flatMap_singleton] at h
  obtain ⟨F, hF, hhang, hchild⟩ := ho.steps_entryCalls hsz (by simp [hi]) hD
    (fun y hy => by cases hy) h
  exact Document.legal_of_hangs_root ho.shaped hhang hchild fun x => by
    rw [hC', hF x]
    simp

end Orderly

/-- Transitions that may fire together from the selector's configuration: none twice, each
picked by an active atomic state, and no two exiting a common state. -/
structure Fires (sel : Selector) (ts : List Nat) : Prop where
  nodup : ts.Nodup
  picks : ∀ t ∈ ts, ∃ s, sel.Picks s t
  conflictFree : sel.ConflictFree ⟨ts⟩

theorem fires_of_select {d : Data} {e : Event} {q : TransitionNode → Bool} {r : OrderedSet Nat}
    (h : sel.select d e q = .ok r) : sel.Fires r.items := by
  obtain ⟨en, hen, hr⟩ := except_bind_ok h
  obtain rfl : sel.removeConflicts en = r := Except.ok.inj hr
  refine ⟨nodup_foldl_keep _ List.nodup_nil, fun t ht => ?_, conflictFree_removeConflicts en⟩
  rcases mem_foldl_keep _ List.nodup_nil ht with ht | ht
  · cases ht
  · exact (enabled_picks hen).2 t ht

theorem fires_single {s t : Nat} (h : sel.Picks s t) : sel.Fires [t] :=
  ⟨List.nodup_singleton t, fun _ ht' => ⟨s, List.mem_singleton.1 ht' ▸ h⟩,
    fun _ ha _ hb hab => absurd ((List.mem_singleton.1 ha).trans (List.mem_singleton.1 hb).symm) hab⟩

namespace Fires
variable {ts : List Nat} (ho : sel.Orderly) (hL : sel.doc.Legal sel.configuration.items)
  (hf : sel.Fires ts)
include ho hL hf

theorem source_mem {t : Nat} (ht : t ∈ ts) :
    (sel.doc.transition t).source ∈ sel.configuration.items ∧
      t ∈ (sel.doc.state (sel.doc.transition t).source).transitions := by
  obtain ⟨s, hsC, -, level, hlevel, htl⟩ := hf.picks t ht
  rw [ho.shaped.anchored.source_eq htl]
  refine ⟨?_, htl⟩
  rcases List.mem_cons.1 hlevel with rfl | hlevel
  · exact hsC
  · exact hL.mem_of_isDescendant ho.shaped hsC
      (Document.Nested.mem_ancestors_of_mem_properAncestors hlevel)
      (Document.ne_zero_of_mem_properAncestors hlevel)

theorem listed {t : Nat} (ht : t ∈ ts) : ∃ s < sel.doc.size,
    t ∈ (sel.doc.state s).initial.toList ++ (sel.doc.state s).transitions := by
  obtain ⟨hsrc, htl⟩ := hf.source_mem ho hL ht
  exact ⟨_, (hL.mem _ hsrc).2.1, List.mem_append_right _ htl⟩

theorem domain_mem {t D : Nat} (ht : t ∈ ts) (hD : sel.domain t = some D) :
    (D = 0 ∨ D ∈ sel.configuration.items) ∧ sel.doc.isCompound D = true := by
  obtain ⟨hne, hcr, hsrc, hbelow⟩ := ho.domain_spec hD
  refine ⟨?_, ?_⟩
  · rcases hsrc with rfl | hsD
    · exact .inl rfl
    · by_cases hD0 : D = 0
      · exact .inl hD0
      · exact .inr (hL.mem_of_within ho.shaped (hf.source_mem ho hL ht).1 hsD hD0)
  · -- the root is compound, as the targets lie below it
    simp only [Document.isCompoundOrRoot, Bool.or_eq_true, beq_iff_eq] at hcr
    rcases hcr with rfl | hc
    · obtain ⟨x, hx⟩ := List.exists_mem_of_ne_nil _ hne
      exact ho.shaped.isCompound_root (ho.orderly.children_ne_nil ho.shaped (hbelow x hx))
    · exact hc

/-- The domains of two fired transitions lie apart: an active child of the inner one would be
exited by both. -/
theorem apart_domains {a b Da Db : Nat} (ha : a ∈ ts) (hb : b ∈ ts) (hab : a ≠ b)
    (hDa : sel.domain a = some Da) (hDb : sel.domain b = some Db) : sel.doc.Apart Da Db := by
  have hinner : ∀ {a b Da Db}, a ∈ ts → b ∈ ts → a ≠ b → sel.domain a = some Da →
      sel.domain b = some Db → ¬ sel.doc.Within Db Da := by
    intro a b Da Db ha hb hab hDa hDb hw
    obtain ⟨hmem, hcomp⟩ := hf.domain_mem ho hL hb hDb
    have hDb0 : Db ∈ 0 :: sel.configuration.items := by
      rcases hmem with rfl | h
      · exact List.mem_cons_self
      · exact List.mem_cons_of_mem _ h
    obtain ⟨c, hc, hcC, -⟩ := hL.one_child Db hDb0 hcomp
    have hcDb := ho.shaped.nested.isDescendant_of_parent (ho.shaped.nested.parent_of_mem_children hc)
    have hcDa : sel.doc.isDescendant c Da = true := by
      rcases hw with rfl | hw
      · exact hcDb
      · exact ho.shaped.nested.isDescendant_trans hcDb hw
    have hboth := OrderedSet.intersects_iff.2 ⟨c,
      sel.mem_exitSet_single.2 ⟨(ho.domain_spec hDa).1, Da, hDa, hcC, hcDa⟩,
      sel.mem_exitSet_single.2 ⟨(ho.domain_spec hDb).1, Db, hDb, hcC, hcDb⟩⟩
    rw [hf.conflictFree a ha b hb hab] at hboth
    cases hboth
  exact ⟨hinner hb ha (Ne.symm hab) hDb hDa, hinner ha hb hab hDa hDb⟩

omit hL hf in
theorem mem_exitSet_iff {x : Nat} :
    x ∈ (sel.exitSet ts).items ↔
      x ∈ sel.configuration.items ∧ sel.doc.Exits sel.domain ts x := by
  rw [mem_exitSet]
  constructor
  · rintro ⟨t, ht, hx⟩
    obtain ⟨-, D, hD, hxC, hxD⟩ := sel.mem_exitSet_single.1 hx
    exact ⟨hxC, t, ht, D, hD, hxD⟩
  · rintro ⟨hxC, t, ht, D, hD, hxD⟩
    exact ⟨t, ht, sel.mem_exitSet_single.2 ⟨(ho.domain_spec hD).1, D, hD, hxC, hxD⟩⟩

/-- Transitions fired together from a legal configuration of an orderly document make a
microstep (`Document.Step`) whose entries are what the entry walk on `sel₁`, after the exits,
collects. -/
theorem step {sel₁ : Selector} (ho₁ : sel₁.Orderly) (hdoc : sel₁.doc = sel.doc) :
    ∃ G : Nat → Nat → Prop, sel.doc.Step sel.configuration.items ts sel.domain G ∧
      ∀ y, y ∈ (sel₁.entrySet ts).states.items ↔ ∃ t ∈ ts, G t y := by
  have hdom : ∀ t, sel₁.domain t = sel.domain t := ho.domain_eq ho₁ hdoc
  have hdisj : ts.Pairwise fun a b => ∀ Da Db, sel₁.domain a = some Da →
      sel₁.domain b = some Db → ∀ y, sel₁.doc.isDescendant y Da = true →
        sel₁.doc.isDescendant y Db = false := by
    refine hf.nodup.pairwise_of_forall_ne fun a ha b hb hab Da Db hDa hDb y hy => ?_
    rw [hdom] at hDa hDb
    rw [hdoc] at hy ⊢
    exact ho.shaped.nested.not_isDescendant_of_apart (hf.apart_domains ho hL ha hb hab hDa hDb) hy
  obtain ⟨G, hG, hGt⟩ := ho₁.steps_entries (by rw [hdoc]; exact fun t ht => hf.listed ho hL ht)
    hdisj (fun y hy => by cases hy) hf.nodup (ho₁.steps_entrySet ts)
  refine ⟨G, ⟨hL, fun t ht D hD => (hf.domain_mem ho hL ht hD).1,
    fun t ht D hD => (hf.domain_mem ho hL ht hD).2,
    hf.nodup.pairwise_of_forall_ne fun a ha b hb hab Da Db hDa hDb =>
      hf.apart_domains ho hL ha hb hab hDa hDb, fun t ht D hD => ?_, fun t ht hD => ?_⟩,
    fun y => by simp [hG]⟩
  · rw [← hdoc]
    exact (hGt t ht).2 D ((hdom t).trans hD)
  · exact (hGt t ht).1 ((hdom t).trans hD)

/-- Transitions fired together from a legal configuration of an orderly document keep it legal:
the states kept, with those the transitions enter under any spread records, make a legal
configuration. -/
theorem legal_step {sel₁ : Selector} (ho₁ : sel₁.Orderly) (hdoc : sel₁.doc = sel.doc)
    {C' : List Nat}
    (hC' : ∀ x, x ∈ C' ↔ (x ∈ sel.configuration.items ∧ x ∉ (sel.exitSet ts).items) ∨
      x ∈ (sel₁.entrySet ts).states.items) :
    sel.doc.Legal C' := by
  obtain ⟨G, hstep, hG⟩ := hf.step ho hL ho₁ hdoc
  refine hstep.legal_after ho.shaped fun x => ?_
  rw [hC', hG, mem_exitSet_iff ho]
  tauto

theorem exits_of_entered {sel₁ : Selector} (ho₁ : sel₁.Orderly) (hdoc : sel₁.doc = sel.doc)
    {x : Nat} (hx : x ∈ (sel₁.entrySet ts).states.items) (hxC : x ∈ sel.configuration.items) :
    x ∈ (sel.exitSet ts).items := by
  obtain ⟨G, hstep, hG⟩ := hf.step ho hL ho₁ hdoc
  obtain ⟨t, ht, hGx⟩ := (hG x).1 hx
  obtain ⟨D, hD, hxD⟩ := hstep.below_of_entered ht hGx
  exact (mem_exitSet_iff ho).2 ⟨hxC, t, ht, D, hD, hxD⟩

theorem entered_not_kept {sel₁ : Selector} (ho₁ : sel₁.Orderly) (hdoc : sel₁.doc = sel.doc)
    (hconf : sel₁.configuration.items =
      sel.configuration.items.filter (· ∉ (sel.exitSet ts).items))
    {x : Nat} (hx : x ∈ (sel₁.entrySet ts).states.items) : x ∉ sel₁.configuration.items := by
  rw [hconf, List.mem_filter, decide_eq_true_iff]
  exact fun ⟨hxC, hxk⟩ => hxk (hf.exits_of_entered ho hL ho₁ hdoc hx hxC)

end Fires

/-! ### Records taken on exiting -/

/-- The records exiting takes: for each state the transitions `ts` exit and each of its history
pseudo-states, what that history pseudo-state remembers of the configuration before the exits. -/
def exitRecords (sel : Selector) (ts : List Nat) : List (Nat × HistoryKind × List Nat) :=
  (sel.exitSet ts).items.flatMap fun st => (sel.doc.state st).history.filterMap fun h =>
    (sel.doc.historyKind? h).map fun k => (h, k, sel.historySnapshot st k)

theorem mem_exitRecords {ts : List Nat} {r : Nat × HistoryKind × List Nat}
    (hr : r ∈ sel.exitRecords ts) : ∃ st ∈ (sel.exitSet ts).items,
      r.1 ∈ (sel.doc.state st).history ∧ r.2.2 = sel.historySnapshot st r.2.1 := by
  simp only [exitRecords, List.mem_flatMap, List.mem_filterMap, Option.map_eq_some_iff] at hr
  obtain ⟨st, hst, h, hh, k, -, rfl⟩ := hr
  exact ⟨st, hst, hh, rfl⟩

theorem mem_configuration_of_mem_exitSet {ts : List Nat} {x : Nat}
    (hx : x ∈ (sel.exitSet ts).items) : x ∈ sel.configuration.items := by
  obtain ⟨t, -, hxt⟩ := sel.mem_exitSet.1 hx
  obtain ⟨-, -, -, hxC, -⟩ := sel.mem_exitSet_single.1 hxt
  exact hxC

theorem mem_historySnapshot {st : Nat} {k : HistoryKind} {r : Nat} :
    r ∈ sel.historySnapshot st k ↔ r ∈ sel.configuration.items ∧
      match k with
      | .deep => sel.doc.isAtomic r = true ∧ sel.doc.isDescendant r st = true
      | .shallow => (sel.doc.state r).parent = some st := by
  cases k <;> simp [historySnapshot]

/-- What a history pseudo-state of an active compound or parallel state remembers lies spread
below that state: its active children, or the active atomic states below it, which never lie
one within another. -/
theorem spread_historySnapshot (hs : sel.doc.Shaped) (hod : sel.doc.Orderly)
    (hL : sel.doc.Legal sel.configuration.items) {st : Nat} (hst : st ∈ sel.configuration.items)
    (hcp : sel.doc.isCompound st = true ∨ sel.doc.isParallel st = true) (k : HistoryKind) :
    sel.doc.Spread st (sel.historySnapshot st k).toFinset.sort := by
  have hplain : ∀ r ∈ sel.historySnapshot st k, sel.doc.isHistory r = false := fun r hr =>
    (hL.mem r (mem_historySnapshot.1 hr).1).2.2
  have hclash : ∀ x ∈ sel.historySnapshot st k, ∀ y ∈ sel.historySnapshot st k,
      ¬ sel.doc.Clash x y := fun x hx y hy =>
    hL.apart hs.nested x (mem_historySnapshot.1 hx).1 y (mem_historySnapshot.1 hy).1
  cases k with
  | shallow =>
    refine Document.spread_sort ?_ (fun x hx => ?_) hplain fun x hx y hy hxy => ⟨⟨fun h => ?_,
      fun h => ?_⟩, hclash x hx y hy⟩
    · -- an active child
      obtain ⟨c, hc, hcC⟩ : ∃ c ∈ (sel.doc.state st).children, c ∈ sel.configuration.items := by
        rcases hcp with hcomp | hpar
        · obtain ⟨c, hc, hcC, -⟩ := hL.one_child st (List.mem_cons_of_mem _ hst) hcomp
          exact ⟨c, hc, hcC⟩
        · obtain ⟨c, hc⟩ := List.exists_mem_of_ne_nil _
            ((hod.children_iff st (hL.mem st hst).2.1).2 (.inr hpar))
          exact ⟨c, hc, hL.all_children st hst hpar c hc⟩
      exact List.ne_nil_of_mem (mem_historySnapshot.2 ⟨hcC, hs.nested.parent_of_mem_children hc⟩)
    · exact hs.nested.isDescendant_of_parent (mem_historySnapshot.1 hx).2
    · -- two children of one state lie one within the other only when equal
      have hxc := hs.mem_children.2 ⟨(hL.mem x (mem_historySnapshot.1 hx).1).2.1,
        (mem_historySnapshot.1 hx).2, hplain x hx⟩
      have hyc := hs.mem_children.2 ⟨(hL.mem y (mem_historySnapshot.1 hy).1).2.1,
        (mem_historySnapshot.1 hy).2, hplain y hy⟩
      exact hxy (hs.nested.eq_of_within_children hxc hyc h)
    · have hxc := hs.mem_children.2 ⟨(hL.mem x (mem_historySnapshot.1 hx).1).2.1,
        (mem_historySnapshot.1 hx).2, hplain x hx⟩
      have hyc := hs.mem_children.2 ⟨(hL.mem y (mem_historySnapshot.1 hy).1).2.1,
        (mem_historySnapshot.1 hy).2, hplain y hy⟩
      exact hxy (hs.nested.eq_of_within_children hyc hxc h).symm
  | deep =>
    -- an atomic state has nothing below it, so two of them lie one within the other only when
    -- equal
    have hnot : ∀ x ∈ sel.historySnapshot st .deep, ∀ y ∈ sel.historySnapshot st .deep,
        ¬ sel.doc.isDescendant x y = true := fun x hx y hy hxy => by
      have hya := (mem_historySnapshot.1 hy).2.1
      have hxy' : x ∈ (sel.doc.state y).descendants := by
        rw [hs.descendants_eq (hL.mem y (mem_historySnapshot.1 hy).1).2.1]
        exact Document.mem_statesBelow.2 ⟨(hL.mem x (mem_historySnapshot.1 hx).1).2.1, hxy,
          hplain x hx⟩
      simp [Document.isAtomic, List.isEmpty_iff, List.ne_nil_of_mem hxy'] at hya
    refine Document.spread_sort ?_ (fun x hx => (mem_historySnapshot.1 hx).2.2) hplain
      fun x hx y hy hxy => ⟨⟨?_, ?_⟩, hclash x hx y hy⟩
    · obtain ⟨r, hrC, hra, hrst⟩ := hL.exists_atomic_within hs hod hst
      -- a compound or parallel state is not atomic, so the atomic state lies strictly below it
      have hne : r ≠ st := by
        rintro rfl
        rcases hcp with hcomp | hpar
        · have hdesc := hs.anchored.descendants_ne_nil (by simpa [Document.isCompound] using hcomp)
          simp [Document.isAtomic, List.isEmpty_iff, hdesc] at hra
        · simp only [Document.isParallel, beq_iff_eq] at hpar
          simp [Document.isAtomic, hpar] at hra
      rcases hrst with rfl | hrst
      · exact absurd rfl hne
      · exact List.ne_nil_of_mem (mem_historySnapshot.2 ⟨hrC, hra, hrst⟩)
    · rintro (rfl | h)
      · exact hxy rfl
      · exact hnot x hx y hy h
    · rintro (rfl | h)
      · exact hxy rfl
      · exact hnot y hy x hx h

/-- Records taken on exiting from a legal configuration of an orderly document keep the records
spread: each is taken for a history pseudo-state of an exited state, which has child states. -/
theorem spreads_recordAll (hs : sel.doc.Shaped) (hod : sel.doc.Orderly)
    (hL : sel.doc.Legal sel.configuration.items) {H : HistoryTable} (hH : H.Spreads sel.doc)
    (ts : List Nat) : (H.recordAll (sel.exitRecords ts)).Spreads sel.doc := by
  intro h rec hget
  rw [HistoryTable.get_recordAll] at hget
  cases hlast : HistoryTable.lastRecorded (sel.exitRecords ts) h with
  | none =>
    rw [hlast] at hget
    exact hH h rec hget
  | some L =>
    simp only [hlast, Option.map_some, Option.some_or] at hget
    obtain rfl := Option.some_inj.1 hget
    obtain ⟨r, hr, rfl⟩ := Option.map_eq_some_iff.1 hlast
    obtain ⟨hrs, hrh⟩ := List.mem_filter.1 (List.mem_of_getLast? hr)
    obtain ⟨st, hst, hhist, hsnap⟩ := mem_exitRecords hrs
    simp only [decide_eq_true_eq] at hrh
    subst hrh
    rw [hs.history_eq, Document.mem_withParent] at hhist
    obtain ⟨hlt, hpar, hhis⟩ := hhist
    have hstC := mem_configuration_of_mem_exitSet hst
    -- the exited state has a history pseudo-state, whose default targets lie below it
    have hcp : sel.doc.isCompound st = true ∨ sel.doc.isParallel st = true := by
      obtain ⟨dt, rest, hdt⟩ := List.exists_cons_of_ne_nil (hs.history_transitions hlt hhis)
      obtain ⟨hne, hbelow⟩ := hod.history_default r.1 hlt hhis dt (by simp [hdt])
      obtain ⟨x, hx⟩ := List.exists_mem_of_ne_nil _ hne
      have hxst := (hbelow x hx).1
      rw [Document.home_eq hpar] at hxst
      exact (hod.children_iff st (hL.mem st hstC).2.1).1 (hod.children_ne_nil hs hxst)
    rw [Document.home_eq hpar, hsnap]
    refine ⟨spread_historySnapshot hs hod hL hstC hcp _, fun x hx => ?_⟩
    have hx' : x ∈ sel.historySnapshot st r.2.1 := by simpa using hx
    exact (hL.mem x (mem_historySnapshot.1 hx').1).2.2

end Selector

end Hsm
