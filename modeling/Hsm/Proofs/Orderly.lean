import Hsm.Proofs.Pieces
/-!
# Orderly documents

Compiling does not check that entering a transition's targets builds a legal configuration; an
orderly document (`Document.Orderly`) with spread history records (`HistoryTable.Spreads`) is one
where it does: entry puts whole subtrees in place below the domain (`Selector.Orderly.spreads`,
`Selector.Orderly.steps_entryCalls`).
-/

namespace Hsm

namespace Document
variable {d : Document}

instance (a b : Nat) : Decidable (d.Apart a b) := inferInstanceAs (Decidable (_ ∧ _))

theorem transition_of_size_le {t : Nat} (ht : d.transitions.size ≤ t) :
    d.transition t = default := by
  simp [transition, Array.getD, Nat.not_lt.2 ht]

theorem lt_size_of_mem_targets {t x : Nat} (hx : x ∈ (d.transition t).targets) :
    t < d.transitions.size := by
  refine Nat.lt_of_not_le fun ht => ?_
  rw [transition_of_size_le ht] at hx
  cases hx

/-- What keeps configurations legal beyond what compiling checks. Every target is a state
other than the root, and the places the targets of one transition fill lie apart; every
default-entry transition leaves its own state; the default transition of a history
pseudo-state targets states strictly below its home, none a history pseudo-state of the same
home; exactly the compound and parallel states have child states; and no transition targets a
history pseudo-state of a home that strictly contains its source. -/
structure Orderly (d : Document) : Prop where
  targets_in : ∀ t < d.transitions.size, ∀ x ∈ (d.transition t).targets, 0 < x ∧ x < d.size
  targets_apart : ∀ t < d.transitions.size,
    (d.transition t).targets.Pairwise fun x y => d.Apart (d.anchor x) (d.anchor y)
  initial_source : ∀ s < d.size, ∀ i ∈ (d.state s).initial, (d.transition i).source = s
  history_default : ∀ h < d.size, d.isHistory h = true →
    ∀ dt ∈ (d.state h).transitions.head?, (d.transition dt).targets ≠ [] ∧
      ∀ r ∈ (d.transition dt).targets, d.isDescendant r (d.home h) = true ∧
        (d.isHistory r = true → (d.state r).parent ≠ some (d.home h))
  children_iff : ∀ s < d.size,
    (d.state s).children ≠ [] ↔ (d.isCompound s = true ∨ d.isParallel s = true)
  history_target : ∀ t < d.transitions.size, ∀ h ∈ (d.transition t).targets,
    d.isHistory h = true → d.isDescendant (d.transition t).source (d.home h) = false

set_option synthInstance.maxSize 256 in
instance : Decidable d.Orderly :=
  decidable_of_iff
    ((∀ t < d.transitions.size, ∀ x ∈ (d.transition t).targets, 0 < x ∧ x < d.size) ∧
      (∀ t < d.transitions.size,
        (d.transition t).targets.Pairwise fun x y => d.Apart (d.anchor x) (d.anchor y)) ∧
      (∀ s < d.size, ∀ i ∈ (d.state s).initial, (d.transition i).source = s) ∧
      (∀ h < d.size, d.isHistory h = true →
        ∀ dt ∈ (d.state h).transitions.head?, (d.transition dt).targets ≠ [] ∧
          ∀ r ∈ (d.transition dt).targets, d.isDescendant r (d.home h) = true ∧
            (d.isHistory r = true → (d.state r).parent ≠ some (d.home h))) ∧
      (∀ s < d.size,
        (d.state s).children ≠ [] ↔ (d.isCompound s = true ∨ d.isParallel s = true)) ∧
      (∀ t < d.transitions.size, ∀ h ∈ (d.transition t).targets,
        d.isHistory h = true → d.isDescendant (d.transition t).source (d.home h) = false))
    ⟨fun ⟨a, b, c, e, f, g⟩ => ⟨a, b, c, e, f, g⟩, fun ⟨a, b, c, e, f, g⟩ => ⟨a, b, c, e, f, g⟩⟩

namespace Orderly
variable (ho : d.Orderly)
include ho

theorem target_pos_lt {t x : Nat} (hx : x ∈ (d.transition t).targets) : 0 < x ∧ x < d.size :=
  ho.targets_in t (lt_size_of_mem_targets hx) x hx

theorem apart_targets (t : Nat) :
    (d.transition t).targets.Pairwise fun x y => d.Apart (d.anchor x) (d.anchor y) := by
  by_cases ht : t < d.transitions.size
  · exact ho.targets_apart t ht
  · rw [transition_of_size_le (Nat.le_of_not_lt ht)]
    exact .nil

theorem source_not_below_home {t h : Nat} (hh : h ∈ (d.transition t).targets)
    (hhist : d.isHistory h = true) :
    d.isDescendant (d.transition t).source (d.home h) = false :=
  ho.history_target t (lt_size_of_mem_targets hh) h hh hhist

end Orderly

theorem Shaped.targets_not_clash (hs : d.Shaped) {s t : Nat} (hsz : s < d.size)
    (ht : t ∈ (d.state s).initial.toList ++ (d.state s).transitions) :
    (d.transition t).targets.Pairwise fun x y => ¬ d.Clash x y :=
  ((isLegalSet_iff _).1 ((hs.valid s hsz).2 t ht)).imp hs.nested.not_clash_of_compatible

end Document

/-- Each record lies spread below the home of its history pseudo-state and holds no history
pseudo-state. -/
def HistoryTable.Spreads (d : Document) (t : HistoryTable) : Prop :=
  ∀ h rec, t.get h = some rec → d.Spread (d.home h) rec ∧ ∀ r ∈ rec, d.isHistory r = false

theorem HistoryTable.spreads_empty {d : Document} : ({} : HistoryTable).Spreads d := by
  intro h rec hget
  simp [HistoryTable.get] at hget

namespace Selector

/-- An orderly, compiled document with spread records. -/
structure Orderly (sel : Selector) : Prop where
  shaped : sel.doc.Shaped
  orderly : sel.doc.Orderly
  records : sel.history.Spreads sel.doc

namespace Orderly
variable {sel : Selector} (ho : sel.Orderly)
include ho

theorem spread_targets {s t u : Nat} (hsz : s < sel.doc.size)
    (ht : t ∈ (sel.doc.state s).initial.toList ++ (sel.doc.state s).transitions)
    (hne : (sel.doc.transition t).targets ≠ [])
    (hbelow : ∀ x ∈ (sel.doc.transition t).targets, sel.doc.isDescendant x u = true) :
    sel.doc.Spread u (sel.doc.transition t).targets :=
  ⟨hne, hbelow, (ho.orderly.apart_targets t).and (ho.shaped.targets_not_clash hsz ht)⟩

theorem spread_initial {s i : Nat} (hi : (sel.doc.state s).initial = some i) :
    sel.doc.Spread s (sel.doc.transition i).targets := by
  have hsz := Document.lt_size_of_initial hi
  exact ho.spread_targets hsz (by simp [hi]) (ho.shaped.initial_targets hi)
    ((ho.shaped.valid s hsz).1 i hi)

theorem exists_historyDefault {h : Nat} (hh : sel.doc.isHistory h = true) :
    h < sel.doc.size ∧ ∃ dt, sel.historyDefault h = some dt := by
  obtain ⟨p, hp⟩ := Option.isSome_iff_exists.1 (ho.shaped.nested.parent_of_isHistory hh)
  have hsz := Document.lt_size_of_parent hp
  obtain ⟨dt, rest, heq⟩ := List.exists_cons_of_ne_nil (ho.shaped.history_transitions hsz hh)
  exact ⟨hsz, dt, by simp [historyDefault, heq]⟩

theorem historyDefault_spread {h dt : Nat} (hh : sel.doc.isHistory h = true)
    (hdt : sel.historyDefault h = some dt) :
    sel.doc.Spread (sel.doc.home h) (sel.doc.transition dt).targets ∧
      ∀ r ∈ (sel.doc.transition dt).targets,
        sel.doc.isHistory r = true → (sel.doc.state r).parent ≠ some (sel.doc.home h) := by
  have hsz := (ho.exists_historyDefault hh).1
  obtain ⟨hne, hbelow⟩ := ho.orderly.history_default h hsz hh dt hdt
  refine ⟨ho.spread_targets hsz ?_ hne fun r hr => (hbelow r hr).1, fun r hr => (hbelow r hr).2⟩
  exact List.mem_append_right _ (List.mem_of_mem_head? hdt)

theorem spread_standIns {h : Nat} (hh : sel.doc.isHistory h = true) :
    sel.doc.Spread (sel.doc.home h) (sel.standIns h) := by
  obtain ⟨dt, hdt⟩ := (ho.exists_historyDefault hh).2
  unfold standIns
  cases hget : sel.history.get h with
  | some rec => exact (ho.records h rec hget).1
  | none => simpa [hdt] using (ho.historyDefault_spread hh hdt).1

theorem spreads : sel.Spreads := ⟨ho.shaped, ho.spread_initial, ho.spread_standIns⟩

theorem historiesBelow : sel.HistoriesBelow := by
  intro h _ hh r hr
  obtain ⟨dt, hdt⟩ := (ho.exists_historyDefault hh).2
  unfold standIns at hr
  cases hget : sel.history.get h with
  | some rec =>
    rw [hget] at hr
    obtain ⟨hsp, hplain⟩ := ho.records h rec hget
    exact ⟨hsp.below r hr, fun hrh => by simp [hplain r hr] at hrh⟩
  | none =>
    simp only [hget, hdt] at hr
    obtain ⟨hsp, hnot⟩ := ho.historyDefault_spread hh hdt
    exact ⟨hsp.below r hr, hnot r hr⟩

theorem grounded : sel.Grounded where
  nested := ho.shaped.nested
  size_pos := ho.shaped.size_pos
  initial_below hi hr := (ho.spread_initial hi).below _ hr
  histories := ho.historiesBelow

theorem reach_of_standsFor {x r : Nat} (h : sel.StandsFor x r) : sel.doc.Reach x r := by
  induction h with
  | self hx => exact (Document.reach_of_not_isHistory hx).2 (.refl _)
  | via hh hmem _ ih =>
    exact (Document.reach_of_isHistory hh).2
      (ho.shaped.nested.isDescendant_of_reach ((ho.spread_standIns hh).below _ hmem) ih)

theorem exists_standsFor (x : Nat) : ∃ r, sel.StandsFor x r := by
  induction hn : sel.doc.headroom x using Nat.strongRecOn generalizing x with
  | ind n ih =>
    cases hx : sel.doc.isHistory x with
    | false => exact ⟨x, .self hx⟩
    | true =>
      obtain ⟨x₀, hx₀⟩ := List.exists_mem_of_ne_nil _ (ho.spread_standIns hx).ne_nil
      cases hx₀h : sel.doc.isHistory x₀ with
      | false => exact ⟨x₀, .via hx hx₀ (.self hx₀h)⟩
      | true =>
        have hlt := (ho.grounded.headroom_standIn hx hx₀).2.2 hx₀h
        obtain ⟨r, hr⟩ := ih _ (hn ▸ hlt) x₀ rfl
        exact ⟨r, .via hx hx₀ hr⟩

theorem records_not_history {h : Nat} {rec : List Nat} (hget : sel.history.get h = some rec)
    {r : Nat} (hr : r ∈ rec) : sel.doc.isHistory r = false :=
  (ho.records h rec hget).2 r hr

end Orderly

variable {sel : Selector}

theorem standsFor_iff_of_isHistory {h r : Nat} (hh : sel.doc.isHistory h = true) :
    sel.StandsFor h r ↔ ∃ h' ∈ sel.standIns h, sel.StandsFor h' r := by
  constructor
  · rintro (⟨hx⟩ | ⟨_, hmem, hr⟩)
    · simp [hx] at hh
    · exact ⟨_, hmem, hr⟩
  · rintro ⟨h', hmem, hr⟩
    exact .via hh hmem hr

/-- Collecting adds exactly what the states stand for, when records hold no history
pseudo-state. -/
theorem Collects.mem_iff
    (hrec : ∀ h rec, sel.history.get h = some rec → ∀ r ∈ rec, sel.doc.isHistory r = false)
    {ts : List Nat} {out out' : OrderedSet Nat} (h : sel.Collects ts out out') {y : Nat} :
    y ∈ out'.items ↔ y ∈ out.items ∨ ∃ x ∈ ts, sel.StandsFor x y := by
  induction h with
  | nil => simp
  | @plain s rest out out' hs _ ih =>
    have hsy : sel.StandsFor s y ↔ y = s :=
      ⟨fun h => standsFor_of_not_isHistory hs h, fun h => by subst h; exact .self hs⟩
    simp only [ih, OrderedSet.mem_add, List.mem_cons, or_and_right, exists_or, exists_eq_left, hsy, or_assoc]
  | @recorded s rest rec out out' hs hget _ ih =>
    have hsy : sel.StandsFor s y ↔ y ∈ rec := by
      rw [standsFor_iff_of_isHistory hs]
      simp only [standIns, hget]
      constructor
      · rintro ⟨h', hmem, hr⟩
        rw [standsFor_of_not_isHistory (hrec s rec hget h' hmem) hr]
        exact hmem
      · exact fun hy => ⟨y, hy, .self (hrec s rec hget y hy)⟩
    simp only [ih, OrderedSet.mem_union, List.mem_cons, or_and_right, exists_or, exists_eq_left, hsy, or_assoc]
  | @viaDefault s dt rest out mid out' hs hget hdt _ _ ih₁ ih₂ =>
    have hsy : sel.StandsFor s y ↔ ∃ x ∈ (sel.doc.transition dt).targets, sel.StandsFor x y := by
      rw [standsFor_iff_of_isHistory hs]
      simp only [standIns, hget, hdt]
    simp only [ih₂, ih₁, List.mem_cons, or_and_right, exists_or, exists_eq_left, hsy, or_assoc]
  | @noDefault s rest out out' hs hget hdt _ ih =>
    have hsy : ¬ sel.StandsFor s y := by
      rw [standsFor_iff_of_isHistory hs]
      simp [standIns, hget, hdt]
    simp only [ih, List.mem_cons, or_and_right, exists_or, exists_eq_left, hsy, false_or]

namespace Orderly
variable (ho : sel.Orderly)
include ho

theorem collects_effectiveTargets (t : Nat) :
    sel.Collects (sel.doc.transition t).targets {} (sel.effectiveTargets t) :=
  ho.grounded.collects_collectEffective (fun s _ => ⟨sel.depthBound_pos, fun _ =>
    Nat.lt_of_le_of_lt (Document.headroom_le s) sel.size_lt_depthBound⟩) {}

theorem mem_effectiveTargets {t y : Nat} :
    y ∈ (sel.effectiveTargets t).items ↔ ∃ x ∈ (sel.doc.transition t).targets, sel.StandsFor x y := by
  rw [(ho.collects_effectiveTargets t).mem_iff fun _ _ hget _ hr => ho.records_not_history hget hr]
  simp

theorem effectiveTargets_eq_nil_iff (t : Nat) :
    (sel.effectiveTargets t).items = [] ↔ (sel.doc.transition t).targets = [] := by
  constructor
  · intro h
    refine List.eq_nil_iff_forall_not_mem.2 fun x hx => ?_
    obtain ⟨r, hr⟩ := ho.exists_standsFor x
    have hmem := ho.mem_effectiveTargets.2 ⟨x, hx, hr⟩
    simp [h] at hmem
  · intro h
    refine List.eq_nil_iff_forall_not_mem.2 fun y hy => ?_
    obtain ⟨x, hx, -⟩ := ho.mem_effectiveTargets.1 hy
    simp [h] at hx

theorem effectiveTargets_isEmpty (t : Nat) :
    (sel.effectiveTargets t).isEmpty = (sel.doc.transition t).targets.isEmpty := by
  rw [Bool.eq_iff_iff]
  simp only [OrderedSet.isEmpty, List.isEmpty_iff, ho.effectiveTargets_eq_nil_iff]

/-- A target lies below a state that contains the transition's source when something it stands
for does: a history pseudo-state's home cannot lie strictly above that state, or it would
strictly contain the source. -/
theorem isDescendant_of_standsFor {t a x r : Nat}
    (hsa : sel.doc.Within (sel.doc.transition t).source a)
    (hx : x ∈ (sel.doc.transition t).targets) (hr : sel.StandsFor x r)
    (hra : sel.doc.isDescendant r a = true) : sel.doc.isDescendant x a = true := by
  have hd := ho.shaped.nested
  cases hxh : sel.doc.isHistory x with
  | false =>
    rw [standsFor_of_not_isHistory hxh hr] at hra
    exact hra
  | true =>
    obtain ⟨p, hp⟩ := Option.isSome_iff_exists.1 (hd.parent_of_isHistory hxh)
    have hrp : sel.doc.isDescendant r p = true := by
      rw [← Document.home_eq hp]
      exact (Document.reach_of_isHistory hxh).1 (ho.reach_of_standsFor hr)
    have hsrc := ho.orderly.source_not_below_home hx hxh
    rw [Document.home_eq hp] at hsrc
    rw [hd.isDescendant_iff_of_parent hp]
    rcases hd.isDescendant_total hrp hra with h | h | h
    · exact .inl h.symm
    · exact .inr h
    · rcases hsa with hsa | hsa
      · rw [hsa, h] at hsrc
        cases hsrc
      · rw [hd.isDescendant_trans hsa h] at hsrc
        cases hsrc

theorem all_below_iff {t a : Nat} (hsa : sel.doc.Within (sel.doc.transition t).source a) :
    ((sel.effectiveTargets t).items.all fun s => sel.doc.isDescendant s a) = true ↔
      ∀ x ∈ (sel.doc.transition t).targets, sel.doc.isDescendant x a = true := by
  rw [List.all_eq_true]
  constructor
  · intro hall x hx
    obtain ⟨r, hr⟩ := ho.exists_standsFor x
    exact ho.isDescendant_of_standsFor hsa hx hr (hall r (ho.mem_effectiveTargets.2 ⟨x, hx, hr⟩))
  · intro hall y hy
    obtain ⟨x, hx, hr⟩ := ho.mem_effectiveTargets.1 hy
    exact ho.shaped.nested.isDescendant_of_reach (hall x hx) (ho.reach_of_standsFor hr)

/-- The domain of a transition does not depend on the records. -/
theorem domain_eq {sel' : Selector} (ho' : sel'.Orderly) (hdoc : sel'.doc = sel.doc) (t : Nat) :
    sel'.domain t = sel.domain t := by
  -- only whether the effective targets lie below a state containing the source matters, and
  -- they do exactly when the targets do
  have hall : ∀ a, sel.doc.Within (sel.doc.transition t).source a →
      ((sel'.effectiveTargets t).items.all fun s => sel.doc.isDescendant s a) =
        ((sel.effectiveTargets t).items.all fun s => sel.doc.isDescendant s a) := by
    intro a ha
    have h' := ho'.all_below_iff (hdoc ▸ ha)
    rw [hdoc] at h'
    rw [Bool.eq_iff_iff, ho.all_below_iff ha, h']
  have hempty : (sel'.effectiveTargets t).isEmpty = (sel.effectiveTargets t).isEmpty := by
    rw [ho'.effectiveTargets_isEmpty, ho.effectiveTargets_isEmpty, hdoc]
  simp only [domain, lcca, hdoc, hempty]
  rw [hall _ (.refl _), List.find?_congr fun a ha => hall a (.of_isDescendant
    (Document.Nested.mem_ancestors_of_mem_properAncestors (List.mem_filter.1 ha).1))]

end Orderly

theorem lcca_spec (sel : Selector) (src : Nat) (tail : List Nat) :
    sel.lcca (src :: tail) = 0 ∨ (sel.doc.isCompoundOrRoot (sel.lcca (src :: tail)) = true ∧
      sel.doc.isDescendant src (sel.lcca (src :: tail)) = true ∧
      ∀ s ∈ tail, sel.doc.isDescendant s (sel.lcca (src :: tail)) = true) := by
  simp only [lcca]
  cases hfind : ((sel.doc.properAncestors src none).filter sel.doc.isCompoundOrRoot).find?
      fun a => tail.all fun s => sel.doc.isDescendant s a with
  | none => exact .inl rfl
  | some a =>
    have hmem := List.mem_filter.1 (List.mem_of_find?_eq_some hfind)
    have hall := List.find?_some hfind
    simp only [Option.getD_some]
    exact .inr ⟨hmem.2, Document.Nested.mem_ancestors_of_mem_properAncestors hmem.1,
      List.all_eq_true.1 hall⟩

namespace Orderly
variable (ho : sel.Orderly)
include ho

/-- The domain of a transition: a compound state or the root, which is the root or contains
the transition's source, with every target strictly below it. -/
theorem domain_spec {t D : Nat} (hD : sel.domain t = some D) :
    (sel.doc.transition t).targets ≠ [] ∧ sel.doc.isCompoundOrRoot D = true ∧
      (D = 0 ∨ sel.doc.Within (sel.doc.transition t).source D) ∧
      ∀ x ∈ (sel.doc.transition t).targets, sel.doc.isDescendant x D = true := by
  unfold domain at hD
  dsimp only at hD
  split at hD
  · cases hD
  rename_i hne
  have hne' : (sel.doc.transition t).targets ≠ [] := by
    rwa [ho.effectiveTargets_isEmpty, List.isEmpty_iff] at hne
  split at hD
  · -- an internal transition of a compound state whose targets lie below it stays within it
    rename_i hint
    cases hD
    simp only [Bool.and_eq_true] at hint
    refine ⟨hne', by simp [Document.isCompoundOrRoot, hint.1.2], .inr (.refl _),
      (ho.all_below_iff (.refl _)).1 hint.2⟩
  · cases hD
    rcases lcca_spec sel _ _ with h | ⟨hcomp, hsrc, htail⟩
    · rw [h]
      refine ⟨hne', by simp [Document.isCompoundOrRoot], .inl rfl, fun x hx => ?_⟩
      obtain ⟨hpos, hlt⟩ := ho.orderly.target_pos_lt hx
      exact ho.shaped.anchored.isDescendant_root_of_lt ho.shaped.nested hpos hlt
    · exact ⟨hne', hcomp, .inr (.of_isDescendant hsrc),
        (ho.all_below_iff (.of_isDescendant hsrc)).1 (List.all_eq_true.2 htail)⟩

theorem steps_entryCalls {s t D : Nat} (hsz : s < sel.doc.size)
    (ht : t ∈ (sel.doc.state s).initial.toList ++ (sel.doc.state s).transitions)
    (hD : sel.domain t = some D) {e e' : EntrySet}
    (hfresh : ∀ y ∈ e.states.items, sel.doc.isDescendant y D = false)
    (h : Steps sel.Does (sel.entryCalls t) e e') :
    ∃ F, e.Adds F e' ∧ sel.doc.Hangs D F ∧ ∃ c ∈ (sel.doc.state D).children, F c := by
  obtain ⟨hne, -, -, hbelow⟩ := ho.domain_spec hD
  unfold entryCalls at h
  rw [hD] at h
  obtain ⟨F, hadds, hhangs, hchild, -⟩ := steps_block ho.shaped (ho.spread_targets hsz ht hne hbelow)
    (fun y hy => (ho.mem_effectiveTargets.1 hy).imp fun _ hx => ⟨hx.1, .inr hx.2⟩)
    (fun x hx r hr => ⟨r, ho.mem_effectiveTargets.2 ⟨x, hx, hr⟩, .inr hr⟩) hfresh h
  exact ⟨F, hadds, hhangs, hchild⟩

theorem entryCalls_of_targets_eq_nil {t : Nat} (ht : (sel.doc.transition t).targets = []) :
    sel.entryCalls t = [] := by
  simp [entryCalls, ht, (ho.effectiveTargets_eq_nil_iff t).2 ht]

theorem steps_entrySet (ts : List Nat) :
    Steps sel.Does (ts.flatMap sel.entryCalls) {} (sel.entrySet ts) := by
  refine Enters.does ho.spreads ?_
  rw [entrySet_eq_runCalls]
  refine enters_runCalls (fun c hc e => ho.grounded.enters_runCall c e ?_) {}
  obtain ⟨t, -, hct⟩ := List.mem_flatMap.1 hc
  exact ho.grounded.rank_le_depthBound hct

end Orderly

end Selector

end Hsm
