import Hsm.Proofs.Conflict
import Hsm.Proofs.Termination
import Hsm.Proofs.Layout
/-!
# States a transition enters without leaving them

Restoring a history pseudo-state whose home lies above the transition's domain enters again states
the transition does not exit (`deepHistory_reenters_active_state`). When every target lies below
its transition's domain, what is entered and was active has been exited
(`Selector.entered_active_states_exited`).
-/

namespace Hsm

namespace OrderedSet

theorem mem_foldl_of_step {β : Type} {f : OrderedSet Nat → β → OrderedSet Nat} {x : Nat}
    (hf : ∀ E b, x ∈ (f E b).items ↔ x ∈ E.items ∨ x ∈ (f {} b).items) (bs : List β)
    (E : OrderedSet Nat) :
    x ∈ (bs.foldl f E).items ↔ x ∈ E.items ∨ ∃ b ∈ bs, x ∈ (f {} b).items := by
  induction bs generalizing E with
  | nil => simp
  | cons b bs ih =>
    rw [List.foldl_cons, ih, hf]
    simp [or_assoc]

end OrderedSet

namespace Selector
variable (sel : Selector)

theorem mem_addAncestors (n : Nat) {s a : Nat} {u : Option Nat}
    (ha : a ∈ sel.doc.properAncestors s u) (e : EntrySet) :
    a ∈ (sel.addAncestors (n + 1) s u e).states.items := by
  simp only [addAncestors]
  refine mem_foldl_states (fun e b => ?_) (fun e => ?_) ha e
  · split
    · exact List.Subset.trans (OrderedSet.subset_add _ b)
        ((sel.states_subset_walk n).2.2 _ { e with states := e.states.add b })
    · exact OrderedSet.subset_add _ _
  · split
    · exact (sel.states_subset_walk n).2.2 _ { e with states := e.states.add a }
        (OrderedSet.mem_add.2 (.inr rfl))
    · exact OrderedSet.mem_add.2 (.inr rfl)

theorem recordAncestor_mem_addDescendants (n : Nat) {h r a : Nat} {recorded : List Nat}
    (hh : sel.doc.isHistory h = true) (hr : sel.history.get h = some recorded)
    (hmem : r ∈ recorded)
    (ha : a ∈ sel.doc.properAncestors r (some ((sel.doc.state h).parent.getD 0)))
    (e : EntrySet) : a ∈ (sel.addDescendants (n + 2) h e).states.items := by
  rw [addDescendants.eq_2]
  simp only [hh, hr, if_true]
  exact mem_foldl_states (fun e r => sel.subset_addAncestors _ r _ e)
    (fun e => sel.mem_addAncestors n ha e) hmem _

theorem four_le_depthBound_of_history {h : Nat} (hh : sel.doc.isHistory h = true) :
    4 ≤ sel.depthBound := by
  obtain ⟨k, hk⟩ := (Document.isHistory_iff _ _).1 hh
  exact sel.four_le_depthBound_of_mode (s := h) fun hm => by rw [hk] at hm; cases hm

/-- A transition to a history pseudo-state with a record enters every ancestor of a recorded
state below the history's home, and exits none of them that lies outside its domain. -/
theorem history_reenters_outside_domain {t h r a : Nat} {recorded : List Nat}
    (ht : h ∈ (sel.doc.transition t).targets) (hh : sel.doc.isHistory h = true)
    (hr : sel.history.get h = some recorded) (hmem : r ∈ recorded)
    (ha : a ∈ sel.doc.properAncestors r (some ((sel.doc.state h).parent.getD 0)))
    (hout : ∀ d, sel.domain t = some d → sel.doc.isDescendant a d = false) :
    a ∈ (sel.entrySet [t]).states.items ∧ a ∉ (sel.exitSet [t]).items := by
  refine ⟨?_, fun hx => ?_⟩
  · obtain ⟨k, hk⟩ : ∃ k, sel.depthBound = k + 2 := ⟨_, (Nat.sub_add_cancel (Nat.le_trans
      (by decide) (sel.four_le_depthBound_of_history hh))).symm⟩
    refine sel.mem_entrySet_of_addDescendants List.mem_cons_self ht fun e => ?_
    rw [hk]
    exact sel.recordAncestor_mem_addDescendants k hh hr hmem ha e
  · obtain ⟨-, d, hd, -, hdesc⟩ := sel.mem_exitSet_single.1 hx
    rw [hout d hd] at hdesc
    cases hdesc

/-! ### Entry stays below the domain -/

theorem mem_exitSet {ts : List Nat} {x : Nat} :
    x ∈ (sel.exitSet ts).items ↔ ∃ t ∈ ts, x ∈ (sel.exitSet [t]).items := by
  unfold exitSet
  rw [OrderedSet.mem_foldl_of_step (fun E t => ?_) ts {}]
  · simp
  · -- a transition with targets and a domain adds its exits to those before it
    by_cases hnil : (sel.doc.transition t).targets.isEmpty
    · simp [hnil]
    · cases sel.domain t <;> simp [hnil, OrderedSet.mem_union]

/-- Collecting adds only states it was given and what history pseudo-states stand for. -/
theorem mem_collectEffective {n : Nat} {ts : List Nat} {out : OrderedSet Nat} {x : Nat}
    (hx : x ∈ (sel.collectEffective n ts out).items) :
    x ∈ out.items ∨ x ∈ ts ∨ ∃ h, sel.doc.isHistory h = true ∧ x ∈ sel.standIns h := by
  induction n generalizing ts out with
  | zero => exact .inl hx
  | succ n ihn =>
    induction ts generalizing out with
    | nil => exact .inl hx
    | cons s rest ih =>
      rw [collectEffective_cons] at hx
      rcases ih hx with hx | hx | hx
      · -- `x` came in with `s`, or was there before it
        cases hh : sel.doc.isHistory s
        · rw [hh, Bool.not_false, if_pos rfl, OrderedSet.mem_add] at hx
          exact hx.imp_right fun hxs => .inl (List.mem_cons.2 (.inl hxs))
        · simp only [hh, Bool.not_true, Bool.false_eq_true, if_false] at hx
          cases hr : sel.history.get s with
          | some recorded =>
            rw [hr, OrderedSet.mem_union] at hx
            exact hx.imp_right fun hxr => .inr ⟨s, hh, by simp [standIns, hr, hxr]⟩
          | none =>
            rw [hr] at hx
            cases hd : sel.historyDefault s with
            | none =>
              rw [hd] at hx
              exact .inl hx
            | some dt =>
              rw [hd] at hx
              rcases ihn hx with hx | hx | hx
              · exact .inl hx
              · exact .inr (.inr ⟨s, hh, by simp [standIns, hr, hd, hx]⟩)
              · exact .inr (.inr hx)
      · exact .inr (.inl (List.mem_cons_of_mem _ hx))
      · exact .inr (.inr hx)

/-- Every history pseudo-state of the document stands for states strictly below its home. -/
def StandInsBelow : Prop :=
  ∀ h < sel.doc.size, sel.doc.isHistory h = true →
    ∀ r ∈ sel.standIns h, sel.doc.isDescendant r (sel.doc.home h) = true

instance : Decidable sel.StandInsBelow :=
  inferInstanceAs (Decidable (∀ h < sel.doc.size, sel.doc.isHistory h = true →
    ∀ r ∈ sel.standIns h, sel.doc.isDescendant r (sel.doc.home h) = true))

/-- What keeps the entry walk below where it starts: the states form a tree, each default-entry
transition targets states below its state, and each history pseudo-state stands for states
below its home. -/
structure Downward : Prop where
  nested : sel.doc.Nested
  initial_below : ∀ {s i r : Nat}, (sel.doc.state s).initial = some i →
    r ∈ (sel.doc.transition i).targets → sel.doc.isDescendant r s = true
  standIns_below : sel.StandInsBelow

variable {sel}

theorem Downward.of_build {ds : DocumentSchema} (hb : ds.build = .ok sel.doc)
    (hs : sel.StandInsBelow) : sel.Downward :=
  ⟨DocumentSchema.nested_of_build hb, DocumentSchema.initial_below_of_build hb, hs⟩

theorem Downward.standIn_below (hw : sel.Downward) {h r : Nat} (hh : sel.doc.isHistory h = true)
    (hr : r ∈ sel.standIns h) : sel.doc.isDescendant r (sel.doc.home h) = true := by
  obtain ⟨p, hp⟩ := Option.isSome_iff_exists.1 (hw.nested.parent_of_isHistory hh)
  exact hw.standIns_below h (Document.lt_size_of_parent hp) hh r hr

end Selector

def EntrySet.AddsOnly (P : Nat → Prop) (e e' : EntrySet) : Prop :=
  ∀ x ∈ e'.states.items, x ∈ e.states.items ∨ P x

namespace EntrySet.AddsOnly
variable {P Q : Nat → Prop} {e e₁ e₂ e₃ : EntrySet}

theorem refl (P : Nat → Prop) (e : EntrySet) : e.AddsOnly P e := fun _ hx => .inl hx

theorem trans (h₁ : e₁.AddsOnly P e₂) (h₂ : e₂.AddsOnly P e₃) : e₁.AddsOnly P e₃ :=
  fun x hx => (h₂ x hx).elim (h₁ x) .inr

theorem mono (h : e₁.AddsOnly P e₂) (hPQ : ∀ x, P x → Q x) : e₁.AddsOnly Q e₂ :=
  fun x hx => (h x hx).imp_right (hPQ x)

theorem of_states_eq {e' : EntrySet} (h : e'.states = e.states) : e.AddsOnly P e' :=
  fun _ hx => .inl (h ▸ hx)

theorem of_states_add {e' : EntrySet} {s : Nat} (h : e'.states = e.states.add s) (hs : P s) :
    e.AddsOnly P e' := fun x hx => by
  rw [h, OrderedSet.mem_add] at hx
  exact hx.imp_right fun hxs => by subst hxs; exact hs

end EntrySet.AddsOnly

namespace Document.Nested
variable {d : Document}

theorem isDescendant_of_within (hd : d.Nested) {x u a : Nat} (hx : d.isDescendant x u = true)
    (hu : u = a ∨ d.isDescendant u a = true) : d.isDescendant x a = true :=
  hu.elim (fun h => h ▸ hx) (hd.isDescendant_trans hx)

end Document.Nested

/-- A call of the entry walk that stays strictly below `d`: the state it names lies below `d`,
and an ancestor walk starts below a state that is `d` or lies below it, and stops there. -/
def EntryCall.Below (doc : Document) (d : Nat) : EntryCall → Prop
  | .descendants s | .regions s | .ancestor s | .region s => doc.isDescendant s d = true
  | .ancestors s upto => ∃ u, upto = some u ∧ (u = d ∨ doc.isDescendant u d = true) ∧
      doc.isDescendant s u = true

namespace Selector
variable {sel : Selector}

theorem runCall_zero {c : EntryCall} (hc : c.cost = 1) (e : EntrySet) : sel.runCall 0 c e = e := by
  cases c with
  | descendants s => simp [runCall, addDescendants]
  | ancestors s upto => simp [runCall, addAncestors]
  | regions p => simp [runCall, addRegions]
  | ancestor a => simp [EntryCall.cost] at hc
  | region r => simp [EntryCall.cost] at hc

theorem addsOnly_runCalls {P : Nat → Prop} {n : Nat} {cs : List EntryCall}
    (h : ∀ c ∈ cs, ∀ e : EntrySet, e.AddsOnly P (sel.runCall n c e)) (e : EntrySet) :
    e.AddsOnly P (sel.runCalls n cs e) := by
  induction cs generalizing e with
  | nil => exact .refl P e
  | cons c cs ih =>
    exact (h c List.mem_cons_self e).trans (ih (fun c hc => h c (List.mem_cons_of_mem _ hc)) _)

/-- The walk stays inside a family of calls closed under the calls each makes: if each call of
the family adds, by itself, only states satisfying `P`, then a bounded run of any call of the
family adds only such states. -/
theorem addsOnly_runCall {I : EntryCall → Prop} {P : Nat → Prop}
    (step : ∀ c e, I c → e.AddsOnly P (sel.expand c e).1 ∧ ∀ c' ∈ (sel.expand c e).2, I c')
    (n : Nat) {c : EntryCall} (hc : I c) (e : EntrySet) : e.AddsOnly P (sel.runCall n c e) := by
  -- on twice the depth less the cost: a call's calls have less depth, or the same depth and a
  -- cost of one where the call itself costs nothing
  induction hm : 2 * n + 1 - c.cost using Nat.strongRecOn generalizing n c e with
  | ind m ih =>
    have hcost := c.cost_le_one
    by_cases hn : n < c.cost
    · obtain rfl : n = 0 := by omega
      rw [runCall_zero (by omega)]
      exact .refl P e
    · obtain ⟨k, rfl⟩ : ∃ k, n = k + c.cost := ⟨n - c.cost, by omega⟩
      obtain ⟨hown, hcalls⟩ := step c e hc
      rw [runCall_eq]
      refine hown.trans (addsOnly_runCalls (fun c' hc' e' => ?_) _)
      refine ih _ ?_ k (hcalls c' hc') e' rfl
      have hcost' := c'.cost_le_one
      by_cases h0 : c.cost = 0
      · have := sel.cost_of_mem_expand hc' h0
        omega
      · omega

theorem expand_history_states {h : Nat} (hh : sel.doc.isHistory h = true) (e : EntrySet) :
    (sel.expand (.descendants h) e).1.states = e.states := by
  simp only [expand, hh, if_true]
  split
  · rfl
  · split <;> rfl

/-- One call that stays below `d` adds only a state below `d` and makes only calls that stay
below `d`. -/
theorem expand_below (hw : sel.Downward) {d : Nat} {c : EntryCall} (hc : c.Below sel.doc d)
    (e : EntrySet) : e.AddsOnly (sel.doc.isDescendant · d = true) (sel.expand c e).1 ∧
      ∀ c' ∈ (sel.expand c e).2, c'.Below sel.doc d := by
  have hn := hw.nested
  cases c with
  | descendants s =>
    simp only [EntryCall.Below] at hc
    cases hh : sel.doc.isHistory s with
    | true =>
      -- what a history pseudo-state stands for lies below its home, which is `d` or below it
      obtain ⟨p, hp⟩ := Option.isSome_iff_exists.1 (hn.parent_of_isHistory hh)
      have hpd : p = d ∨ sel.doc.isDescendant p d = true := by
        by_cases hpd : p = d
        · exact .inl hpd
        · exact .inr (hn.isDescendant_parent hp hc hpd)
      refine ⟨.of_states_eq (sel.expand_history_states hh e), fun c' hc' => ?_⟩
      rw [sel.expand_history hh] at hc'
      rcases List.mem_append.1 hc' with hc' | hc' <;> obtain ⟨r, hr, rfl⟩ := List.mem_map.1 hc'
      · have hrp := hw.standIn_below hh hr
        rw [Document.home_eq hp] at hrp
        exact hn.isDescendant_of_within hrp hpd
      · have hrp := hw.standIn_below hh hr
        rw [Document.home_eq hp] at hrp ⊢
        exact ⟨p, rfl, hpd, hrp⟩
    | false =>
      simp only [expand, hh, Bool.false_eq_true, if_false]
      split
      · -- a compound state calls for its default targets, below it
        split
        · rename_i i hi
          refine ⟨.of_states_add rfl hc, fun c' hc' => ?_⟩
          rcases List.mem_append.1 hc' with hc' | hc' <;> obtain ⟨r, hr, rfl⟩ := List.mem_map.1 hc'
          · exact hn.isDescendant_trans (hw.initial_below hi hr) hc
          · exact ⟨s, rfl, .inr hc, hw.initial_below hi hr⟩
        · exact ⟨.of_states_add rfl hc, by simp⟩
      · split
        · refine ⟨.of_states_add rfl hc, fun c' hc' => ?_⟩
          obtain rfl := List.mem_singleton.1 hc'
          exact hc
        · exact ⟨.of_states_add rfl hc, by simp⟩
  | ancestors s upto =>
    obtain ⟨u, rfl, hu, hsu⟩ := hc
    refine ⟨.refl _ e, fun c' hc' => ?_⟩
    obtain ⟨a, ha, rfl⟩ := List.mem_map.1 hc'
    exact hn.isDescendant_of_within (hn.isDescendant_of_mem_properAncestors hsu ha) hu
  | regions p =>
    refine ⟨.refl _ e, fun c' hc' => ?_⟩
    obtain ⟨c, hchild, rfl⟩ := List.mem_map.1 hc'
    exact hn.isDescendant_trans (hn.isDescendant_of_parent (hn.parent_of_mem_children hchild)) hc
  | ancestor a =>
    refine ⟨.of_states_add rfl hc, fun c' hc' => ?_⟩
    simp only [expand] at hc'
    split at hc'
    · obtain rfl := List.mem_singleton.1 hc'
      exact hc
    · cases hc'
  | region r =>
    simp only [expand]
    split
    · exact ⟨.refl _ e, by simp⟩
    · refine ⟨.refl _ e, fun c' hc' => ?_⟩
      obtain rfl := List.mem_singleton.1 hc'
      exact hc

/-- Every effective target of a transition lies below its domain, if its targets do. -/
theorem effectiveTargets_below_domain (hw : sel.Downward) (ha : sel.doc.Anchored) {t d x : Nat}
    (hd : sel.domain t = some d)
    (htd : ∀ y ∈ (sel.doc.transition t).targets, sel.doc.isDescendant y d = true)
    (hx : x ∈ (sel.effectiveTargets t).items) : sel.doc.isDescendant x d = true := by
  unfold domain at hd
  dsimp only at hd
  split at hd
  · cases hd
  · split at hd
    · -- an internal transition keeps its effective targets below its source
      rename_i hint
      cases hd
      simp only [Bool.and_eq_true, List.all_eq_true] at hint
      exact hint.2 x hx
    · cases hd
      simp only [lcca] at htd ⊢
      cases hf : ((sel.doc.properAncestors (sel.doc.transition t).source none).filter
          sel.doc.isCompoundOrRoot).find?
          (fun a => (sel.effectiveTargets t).items.all fun s => sel.doc.isDescendant s a) with
      | some a =>
        have := List.find?_some hf
        simp only [List.all_eq_true] at this
        exact this x hx
      | none =>
        -- without such an ancestor the domain is the root, which every target lies below
        simp only [hf, Option.getD_none] at htd ⊢
        rcases sel.mem_collectEffective hx with hx | hx | ⟨h, hh, hr⟩
        · cases hx
        · exact htd x hx
        · exact ha.isDescendant_root hw.nested (hw.standIn_below hh hr)

theorem effectiveTargets_of_targets_nil {t : Nat} (ht : (sel.doc.transition t).targets = []) :
    sel.effectiveTargets t = {} := by
  unfold effectiveTargets
  rw [ht]
  cases sel.depthBound <;> rfl

/-- A microstep enters again no state it leaves active: in a compiled document whose history
pseudo-states each stand for states below their home, when every target of the transitions,
history pseudo-states included, lies below its transition's domain, every active state the
transitions enter is one they exit. -/
theorem entered_active_states_exited {ds : DocumentSchema} (hb : ds.build = .ok sel.doc)
    (hs : sel.StandInsBelow) {ts : List Nat}
    (hts : ∀ t ∈ ts, ∀ x ∈ (sel.doc.transition t).targets,
      ∃ d ∈ sel.domain t, sel.doc.isDescendant x d = true) :
    ∀ s ∈ (sel.entrySet ts).states.items, s ∈ sel.configuration.items →
      s ∈ (sel.exitSet ts).items := by
  have hw := Downward.of_build hb hs
  have ha := DocumentSchema.anchored_of_build hb
  -- each call is made for a transition with targets and stays below that transition's domain
  have hcalls : ∀ c ∈ ts.flatMap sel.entryCalls, ∃ t ∈ ts, (sel.doc.transition t).targets ≠ [] ∧
      ∃ d, sel.domain t = some d ∧ c.Below sel.doc d := by
    intro c hc
    obtain ⟨t, ht, hct⟩ := List.mem_flatMap.1 hc
    have hne : (sel.doc.transition t).targets ≠ [] := fun hnil => by
      simp [entryCalls, hnil, effectiveTargets_of_targets_nil hnil] at hct
    obtain ⟨y, hy⟩ := List.exists_mem_of_ne_nil _ hne
    obtain ⟨d, hd, -⟩ := hts t ht y hy
    have htd : ∀ x ∈ (sel.doc.transition t).targets, sel.doc.isDescendant x d = true :=
      fun x hx => by
        obtain ⟨d', hd', hxd⟩ := hts t ht x hx
        rwa [Option.mem_unique hd' hd] at hxd
    refine ⟨t, ht, hne, d, hd, ?_⟩
    rcases List.mem_append.1 hct with hct | hct <;> obtain ⟨x, hx, rfl⟩ := List.mem_map.1 hct
    · exact htd x hx
    · exact ⟨d, hd, .inl rfl, effectiveTargets_below_domain hw ha hd htd hx⟩
  -- a state below the domain of a transition with targets is exited if active
  have hstep : ∀ c e, (∃ t ∈ ts, (sel.doc.transition t).targets ≠ [] ∧
      ∃ d, sel.domain t = some d ∧ c.Below sel.doc d) →
      e.AddsOnly (fun x => x ∈ sel.configuration.items → x ∈ (sel.exitSet ts).items)
        (sel.expand c e).1 ∧ ∀ c' ∈ (sel.expand c e).2, ∃ t ∈ ts,
          (sel.doc.transition t).targets ≠ [] ∧ ∃ d, sel.domain t = some d ∧ c'.Below sel.doc d := by
    rintro c e ⟨t, ht, hne, d, hd, hc⟩
    obtain ⟨hown, hbelow⟩ := expand_below hw hc e
    refine ⟨hown.mono fun x hx hC => sel.mem_exitSet.2 ⟨t, ht, ?_⟩,
      fun c' hc' => ⟨t, ht, hne, d, hd, hbelow c' hc'⟩⟩
    exact sel.mem_exitSet_single.2 ⟨hne, d, hd, hC, hx⟩
  intro s hs hC
  rw [entrySet_eq_runCalls] at hs
  rcases addsOnly_runCalls (fun c hc e => addsOnly_runCall hstep _ (hcalls c hc) e) {} s hs with
    h | h
  · cases h
  · exact h hC

end Selector

/-- A state `H` holding a compound state `M`, whose child `m1` may move to its sibling `m2` or to
`M`'s deep history `mh`. -/
def homeHistoryChart : DocumentSchema :=
  { states := [
      { id := "H"
        children := [
          { id := "M"
            children := [
              { id := "m1"
                transitions := [
                  { events := ["NEXT"], targets := ["m2"] },
                  { events := ["GO"], targets := ["mh"] }] },
              { id := "m2" },
              { id := "mh", kind := .history .deep }] }] }] }

/-- With `H`, `M` and `m1` active and `mh` recording `m2`, the move from `m1` to `mh` has `mh`'s
home `M` as its domain, so what it enters and was active it also exits. -/
theorem homeHistory_enters_only_exited :
    homeHistoryChart.Builds fun d =>
      let named (name : String) := (d.lookup name).getD 0
      let sel : Selector :=
        ⟨d, ⟨["H", "M", "m1"].map named⟩, ⟨[(named "mh", ⟨.deep, [named "m2"]⟩)]⟩⟩
      let go := ((d.state (named "m1")).transitions.getLast?).getD 0
      sel.StandInsBelow ∧
        (∀ t ∈ [go], ∀ x ∈ (d.transition t).targets,
          ∃ D ∈ sel.domain t, d.isDescendant x D = true) ∧
        ∀ s ∈ (sel.entrySet [go]).states.items, s ∈ sel.configuration.items →
          s ∈ (sel.exitSet [go]).items := by
  have hyps : homeHistoryChart.Builds fun d =>
      let named (name : String) := (d.lookup name).getD 0
      let sel : Selector :=
        ⟨d, ⟨["H", "M", "m1"].map named⟩, ⟨[(named "mh", ⟨.deep, [named "m2"]⟩)]⟩⟩
      let go := ((d.state (named "m1")).transitions.getLast?).getD 0
      sel.StandInsBelow ∧
        ∀ t ∈ [go], ∀ x ∈ (d.transition t).targets,
          ∃ D ∈ sel.domain t, d.isDescendant x D = true := by
    decide +kernel
  exact hyps.imp fun d hb h =>
    ⟨h.1, h.2, Selector.entered_active_states_exited hb h.1 h.2⟩

/-- A state `H` holding a compound state `M`, whose child `m1` may move to its sibling `m2` or to
`H`'s deep history `hd`; `H` may be left for `out`, which returns to `m1`. -/
def historyInsideChart : DocumentSchema :=
  { states := [
      { id := "H"
        children := [
          { id := "M"
            children := [
              { id := "m1"
                transitions := [
                  { events := ["NEXT"], targets := ["m2"] },
                  { events := ["GO"], targets := ["hd"] }] },
              { id := "m2" }] },
          { id := "hd", kind := .history .deep }]
        transitions := [{ events := ["LEAVE"], targets := ["out"] }] },
      { id := "out", transitions := [{ events := ["BACK"], targets := ["m1"] }] }] }

/-- With `H`, `M` and `m1` active and `hd` recording `m2`, as after leaving `H` from `m2` and
coming back to `m1`, the move from `m1` to `hd` has `M` as its domain: it exits only `m1`, yet
enters `M` again on the way down to `m2`. -/
theorem deepHistory_reenters_active_state :
    historyInsideChart.Builds fun d =>
      let named (name : String) := (d.lookup name).getD 0
      let left : OrderedSet Nat := ⟨["H", "M", "m2"].map named⟩
      let record := Selector.historySnapshot ⟨d, left, {}⟩ (named "H") .deep
      let back := ((d.state (named "out")).transitions.head?).getD 0
      let active := (Selector.entrySet ⟨d, ⟨[named "out"]⟩, {}⟩ [back]).states
      let sel : Selector := ⟨d, active, ⟨[(named "hd", ⟨.deep, record⟩)]⟩⟩
      let go := ((d.state (named "m1")).transitions.getLast?).getD 0
      record.map d.name = ["m2"] ∧ active.items.map d.name = ["m1", "M", "H"] ∧
        sel.domain go = some (named "M") ∧ (sel.exitSet [go]).items.map d.name = ["m1"] ∧
        (sel.entrySet [go]).states.items.map d.name = ["m2", "M"] ∧
        named "M" ∈ active.items := by
  decide +kernel

end Hsm
