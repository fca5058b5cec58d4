import Hsm.Proofs.Unbounded
import Hsm.Proofs.Tree

/-!
# Entry ends when histories lead downwards

Where each history pseudo-state stands for states below its home (`Selector.HistoriesBelow`), every
call of the entry walk makes calls of lower rank, three for each level a state leaves below it
(`Document.headroom`), so the walks end (`Selector.entry_ends_of_historiesBelow`).
-/

namespace Hsm

namespace Document
variable {d : Document}

/-- How many levels a state leaves below it: the document's size less the state's level. -/
def headroom (d : Document) (s : Nat) : Nat := d.size - (d.state s).ancestors.length

/-- The state a history pseudo-state belongs to: its parent, the root for a state without one. -/
def home (d : Document) (h : Nat) : Nat := ((d.state h).parent).getD 0

theorem home_eq {h p : Nat} (hp : (d.state h).parent = some p) : d.home h = p := by
  simp [home, hp]

theorem headroom_le (s : Nat) : d.headroom s ≤ d.size := Nat.sub_le _ _

namespace Nested

theorem headroom_pos (hd : d.Nested) (hsize : 0 < d.size) (s : Nat) : 0 < d.headroom s := by
  unfold headroom
  cases hp : (d.state s).parent with
  | none =>
    rw [hd.ancestors_eq s, hp]
    exact hsize
  | some p =>
    have := hd.level_lt_size hp
    omega

theorem headroom_parent (hd : d.Nested) {s p : Nat} (h : (d.state s).parent = some p) :
    d.headroom s + 1 = d.headroom p := by
  unfold headroom
  have hlt := hd.level_lt_size h
  rw [hd.level_of_parent h] at hlt ⊢
  omega

theorem headroom_lt (hd : d.Nested) {s a : Nat} (h : d.isDescendant s a = true) :
    d.headroom s < d.headroom a := by
  obtain ⟨p, hp⟩ := Option.isSome_iff_exists.1 (hd.parent_isSome_of_isDescendant h)
  have hsize := hd.level_lt_size hp
  have hlevel := hd.level_lt_of_isDescendant h
  unfold headroom
  omega

end Nested
end Document

/-- A bound on the depth a call of the entry walk uses: three for each level the states it enters
leave below them, one more for a history pseudo-state than for the states it may stand for at
its own level. -/
def EntryCall.rank (d : Document) : EntryCall → Nat
  | .descendants s => 3 * d.headroom s + if d.isHistory s then 2 else 1
  | .ancestors s upto => ((d.properAncestors s upto).map fun a => 3 * d.headroom a).foldr max 0 + 1
  | .regions p | .ancestor p => 3 * d.headroom p
  | .region c => 3 * d.headroom c + 2

namespace EntryCall
variable {d : Document}

theorem rank_descendants_of_isHistory {s : Nat} (hh : d.isHistory s = true) :
    (descendants s).rank d = 3 * d.headroom s + 2 := by
  simp [rank, hh]

theorem rank_descendants_of_not_isHistory {s : Nat} (hh : d.isHistory s = false) :
    (descendants s).rank d = 3 * d.headroom s + 1 := by
  simp [rank, hh]

theorem rank_ancestor_lt {s a : Nat} {upto : Option Nat} (ha : a ∈ d.properAncestors s upto) :
    (ancestor a).rank d < (ancestors s upto).rank d := by
  have := List.le_max_of_le' 0 (List.mem_map_of_mem (f := fun a => 3 * d.headroom a) ha) le_rfl
  simp only [rank]
  omega

theorem rank_ancestors_le_of_forall {s b : Nat} {upto : Option Nat}
    (h : ∀ a ∈ d.properAncestors s upto, 3 * d.headroom a ≤ b) :
    (ancestors s upto).rank d ≤ b + 1 := by
  have : ((d.properAncestors s upto).map fun a => 3 * d.headroom a).foldr max 0 ≤ b :=
    List.max_le_of_forall_le _ _ fun x hx => by
      obtain ⟨a, ha, rfl⟩ := List.mem_map.1 hx
      exact h a ha
  simp only [rank]
  omega

theorem rank_ancestors_le (hd : d.Nested) {r u : Nat} (h : d.isDescendant r u = true) :
    (ancestors r (some u)).rank d + 2 ≤ 3 * d.headroom u := by
  have hu := hd.headroom_lt h
  have : (ancestors r (some u)).rank d ≤ 3 * (d.headroom u - 1) + 1 :=
    rank_ancestors_le_of_forall fun a ha => by
      have := hd.headroom_lt (hd.isDescendant_of_mem_properAncestors h ha)
      omega
  omega

theorem rank_descendants_le (hd : d.Nested) {r u : Nat} (h : d.isDescendant r u = true) :
    (descendants r).rank d + 1 ≤ 3 * d.headroom u := by
  have := hd.headroom_lt h
  simp only [rank]
  split <;> omega

end EntryCall

namespace Selector
variable (sel : Selector)

/-- What a history pseudo-state stands for: its record, or, without one, the targets of its
default transition. -/
def standIns (h : Nat) : List Nat :=
  match sel.history.get h with
  | some recorded => recorded
  | none =>
    match sel.historyDefault h with
    | some dt => (sel.doc.transition dt).targets
    | none => []

/-- What a history pseudo-state stands for lies below its home, and holds no history
pseudo-state of the same home. -/
def HistoryBelow (h : Nat) : Prop :=
  ∀ r ∈ sel.standIns h, sel.doc.isDescendant r (sel.doc.home h) = true ∧
    (sel.doc.isHistory r = true → (sel.doc.state r).parent ≠ some (sel.doc.home h))

def HistoriesBelow : Prop :=
  ∀ h < sel.doc.size, sel.doc.isHistory h = true → sel.HistoryBelow h

instance (h : Nat) : Decidable (sel.HistoryBelow h) :=
  inferInstanceAs (Decidable (∀ r ∈ sel.standIns h,
    sel.doc.isDescendant r (sel.doc.home h) = true ∧
      (sel.doc.isHistory r = true → (sel.doc.state r).parent ≠ some (sel.doc.home h))))

instance : Decidable sel.HistoriesBelow :=
  inferInstanceAs (Decidable (∀ h < sel.doc.size, sel.doc.isHistory h = true → sel.HistoryBelow h))

theorem expand_history {h : Nat} (hh : sel.doc.isHistory h = true) (e : EntrySet) :
    (sel.expand (.descendants h) e).2 = (sel.standIns h).map .descendants ++
      (sel.standIns h).map (.ancestors · (some (sel.doc.home h))) := by
  simp only [expand, hh, if_true, standIns, Document.home]
  cases sel.history.get h with
  | some recorded => rfl
  | none =>
    cases sel.historyDefault h with
    | some dt => rfl
    | none => rfl

theorem cost_of_mem_expand {c c' : EntryCall} {e : EntrySet} (hc : c' ∈ (sel.expand c e).2)
    (h0 : c.cost = 0) : c'.cost = 1 := by
  cases c with
  | ancestor a =>
    simp only [expand] at hc
    split at hc <;> simp_all [EntryCall.cost]
  | region r =>
    simp only [expand] at hc
    split at hc <;> simp_all [EntryCall.cost]
  | _ => simp [EntryCall.cost] at h0

theorem size_lt_depthBound : sel.doc.size < sel.depthBound :=
  Nat.lt_of_lt_of_le (Nat.lt_succ_self _) (Nat.le_mul_of_pos_right _ (Nat.succ_pos _))

theorem three_mul_size_lt_depthBound : 3 * sel.doc.size < sel.depthBound := by
  have := Nat.le_mul_self sel.doc.size
  unfold depthBound
  rw [Nat.add_mul, Nat.mul_add]
  omega

/-- What entry needs to end: the document's states form a tree with a root, each default-entry
transition targets states below its state, and every history pseudo-state stands for states
below its home. -/
structure Grounded : Prop where
  nested : sel.doc.Nested
  size_pos : 0 < sel.doc.size
  initial_below : ∀ {s i r : Nat}, (sel.doc.state s).initial = some i →
    r ∈ (sel.doc.transition i).targets → sel.doc.isDescendant r s = true
  histories : sel.HistoriesBelow

variable {sel}

theorem Grounded.of_build {ds : DocumentSchema} (hb : ds.build = .ok sel.doc)
    (hh : sel.HistoriesBelow) : sel.Grounded where
  nested := DocumentSchema.nested_of_build hb
  size_pos := DocumentSchema.size_pos_of_build hb
  initial_below := DocumentSchema.initial_below_of_build hb
  histories := hh

namespace Grounded

/-- A history pseudo-state stands for states below its home, and for history pseudo-states a
level or more below itself. -/
theorem headroom_standIn (hg : sel.Grounded) {h r : Nat} (hh : sel.doc.isHistory h = true)
    (hr : r ∈ sel.standIns h) :
    sel.doc.isDescendant r (sel.doc.home h) = true ∧ sel.doc.headroom r ≤ sel.doc.headroom h ∧
      (sel.doc.isHistory r = true → sel.doc.headroom r < sel.doc.headroom h) := by
  obtain ⟨home, hhome⟩ := Option.isSome_iff_exists.1 (hg.nested.parent_of_isHistory hh)
  obtain ⟨hdesc, hdeeper⟩ := hg.histories h (Document.lt_size_of_parent hhome) hh r hr
  rw [Document.home_eq hhome] at hdesc hdeeper ⊢
  have hup := hg.nested.headroom_parent hhome
  have hlt := hg.nested.headroom_lt hdesc
  refine ⟨hdesc, by omega, fun hrh => ?_⟩
  -- a history pseudo-state it stands for has a home of its own below `home`
  obtain ⟨q, hq⟩ := Option.isSome_iff_exists.1 (hg.nested.parent_of_isHistory hrh)
  have hqhome : sel.doc.isDescendant q home = true :=
    hg.nested.isDescendant_parent hq hdesc fun he => hdeeper hrh (he ▸ hq)
  have := hg.nested.headroom_lt hqhome
  have := hg.nested.headroom_parent hq
  omega

theorem cost_le_rank (hg : sel.Grounded) (c : EntryCall) : c.cost ≤ c.rank sel.doc := by
  cases c with
  | descendants s =>
    simp only [EntryCall.rank, EntryCall.cost]
    split <;> omega
  | regions p =>
    have := hg.nested.headroom_pos hg.size_pos p
    simp only [EntryCall.rank, EntryCall.cost]
    omega
  | _ => simp [EntryCall.rank, EntryCall.cost]

/-- Every call of the entry walk makes calls of lower rank, by at least the depth it uses. -/
theorem rank_add_cost_le (hg : sel.Grounded) {c c' : EntryCall} {e : EntrySet}
    (hc : c' ∈ (sel.expand c e).2) : c'.rank sel.doc + c.cost ≤ c.rank sel.doc := by
  cases c with
  | descendants s =>
    simp only [EntryCall.cost]
    cases hh : sel.doc.isHistory s with
    | true =>
      -- a history pseudo-state calls for what it stands for, below its home
      rw [sel.expand_history hh] at hc
      rw [EntryCall.rank_descendants_of_isHistory hh]
      obtain ⟨home, hhome⟩ := Option.isSome_iff_exists.1 (hg.nested.parent_of_isHistory hh)
      have hup := hg.nested.headroom_parent hhome
      rcases List.mem_append.1 hc with hc | hc <;> obtain ⟨r, hr, rfl⟩ := List.mem_map.1 hc
      · obtain ⟨-, hle, hlt⟩ := hg.headroom_standIn hh hr
        cases hrh : sel.doc.isHistory r with
        | false =>
          rw [EntryCall.rank_descendants_of_not_isHistory hrh]
          omega
        | true =>
          have := hlt hrh
          rw [EntryCall.rank_descendants_of_isHistory hrh]
          omega
      · obtain ⟨hdesc, -⟩ := hg.headroom_standIn hh hr
        rw [Document.home_eq hhome] at hdesc ⊢
        have := EntryCall.rank_ancestors_le hg.nested hdesc
        omega
    | false =>
      simp only [expand, hh, Bool.false_eq_true, if_false] at hc
      rw [EntryCall.rank_descendants_of_not_isHistory hh]
      split at hc
      · split at hc
        · -- a compound state calls for its default targets, all below it
          rename_i i hi
          rcases List.mem_append.1 hc with hc | hc <;> obtain ⟨r, hr, rfl⟩ := List.mem_map.1 hc
          · have := EntryCall.rank_descendants_le hg.nested (hg.initial_below hi hr)
            omega
          · have := EntryCall.rank_ancestors_le hg.nested (hg.initial_below hi hr)
            omega
        · cases hc
      · split at hc
        · obtain rfl := List.mem_singleton.1 hc
          simp only [EntryCall.rank]
          omega
        · cases hc
  | ancestors s upto =>
    obtain ⟨a, ha, rfl⟩ := List.mem_map.1 hc
    have := EntryCall.rank_ancestor_lt ha
    simp only [EntryCall.cost]
    omega
  | regions p =>
    simp only [expand] at hc
    obtain ⟨c, hchild, rfl⟩ := List.mem_map.1 hc
    have := hg.nested.headroom_parent (hg.nested.parent_of_mem_children hchild)
    simp only [EntryCall.rank, EntryCall.cost]
    omega
  | ancestor a =>
    simp only [expand] at hc
    split at hc
    · obtain rfl := List.mem_singleton.1 hc
      simp [EntryCall.rank, EntryCall.cost]
    · cases hc
  | region r =>
    simp only [expand] at hc
    split at hc
    · cases hc
    · obtain rfl := List.mem_singleton.1 hc
      simp only [EntryCall.rank, EntryCall.cost]
      split <;> omega

/-- The calls entering a transition makes have ranks within the depth bound. -/
theorem rank_le_depthBound (hg : sel.Grounded) {t : Nat} {c : EntryCall}
    (hc : c ∈ sel.entryCalls t) : c.rank sel.doc ≤ sel.depthBound := by
  have hbound := sel.three_mul_size_lt_depthBound
  rcases List.mem_append.1 hc with hc | hc <;> obtain ⟨s, -, rfl⟩ := List.mem_map.1 hc
  · have := Document.headroom_le (d := sel.doc) s
    cases hh : sel.doc.isHistory s with
    | false =>
      rw [EntryCall.rank_descendants_of_not_isHistory hh]
      omega
    | true =>
      -- a history pseudo-state has a parent, so it leaves fewer levels than the document has
      obtain ⟨p, hp⟩ := Option.isSome_iff_exists.1 (hg.nested.parent_of_isHistory hh)
      have := hg.nested.headroom_parent hp
      have := Document.headroom_le (d := sel.doc) p
      rw [EntryCall.rank_descendants_of_isHistory hh]
      omega
  · have : (EntryCall.ancestors s (sel.domain t)).rank sel.doc ≤ 3 * sel.doc.size + 1 :=
      EntryCall.rank_ancestors_le_of_forall fun a _ => by
        have := Document.headroom_le (d := sel.doc) a
        omega
    omega

end Grounded

theorem enters_runCalls {n : Nat} {cs : List EntryCall}
    (h : ∀ c ∈ cs, ∀ e, sel.Enters (sel.expand c e).2 (sel.expand c e).1 (sel.runCall n c e))
    (e : EntrySet) : sel.Enters cs e (sel.runCalls n cs e) := by
  induction cs generalizing e with
  | nil => exact .nil e
  | cons c cs ih =>
    exact .cons (h c List.mem_cons_self e) (ih (fun c hc => h c (List.mem_cons_of_mem _ hc)) _)

/-- A call whose rank is within the depth enters, without a bound, what it enters with that
depth. -/
theorem Grounded.enters_runCall (hg : sel.Grounded) (c : EntryCall) (e : EntrySet) {n : Nat}
    (hn : c.rank sel.doc ≤ n) :
    sel.Enters (sel.expand c e).2 (sel.expand c e).1 (sel.runCall n c e) := by
  -- on twice the rank less the cost: a call's calls have lower rank, or the same rank and a
  -- cost of one where the call itself costs nothing
  induction hm : 2 * c.rank sel.doc + 1 - c.cost using Nat.strongRecOn generalizing c e n with
  | ind m ih =>
    have hcost := c.cost_le_one
    obtain ⟨k, rfl⟩ : ∃ k, n = k + c.cost := ⟨n - c.cost, by have := hg.cost_le_rank c; omega⟩
    rw [runCall_eq]
    refine enters_runCalls (fun c' hc' e' => ?_) _
    have hdec := hg.rank_add_cost_le hc'
    have hcost' := c'.cost_le_one
    have hstep := sel.cost_of_mem_expand hc'
    refine ih _ ?_ c' e' (by omega) rfl
    by_cases h0 : c.cost = 0
    · have := hstep h0
      omega
    · omega

/-- Collecting states, each history pseudo-state replaced by what it stands for, ends without a
depth bound where it ends with a depth that is positive and exceeds the headroom of each history
pseudo-state collected. -/
theorem Grounded.collects_collectEffective (hg : sel.Grounded) {n : Nat} {ts : List Nat}
    (hn : ∀ s ∈ ts, 0 < n ∧ (sel.doc.isHistory s = true → sel.doc.headroom s < n))
    (out : OrderedSet Nat) : sel.Collects ts out (sel.collectEffective n ts out) := by
  induction n generalizing ts out with
  | zero =>
    cases ts with
    | nil => exact .nil out
    | cons s _ => exact absurd (hn s List.mem_cons_self).1 (Nat.lt_irrefl 0)
  | succ n ihn =>
    induction ts generalizing out with
    | nil => exact .nil out
    | cons s rest ih =>
      have hrest := ih fun r hr => hn r (List.mem_cons_of_mem _ hr)
      rw [collectEffective_cons]
      cases hh : sel.doc.isHistory s with
      | false => exact .plain hh (hrest _)
      | true =>
        cases hr : sel.history.get s with
        | some recorded => exact .recorded hh hr (hrest _)
        | none =>
          cases hd : sel.historyDefault s with
          | none => exact .noDefault hh hr hd (hrest _)
          | some dt =>
            -- the default's targets lie below the home, history pseudo-states a level deeper
            refine .viaDefault hh hr hd (ihn (fun r hrt => ?_) out) (hrest _)
            have hmem : r ∈ sel.standIns s := by simp [standIns, hr, hd, hrt]
            obtain ⟨-, hle, hlt⟩ := hg.headroom_standIn hh hmem
            have hroom := (hn s List.mem_cons_self).2 hh
            have hpos := hg.nested.headroom_pos hg.size_pos r
            exact ⟨by omega, fun hrh => by have := hlt hrh; omega⟩

/-- In a compiled document whose history pseudo-states each stand for states below their home,
none a history pseudo-state of the same home, collecting the effective targets of a transition
and entering any transitions end without a depth bound, and where the walks bounded by the
document's depth bound end. -/
theorem entry_ends_of_historiesBelow {ds : DocumentSchema} (hb : ds.build = .ok sel.doc)
    (hh : sel.HistoriesBelow) :
    (∀ t, sel.Collects (sel.doc.transition t).targets {} (sel.effectiveTargets t)) ∧
      ∀ ts, sel.Enters (ts.flatMap sel.entryCalls) {} (sel.entrySet ts) := by
  have hg := Grounded.of_build hb hh
  refine ⟨fun t => hg.collects_collectEffective (fun s _ => ⟨sel.depthBound_pos, fun _ => ?_⟩) {},
    fun ts => ?_⟩
  · exact Nat.lt_of_le_of_lt (Document.headroom_le s) sel.size_lt_depthBound
  · rw [entrySet_eq_runCalls]
    refine enters_runCalls (fun c hc e => hg.enters_runCall c e ?_) {}
    obtain ⟨t, -, hct⟩ := List.mem_flatMap.1 hc
    exact hg.rank_le_depthBound hct

end Selector

/-- A compound state `work` with a compound child `step`, which has a shallow history
pseudo-state `sh`, a parallel child `both`, and a deep history pseudo-state `wh`. -/
def nestedHistoryChart : DocumentSchema :=
  { states := [
      { id := "work"
        children := [
          { id := "step"
            children := [{ id := "s1" }, { id := "s2" }, { id := "sh", kind := .history .shallow }] },
          { id := "both", kind := .parallel, children := [{ id := "left" }, { id := "right" }] },
          { id := "wh", kind := .history .deep }] },
      { id := "idle" }] }

/-- With `wh` recording `s2`, every history pseudo-state of `nestedHistoryChart` stands for
states below its home, so its walks end. -/
theorem nestedHistory_entry_ends :
    nestedHistoryChart.Builds fun d =>
      let sel : Selector := ⟨d, {}, ⟨[((d.lookup "wh").getD 0, ⟨.deep, [(d.lookup "s2").getD 0]⟩)]⟩⟩
      sel.HistoriesBelow ∧
        (∀ t, sel.Collects (sel.doc.transition t).targets {} (sel.effectiveTargets t)) ∧
          ∀ ts, sel.Enters (ts.flatMap sel.entryCalls) {} (sel.entrySet ts) := by
  have hbelow : nestedHistoryChart.Builds fun d =>
      (⟨d, {}, ⟨[((d.lookup "wh").getD 0, ⟨.deep, [(d.lookup "s2").getD 0]⟩)]⟩⟩ : Selector).HistoriesBelow := by
    decide +kernel
  refine hbelow.imp fun d hb hh => ⟨hh, Selector.entry_ends_of_historiesBelow hb hh⟩

end Hsm
