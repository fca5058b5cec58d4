import Mathlib
import Hsm.Session.Select
import Hsm.Document.Build
/-!
# What entering states adds

The entry walk only adds states (`Selector.states_subset_walk`), so every non-history target and
default target is entered whatever else a transition targets (`Selector.target_mem_entrySet`). A
deep history pseudo-state records the active atomic states below its home and restoring it enters
them again (`Selector.record_mem_addDescendants`).
-/

namespace Hsm

namespace OrderedSet
variable {α : Type} [BEq α] [LawfulBEq α]

@[simp] theorem mem_add {s : OrderedSet α} {a b : α} :
    a ∈ (s.add b).items ↔ a ∈ s.items ∨ a = b := by
  unfold add insert contains
  split <;> simp_all

theorem subset_add (s : OrderedSet α) (b : α) : s.items ⊆ (s.add b).items :=
  fun _ h => mem_add.2 (.inl h)

end OrderedSet

/-- A property of the document a description compiles to; false when it does not compile. -/
def DocumentSchema.Builds (ds : DocumentSchema) (P : Document → Prop) : Prop :=
  match ds.build with
  | .ok d => P d
  | .error _ => False

instance (ds : DocumentSchema) (P : Document → Prop) [DecidablePred P] :
    Decidable (ds.Builds P) :=
  match h : ds.build with
  | .ok d =>
    if hp : P d then isTrue (by rw [DocumentSchema.Builds, h]; exact hp)
    else isFalse (by rw [DocumentSchema.Builds, h]; exact hp)
  | .error _ => isFalse (by rw [DocumentSchema.Builds, h]; exact id)

theorem DocumentSchema.Builds.imp {ds : DocumentSchema} {P Q : Document → Prop}
    (h : ∀ d, ds.build = .ok d → P d → Q d) : ds.Builds P → ds.Builds Q := by
  unfold DocumentSchema.Builds
  split
  · rename_i d hd
    exact h d hd
  · exact id

theorem DocumentSchema.Builds.mono {ds : DocumentSchema} {P Q : Document → Prop}
    (h : ∀ d, P d → Q d) : ds.Builds P → ds.Builds Q :=
  DocumentSchema.Builds.imp fun d _ => h d

namespace Selector
variable (sel : Selector)

theorem foldl_states_subset {β : Type} {f : EntrySet → β → EntrySet}
    (hf : ∀ e b, e.states.items ⊆ (f e b).states.items) (l : List β) (e : EntrySet) :
    e.states.items ⊆ (l.foldl f e).states.items := by
  induction l generalizing e with
  | nil => exact List.Subset.refl _
  | cons b l ih => exact List.Subset.trans (hf e b) (ih _)

theorem mem_foldl_states {β : Type} {f : EntrySet → β → EntrySet}
    (hf : ∀ e b, e.states.items ⊆ (f e b).states.items) {x : Nat} {b : β}
    (hx : ∀ e, x ∈ (f e b).states.items) {l : List β} (hb : b ∈ l) (e : EntrySet) :
    x ∈ (l.foldl f e).states.items := by
  induction l generalizing e with
  | nil => cases hb
  | cons c l ih =>
    rcases List.mem_cons.1 hb with rfl | hb
    · exact foldl_states_subset hf l _ (hx e)
    · exact ih hb _

/-- The entry walk only adds states, at every depth. -/
theorem states_subset_walk (n : Nat) :
    (∀ s e, e.states.items ⊆ (sel.addDescendants n s e).states.items) ∧
    (∀ s u e, e.states.items ⊆ (sel.addAncestors n s u e).states.items) ∧
    (∀ p e, e.states.items ⊆ (sel.addRegions n p e).states.items) := by
  induction n with
  | zero => exact ⟨fun _ _ => by simp [addDescendants], fun _ _ _ => by simp [addAncestors],
      fun _ _ => by simp [addRegions]⟩
  | succ n ih =>
    obtain ⟨hd, ha, hr⟩ := ih
    have fd := foldl_states_subset (f := fun e r => sel.addDescendants n r e) fun e r => hd r e
    have fa (u : Option Nat) := foldl_states_subset (f := fun e r => sel.addAncestors n r u e)
      fun e r => ha r u e
    refine ⟨fun s e => ?_, fun s u e => ?_, fun p e => ?_⟩
    · simp only [addDescendants]
      -- a history state walks its record or its default; any other state is added first
      split
      · split
        · exact List.Subset.trans (fd _ e) (fa _ _ _)
        · split
          · exact List.Subset.trans (fd _ { e with historyContent := setKey _ _ e.historyContent })
              (fa _ _ _)
          · exact List.Subset.refl _
      · split
        · split
          · exact List.Subset.trans (OrderedSet.subset_add _ s) (List.Subset.trans
              (fd _ { e with states := e.states.add s, defaultEntry := e.defaultEntry.add s })
                (fa _ _ _))
          · exact OrderedSet.subset_add _ _
        · split
          · exact List.Subset.trans (OrderedSet.subset_add _ s)
              (hr _ { e with states := e.states.add s })
          · exact OrderedSet.subset_add _ _
    · simp only [addAncestors]
      refine foldl_states_subset (fun e a => ?_) _ _
      split
      · exact List.Subset.trans (OrderedSet.subset_add _ a)
          (hr _ { e with states := e.states.add a })
      · exact OrderedSet.subset_add _ _
    · simp only [addRegions]
      refine foldl_states_subset (fun e c => ?_) _ _
      split
      · exact List.Subset.refl _
      · exact hd _ _

theorem subset_addDescendants (n s : Nat) (e : EntrySet) :
    e.states.items ⊆ (sel.addDescendants n s e).states.items := (sel.states_subset_walk n).1 s e

theorem subset_addAncestors (n s : Nat) (u : Option Nat) (e : EntrySet) :
    e.states.items ⊆ (sel.addAncestors n s u e).states.items :=
  (sel.states_subset_walk n).2.1 s u e

theorem mem_addDescendants_self (n : Nat) {s : Nat} (hs : sel.doc.isHistory s = false)
    (e : EntrySet) : s ∈ (sel.addDescendants (n + 1) s e).states.items := by
  have hin : s ∈ (e.states.add s).items := OrderedSet.mem_add.2 (.inr rfl)
  simp only [addDescendants, hs, Bool.false_eq_true, if_false]
  split
  · split
    · exact foldl_states_subset (fun e r => sel.subset_addAncestors n r _ e) _ _
        (foldl_states_subset (fun e r => sel.subset_addDescendants n r e) _ _ hin)
    · exact hin
  · split
    · exact (sel.states_subset_walk n).2.2 _ _ hin
    · exact hin

theorem default_mem_addDescendants (n : Nat) {s i d : Nat} (hs : sel.doc.isHistory s = false)
    (hc : sel.doc.isCompound s = true) (hi : (sel.doc.state s).initial = some i)
    (hd : d ∈ (sel.doc.transition i).targets) (hdh : sel.doc.isHistory d = false) (e : EntrySet) :
    d ∈ (sel.addDescendants (n + 2) s e).states.items := by
  rw [addDescendants.eq_2]
  simp only [hs, hc, hi, Bool.false_eq_true, if_false, if_true]
  exact foldl_states_subset (fun e r => sel.subset_addAncestors _ r _ e) _ _
    (mem_foldl_states (fun e r => sel.subset_addDescendants _ r e)
      (fun e => sel.mem_addDescendants_self n hdh e) hd _)

theorem depthBound_pos : 0 < sel.depthBound := Nat.mul_pos (Nat.succ_pos _) (Nat.succ_pos _)

theorem four_le_depthBound_of_mode {s : Nat} (hm : (sel.doc.state s).mode ≠ .atomic) :
    4 ≤ sel.depthBound := by
  have hs : s < sel.doc.size := by
    refine Nat.lt_of_not_le fun hs => hm ?_
    have hout : ¬ s < sel.doc.states.size := Nat.not_lt.2 hs
    simp only [Document.state, Array.getD, hout, dite_false]
    rfl
  have h2 : 2 ≤ sel.doc.size + 1 := by omega
  exact Nat.mul_le_mul h2 h2

theorem four_le_depthBound {s : Nat} (hc : sel.doc.isCompound s = true) : 4 ≤ sel.depthBound :=
  sel.four_le_depthBound_of_mode (s := s) fun hm => by simp [Document.isCompound, hm] at hc

theorem mem_entrySet_of_addDescendants {ts : List Nat} {t s x : Nat} (ht : t ∈ ts)
    (hs : s ∈ (sel.doc.transition t).targets)
    (hx : ∀ e, x ∈ (sel.addDescendants sel.depthBound s e).states.items) :
    x ∈ (sel.entrySet ts).states.items := by
  unfold entrySet
  refine mem_foldl_states (fun e t => ?_) (fun e => ?_) ht _
  · exact List.Subset.trans (foldl_states_subset (fun e r => sel.subset_addDescendants _ r e) _ _)
      (foldl_states_subset (fun e r => sel.subset_addAncestors _ r _ e) _ _)
  · exact foldl_states_subset (fun e r => sel.subset_addAncestors _ r _ e) _ _
      (mem_foldl_states (fun e r => sel.subset_addDescendants _ r e) hx hs _)

theorem target_mem_entrySet {ts : List Nat} {t s : Nat} (ht : t ∈ ts)
    (hs : s ∈ (sel.doc.transition t).targets) (hsh : sel.doc.isHistory s = false) :
    s ∈ (sel.entrySet ts).states.items := by
  obtain ⟨k, hk⟩ : ∃ k, sel.depthBound = k + 1 :=
    ⟨_, (Nat.succ_pred_eq_of_pos sel.depthBound_pos).symm⟩
  refine sel.mem_entrySet_of_addDescendants ht hs fun e => ?_
  rw [hk]
  exact sel.mem_addDescendants_self k hsh e

/-- The entry set of transitions holds the default targets that are not history pseudo-states of
each compound target, whatever else the transitions target. -/
theorem default_mem_entrySet {ts : List Nat} {t s i d : Nat} (ht : t ∈ ts)
    (hs : s ∈ (sel.doc.transition t).targets) (hsh : sel.doc.isHistory s = false)
    (hc : sel.doc.isCompound s = true) (hi : (sel.doc.state s).initial = some i)
    (hd : d ∈ (sel.doc.transition i).targets) (hdh : sel.doc.isHistory d = false) :
    d ∈ (sel.entrySet ts).states.items := by
  obtain ⟨k, hk⟩ : ∃ k, sel.depthBound = k + 2 := ⟨_, (Nat.sub_add_cancel (Nat.le_trans
    (by decide) (sel.four_le_depthBound hc))).symm⟩
  refine sel.mem_entrySet_of_addDescendants ht hs fun e => ?_
  rw [hk]
  exact sel.default_mem_addDescendants k hsh hc hi hd hdh e

end Selector

/-- A document whose default targets are a compound state `A` and `A`'s second child `x`. -/
def nestedInitialChart : DocumentSchema :=
  { states := [{ id := "A", children := [{ id := "a0" }, { id := "x" }] }], initial := ["A", "x"] }

/-- Starting a session of `nestedInitialChart` enters both `A`'s default child `a0` and `x`: the
states entered are not a legal set. -/
theorem nestedInitial_entry_illegal :
    nestedInitialChart.Builds fun d =>
      let entered := (Selector.entrySet ⟨d, {}, {}⟩ (d.state 0).initial.toList).states.items
      entered.map d.name = ["A", "a0", "x"] ∧ d.isLegalSet entered = false := by
  decide +kernel

namespace Selector
variable (sel : Selector)

@[simp] theorem mem_historySnapshot_deep {home s : Nat} :
    s ∈ sel.historySnapshot home .deep ↔
      s ∈ sel.configuration.items ∧ sel.doc.isAtomic s = true ∧
        sel.doc.isDescendant s home = true := by
  simp [historySnapshot]

theorem record_mem_addDescendants (n : Nat) {h r : Nat} {recorded : List Nat}
    (hh : sel.doc.isHistory h = true) (hr : sel.history.get h = some recorded)
    (hmem : r ∈ recorded)
    (hrh : sel.doc.isHistory r = false) (e : EntrySet) :
    r ∈ (sel.addDescendants (n + 2) h e).states.items := by
  rw [addDescendants.eq_2]
  simp only [hh, hr, if_true]
  exact foldl_states_subset (fun e r => sel.subset_addAncestors _ r _ e) _ _
    (mem_foldl_states (fun e r => sel.subset_addDescendants _ r e)
      (fun e => sel.mem_addDescendants_self n hrh e) hmem _)

end Selector

/-- A parallel state `K` below `H` whose region `C` may move to a parallel state `P` without
children; `H` has a deep history pseudo-state `hd`, and `out` returns to it. -/
def childlessParallelChart : DocumentSchema :=
  { states := [
      { id := "H"
        children := [
          { id := "K", kind := .parallel
            children := [
              { id := "C"
                children := [
                  { id := "c0", transitions := [{ events := ["MOVE"], targets := ["P"] }] },
                  { id := "P", kind := .parallel }] },
              { id := "y" }] },
          { id := "hd", kind := .history .deep }]
        transitions := [{ events := ["LEAVE"], targets := ["out"] }] },
      { id := "out", transitions := [{ events := ["BACK"], targets := ["hd"] }] }] }

/-- With `H`, `K`, `C`, `y` and `P` active, the deep history of `H` records only `y`, since `P` is
not atomic; going back to the history from `out` then enters `C`'s default child `c0` in place
of `P`. -/
theorem childlessParallel_history_forgets :
    childlessParallelChart.Builds fun d =>
      let named (name : String) := (d.lookup name).getD 0
      let before : OrderedSet Nat := ⟨["H", "K", "C", "y", "P"].map named⟩
      let record := Selector.historySnapshot ⟨d, before, {}⟩ (named "H") .deep
      let back := ((d.state (named "out")).transitions.head?).getD 0
      let restored := (Selector.entrySet ⟨d, ⟨[named "out"]⟩, ⟨[(named "hd", ⟨.deep, record⟩)]⟩⟩
        [back]).states.items
      record.map d.name = ["y"] ∧ restored.map d.name = ["y", "K", "C", "c0", "H"] := by
  decide +kernel

end Hsm
