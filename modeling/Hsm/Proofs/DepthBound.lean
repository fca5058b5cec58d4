import Hsm.Proofs.Unbounded
import Hsm.Proofs.Compiled
/-! The depth bound of the entry walks suffices: wherever the walks without a bound end, the
bounded walks of a compiled document end in the same place (`Selector.depthBound_suffices`). -/

namespace Hsm

def ReachesCycle {α : Type} (r : α → α → Prop) (a : α) : Prop :=
  ∃ b, Relation.ReflTransGen r a b ∧ Relation.TransGen r b b

theorem ReachesCycle.step {α : Type} {r : α → α → Prop} {a : α} (h : ReachesCycle r a) :
    ∃ a₁, r a a₁ ∧ ReachesCycle r a₁ := by
  obtain ⟨b, hab, hbb⟩ := h
  rcases Relation.ReflTransGen.cases_head hab with rfl | ⟨a₁, ha, ha₁⟩
  · obtain ⟨a₁, ha, ha₁⟩ := Relation.TransGen.head'_iff.1 hbb
    exact ⟨a₁, ha, a, ha₁, hbb⟩
  · exact ⟨a₁, ha, b, ha₁, hbb⟩

theorem ReachesCycle.of_transGen {α : Type} {r : α → α → Prop} {a : α}
    (h : Relation.TransGen r a a) : ReachesCycle r a :=
  ⟨a, .refl, h⟩

/-- A chain of calls that leads into no cycle meets none of the states it came down from: the
states met grow by a fresh one and still fit among the `N` states. -/
theorem ReachesCycle.insert_fresh {α : Type} {r : α → α → Prop} {f : Nat → α} {V : Finset Nat}
    {N s : Nat} (hV : V ⊆ Finset.range N) (hs : s < N) (hnl : ¬ ReachesCycle r (f s))
    (hreach : ∀ x ∈ V, Relation.TransGen r (f x) (f s)) :
    insert s V ⊆ Finset.range N ∧ (insert s V).card = V.card + 1 ∧ V.card + 1 ≤ N := by
  have hsV : s ∉ V := fun hsV => hnl (.of_transGen (hreach s hsV))
  have hsub : insert s V ⊆ Finset.range N := Finset.insert_subset (Finset.mem_range.2 hs) hV
  have hcard := Finset.card_le_card hsub
  rw [Finset.card_insert_of_notMem hsV, Finset.card_range] at hcard
  exact ⟨hsub, Finset.card_insert_of_notMem hsV, hcard⟩

namespace Document

/-- The regions of a state are states of the document other than the root, none of them a
history pseudo-state. -/
structure RegionsPlain (d : Document) : Prop where
  pos : 0 < d.size
  child : ∀ {p c : Nat}, c ∈ (d.state p).children → 0 < c ∧ c < d.size ∧ d.isHistory c = false

theorem state_of_le {d : Document} {s : Nat} (hs : d.size ≤ s) : d.state s = default := by
  have hout : ¬ s < d.states.size := Nat.not_lt.2 hs
  simp [state, Array.getD, hout]

theorem isHistory_lt_size {d : Document} {s : Nat} (h : d.isHistory s = true) : s < d.size := by
  refine Nat.lt_of_not_le fun hs => ?_
  simp [isHistory, historyKind?, state_of_le hs, default] at h

end Document

theorem DocumentSchema.Lowered.regionsPlain {ds : DocumentSchema} {d : Document} (h : ds.Lowered d) :
    d.RegionsPlain := by
  refine ⟨by rw [h.size_eq]; omega, fun {p c} hc => ?_⟩
  rw [h.children_eq, Document.mem_withParent] at hc
  obtain ⟨hlt, hpar, hh⟩ := hc
  refine ⟨Nat.pos_of_ne_zero fun h0 => ?_, hlt, hh⟩
  -- the root has no parent
  subst h0
  rw [h.root.2.2.1] at hpar
  cases hpar

namespace Selector
variable (sel : Selector)

/-- The calls a call makes whatever has been entered before it: all of them but a region's, which
enters the region only when nothing entered covers it. -/
def nextCalls : EntryCall → List EntryCall
  | .region _ => []
  | c => (sel.expand c {}).2

def Calls (c c' : EntryCall) : Prop := c' ∈ sel.nextCalls c

def entered : EntryCall → Option Nat
  | .descendants s => if sel.doc.isHistory s then none else some s
  | .ancestor a => some a
  | _ => none

variable {sel}

theorem expand_snd {c : EntryCall} (hc : ∀ r, c ≠ .region r) (e : EntrySet) :
    (sel.expand c e).2 = sel.nextCalls c := by
  cases c with
  | region r => exact absurd rfl (hc r)
  | descendants s =>
    simp only [nextCalls, expand]
    repeat' split
    all_goals rfl
  | _ => rfl

theorem expand_snd_region (r : Nat) (e : EntrySet) :
    (sel.expand (.region r) e).2 ⊆ [.descendants r] := by
  simp only [expand]
  split <;> simp

theorem mem_expand_states {c : EntryCall} {e : EntrySet} {x : Nat} :
    x ∈ (sel.expand c e).1.states.items ↔ x ∈ e.states.items ∨ sel.entered c = some x := by
  cases c with
  | descendants s =>
    simp only [expand, entered]
    split
    · simp only [reduceCtorEq, or_false]
      split
      · rfl
      · split <;> rfl
    · simp only [Option.some.injEq]
      split
      · split <;> simp [eq_comm]
      · split <;> simp [eq_comm]
  | ancestor a =>
    simp only [expand, entered, Option.some.injEq]
    simp [eq_comm]
  | ancestors => simp [expand, entered]
  | regions => simp [expand, entered]
  | region r =>
    simp only [expand, entered]
    split <;> simp

theorem states_sub_expand (c : EntryCall) (e : EntrySet) :
    e.states.items ⊆ (sel.expand c e).1.states.items :=
  fun _ hx => mem_expand_states.2 (.inl hx)

theorem expand_states_mono (c : EntryCall) {e e' : EntrySet} (h : e.states.items ⊆ e'.states.items) :
    (sel.expand c e).1.states.items ⊆ (sel.expand c e').1.states.items := by
  intro x hx
  rcases mem_expand_states.1 hx with hx | hx
  · exact mem_expand_states.2 (.inl (h hx))
  · exact mem_expand_states.2 (.inr hx)

theorem Enters.states_sub {cs : List EntryCall} {e e' : EntrySet} (h : sel.Enters cs e e') :
    e.states.items ⊆ e'.states.items := by
  induction h with
  | nil => exact fun _ hx => hx
  | cons _ _ ih₁ ih₂ => exact fun _ hx => ih₂ (ih₁ (states_sub_expand _ _ hx))

theorem Enters.not_reachesCycle {cs : List EntryCall} {e e' : EntrySet} (h : sel.Enters cs e e') :
    ∀ c ∈ cs, ¬ ReachesCycle sel.Calls c := by
  induction h with
  | nil => simp
  | @cons c cs e e₁ e₂ _ _ ih₁ ih₂ =>
    intro c' hc' hl
    rcases List.mem_cons.1 hc' with rfl | hc'
    · obtain ⟨c₁, hc₁, hl₁⟩ := hl.step
      -- a call that leads somewhere whatever was entered is no region's
      have hreg : ∀ r, c' ≠ .region r := by
        rintro r rfl
        simp [Calls, nextCalls] at hc₁
      exact ih₁ c₁ (by rw [expand_snd hreg]; exact hc₁) hl₁
    · exact ih₂ c' hc' hl

/-! ### States left to enter -/

variable (sel) in
/-- How many states other than the root and the history pseudo-states are not entered yet. -/
def unentered (e : EntrySet) : Nat :=
  ((Finset.range sel.doc.size).filter fun s =>
    0 < s ∧ sel.doc.isHistory s = false ∧ s ∉ e.states.items).card

theorem unentered_anti {e e' : EntrySet} (h : e.states.items ⊆ e'.states.items) :
    sel.unentered e' ≤ sel.unentered e := by
  refine Finset.card_le_card fun s hs => ?_
  simp only [Finset.mem_filter] at hs ⊢
  exact ⟨hs.1, hs.2.1, hs.2.2.1, fun hm => hs.2.2.2 (h hm)⟩

theorem unentered_le (e : EntrySet) : sel.unentered e ≤ sel.doc.size - 1 := by
  have hsub : (Finset.range sel.doc.size).filter (fun s =>
      0 < s ∧ sel.doc.isHistory s = false ∧ s ∉ e.states.items) ⊆ Finset.Ioo 0 sel.doc.size :=
    fun s hs => by
      simp only [Finset.mem_filter, Finset.mem_range] at hs
      exact Finset.mem_Ioo.2 ⟨hs.2.1, hs.1⟩
  calc sel.unentered e ≤ (Finset.Ioo 0 sel.doc.size).card := Finset.card_le_card hsub
    _ = sel.doc.size - 1 := by rw [Nat.card_Ioo]; rfl

/-- Entering a state still to enter leaves one fewer. -/
theorem unentered_lt {r : Nat} {e e' : EntrySet} (hr : 0 < r ∧ r < sel.doc.size ∧ sel.doc.isHistory r = false)
    (hn : r ∉ e.states.items) (h : e.states.items ⊆ e'.states.items) (hr' : r ∈ e'.states.items) :
    sel.unentered e' + 1 ≤ sel.unentered e := by
  have hmem : r ∈ (Finset.range sel.doc.size).filter (fun s =>
      0 < s ∧ sel.doc.isHistory s = false ∧ s ∉ e.states.items) := by
    simp only [Finset.mem_filter, Finset.mem_range]
    exact ⟨hr.2.1, hr.1, hr.2.2, hn⟩
  have hsub : (Finset.range sel.doc.size).filter (fun s =>
      0 < s ∧ sel.doc.isHistory s = false ∧ s ∉ e'.states.items) ⊆
      ((Finset.range sel.doc.size).filter fun s =>
        0 < s ∧ sel.doc.isHistory s = false ∧ s ∉ e.states.items).erase r := fun s hs => by
    simp only [Finset.mem_filter] at hs
    refine Finset.mem_erase.2 ⟨fun hsr => hs.2.2.2 (hsr ▸ hr'), ?_⟩
    simp only [Finset.mem_filter]
    exact ⟨hs.1, hs.2.1, hs.2.2.1, fun hm => hs.2.2.2 (h hm)⟩
  have := Finset.card_le_card hsub
  rw [Finset.card_erase_of_mem hmem] at this
  have hpos := Finset.card_pos.2 ⟨r, hmem⟩
  unfold unentered
  omega

/-! ### The depth a call may still use -/

variable (sel) in
/-- What is left of the current run of entries down the document, `visited` holding the states
entered on the way down since the last region: a run enters each state at most once, then may
enter ancestors and the regions of a parallel one. -/
def chainBudget (visited : Finset Nat) : EntryCall → Nat
  | .descendants s => if s < sel.doc.size then sel.doc.size + 2 - visited.card else 1
  | .ancestors _ _ => 2
  | .ancestor _ | .regions _ => 1
  | .region _ => 0

variable (sel) in
/-- The depth a call may use: a run of entries for each state still to enter once the call has
entered its own, and what is left of the current run. -/
def budget (visited : Finset Nat) (c : EntryCall) (e : EntrySet) : Nat :=
  (sel.doc.size + 2) * sel.unentered (sel.expand c e).1 + sel.chainBudget visited c

variable (sel) in
/-- A region to enter is a state of the document other than the root, and no history
pseudo-state. -/
def RegionPlain : EntryCall → Prop
  | .region r => 0 < r ∧ r < sel.doc.size ∧ sel.doc.isHistory r = false
  | _ => True

theorem budget_anti (V : Finset Nat) (c : EntryCall) {e e' : EntrySet}
    (h : e.states.items ⊆ e'.states.items) : sel.budget V c e' ≤ sel.budget V c e := by
  have hu : sel.unentered (sel.expand c e').1 ≤ sel.unentered (sel.expand c e).1 :=
    unentered_anti (expand_states_mono c h)
  unfold budget
  have := Nat.mul_le_mul_left (sel.doc.size + 2) hu
  omega

theorem cost_le_chainBudget {V : Finset Nat} (hV : V ⊆ Finset.range sel.doc.size) (c : EntryCall) :
    c.cost ≤ sel.chainBudget V c := by
  have hcard : V.card ≤ sel.doc.size := by simpa using Finset.card_le_card hV
  cases c <;> simp only [EntryCall.cost, chainBudget] <;> (try split) <;> omega

theorem chainBudget_le (V : Finset Nat) (c : EntryCall) : sel.chainBudget V c ≤ sel.doc.size + 2 := by
  cases c <;> simp only [chainBudget] <;> (try split) <;> omega

/-- The calls of the document's compiled regions are plain. -/
theorem regionPlain_of_mem_expand (hd : sel.doc.RegionsPlain) {c c' : EntryCall} {e : EntrySet}
    (h : c' ∈ (sel.expand c e).2) : sel.RegionPlain c' := by
  cases c with
  | regions p =>
    simp only [expand, List.mem_map] at h
    obtain ⟨r, hr, rfl⟩ := h
    exact hd.child hr
  | descendants s =>
    -- entering a state makes no region call of its own
    have hnr : ∀ r, c' ≠ .region r := by
      rintro r rfl
      simp only [expand] at h
      repeat' split at h
      all_goals simp at h
    cases c' with
    | region r => exact absurd rfl (hnr r)
    | _ => trivial
  | ancestors s u =>
    simp only [expand, List.mem_map] at h
    obtain ⟨_, _, rfl⟩ := h
    trivial
  | ancestor a =>
    simp only [expand] at h
    split at h <;> simp at h
    subst h
    trivial
  | region r =>
    simp only [expand] at h
    split at h <;> simp at h
    subst h
    trivial

/-! ### Each call within its budget -/

theorem unentered_later {c : EntryCall} (c' : EntryCall) {e e' : EntrySet}
    (h : (sel.expand c e).1.states.items ⊆ e'.states.items) :
    sel.unentered (sel.expand c' e').1 ≤ sel.unentered (sel.expand c e).1 :=
  unentered_anti (List.Subset.trans h (states_sub_expand c' e'))

theorem budget_next {V V' : Finset Nat} {c c' : EntryCall} {e e' : EntrySet}
    (hchain : sel.chainBudget V' c' + c.cost ≤ sel.chainBudget V c)
    (h : (sel.expand c e).1.states.items ⊆ e'.states.items) :
    sel.budget V' c' e' + c.cost ≤ sel.budget V c e := by
  have := Nat.mul_le_mul_left (sel.doc.size + 2) (unentered_later c' h)
  unfold budget
  omega

theorem expand_region_fst (r : Nat) (e : EntrySet) : (sel.expand (.region r) e).1 = e := by
  simp only [expand]
  split <;> rfl

theorem budget_region {r : Nat} {V : Finset Nat} {e e' : EntrySet} (hr : sel.RegionPlain (.region r))
    (hn : r ∉ e.states.items) (h : e.states.items ⊆ e'.states.items) :
    sel.budget ∅ (.descendants r) e' ≤ sel.budget V (.region r) e := by
  obtain ⟨h0, hlt, hh⟩ := hr
  have hin : r ∈ (sel.expand (.descendants r) e').1.states.items :=
    mem_expand_states.2 (.inr (by simp [entered, hh]))
  have hfewer := unentered_lt ⟨h0, hlt, hh⟩ hn (List.Subset.trans h (states_sub_expand _ e')) hin
  have := Nat.mul_le_mul_left (sel.doc.size + 2) hfewer
  rw [Nat.mul_add] at this
  simp only [budget, chainBudget, expand_region_fst, if_pos hlt, Finset.card_empty]
  omega

theorem budget_calls_of_next {c : EntryCall} {V : Finset Nat} {e : EntrySet} (hc : ∀ r, c ≠ .region r)
    (hV : V ⊆ Finset.range sel.doc.size) (hreach : ∀ s ∈ V, Relation.TransGen sel.Calls (.descendants s) c)
    (hchain : ∀ c' ∈ sel.nextCalls c, sel.chainBudget V c' + c.cost ≤ sel.chainBudget V c) :
    ∃ V' ⊆ Finset.range sel.doc.size, ∀ c' ∈ (sel.expand c e).2,
      (∀ s ∈ V', Relation.TransGen sel.Calls (.descendants s) c') ∧
      ∀ e', (sel.expand c e).1.states.items ⊆ e'.states.items →
        sel.budget V' c' e' + c.cost ≤ sel.budget V c e := by
  refine ⟨V, hV, fun c' hc' => ?_⟩
  rw [expand_snd hc] at hc'
  exact ⟨fun x hx => .tail (hreach x hx) hc', fun e' he' => budget_next (hchain c' hc') he'⟩

/-- Each call a call makes keeps within what is left of its budget: a run down the document
enters each state at most once, as a walk that ends leads into no cycle, and a region is entered
only while it is not, which leaves one state fewer to enter. -/
theorem budget_calls {c : EntryCall} {V : Finset Nat} {e : EntrySet}
    (hV : V ⊆ Finset.range sel.doc.size) (hnl : ¬ ReachesCycle sel.Calls c)
    (hreach : ∀ s ∈ V, Relation.TransGen sel.Calls (.descendants s) c) (hreg : sel.RegionPlain c) :
    ∃ V' ⊆ Finset.range sel.doc.size, ∀ c' ∈ (sel.expand c e).2,
      (∀ s ∈ V', Relation.TransGen sel.Calls (.descendants s) c') ∧
      ∀ e', (sel.expand c e).1.states.items ⊆ e'.states.items →
        sel.budget V' c' e' + c.cost ≤ sel.budget V c e := by
  cases c with
  | region r =>
    refine ⟨∅, Finset.empty_subset _, fun c' hc' => ⟨by simp, fun e' he' => ?_⟩⟩
    -- the region is entered only when nothing entered covers it
    simp only [expand] at hc'
    split at hc'
    · simp at hc'
    · rename_i hcov
      obtain rfl : c' = .descendants r := by simpa using hc'
      have hn : r ∉ e.states.items := fun hm => hcov (List.any_eq_true.2 ⟨r, hm, by simp⟩)
      rw [expand_region_fst] at he'
      simpa [EntryCall.cost] using budget_region hreg hn he'
  | descendants s =>
    by_cases hs : s < sel.doc.size
    · -- the run enters `s` once: entering it again would be a cycle
      obtain ⟨hsub, hins, hcard⟩ := ReachesCycle.insert_fresh (f := EntryCall.descendants) hV hs hnl hreach
      refine ⟨insert s V, hsub, fun c' hc' => ⟨fun x hx => ?_, fun e' he' => budget_next ?_ he'⟩⟩
      · rw [expand_snd (by simp)] at hc'
        rcases Finset.mem_insert.1 hx with rfl | hx
        · exact .single hc'
        · exact .tail (hreach x hx) hc'
      · cases c' <;> simp only [chainBudget, EntryCall.cost, hs, if_true, hins] <;> (try split) <;> omega
    · -- a state outside the document brings nothing along
      refine ⟨V, hV, fun c' hc' => ?_⟩
      have hdef := Document.state_of_le (Nat.le_of_not_lt hs)
      simp [expand, Document.isHistory, Document.historyKind?, Document.isCompound, Document.isParallel,
        hdef, default] at hc'
  | ancestors t u =>
    refine budget_calls_of_next (by simp) hV hreach fun c' hc' => ?_
    simp only [nextCalls, expand, List.mem_map] at hc'
    obtain ⟨_, _, rfl⟩ := hc'
    simp [chainBudget, EntryCall.cost]
  | ancestor a =>
    refine budget_calls_of_next (by simp) hV hreach fun c' hc' => ?_
    simp only [nextCalls, expand] at hc'
    split at hc' <;> simp at hc'
    subst hc'
    simp [chainBudget, EntryCall.cost]
  | regions p =>
    refine budget_calls_of_next (by simp) hV hreach fun c' hc' => ?_
    simp only [nextCalls, expand, List.mem_map] at hc'
    obtain ⟨_, _, rfl⟩ := hc'
    simp [chainBudget, EntryCall.cost]

/-! ### Walks within their budget -/

/-- A walk that ends, with each call's budget at most `n`, gives the bounded walk with depth `n`.
The induction is on the walk: each call spends its own depth, and the calls it makes stay within
what is left (`budget_calls`); later calls find more entered, and ask for no more. -/
theorem Enters.runCalls_of_budget (hd : sel.doc.RegionsPlain) {cs : List EntryCall} {e e' : EntrySet}
    (h : sel.Enters cs e e') :
    ∀ {n : Nat} {V : Finset Nat}, V ⊆ Finset.range sel.doc.size →
      (∀ s ∈ V, ∀ c ∈ cs, Relation.TransGen sel.Calls (.descendants s) c) →
      (∀ c ∈ cs, sel.RegionPlain c) → (∀ c ∈ cs, sel.budget V c e ≤ n) → sel.runCalls n cs e = e' := by
  induction h with
  | nil => intros; rfl
  | @cons c cs e e₁ e₂ h₁ h₂ ih₁ ih₂ =>
    intro n V hV hreach hreg hn
    have hnl := (Enters.cons h₁ h₂).not_reachesCycle c List.mem_cons_self
    obtain ⟨V', hV', hcalls⟩ :=
      budget_calls (e := e) hV hnl (fun s hs => hreach s hs c List.mem_cons_self) (hreg c List.mem_cons_self)
    have hc := hn c List.mem_cons_self
    have hcost : c.cost ≤ sel.budget V c e :=
      (cost_le_chainBudget hV c).trans (Nat.le_add_left _ _)
    -- the call takes its own level of depth, the calls it makes the rest
    have hrun : sel.runCall n c e = e₁ := by
      rw [show n = (n - c.cost) + c.cost by omega, runCall_eq]
      refine ih₁ hV' (fun s hs c' hc' => (hcalls c' hc').1 s hs)
        (fun c' hc' => regionPlain_of_mem_expand hd hc') fun c' hc' => ?_
      have := (hcalls c' hc').2 _ (fun _ hx => hx)
      omega
    rw [runCalls_cons, hrun]
    have hsub : e.states.items ⊆ e₁.states.items := List.Subset.trans (states_sub_expand c e) h₁.states_sub
    exact ih₂ hV (fun s hs c' hc' => hreach s hs c' (List.mem_cons_of_mem _ hc'))
      (fun c' hc' => hreg c' (List.mem_cons_of_mem _ hc'))
      fun c' hc' => (budget_anti V c' hsub).trans (hn c' (List.mem_cons_of_mem _ hc'))

/-- Every budget fits the depth bound: a run of at most the document's size and two more calls
for each state other than the root still to enter, and the current run. -/
theorem budget_le_depthBound (hd : sel.doc.RegionsPlain) (c : EntryCall) (e : EntrySet) :
    sel.budget ∅ c e ≤ sel.depthBound := by
  have hu : sel.unentered (sel.expand c e).1 ≤ sel.doc.size - 1 := unentered_le _
  have hb : sel.chainBudget ∅ c ≤ sel.doc.size + 2 := chainBudget_le ∅ c
  have hpos := hd.pos
  have hmul := Nat.mul_le_mul_left (sel.doc.size + 2) hu
  unfold budget depthBound
  -- (N + 2)(N - 1) + (N + 2) = (N + 2) N ≤ (N + 1)²
  obtain ⟨m, hm⟩ : ∃ m, sel.doc.size = m + 1 := ⟨sel.doc.size - 1, by omega⟩
  rw [hm] at hmul hb ⊢
  simp only [Nat.add_sub_cancel] at hmul
  nlinarith

theorem Enters.runCalls_depthBound (hd : sel.doc.RegionsPlain) {cs : List EntryCall} {e e' : EntrySet}
    (h : sel.Enters cs e e') (hcs : ∀ c ∈ cs, sel.RegionPlain c) :
    sel.runCalls sel.depthBound cs e = e' :=
  h.runCalls_of_budget hd (Finset.empty_subset _) (by simp) hcs fun c _ => budget_le_depthBound hd c e

/-! ### Collecting effective targets -/

variable (sel) in
/-- A history pseudo-state without a record stands for the targets of its default transition. -/
def Defaults (h t : Nat) : Prop :=
  sel.doc.isHistory h = true ∧ sel.history.get h = none ∧
    ∃ dt, sel.historyDefault h = some dt ∧ t ∈ (sel.doc.transition dt).targets

/-- A collection that ends reaches no history pseudo-state whose defaults lead into a cycle. -/
theorem Collects.not_reachesCycle {ts : List Nat} {out out' : OrderedSet Nat}
    (h : sel.Collects ts out out') : ∀ t ∈ ts, ¬ ReachesCycle sel.Defaults t := by
  induction h with
  | nil => simp
  | plain hs _ ih =>
    intro t ht hl
    rcases List.mem_cons.1 ht with rfl | ht
    · obtain ⟨_, ⟨hh, -⟩, -⟩ := hl.step
      rw [hs] at hh
      cases hh
    · exact ih t ht hl
  | recorded _ hr _ ih =>
    intro t ht hl
    rcases List.mem_cons.1 ht with rfl | ht
    · obtain ⟨_, ⟨-, hr', -⟩, -⟩ := hl.step
      rw [hr] at hr'
      cases hr'
    · exact ih t ht hl
  | viaDefault _ _ hd _ _ ih₁ ih₂ =>
    intro t ht hl
    rcases List.mem_cons.1 ht with rfl | ht
    · obtain ⟨t₁, ⟨-, -, dt, hd', ht₁⟩, hl₁⟩ := hl.step
      rw [hd] at hd'
      cases hd'
      exact ih₁ t₁ ht₁ hl₁
    · exact ih₂ t ht hl
  | noDefault _ _ hd _ ih =>
    intro t ht hl
    rcases List.mem_cons.1 ht with rfl | ht
    · obtain ⟨_, ⟨-, -, dt, hd', -⟩, -⟩ := hl.step
      rw [hd] at hd'
      cases hd'
    · exact ih t ht hl

theorem exists_succ_of_chain {V : Finset Nat} {N n : Nat} (hV : V ⊆ Finset.range N)
    (hn : N + 1 - V.card ≤ n) : ∃ m, n = m + 1 := by
  have hcard : V.card ≤ N := by simpa using Finset.card_le_card hV
  exact ⟨n - 1, by omega⟩

/-- A collection that ends is the bounded one once the depth covers what is left of the current
chain of defaults, `V` holding the history pseudo-states on it: the chain meets each at most once. -/
theorem Collects.collectEffective_eq {ts : List Nat} {out out' : OrderedSet Nat}
    (h : sel.Collects ts out out') :
    ∀ {n : Nat} {V : Finset Nat}, V ⊆ Finset.range sel.doc.size →
      (∀ x ∈ V, ∀ t ∈ ts, Relation.TransGen sel.Defaults x t) → sel.doc.size + 1 - V.card ≤ n →
      sel.collectEffective n ts out = out' := by
  induction h with
  | nil => intro n _ _ _ _; cases n <;> rfl
  | @plain s rest out out' hs _ ih =>
    intro n V hV hreach hn
    obtain ⟨m, rfl⟩ := exists_succ_of_chain hV hn
    rw [collectEffective_cons]
    simp only [hs, Bool.not_false, if_true]
    exact ih hV (fun x hx t ht => hreach x hx t (List.mem_cons_of_mem _ ht)) hn
  | @recorded s rest recorded out out' hs hr _ ih =>
    intro n V hV hreach hn
    obtain ⟨m, rfl⟩ := exists_succ_of_chain hV hn
    rw [collectEffective_cons]
    simp only [hs, Bool.not_true, Bool.false_eq_true, if_false, hr]
    exact ih hV (fun x hx t ht => hreach x hx t (List.mem_cons_of_mem _ ht)) hn
  | @viaDefault s dt rest out mid out' hs hr hd h₁ h₂ ih₁ ih₂ =>
    intro n V hV hreach hn
    -- the chain meets `s` once: meeting it again would be a cycle of defaults
    have hnl := (Collects.viaDefault hs hr hd h₁ h₂).not_reachesCycle s List.mem_cons_self
    obtain ⟨hsub, hins, hcard⟩ := ReachesCycle.insert_fresh (f := id) hV (Document.isHistory_lt_size hs) hnl
      fun x hx => hreach x hx s List.mem_cons_self
    obtain ⟨m, rfl⟩ := exists_succ_of_chain hV hn
    rw [collectEffective_cons]
    simp only [hs, Bool.not_true, Bool.false_eq_true, if_false, hr, hd]
    have hstep : ∀ t ∈ (sel.doc.transition dt).targets, sel.Defaults s t := fun t ht => ⟨hs, hr, dt, hd, ht⟩
    rw [ih₁ hsub (fun x hx t ht => ?_) (by rw [hins]; omega)]
    · exact ih₂ hV (fun x hx t ht => hreach x hx t (List.mem_cons_of_mem _ ht)) (by omega)
    · rcases Finset.mem_insert.1 hx with rfl | hx
      · exact .single (hstep t ht)
      · exact .tail (hreach x hx s List.mem_cons_self) (hstep t ht)
  | @noDefault s rest out out' hs hr hd _ ih =>
    intro n V hV hreach hn
    obtain ⟨m, rfl⟩ := exists_succ_of_chain hV hn
    rw [collectEffective_cons]
    simp only [hs, Bool.not_true, Bool.false_eq_true, if_false, hr, hd]
    exact ih hV (fun x hx t ht => hreach x hx t (List.mem_cons_of_mem _ ht)) hn

/-! ### The depth bound -/

/-- Wherever the walks without a depth bound end, the bounded walks of a compiled document end in
the same place: collecting the effective targets of a transition, and entering transitions. The
depth bound only ever cuts short a walk that would not end. -/
theorem depthBound_suffices {ds : DocumentSchema} (hb : ds.build = .ok sel.doc) :
    (∀ t out, sel.Collects (sel.doc.transition t).targets {} out → sel.effectiveTargets t = out) ∧
    ∀ ts e, sel.Enters (ts.flatMap sel.entryCalls) {} e → sel.entrySet ts = e := by
  have hd := (DocumentSchema.build_lowered hb).regionsPlain
  refine ⟨fun t out h => h.collectEffective_eq (Finset.empty_subset _) (by simp) ?_, fun ts e h => ?_⟩
  · simp only [Finset.card_empty, Nat.sub_zero, depthBound]
    exact Nat.le_mul_of_pos_right _ (Nat.succ_pos _)
  · rw [entrySet_eq_runCalls]
    refine h.runCalls_depthBound hd fun c hc => ?_
    -- the calls of a transition enter states and their ancestors, and no region
    obtain ⟨t, -, hc⟩ := List.mem_flatMap.1 hc
    simp only [entryCalls, List.mem_append, List.mem_map] at hc
    rcases hc with ⟨_, _, rfl⟩ | ⟨_, _, rfl⟩ <;> trivial

end Selector

end Hsm
