import Hsm.Proofs.Arena
import Hsm.Proofs.Entry
/-!
# Which of two conflicting transitions fires

Selection compares a candidate with the kept transitions only, so a deeper state's transition does
not always win against an ancestor's (`preempted_rival_lets_ancestor_fire`). The ancestor's
transition fires only when the deeper one was preempted on its turn
(`Selector.ancestor_kept_only_if_rival_preempted`), by the invariant `Selector.Guarded`.
-/

namespace Hsm

theorem except_bind_ok {ε α β : Type} {x : Except ε α} {f : α → Except ε β} {b : β}
    (h : (x >>= f) = .ok b) : ∃ a, x = .ok a ∧ f a = .ok b := by
  cases x with
  | error e => cases h
  | ok a => exact ⟨a, rfl, h⟩

namespace OrderedSet
variable {α : Type} [BEq α] [LawfulBEq α]

theorem nodup_add {s : OrderedSet α} (h : s.items.Nodup) (b : α) : (s.add b).items.Nodup := by
  unfold add insert contains
  split
  · exact h
  · rename_i hb
    simp only [List.contains_iff_mem] at hb
    exact List.nodup_append.2 ⟨h, by simp, fun a ha c hc => by
      rw [List.mem_singleton.1 hc]
      exact fun e => hb (e ▸ ha)⟩

theorem mem_erase {s : OrderedSet α} (h : s.items.Nodup) {a b : α} :
    a ∈ (s.erase b).items ↔ a ≠ b ∧ a ∈ s.items := by
  unfold erase remove contains
  split
  · exact h.mem_erase_iff
  · rename_i hb
    simp only [List.contains_iff_mem] at hb
    exact ⟨fun ha => ⟨fun e => hb (e ▸ ha), ha⟩, And.right⟩

theorem nodup_erase {s : OrderedSet α} (h : s.items.Nodup) (b : α) : (s.erase b).items.Nodup := by
  unfold erase remove
  split
  · exact h.erase b
  · exact h

theorem mem_foldl_erase {s : OrderedSet α} (h : s.items.Nodup) (out : List α) {a : α} :
    a ∈ (out.foldl erase s).items ↔ a ∈ s.items ∧ a ∉ out := by
  induction out generalizing s with
  | nil => simp
  | cons b out ih =>
    rw [List.foldl_cons, ih (nodup_erase h b), mem_erase h, List.mem_cons, not_or]
    exact ⟨fun ⟨⟨h₁, h₂⟩, h₃⟩ => ⟨h₂, h₁, h₃⟩, fun ⟨h₂, h₁, h₃⟩ => ⟨⟨h₁, h₂⟩, h₃⟩⟩

theorem nodup_foldl_erase {s : OrderedSet α} (h : s.items.Nodup) (out : List α) :
    (out.foldl erase s).items.Nodup := by
  induction out generalizing s with
  | nil => exact h
  | cons b out ih => exact ih (nodup_erase h b)

theorem mem_union {s : OrderedSet α} {xs : List α} {a : α} :
    a ∈ (s.union xs).items ↔ a ∈ s.items ∨ a ∈ xs := by
  unfold union
  induction xs generalizing s with
  | nil => simp
  | cons x xs ih =>
    rw [List.foldl_cons, ih, mem_add, List.mem_cons, or_assoc]

theorem intersects_iff {s t : OrderedSet α} : s.intersects t = true ↔ ∃ a ∈ s.items, a ∈ t.items := by
  simp [intersects, contains]

theorem intersects_comm (s t : OrderedSet α) : s.intersects t = t.intersects s := by
  apply Bool.eq_iff_iff.2
  simp only [intersects_iff]
  exact ⟨fun ⟨a, h₁, h₂⟩ => ⟨a, h₂, h₁⟩, fun ⟨a, h₁, h₂⟩ => ⟨a, h₂, h₁⟩⟩

omit [LawfulBEq α] in
theorem erase_sublist (s : OrderedSet α) (b : α) :
    (s.erase b).items.Sublist s.items := by
  unfold erase remove
  split
  · exact List.erase_sublist
  · exact .refl _

omit [LawfulBEq α] in
theorem foldl_erase_sublist (out : List α) (s : OrderedSet α) :
    (out.foldl erase s).items.Sublist s.items := by
  induction out generalizing s with
  | nil => exact .refl _
  | cons b out ih => exact (ih (s.erase b)).trans (s.erase_sublist b)

omit [LawfulBEq α] in
theorem add_sublist {s : OrderedSet α} {l : List α}
    (h : s.items.Sublist l) (b : α) : (s.add b).items.Sublist (l ++ [b]) := by
  unfold add insert
  split
  · exact h.trans (List.sublist_append_left l [b])
  · exact h.append (.refl _)

theorem mem_foldl_erase_of_not_mem {s : OrderedSet α}
    {out : List α} {a : α} (ha : a ∈ s.items) (hout : a ∉ out) :
    a ∈ (out.foldl erase s).items := by
  induction out generalizing s with
  | nil => exact ha
  | cons b out ih =>
    refine ih ?_ fun h => hout (List.mem_cons_of_mem b h)
    unfold erase remove
    split
    · exact (List.mem_erase_of_ne fun e => hout (by rw [e]; exact List.mem_cons_self)).2 ha
    · exact ha

end OrderedSet

namespace Selector
variable (sel : Selector)

theorem mem_exitSet_single {t x : Nat} :
    x ∈ (sel.exitSet [t]).items ↔ (sel.doc.transition t).targets ≠ [] ∧
      ∃ d, sel.domain t = some d ∧ x ∈ sel.configuration.items ∧ sel.doc.isDescendant x d = true := by
  simp only [exitSet, List.foldl_cons, List.foldl_nil]
  split
  · rename_i h
    simp [List.isEmpty_iff.1 h]
  · rename_i h
    split
    · rename_i d hd
      simp only [OrderedSet.mem_union, List.mem_filter, List.isEmpty_iff] at h ⊢
      simp [hd, h]
    · rename_i hd
      simp [hd]

theorem lcca_cons_cases (s : Nat) (tail : List Nat) :
    sel.lcca (s :: tail) ∈ sel.doc.properAncestors s none ∨ sel.lcca (s :: tail) = 0 := by
  simp only [lcca]
  cases h : ((sel.doc.properAncestors s none).filter sel.doc.isCompoundOrRoot).find?
      (fun a => tail.all fun s => sel.doc.isDescendant s a) with
  | none => exact .inr rfl
  | some a => exact .inl (List.mem_filter.1 (List.mem_of_find?_eq_some h)).1

theorem domain_cases {t d : Nat} (h : sel.domain t = some d) :
    (d = (sel.doc.transition t).source ∧ sel.doc.isCompound d = true) ∨
      d ∈ sel.doc.properAncestors (sel.doc.transition t).source none ∨ d = 0 := by
  unfold domain at h
  dsimp only at h
  split at h
  · cases h
  · split at h
    · rename_i hint
      cases h
      simp only [Bool.and_eq_true] at hint
      exact .inl ⟨rfl, hint.1.2⟩
    · cases h
      exact .inr (sel.lcca_cons_cases _ _)

variable {sel}

/-- State `s` picks transition `t`: `s` is active and atomic, and `t` belongs to a state of its
chain, `s` itself then its ancestors below the root. -/
def Picks (sel : Selector) (s t : Nat) : Prop :=
  s ∈ sel.configuration.items ∧ sel.doc.isAtomic s = true ∧
    ∃ level ∈ s :: sel.doc.properAncestors s none, t ∈ (sel.doc.state level).transitions

section Geometry
variable (hn : sel.doc.Nested) (ha : sel.doc.Anchored)
include hn ha

theorem isDescendant_domain_of_below {t x d : Nat} (hd : sel.domain t = some d)
    (hx : sel.doc.isDescendant x (sel.doc.transition t).source = true) :
    sel.doc.isDescendant x d = true := by
  rcases sel.domain_cases hd with ⟨rfl, -⟩ | hanc | rfl
  · exact hx
  · exact hn.isDescendant_trans hx (Document.Nested.mem_ancestors_of_mem_properAncestors hanc)
  · exact ha.isDescendant_root hn hx

omit hn in
theorem Picks.source {s t : Nat} (h : sel.Picks s t) :
    s = (sel.doc.transition t).source ∨ sel.doc.isDescendant s (sel.doc.transition t).source = true := by
  obtain ⟨-, -, level, hl, ht⟩ := h
  rw [ha.source_eq ht]
  rcases List.mem_cons.1 hl with rfl | hl
  · exact .inl rfl
  · exact .inr (Document.Nested.mem_ancestors_of_mem_properAncestors hl)

/-- A transition from below some state exits the atomic state that picked it, whenever it exits
anything. -/
theorem Picks.mem_exitSet {s t u x : Nat} (h : sel.Picks s t)
    (hbelow : sel.doc.isDescendant (sel.doc.transition t).source u = true)
    (hx : x ∈ (sel.exitSet [t]).items) : s ∈ (sel.exitSet [t]).items := by
  obtain ⟨htarg, d, hd, -, -⟩ := (sel.mem_exitSet_single).1 hx
  refine (sel.mem_exitSet_single).2 ⟨htarg, d, hd, h.1, ?_⟩
  rcases h.source ha with hs | hs
  · -- an atomic source is not compound, so the domain lies above it
    rcases sel.domain_cases hd with ⟨rfl, hc⟩ | hanc | rfl
    · have hatomic := h.2.1
      rw [← hs] at hc
      simp only [Document.isCompound, beq_iff_eq] at hc
      simp [Document.isAtomic, List.isEmpty_iff, ha.descendants_ne_nil hc] at hatomic
    · rw [hs]
      exact Document.Nested.mem_ancestors_of_mem_properAncestors hanc
    · exact ha.isDescendant_root hn (hs ▸ hbelow)
  · exact isDescendant_domain_of_below hn ha hd hs

theorem conflicts_of_picks_below {s c t : Nat} (hc : sel.Picks s c)
    (hbelow : sel.doc.isDescendant (sel.doc.transition c).source (sel.doc.transition t).source = true)
    (hcx : (sel.exitSet [c]).items ≠ []) (htx : (sel.exitSet [t]).items ≠ []) :
    (sel.exitSet [c]).intersects (sel.exitSet [t]) = true := by
  obtain ⟨x, hx⟩ := List.exists_mem_of_ne_nil _ hcx
  obtain ⟨y, hy⟩ := List.exists_mem_of_ne_nil _ htx
  have hs := hc.mem_exitSet hn ha hbelow hx
  have hsb : sel.doc.isDescendant s (sel.doc.transition t).source = true :=
    (hc.source ha).elim (fun h => h ▸ hbelow) fun h => hn.isDescendant_trans h hbelow
  obtain ⟨htarg, d, hd, -, -⟩ := (sel.mem_exitSet_single).1 hy
  exact OrderedSet.intersects_iff.2 ⟨s, hs, (sel.mem_exitSet_single).2
    ⟨htarg, d, hd, hc.1, isDescendant_domain_of_below hn ha hd hsb⟩⟩

end Geometry

/-! ### What selection collects -/

variable {d : Data} {e : Event} {q : TransitionNode → Bool}

theorem firstOfLevel_mem {level t : Nat} {ts : List Nat}
    (h : sel.firstOfLevel d e q level ts = .ok (some t)) : t ∈ ts := by
  induction ts with
  | nil => cases h
  | cons t' ts ih =>
    simp only [firstOfLevel] at h
    split at h
    · exact List.mem_cons_of_mem _ (ih h)
    · split at h
      · cases h
      · cases h; exact List.mem_cons_self
      · exact List.mem_cons_of_mem _ (ih h)

theorem firstOfChain_mem {chain : List Nat} {t : Nat}
    (h : sel.firstOfChain d e q chain = .ok (some t)) :
    ∃ level ∈ chain, t ∈ (sel.doc.state level).transitions := by
  induction chain with
  | nil => cases h
  | cons level rest ih =>
    simp only [firstOfChain] at h
    obtain ⟨r, hr, h⟩ := except_bind_ok h
    cases r with
    | some t' =>
      cases h
      exact ⟨level, List.mem_cons_self, sel.firstOfLevel_mem hr⟩
    | none =>
      obtain ⟨l, hl, ht⟩ := ih h
      exact ⟨l, List.mem_cons_of_mem _ hl, ht⟩

/-- Every transition collected along active atomic states is picked by one of them, and none is
collected twice. -/
theorem enabledAlong_picks {states : List Nat}
    (hs : ∀ s ∈ states, s ∈ sel.configuration.items ∧ sel.doc.isAtomic s = true)
    {en : OrderedSet Nat} (h : sel.enabledAlong d e q states = .ok en) :
    en.items.Nodup ∧ ∀ t ∈ en.items, ∃ s, sel.Picks s t := by
  unfold enabledAlong at h
  -- the fold, from any set collected so far that has the property
  generalize hinit : ({} : OrderedSet Nat) = init at h
  have h₁ : init.items.Nodup := hinit ▸ List.nodup_nil
  have h₂ : ∀ t ∈ init.items, ∃ s, sel.Picks s t := hinit ▸ fun _ h => by cases h
  clear hinit
  induction states generalizing init en with
  | nil => cases h; exact ⟨h₁, h₂⟩
  | cons s rest ih =>
    simp only [List.foldlM_cons] at h
    obtain ⟨b, hb, h⟩ := except_bind_ok h
    obtain ⟨r, hr, hb⟩ := except_bind_ok hb
    have hs' := hs s List.mem_cons_self
    refine ih (fun s hm => hs s (List.mem_cons_of_mem _ hm)) b h ?_ ?_
    · cases r with
      | some t => cases hb; exact OrderedSet.nodup_add h₁ t
      | none => cases hb; exact h₁
    · cases r with
      | some t =>
        cases hb
        intro t' ht'
        rcases OrderedSet.mem_add.1 ht' with ht' | rfl
        · exact h₂ t' ht'
        · exact ⟨s, hs'.1, hs'.2, sel.firstOfChain_mem hr⟩
      | none => cases hb; exact h₂

theorem enabled_picks {en : OrderedSet Nat} (h : sel.enabled d e q = .ok en) :
    en.items.Nodup ∧ ∀ t ∈ en.items, ∃ s, sel.Picks s t :=
  sel.enabledAlong_picks (fun s hs => by
    simpa [atomicStates, sortBy, List.mem_mergeSort, List.mem_filter] using hs) h

theorem atomicStates_eq_of_sorted
    (h : (sel.configuration.items.filter sel.doc.isAtomic).Pairwise
      fun a b => (sel.doc.documentCmp a b != .gt) = true) :
    sel.atomicStates = sel.configuration.items.filter sel.doc.isAtomic :=
  List.mergeSort_of_pairwise h

variable (sel) in
theorem enabled_eq_of_sorted
    (h : (sel.configuration.items.filter sel.doc.isAtomic).Pairwise
      fun a b => (sel.doc.documentCmp a b != .gt) = true) :
    sel.enabled d e q = sel.enabledAlong d e q (sel.configuration.items.filter sel.doc.isAtomic) := by
  rw [enabled, atomicStates_eq_of_sorted h]

theorem select_eq {en : OrderedSet Nat} (h : sel.enabled d e q = .ok en) :
    sel.select d e q = .ok (sel.removeConflicts en) := by
  rw [select, h]
  rfl

/-! ### Removing conflicts -/

variable (sel)

/-- One turn of conflict removal: the candidate `c` is dropped when a kept transition preempts
it, and otherwise replaces the kept transitions it evicts. -/
def keep (filtered : OrderedSet Nat) (c : Nat) : OrderedSet Nat :=
  match sel.evicted (sel.exitSet [c]) (sel.doc.transition c).source filtered.items with
  | none => filtered
  | some out => (out.foldl OrderedSet.erase filtered).add c

theorem removeConflicts_eq (en : OrderedSet Nat) :
    sel.removeConflicts en = en.items.foldl sel.keep {} := rfl

variable {sel}

/-- A candidate is preempted exactly when some kept transition conflicts with it and its source
does not lie below that one's. -/
theorem evicted_eq_none_iff {ex : OrderedSet Nat} {src : Nat} {xs : List Nat} :
    sel.evicted ex src xs = none ↔ ∃ a ∈ xs, ex.intersects (sel.exitSet [a]) = true ∧
      sel.doc.isDescendant src (sel.doc.transition a).source = false := by
  induction xs with
  | nil => simp [evicted]
  | cons a xs ih =>
    simp only [evicted]
    split
    · rename_i h
      simp only [Bool.not_eq_true'] at h
      rw [ih]
      simp [h]
    · rename_i h
      simp only [Bool.not_eq_true', Bool.not_eq_false] at h
      split
      · rename_i hd
        rw [Option.map_eq_none_iff, ih]
        simp [h, hd]
      · rename_i hd
        simp only [Bool.not_eq_true] at hd
        simp only [List.mem_cons, exists_eq_or_imp, true_iff]
        exact .inl ⟨h, hd⟩

/-- What a candidate that is not preempted evicts: every kept transition that conflicts with it,
each from above its source. -/
theorem mem_of_evicted {ex : OrderedSet Nat} {src : Nat} {xs out : List Nat}
    (h : sel.evicted ex src xs = some out) {a : Nat} :
    (a ∈ out ↔ a ∈ xs ∧ ex.intersects (sel.exitSet [a]) = true) ∧
      (a ∈ out → sel.doc.isDescendant src (sel.doc.transition a).source = true) := by
  induction xs generalizing out with
  | nil => cases h; simp
  | cons b xs ih =>
    simp only [evicted] at h
    split at h
    · rename_i hb
      simp only [Bool.not_eq_true'] at hb
      obtain ⟨h₁, h₂⟩ := ih h
      refine ⟨h₁.trans ⟨fun ⟨hm, hi⟩ => ⟨List.mem_cons_of_mem _ hm, hi⟩, fun ⟨hm, hi⟩ => ?_⟩, h₂⟩
      rcases List.mem_cons.1 hm with rfl | hm
      · rw [hb] at hi; cases hi
      · exact ⟨hm, hi⟩
    · rename_i hb
      simp only [Bool.not_eq_true', Bool.not_eq_false] at hb
      split at h
      · rename_i hd
        obtain ⟨out', hout', rfl⟩ := Option.map_eq_some_iff.1 h
        obtain ⟨h₁, h₂⟩ := ih hout'
        refine ⟨?_, fun ha => ?_⟩
        · rw [List.mem_cons, h₁, List.mem_cons]
          constructor
          · rintro (rfl | ⟨hm, hi⟩)
            · exact ⟨.inl rfl, hb⟩
            · exact ⟨.inr hm, hi⟩
          · rintro ⟨rfl | hm, hi⟩
            · exact .inl rfl
            · exact .inr ⟨hm, hi⟩
        · rcases List.mem_cons.1 ha with rfl | ha
          · exact hd
          · exact h₂ ha
      · cases h

theorem keep_of_none {F : OrderedSet Nat} {c : Nat}
    (h : sel.evicted (sel.exitSet [c]) (sel.doc.transition c).source F.items = none) :
    sel.keep F c = F := by
  simp [keep, h]

theorem mem_keep_of_some {F : OrderedSet Nat} (hF : F.items.Nodup) {c : Nat} {out : List Nat}
    (h : sel.evicted (sel.exitSet [c]) (sel.doc.transition c).source F.items = some out) {x : Nat} :
    x ∈ (sel.keep F c).items ↔ (x ∈ F.items ∧ x ∉ out) ∨ x = c := by
  simp only [keep, h]
  rw [OrderedSet.mem_add, OrderedSet.mem_foldl_erase hF]

theorem nodup_keep {F : OrderedSet Nat} (hF : F.items.Nodup) (c : Nat) :
    (sel.keep F c).items.Nodup := by
  unfold keep
  split
  · exact hF
  · exact OrderedSet.nodup_add (OrderedSet.nodup_foldl_erase hF _) c

theorem mem_keep {F : OrderedSet Nat} (hF : F.items.Nodup) {c x : Nat}
    (hx : x ∈ (sel.keep F c).items) : x ∈ F.items ∨ x = c := by
  cases h : sel.evicted (sel.exitSet [c]) (sel.doc.transition c).source F.items with
  | none => rw [keep_of_none h] at hx; exact .inl hx
  | some out => exact ((mem_keep_of_some hF h).1 hx).imp_left And.left

theorem nodup_foldl_keep (l : List Nat) {F : OrderedSet Nat} (hF : F.items.Nodup) :
    (l.foldl sel.keep F).items.Nodup := by
  induction l generalizing F with
  | nil => exact hF
  | cons c l ih => exact ih (nodup_keep hF c)

theorem mem_foldl_keep (l : List Nat) {F : OrderedSet Nat} (hF : F.items.Nodup) {x : Nat}
    (hx : x ∈ (l.foldl sel.keep F).items) : x ∈ F.items ∨ x ∈ l := by
  induction l generalizing F with
  | nil => exact .inl hx
  | cons c l ih =>
    rcases ih (nodup_keep hF c) hx with h | h
    · exact (mem_keep hF h).imp id fun hc => by rw [hc]; exact List.mem_cons_self
    · exact .inr (List.mem_cons_of_mem _ h)

variable (sel) in
def ConflictFree (F : OrderedSet Nat) : Prop :=
  ∀ a ∈ F.items, ∀ b ∈ F.items, a ≠ b → (sel.exitSet [a]).intersects (sel.exitSet [b]) = false

theorem conflictFree_keep {F : OrderedSet Nat} (hF : F.items.Nodup) (hcf : sel.ConflictFree F)
    (c : Nat) : sel.ConflictFree (sel.keep F c) := by
  cases h : sel.evicted (sel.exitSet [c]) (sel.doc.transition c).source F.items with
  | none => rwa [keep_of_none h]
  | some out =>
    -- a kept transition that conflicts with `c` is evicted by it
    have hclear : ∀ x, x ∈ F.items → x ∉ out →
        (sel.exitSet [c]).intersects (sel.exitSet [x]) = false := fun x hx hout => by
      cases hi : (sel.exitSet [c]).intersects (sel.exitSet [x])
      · rfl
      · exact absurd ((mem_of_evicted h).1.2 ⟨hx, hi⟩) hout
    intro a ha b hb hab
    rcases (mem_keep_of_some hF h).1 ha with ⟨ha₁, ha₂⟩ | hac
    · rcases (mem_keep_of_some hF h).1 hb with ⟨hb₁, hb₂⟩ | hbc
      · exact hcf a ha₁ b hb₁ hab
      · rw [hbc, OrderedSet.intersects_comm]
        exact hclear a ha₁ ha₂
    · rcases (mem_keep_of_some hF h).1 hb with ⟨hb₁, hb₂⟩ | hbc
      · rw [hac]
        exact hclear b hb₁ hb₂
      · exact absurd (hac.trans hbc.symm) hab

theorem conflictFree_foldl_keep (l : List Nat) {F : OrderedSet Nat} (hF : F.items.Nodup)
    (hcf : sel.ConflictFree F) : sel.ConflictFree (l.foldl sel.keep F) := by
  induction l generalizing F with
  | nil => exact hcf
  | cons c l ih => exact ih (nodup_keep hF c) (conflictFree_keep hF hcf c)

theorem conflictFree_removeConflicts (en : OrderedSet Nat) :
    sel.ConflictFree (sel.removeConflicts en) :=
  conflictFree_foldl_keep _ List.nodup_nil fun _ h => by cases h

/-! ### What conflict removal keeps

The kept transitions only ever lose members or gain the candidate at their end, so they stay a
subsequence of the candidates seen. A kept transition leaves only when a later candidate
conflicts with it, and a candidate is refused only when a kept one conflicts with it; so a
candidate that conflicts with no other candidate is kept for good. -/

theorem sublist_keep {F : OrderedSet Nat} {l : List Nat} (hF : F.items.Sublist l) (c : Nat) :
    (sel.keep F c).items.Sublist (l ++ [c]) := by
  unfold keep
  split
  · exact hF.trans (List.sublist_append_left l [c])
  · exact OrderedSet.add_sublist ((OrderedSet.foldl_erase_sublist _ F).trans hF) c

theorem sublist_foldl_keep (l : List Nat) {F : OrderedSet Nat} {p : List Nat}
    (hF : F.items.Sublist p) : (l.foldl sel.keep F).items.Sublist (p ++ l) := by
  induction l generalizing F p with
  | nil => simpa using hF
  | cons c l ih => simpa using ih (sublist_keep hF c)

theorem mem_keep_of_clear {F : OrderedSet Nat} {c x : Nat} (hx : x ∈ F.items)
    (hclear : x ≠ c → (sel.exitSet [c]).intersects (sel.exitSet [x]) = false) :
    x ∈ (sel.keep F c).items := by
  cases h : sel.evicted (sel.exitSet [c]) (sel.doc.transition c).source F.items with
  | none => rwa [keep_of_none h]
  | some out =>
    simp only [keep, h, OrderedSet.mem_add]
    by_cases hxc : x = c
    · exact .inr hxc
    · have hout : x ∉ out := fun hm => by
        rw [((mem_of_evicted h).1.1 hm).2] at hclear
        exact absurd (hclear hxc) Bool.noConfusion
      exact .inl (OrderedSet.mem_foldl_erase_of_not_mem hx hout)

theorem mem_keep_self {F : OrderedSet Nat} {c : Nat}
    (hclear : ∀ x ∈ F.items, x ≠ c → (sel.exitSet [c]).intersects (sel.exitSet [x]) = false) :
    c ∈ (sel.keep F c).items := by
  by_cases hc : c ∈ F.items
  · exact mem_keep_of_clear hc fun h => absurd rfl h
  · cases h : sel.evicted (sel.exitSet [c]) (sel.doc.transition c).source F.items with
    | none =>
      obtain ⟨a, ha, hi, -⟩ := evicted_eq_none_iff.1 h
      have hac : a ≠ c := fun e => hc (e ▸ ha)
      rw [hclear a ha hac] at hi
      cases hi
    | some out => simp [keep, h]

theorem mem_foldl_keep_of_clear (l : List Nat) {F : OrderedSet Nat} {x : Nat} (hx : x ∈ F.items)
    (hclear : ∀ c ∈ l, x ≠ c → (sel.exitSet [c]).intersects (sel.exitSet [x]) = false) :
    x ∈ (l.foldl sel.keep F).items := by
  induction l generalizing F with
  | nil => exact hx
  | cons c l ih =>
    exact ih (mem_keep_of_clear hx (hclear c List.mem_cons_self))
      fun c' hc' => hclear c' (List.mem_cons_of_mem c hc')

variable (sel) in
def Unrivalled (en : OrderedSet Nat) (c : Nat) : Prop :=
  ∀ c' ∈ en.items, c' ≠ c → (sel.exitSet [c]).intersects (sel.exitSet [c']) = false

theorem unrivalled_of_targetless (en : OrderedSet Nat) {c : Nat}
    (hc : (sel.doc.transition c).targets = []) : sel.Unrivalled en c := by
  intro c' _ _
  cases hi : (sel.exitSet [c]).intersects (sel.exitSet [c'])
  · rfl
  · obtain ⟨x, hx, -⟩ := OrderedSet.intersects_iff.1 hi
    exact absurd hc ((sel.mem_exitSet_single).1 hx).1

theorem mem_removeConflicts_of_unrivalled {en : OrderedSet Nat} {c : Nat} (hc : c ∈ en.items)
    (hu : sel.Unrivalled en c) : c ∈ (sel.removeConflicts en).items := by
  obtain ⟨l₁, l₂, hsplit⟩ := List.append_of_mem hc
  rw [removeConflicts_eq, hsplit, List.foldl_append, List.foldl_cons]
  -- what the candidates before `c` kept lies among the candidates
  have hbefore : ∀ x ∈ (l₁.foldl sel.keep {}).items, x ∈ en.items := fun x hx => by
    have := (sublist_foldl_keep l₁ (F := {}) (p := []) List.Sublist.slnil).subset hx
    rw [hsplit]
    exact List.mem_append_left _ (by simpa using this)
  refine mem_foldl_keep_of_clear l₂ (mem_keep_self fun x hx hxc => hu x (hbefore x hx) hxc)
    fun c' hc' hne => ?_
  rw [OrderedSet.intersects_comm]
  exact hu c' (by rw [hsplit]; simp [hc']) (Ne.symm hne)

/-- Conflict removal keeps candidates in their order, keeps no two that conflict, and keeps
every candidate whose exit set meets no other candidate's, among them every targetless one. -/
theorem removeConflicts_keeps_unrivalled_in_order (en : OrderedSet Nat) :
    (sel.removeConflicts en).items.Sublist en.items ∧ sel.ConflictFree (sel.removeConflicts en) ∧
      (∀ c ∈ en.items, sel.Unrivalled en c → c ∈ (sel.removeConflicts en).items) ∧
      ∀ c ∈ en.items, (sel.doc.transition c).targets = [] → c ∈ (sel.removeConflicts en).items := by
  refine ⟨?_, conflictFree_removeConflicts en, fun c hc hu => mem_removeConflicts_of_unrivalled hc hu,
    fun c hc ht => mem_removeConflicts_of_unrivalled hc (unrivalled_of_targetless en ht)⟩
  rw [removeConflicts_eq]
  simpa using sublist_foldl_keep en.items (F := {}) (p := []) List.Sublist.slnil

/-! ### A deeper kept transition guards the ancestor's source -/

variable (sel) in
def Guarded (u t : Nat) (F : OrderedSet Nat) : Prop :=
  t ∉ F.items ∧ ∃ t' ∈ F.items, (∃ s, sel.Picks s t') ∧
    sel.doc.isDescendant (sel.doc.transition t').source u = true ∧ (sel.exitSet [t']).items ≠ []

section Guard
variable (hn : sel.doc.Nested) (ha : sel.doc.Anchored)
include hn ha

/-- A turn keeps `t`, whose source is `u`, out: a kept transition from below `u` conflicts with
it and preempts it; and whatever replaces that kept transition lies further below. -/
theorem guarded_keep {t : Nat} {F : OrderedSet Nat} (hF : F.items.Nodup)
    (htx : (sel.exitSet [t]).items ≠ []) (hg : sel.Guarded (sel.doc.transition t).source t F)
    {c : Nat} (hc : ∃ s, sel.Picks s c) : sel.Guarded (sel.doc.transition t).source t (sel.keep F c) := by
  obtain ⟨hnot, t', ht', ⟨s', hs'⟩, hbelow, hx'⟩ := hg
  cases h : sel.evicted (sel.exitSet [c]) (sel.doc.transition c).source F.items with
  | none => rw [keep_of_none h]; exact ⟨hnot, t', ht', ⟨s', hs'⟩, hbelow, hx'⟩
  | some out =>
    have hct : c ≠ t := by
      rintro rfl
      -- the kept transition from below preempts `t`
      have hconf := conflicts_of_picks_below hn ha hs' hbelow hx' htx
      have hnb := hn.not_isDescendant_of_isDescendant hbelow
      have : sel.evicted (sel.exitSet [c]) (sel.doc.transition c).source F.items = none :=
        evicted_eq_none_iff.2 ⟨t', ht', by rw [OrderedSet.intersects_comm]; exact hconf, hnb⟩
      rw [this] at h
      cases h
    refine ⟨fun hm => ?_, ?_⟩
    · rcases (mem_keep_of_some hF h).1 hm with ⟨hm, -⟩ | rfl
      · exact hnot hm
      · exact hct rfl
    · by_cases hout : t' ∈ out
      · -- `c` evicts the guard, so it conflicts with it and lies below its source
        have hcb := (mem_of_evicted h).2 hout
        have hci := ((mem_of_evicted h).1.1 hout).2
        obtain ⟨x, hx, -⟩ := OrderedSet.intersects_iff.1 hci
        exact ⟨c, (mem_keep_of_some hF h).2 (.inr rfl), hc, hn.isDescendant_trans hcb hbelow,
          List.ne_nil_of_mem hx⟩
      · exact ⟨t', (mem_keep_of_some hF h).2 (.inl ⟨ht', hout⟩), ⟨s', hs'⟩, hbelow, hx'⟩

theorem guarded_foldl_keep {t : Nat} (htx : (sel.exitSet [t]).items ≠ []) (l : List Nat)
    (hl : ∀ c ∈ l, ∃ s, sel.Picks s c) {F : OrderedSet Nat} (hF : F.items.Nodup)
    (hg : sel.Guarded (sel.doc.transition t).source t F) :
    sel.Guarded (sel.doc.transition t).source t (l.foldl sel.keep F) := by
  induction l generalizing F with
  | nil => exact hg
  | cons c l ih =>
    exact ih (fun c hc => hl c (List.mem_cons_of_mem _ hc)) (nodup_keep hF c)
      (guarded_keep hn ha hF htx hg (hl c List.mem_cons_self))

end Guard

/-- Of two conflicting transitions selection collects, the second from below the first's source:
the two are never both fired, and the first is fired only when the second was preempted on its
turn by a transition collected before it, whose exit set meets the second's and whose source the
second's does not lie below. -/
theorem ancestor_kept_only_if_rival_preempted {ds : DocumentSchema} (hb : ds.build = .ok sel.doc)
    {en res : OrderedSet Nat} (hen : sel.enabled d e q = .ok en) (hres : sel.select d e q = .ok res)
    {t₁ t₂ : Nat} (h₁ : t₁ ∈ en.items) (h₂ : t₂ ∈ en.items)
    (hx : (sel.exitSet [t₁]).intersects (sel.exitSet [t₂]) = true)
    (hbelow : sel.doc.isDescendant (sel.doc.transition t₂).source (sel.doc.transition t₁).source = true) :
    ¬ (t₁ ∈ res.items ∧ t₂ ∈ res.items) ∧
      (t₁ ∈ res.items → ∃ t₃, t₃ ≠ t₁ ∧ [t₃, t₂].Sublist en.items ∧
        (sel.exitSet [t₃]).intersects (sel.exitSet [t₂]) = true ∧
        sel.doc.isDescendant (sel.doc.transition t₂).source (sel.doc.transition t₃).source = false) := by
  have hn := DocumentSchema.nested_of_build hb
  have ha := DocumentSchema.anchored_of_build hb
  have hres' : res = sel.removeConflicts en := by
    rw [select_eq hen] at hres
    exact (Except.ok.inj hres).symm
  subst hres'
  obtain ⟨hnodup, hpicks⟩ := enabled_picks hen
  have h₁₂ : t₁ ≠ t₂ := by
    rintro rfl
    rw [hn.not_isDescendant_self] at hbelow
    cases hbelow
  refine ⟨fun ⟨m₁, m₂⟩ => ?_, fun m₁ => ?_⟩
  · have := conflictFree_removeConflicts en t₁ m₁ t₂ m₂ h₁₂
    rw [hx] at this
    cases this
  -- split the collected transitions at the second one
  obtain ⟨pre, post, hsplit⟩ := List.append_of_mem h₂
  rw [removeConflicts_eq, hsplit, List.foldl_append, List.foldl_cons] at m₁
  have hpre : (pre.foldl sel.keep {}).items.Nodup := nodup_foldl_keep pre List.nodup_nil
  cases h : sel.evicted (sel.exitSet [t₂]) (sel.doc.transition t₂).source (pre.foldl sel.keep {}).items with
  | none =>
    -- the second was preempted by a kept transition collected before it
    obtain ⟨t₃, h₃, hi, hd⟩ := evicted_eq_none_iff.1 h
    have h₃pre : t₃ ∈ pre := (mem_foldl_keep pre List.nodup_nil h₃).resolve_left (by simp)
    refine ⟨t₃, fun e => ?_, ?_, by rw [OrderedSet.intersects_comm]; exact hi, hd⟩
    · subst e; rw [hbelow] at hd; cases hd
    · rw [hsplit]
      obtain ⟨p₁, p₂, rfl⟩ := List.append_of_mem h₃pre
      simp
  | some out =>
    -- once the second is kept, the first is kept out for good
    exfalso
    have hx₁ : (sel.exitSet [t₁]).items ≠ [] := by
      obtain ⟨x, hx, -⟩ := OrderedSet.intersects_iff.1 hx
      exact List.ne_nil_of_mem hx
    have hx₂ : (sel.exitSet [t₂]).items ≠ [] := by
      obtain ⟨x, -, hx⟩ := OrderedSet.intersects_iff.1 hx
      exact List.ne_nil_of_mem hx
    have hg : sel.Guarded (sel.doc.transition t₁).source t₁ (sel.keep (pre.foldl sel.keep {}) t₂) := by
      refine ⟨fun hm => ?_, t₂, (mem_keep_of_some hpre h).2 (.inr rfl), hpicks t₂ h₂, hbelow, hx₂⟩
      rcases (mem_keep_of_some hpre h).1 hm with ⟨hm, hout⟩ | rfl
      · exact hout ((mem_of_evicted h).1.2 ⟨hm, by rw [OrderedSet.intersects_comm]; exact hx⟩)
      · exact h₁₂ rfl
    have hpost : ∀ c ∈ post, ∃ s, sel.Picks s c := fun c hc =>
      hpicks c (by rw [hsplit]; simp [hc])
    exact (guarded_foldl_keep hn ha hx₁ post hpost (nodup_keep hpre t₂) hg).1 m₁

end Selector

/-- A parallel state `Q`, whose region `B` has a child `b`, both with a transition on `E`; `Q`'s
leaves `Q` for its sibling `z`, `b`'s moves to `b2`. -/
def rivalChart : DocumentSchema :=
  { states := [
      { id := "W"
        children := [
          { id := "Q", kind := .parallel
            transitions := [{ events := ["E"], targets := ["z"] }]
            children := [
              { id := "B"
                children := [
                  { id := "b", transitions := [{ events := ["E"], targets := ["b2"] }] },
                  { id := "b2" }] },
              { id := "C", children := [{ id := "c" }] }] },
          { id := "z" }] }] }

/-- In the initial configuration of `rivalChart`, `E` enables `b`'s transition, collected for `b`,
and `Q`'s, collected for `c`; they conflict, and `b`'s, kept first, preempts `Q`'s. -/
theorem deeper_pick_preempts_region_ancestor :
    rivalChart.Builds fun d =>
      let sel : Selector :=
        ⟨d, (Selector.entrySet ⟨d, {}, {}⟩ (d.state 0).initial.toList).states, {}⟩
      let outer := ((d.state ((d.lookup "Q").getD 0)).transitions.head?).getD 0
      let inner := ((d.state ((d.lookup "b").getD 0)).transitions.head?).getD 0
      let q : TransitionNode → Bool := fun t => !t.isEventless && t.matches "E"
      ∃ en res, sel.enabled {} { name := "E" } q = .ok en ∧ sel.select {} { name := "E" } q = .ok res ∧
        outer ∈ en.items ∧ inner ∈ en.items ∧
        (sel.exitSet [outer]).intersects (sel.exitSet [inner]) = true ∧
        d.isDescendant (d.transition inner).source (d.transition outer).source = true ∧
        ¬ (outer ∈ res.items ∧ inner ∈ res.items) ∧
        (outer ∈ res.items → ∃ t₃, t₃ ≠ outer ∧ [t₃, inner].Sublist en.items ∧
          (sel.exitSet [t₃]).intersects (sel.exitSet [inner]) = true ∧
          d.isDescendant (d.transition inner).source (d.transition t₃).source = false) := by
  have h : rivalChart.Builds fun d =>
      let sel : Selector :=
        ⟨d, (Selector.entrySet ⟨d, {}, {}⟩ (d.state 0).initial.toList).states, {}⟩
      let outer := ((d.state ((d.lookup "Q").getD 0)).transitions.head?).getD 0
      let inner := ((d.state ((d.lookup "b").getD 0)).transitions.head?).getD 0
      let atomic := sel.configuration.items.filter sel.doc.isAtomic
      atomic.Pairwise (fun a b => (sel.doc.documentCmp a b != .gt) = true) ∧
      (match sel.enabledAlong {} { name := "E" } (fun t => !t.isEventless && t.matches "E") atomic with
       | .ok en =>
         en.contains outer && en.contains inner &&
           (sel.exitSet [outer]).intersects (sel.exitSet [inner]) &&
           d.isDescendant (d.transition inner).source (d.transition outer).source
       | .error _ => false) = true := by
    decide +kernel
  refine h.imp fun d hb ⟨hsorted, hcase⟩ => ?_
  dsimp only at hsorted hcase ⊢
  split at hcase
  · rename_i en halong
    simp only [Bool.and_eq_true, OrderedSet.contains, List.contains_iff_mem] at hcase
    obtain ⟨⟨⟨h₁, h₂⟩, hx⟩, hbelow⟩ := hcase
    have hen := (Selector.enabled_eq_of_sorted
      ⟨d, (Selector.entrySet ⟨d, {}, {}⟩ (d.state 0).initial.toList).states, {}⟩ hsorted).trans halong
    have hres := Selector.select_eq hen
    exact ⟨en, _, hen, hres, h₁, h₂, hx, hbelow,
      Selector.ancestor_kept_only_if_rival_preempted hb hen hres h₁ h₂ hx hbelow⟩
  · cases hcase

/-- A parallel state `P` with regions `R1` and `R2`; in `R2`, a parallel state `Q` has a region `B`
with a child `b`. On `E`, `a` in `R1` and `b` move to `a2` in `R1`, and `Q` leaves for `z`. -/
def preemptionChart : DocumentSchema :=
  { states := [
      { id := "P", kind := .parallel
        children := [
          { id := "R1"
            children := [
              { id := "a", transitions := [{ events := ["E"], targets := ["a2"] }] },
              { id := "a2" }] },
          { id := "R2"
            children := [
              { id := "Q", kind := .parallel
                transitions := [{ events := ["E"], targets := ["z"] }]
                children := [
                  { id := "B"
                    children := [{ id := "b", transitions := [{ events := ["E"], targets := ["a2"] }] }] },
                  { id := "C", children := [{ id := "c" }] }] },
              { id := "z" }] }] }] }

/-- In the initial configuration of `preemptionChart`, `E` enables `a`'s, `b`'s and `Q`'s
transitions, in that order. `b`'s conflicts with `Q`'s and lies below it, yet `Q`'s fires: `a`'s,
kept first, preempts `b`'s, and `Q`'s meets nothing kept. -/
theorem preempted_rival_lets_ancestor_fire :
    preemptionChart.Builds fun d =>
      let sel : Selector :=
        ⟨d, (Selector.entrySet ⟨d, {}, {}⟩ (d.state 0).initial.toList).states, {}⟩
      let outer := ((d.state ((d.lookup "Q").getD 0)).transitions.head?).getD 0
      let inner := ((d.state ((d.lookup "b").getD 0)).transitions.head?).getD 0
      ∃ en res, sel.enabled {} { name := "E" } (fun t => !t.isEventless && t.matches "E") = .ok en ∧
        sel.selectFor {} { name := "E" } = .ok res ∧ outer ∈ en.items ∧ inner ∈ en.items ∧
        (sel.exitSet [outer]).intersects (sel.exitSet [inner]) = true ∧
        d.isDescendant (d.transition inner).source (d.transition outer).source = true ∧
        outer ∈ res.items := by
  have h : preemptionChart.Builds fun d =>
      let sel : Selector :=
        ⟨d, (Selector.entrySet ⟨d, {}, {}⟩ (d.state 0).initial.toList).states, {}⟩
      let outer := ((d.state ((d.lookup "Q").getD 0)).transitions.head?).getD 0
      let inner := ((d.state ((d.lookup "b").getD 0)).transitions.head?).getD 0
      let atomic := sel.configuration.items.filter sel.doc.isAtomic
      atomic.Pairwise (fun a b => (sel.doc.documentCmp a b != .gt) = true) ∧
      (match sel.enabledAlong {} { name := "E" } (fun t => !t.isEventless && t.matches "E") atomic with
       | .ok en =>
         en.contains outer && en.contains inner &&
           (sel.exitSet [outer]).intersects (sel.exitSet [inner]) &&
           d.isDescendant (d.transition inner).source (d.transition outer).source &&
           (sel.removeConflicts en).contains outer
       | .error _ => false) = true := by
    decide +kernel
  refine h.mono fun d ⟨hsorted, hcase⟩ => ?_
  dsimp only at hsorted hcase ⊢
  split at hcase
  · rename_i en halong
    simp only [Bool.and_eq_true, OrderedSet.contains, List.contains_iff_mem] at hcase
    obtain ⟨⟨⟨⟨h₁, h₂⟩, hx⟩, hbelow⟩, hkept⟩ := hcase
    have hen := (Selector.enabled_eq_of_sorted
      ⟨d, (Selector.entrySet ⟨d, {}, {}⟩ (d.state 0).initial.toList).states, {}⟩ hsorted).trans halong
    exact ⟨en, _, hen, Selector.select_eq hen, h₁, h₂, hx, hbelow, hkept⟩
  · cases hcase

end Hsm
