import Hsm.Proofs.Layout
/-!
# Stable sorting by entry and exit order

A stable sort keeps each tie group in input order (`filter_mergeSort_ties`), and a sorted list is
fixed by its tie groups (`eq_of_filter_ties_eq`). So sorting by exit order reverses sorting by
entry order exactly when every tie group is a palindrome (`sortBy_exitCmp_eq_reverse_iff`).
-/

namespace Hsm

section Stable
variable {α : Type} {le : α → α → Bool}

def Ties (le : α → α → Bool) (a b : α) : Bool := le a b && le b a

theorem ties_self (total : ∀ a b, le a b || le b a) (a : α) : Ties le a a = true := by
  have h := total a a
  simp only [Bool.or_self] at h
  simp [Ties, h]

theorem pairwise_filter_ties (trans : ∀ a b c, le a b → le b c → le a c) (L : List α) (a : α) :
    (L.filter (Ties le · a)).Pairwise fun x y => le x y := by
  refine List.pairwise_of_forall_mem_list fun x hx y hy => ?_
  have hxa : le x a = true ∧ le a x = true := by simpa [Ties] using (List.mem_filter.1 hx).2
  have hya : le y a = true ∧ le a y = true := by simpa [Ties] using (List.mem_filter.1 hy).2
  exact trans x a y hxa.1 hya.2

theorem filter_mergeSort_ties (trans : ∀ a b c, le a b → le b c → le a c)
    (total : ∀ a b, le a b || le b a) (L : List α) (a : α) :
    (L.mergeSort le).filter (Ties le · a) = L.filter (Ties le · a) := by
  -- the group is in order, so the sort keeps it as a sublist; it has all the group's elements
  have hsub : List.Sublist (L.filter (Ties le · a)) (L.mergeSort le) :=
    List.sublist_mergeSort trans total (pairwise_filter_ties trans L a) (List.filter_sublist)
  have hsub' : List.Sublist (L.filter (Ties le · a)) ((L.mergeSort le).filter (Ties le · a)) := by
    simpa [List.filter_filter] using hsub.filter (Ties le · a)
  have hlen : (L.filter (Ties le · a)).length = ((L.mergeSort le).filter (Ties le · a)).length :=
    ((List.mergeSort_perm L le).filter _).length_eq.symm
  exact (hsub'.eq_of_length hlen).symm

theorem mem_of_filter_ties_eq (total : ∀ a b, le a b || le b a) {l₁ l₂ : List α}
    (h : ∀ a, l₁.filter (Ties le · a) = l₂.filter (Ties le · a)) {a : α} (ha : a ∈ l₁) : a ∈ l₂ := by
  have hmem : a ∈ l₁.filter (Ties le · a) := List.mem_filter.2 ⟨ha, ties_self total a⟩
  rw [h a] at hmem
  exact (List.mem_filter.1 hmem).1

/-- Two sorted lists that hold the same tie groups, each in the same order, are equal. -/
theorem eq_of_filter_ties_eq (total : ∀ a b, le a b || le b a) {l₁ l₂ : List α}
    (h₁ : l₁.Pairwise fun x y => le x y) (h₂ : l₂.Pairwise fun x y => le x y)
    (h : ∀ a, l₁.filter (Ties le · a) = l₂.filter (Ties le · a)) : l₁ = l₂ := by
  induction l₁ generalizing l₂ with
  | nil =>
    cases l₂ with
    | nil => rfl
    | cons y r₂ =>
      exact absurd (mem_of_filter_ties_eq total (fun a => (h a).symm) List.mem_cons_self)
        List.not_mem_nil
  | cons x r₁ ih =>
    cases l₂ with
    | nil => exact absurd (mem_of_filter_ties_eq total h List.mem_cons_self) List.not_mem_nil
    | cons y r₂ =>
      -- each head lies in the other list, so unless they are equal each is at most the other;
      -- then both head the same tie group
      have hxy : x = y := by
        have hx₂ := mem_of_filter_ties_eq total h List.mem_cons_self
        have hy₁ := mem_of_filter_ties_eq total (fun a => (h a).symm) List.mem_cons_self
        rcases List.mem_cons.1 hx₂ with hx₂ | hx₂
        · exact hx₂
        rcases List.mem_cons.1 hy₁ with hy₁ | hy₁
        · exact hy₁.symm
        have hties : Ties le y x = true := by
          simp [Ties, List.rel_of_pairwise_cons h₁ hy₁, List.rel_of_pairwise_cons h₂ hx₂]
        have hx := h x
        simp only [List.filter_cons, ties_self total x, hties, if_true] at hx
        exact (List.cons.inj hx).1
      subst hxy
      congr 1
      refine ih (List.pairwise_cons.1 h₁).2 (List.pairwise_cons.1 h₂).2 fun a => ?_
      have ha := h a
      by_cases hxa : Ties le x a = true <;> simpa [List.filter_cons, hxa] using ha

end Stable

namespace Place

theorem entryCmp_ne_gt_iff (a b : Place) :
    (a.entryCmp b != .gt) = true ↔ a.depth < b.depth ∨ a.depth = b.depth ∧ a.order ≤ b.order := by
  obtain ⟨d₁, o₁⟩ := a
  obtain ⟨d₂, o₂⟩ := b
  simp only [entryCmp, bne_iff_ne, ne_eq, Ordering.then_eq_gt]
  simp only [Nat.compare_eq_gt, Int.compare_eq_gt, Int.compare_eq_eq]
  omega

theorem documentCmp_ignores_depth (a b : Place) (d₁ d₂ : Int) :
    documentCmp { a with depth := d₁ } { b with depth := d₂ } = documentCmp a b := rfl

section Nodes
variable {α : Type} (place : α → Place)

/-- The nodes of `L` at place `p`, in list order: the tie group of `p` in entry order. -/
def tieGroup (L : List α) (p : Place) : List α := L.filter fun a => (place a).entryCmp p == .eq

def entryLe (a b : α) : Bool := (place a).entryCmp (place b) != .gt

def exitLe (a b : α) : Bool := (place a).exitCmp (place b) != .gt

theorem sortBy_entryCmp (L : List α) :
    sortBy (fun a b => (place a).entryCmp (place b)) L = L.mergeSort (entryLe place) := rfl

theorem sortBy_exitCmp (L : List α) :
    sortBy (fun a b => (place a).exitCmp (place b)) L = L.mergeSort (exitLe place) := rfl

theorem exitLe_eq (a b : α) : exitLe place a b = entryLe place b a := by
  simp only [exitLe, entryLe, exitCmp_eq]

theorem entryLe_trans (a b c : α) (hab : entryLe place a b) (hbc : entryLe place b c) :
    entryLe place a c :=
  entryCmp_trans hab hbc

theorem entryLe_total (a b : α) : entryLe place a b || entryLe place b a :=
  entryCmp_total (place a) (place b)

theorem exitLe_trans (a b c : α) (hab : exitLe place a b) (hbc : exitLe place b c) :
    exitLe place a c := by
  rw [exitLe_eq] at hab hbc ⊢
  exact entryLe_trans place c b a hbc hab

theorem exitLe_total (a b : α) : exitLe place a b || exitLe place b a := by
  rw [exitLe_eq, exitLe_eq, Bool.or_comm]
  exact entryLe_total place a b

theorem ties_entryLe (a b : α) : Ties (entryLe place) a b = ((place a).entryCmp (place b) == .eq) := by
  simp only [Ties, entryLe, entryCmp_swap (place a) (place b)]
  cases (place a).entryCmp (place b) <;> rfl

theorem ties_exitLe (a b : α) : Ties (exitLe place) a b = ((place a).entryCmp (place b) == .eq) := by
  simp only [Ties, exitLe_eq, Bool.and_comm, ← ties_entryLe]

theorem tieGroup_reverse (l : List α) (p : Place) :
    tieGroup place l.reverse p = (tieGroup place l p).reverse := List.filter_reverse

theorem tieGroup_mergeSort {le : α → α → Bool} (trans : ∀ a b c, le a b → le b c → le a c)
    (total : ∀ a b, le a b || le b a)
    (hties : ∀ a b, Ties le a b = ((place a).entryCmp (place b) == .eq)) (L : List α) (p : Place) :
    tieGroup place (L.mergeSort le) p = tieGroup place L p := by
  -- a tie group with no member is empty on both sides; otherwise it is the group of a member
  by_cases hp : ∃ a ∈ L, place a = p
  · obtain ⟨a, -, rfl⟩ := hp
    have hgroup : ∀ l : List α, l.filter (Ties le · a) = tieGroup place l (place a) := fun l => by
      simp only [tieGroup, hties]
    rw [← hgroup, ← hgroup]
    exact filter_mergeSort_ties trans total L a
  · have hnil : ∀ l : List α, (∀ a ∈ l, a ∈ L) → tieGroup place l p = [] := fun l hl =>
      List.filter_eq_nil_iff.2 fun a ha h =>
        hp ⟨a, hl a ha, entryCmp_eq_eq.1 (beq_iff_eq.1 h)⟩
    rw [hnil L fun _ h => h, hnil _ fun _ h => List.mem_mergeSort.1 h]

theorem tieGroup_sortBy_entryCmp (L : List α) (p : Place) :
    tieGroup place (sortBy (fun a b => (place a).entryCmp (place b)) L) p = tieGroup place L p :=
  tieGroup_mergeSort place (entryLe_trans place) (entryLe_total place) (ties_entryLe place) L p

theorem tieGroup_sortBy_exitCmp (L : List α) (p : Place) :
    tieGroup place (sortBy (fun a b => (place a).exitCmp (place b)) L) p = tieGroup place L p :=
  tieGroup_mergeSort place (exitLe_trans place) (exitLe_total place) (ties_exitLe place) L p

theorem pairwise_sortBy_entryCmp (L : List α) :
    (sortBy (fun a b => (place a).entryCmp (place b)) L).Pairwise fun a b =>
      (place a).depth < (place b).depth ∨
        (place a).depth = (place b).depth ∧ (place a).order ≤ (place b).order := by
  rw [sortBy_entryCmp]
  refine (List.pairwise_mergeSort (entryLe_trans place) (entryLe_total place) L).imp fun h => ?_
  exact (entryCmp_ne_gt_iff _ _).1 h

theorem pairwise_reverse_sortBy_entryCmp (L : List α) :
    (sortBy (fun a b => (place a).entryCmp (place b)) L).reverse.Pairwise
      fun a b => exitLe place a b := by
  rw [List.pairwise_reverse, sortBy_entryCmp]
  refine (List.pairwise_mergeSort (entryLe_trans place) (entryLe_total place) L).imp fun h => ?_
  rwa [exitLe_eq]

theorem length_tieGroup_le_one {L : List α} (hL : (L.map place).Nodup) (p : Place) :
    (tieGroup place L p).length ≤ 1 := by
  have hnd : ((tieGroup place L p).map place).Nodup := hL.sublist (List.filter_sublist.map place)
  have hrep : (tieGroup place L p).map place = List.replicate (tieGroup place L p).length p := by
    refine List.eq_replicate_iff.2 ⟨by simp, fun q hq => ?_⟩
    obtain ⟨a, ha, rfl⟩ := List.mem_map.1 hq
    exact entryCmp_eq_eq.1 (beq_iff_eq.1 (List.mem_filter.1 ha).2)
  rw [hrep] at hnd
  exact List.nodup_replicate.1 hnd

/-- Sorting by exit order gives the entry sort turned round exactly when every tie group reads
the same forwards and backwards. -/
theorem sortBy_exitCmp_eq_reverse_iff_palindromes (L : List α) :
    sortBy (fun a b => (place a).exitCmp (place b)) L =
        (sortBy (fun a b => (place a).entryCmp (place b)) L).reverse ↔
      ∀ p, (tieGroup place L p).reverse = tieGroup place L p := by
  constructor
  · -- read a tie group off both sides: in input order on the left, reversed on the right
    intro h p
    have hg := congrArg (tieGroup place · p) h
    simp only [tieGroup_sortBy_exitCmp, tieGroup_reverse, tieGroup_sortBy_entryCmp] at hg
    exact hg.symm
  · -- both sides are sorted by exit order and hold the same tie groups
    intro h
    refine eq_of_filter_ties_eq (exitLe_total place) ?_ (pairwise_reverse_sortBy_entryCmp place L)
      fun a => ?_
    · rw [sortBy_exitCmp]
      exact List.pairwise_mergeSort (exitLe_trans place) (exitLe_total place) L
    · have hgroup : ∀ l : List α, l.filter (Ties (exitLe place) · a) = tieGroup place l (place a) :=
        fun l => by simp only [tieGroup, ties_exitLe]
      rw [hgroup, hgroup, tieGroup_sortBy_exitCmp, tieGroup_reverse, tieGroup_sortBy_entryCmp]
      exact (h (place a)).symm

/-- Sorting by exit order gives the entry sort turned round exactly when every tie group reads the
same forwards and backwards; in particular when no two nodes share a place. Sorted by entry order,
nodes go shallowest first and by document order within a depth, and document order reads no
depth. -/
theorem sortBy_exitCmp_eq_reverse_iff (L : List α) :
    (sortBy (fun a b => (place a).exitCmp (place b)) L =
        (sortBy (fun a b => (place a).entryCmp (place b)) L).reverse ↔
      ∀ p, (tieGroup place L p).reverse = tieGroup place L p) ∧
    ((L.map place).Nodup →
      sortBy (fun a b => (place a).exitCmp (place b)) L =
        (sortBy (fun a b => (place a).entryCmp (place b)) L).reverse) ∧
    (sortBy (fun a b => (place a).entryCmp (place b)) L).Pairwise (fun a b =>
      (place a).depth < (place b).depth ∨
        (place a).depth = (place b).depth ∧ (place a).order ≤ (place b).order) ∧
    (∀ (a b : Place) (d₁ d₂ : Int),
      documentCmp { a with depth := d₁ } { b with depth := d₂ } = documentCmp a b) := by
  refine ⟨sortBy_exitCmp_eq_reverse_iff_palindromes place L, fun hL => ?_,
    pairwise_sortBy_entryCmp place L, documentCmp_ignores_depth⟩
  -- a group of at most one node reads the same both ways
  refine (sortBy_exitCmp_eq_reverse_iff_palindromes place L).2 fun p => ?_
  have hle := length_tieGroup_le_one place hL p
  generalize tieGroup place L p = g at hle ⊢
  rcases g with _ | ⟨x, _ | ⟨y, rest⟩⟩
  · rfl
  · rfl
  · simp at hle

end Nodes
end Place
end Hsm
