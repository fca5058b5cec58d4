import Hsm.Proofs.Conflict
import Hsm.Proofs.StableSort
/-!
# Ordered sets follow a list without repeats

Each update of an ordered set is checked against a reference list without repeats changed by the
rule the update states (`Update.expect`); one update keeps the two in step (`apply_follows`), so
does any run (`runWith_simulates`), and the queries follow (`updates_follow_reference`).
-/

namespace Hsm

/-! ### Stable sorting by a comparator -/

section Comparator
variable {α : Type} (cmp : α → α → Ordering)

/-- `ys` is `xs` sorted stably by `cmp`: the same items, each at most the next, and the items that
compare equal to any one item in the order `xs` has them. -/
structure SortsStably (xs ys : List α) : Prop where
  perm : ys.Perm xs
  sorted : ys.Pairwise fun a b => cmp a b ≠ .gt
  stable : ∀ a, ys.filter (cmp · a == .eq) = xs.filter (cmp · a == .eq)

variable [Std.TransCmp cmp]

theorem cmp_ne_gt_trans (a b c : α) (hab : (cmp a b != .gt) = true) (hbc : (cmp b c != .gt) = true) :
    (cmp a c != .gt) = true := by
  simp only [bne_iff_ne, ne_eq] at *
  exact Std.TransCmp.le_trans hab hbc

theorem cmp_ne_gt_total (a b : α) : (cmp a b != .gt || cmp b a != .gt) = true := by
  rw [@Std.OrientedCmp.eq_swap _ cmp _ a b]
  cases cmp b a <;> rfl

theorem ties_cmp (a b : α) : Ties (fun a b => cmp a b != .gt) a b = (cmp a b == .eq) := by
  simp only [Ties]
  rw [@Std.OrientedCmp.eq_swap _ cmp _ b a]
  cases cmp a b <;> rfl

theorem sortsStably_sortBy (xs : List α) : SortsStably cmp xs (sortBy cmp xs) where
  perm := List.mergeSort_perm xs _
  sorted := (List.pairwise_mergeSort (cmp_ne_gt_trans cmp) (cmp_ne_gt_total cmp) xs).imp
    fun h => by simpa using h
  stable a := by
    have h := filter_mergeSort_ties (cmp_ne_gt_trans cmp) (cmp_ne_gt_total cmp) xs a
    simp only [ties_cmp] at h
    exact h

theorem sortBy_eq_iff (xs ys : List α) : sortBy cmp xs = ys ↔ SortsStably cmp xs ys := by
  constructor
  · rintro rfl
    exact sortsStably_sortBy cmp xs
  · -- both lists are sorted and hold each group of equal items as `xs` does
    intro h
    have hsort := sortsStably_sortBy cmp xs
    have hpair : ∀ l : List α, (l.Pairwise fun a b => cmp a b ≠ .gt) →
        l.Pairwise fun a b => (cmp a b != .gt) = true := fun l hl => hl.imp fun hab => by simpa using hab
    refine eq_of_filter_ties_eq (cmp_ne_gt_total cmp) (hpair _ hsort.sorted) (hpair _ h.sorted)
      fun a => ?_
    simp only [ties_cmp, hsort.stable, h.stable]

end Comparator

namespace OrderedSet

/-! ### Updates and their runs -/

/-- One update of an ordered set. -/
inductive Update (α : Type) where
  | insert (a : α)
  | remove (a : α)
  | union (xs : List α)
  | clear

/-- Make updates one after another with `step`, collecting each one's answer. -/
def Update.runWith {α σ : Type} (step : Update α → σ → σ × Option Bool) :
    σ → List (Update α) → σ × List (Option Bool)
  | s, [] => (s, [])
  | s, u :: us =>
    let r := step u s
    let rest := Update.runWith step r.1 us
    (rest.1, r.2 :: rest.2)

theorem Update.runWith_simulates {α σ τ : Type} {f : Update α → σ → σ × Option Bool}
    {g : Update α → τ → τ × Option Bool} (R : σ → τ → Prop)
    (hstep : ∀ u s m, R s m → R (f u s).1 (g u m).1 ∧ (f u s).2 = (g u m).2) :
    ∀ (us : List (Update α)) (s : σ) (m : τ), R s m →
      R (Update.runWith f s us).1 (Update.runWith g m us).1 ∧
        (Update.runWith f s us).2 = (Update.runWith g m us).2 := by
  intro us
  induction us with
  | nil => exact fun s m h => ⟨h, rfl⟩
  | cons u us ih =>
    intro s m h
    obtain ⟨hR, hans⟩ := hstep u s m h
    obtain ⟨hR', hans'⟩ := ih _ _ hR
    exact ⟨hR', by simp only [Update.runWith, hans, hans']⟩

variable {α : Type} [BEq α]

def Update.apply : Update α → OrderedSet α → OrderedSet α × Option Bool
  | .insert a, s => ((s.insert a).1, some (s.insert a).2)
  | .remove a, s => ((s.remove a).1, some (s.remove a).2)
  | .union xs, s => (s.union xs, none)
  | .clear, _ => (empty, none)

variable [LawfulBEq α]

/-! ### The reference list -/

def addRef (M : List α) (a : α) : List α := if a ∈ M then M else M ++ [a]

/-- What an update does to the reference list, and what it answers: insert appends an absent
item, remove deletes an item that is present, union inserts item by item, clear empties. -/
def Update.expect : Update α → List α → List α × Option Bool
  | .insert a, M => (addRef M a, some (a ∉ M))
  | .remove a, M => (M.filter (· != a), some (a ∈ M))
  | .union xs, M => (xs.foldl addRef M, none)
  | .clear, _ => ([], none)

theorem foldl_addRef (xs M : List α) :
    xs.foldl addRef M = M ++ (xs.filter (· ∉ M)).eraseDups := by
  induction xs generalizing M with
  | nil => simp
  | cons a xs ih =>
    rw [List.foldl_cons, ih]
    by_cases ha : a ∈ M
    · simp [addRef, ha]
    · -- `a` is kept, and its later copies are dropped as the new list holds it
      have hfilter : xs.filter (· ∉ M ++ [a]) = (xs.filter (· ∉ M)).filter (fun b => !b == a) := by
        rw [List.filter_filter]
        refine List.filter_congr fun b _ => ?_
        by_cases hb : b = a <;> simp [hb, ha]
      rw [addRef, if_neg ha, hfilter, List.filter_cons_of_pos (by simpa using ha),
        List.eraseDups_cons, List.append_assoc, List.singleton_append]

/-! ### One update -/

theorem contains_iff (s : OrderedSet α) (a : α) : s.contains a = true ↔ a ∈ s.items :=
  List.contains_iff_mem

theorem items_add (s : OrderedSet α) (a : α) : (s.add a).items = addRef s.items a := by
  by_cases ha : a ∈ s.items
  · simp [add, insert, addRef, ha, contains_iff]
  · have hc : s.contains a = false := Bool.eq_false_iff.2 (mt (contains_iff s a).1 ha)
    simp [add, insert, addRef, ha, hc]

theorem insert_answer (s : OrderedSet α) (a : α) : (s.insert a).2 = decide (a ∉ s.items) := by
  unfold insert
  split <;> simp_all [contains_iff]

theorem remove_answer (s : OrderedSet α) (a : α) : (s.remove a).2 = decide (a ∈ s.items) := by
  unfold remove
  split <;> simp_all [contains_iff]

theorem items_remove {s : OrderedSet α} (h : s.items.Nodup) (a : α) :
    (s.remove a).1.items = s.items.filter (· != a) := by
  unfold remove
  split
  · exact h.erase_eq_filter a
  · rename_i hc
    have ha : a ∉ s.items := mt (contains_iff s a).2 hc
    refine (List.filter_eq_self.2 fun b hb => ?_).symm
    simp only [bne_iff_ne, ne_eq]
    exact fun hba => ha (hba ▸ hb)

theorem items_union (s : OrderedSet α) (xs : List α) : (s.union xs).items = xs.foldl addRef s.items := by
  induction xs generalizing s with
  | nil => rfl
  | cons a xs ih => rw [union, List.foldl_cons, ← union, ih, items_add, List.foldl_cons]

theorem nodup_union {s : OrderedSet α} (h : s.items.Nodup) (xs : List α) : (s.union xs).items.Nodup := by
  induction xs generalizing s with
  | nil => exact h
  | cons a xs ih => exact ih (nodup_add h a)

def Follows (s : OrderedSet α) (M : List α) : Prop := s.items = M ∧ M.Nodup

theorem apply_follows (u : Update α) (s : OrderedSet α) (M : List α) (h : Follows s M) :
    Follows (u.apply s).1 (u.expect M).1 ∧ (u.apply s).2 = (u.expect M).2 := by
  obtain ⟨rfl, hM⟩ := h
  cases u with
  | insert a =>
    have hnodup : (addRef s.items a).Nodup := items_add s a ▸ nodup_add hM a
    exact ⟨⟨items_add s a, hnodup⟩, by simp only [Update.apply, Update.expect, insert_answer]⟩
  | remove a =>
    have hnodup : (s.items.filter (· != a)).Nodup := hM.sublist List.filter_sublist
    exact ⟨⟨items_remove hM a, hnodup⟩, by simp only [Update.apply, Update.expect, remove_answer]⟩
  | union xs =>
    have hnodup : (xs.foldl addRef s.items).Nodup := items_union s xs ▸ nodup_union hM xs
    exact ⟨⟨items_union s xs, hnodup⟩, rfl⟩
  | clear => exact ⟨⟨rfl, List.nodup_nil⟩, rfl⟩

theorem follows_ofList (init : List α) : Follows (ofList init) init.eraseDups := by
  have h := (apply_follows (.union init) empty [] ⟨rfl, List.nodup_nil⟩).1
  simpa [Update.apply, Update.expect, ofList, foldl_addRef] using h

/-- Start from any list collected into a set and make any updates: the set's items are the
reference list, which has no repeats, and each insert and removal answers as the reference says.
So the size is the number of items, `contains` is membership, `intersects` says whether the set
shares an item with another and does not depend on their order, and `sortedBy` gives the stable
sort of the items by any lawful comparator, and only it. -/
theorem updates_follow_reference (init : List α) (us : List (Update α)) :
    let s := Update.runWith Update.apply (ofList init) us
    let m := Update.runWith Update.expect init.eraseDups us
    s.1.items = m.1 ∧ s.2 = m.2 ∧ m.1.Nodup ∧ s.1.size = m.1.length ∧
      (∀ a, s.1.contains a = true ↔ a ∈ m.1) ∧
      (∀ t : OrderedSet α, (s.1.intersects t = true ↔ ∃ a ∈ m.1, a ∈ t.items) ∧
        s.1.intersects t = t.intersects s.1) ∧
      ∀ (cmp : α → α → Ordering) [Std.TransCmp cmp] (ys : List α),
        s.1.sortedBy cmp = ys ↔ SortsStably cmp m.1 ys := by
  intro s m
  obtain ⟨⟨hitems, hnodup⟩, hanswers⟩ :=
    Update.runWith_simulates Follows (fun u s M h => apply_follows u s M h) us _ _
      (follows_ofList init)
  refine ⟨hitems, hanswers, hnodup, by rw [size, hitems], fun a => by rw [contains_iff, hitems],
    fun t => ⟨by rw [intersects_iff, hitems], intersects_comm _ t⟩, fun cmp _ ys => ?_⟩
  rw [sortedBy, hitems]
  exact sortBy_eq_iff cmp m.1 ys

/-- Collecting `3 1 3`, inserting `2` twice, removing `1` and taking the union with `1 4` leaves
`3 2 1 4`; the inserts answer that the first added `2` and the second did not, and the removal
that `1` was there. -/
theorem collected_numbers_follow_reference :
    LawfulBEq Nat ∧
      (Update.runWith Update.apply (ofList [3, 1, 3])
        [.insert 2, .insert 2, .remove 1, .union [1, 4]]).1.items = [3, 2, 1, 4] ∧
      (Update.runWith Update.apply (ofList [3, 1, 3])
        [.insert 2, .insert 2, .remove 1, .union [1, 4]]).2 = [some true, some false, some true, none] :=
  let h := updates_follow_reference [3, 1, 3] [.insert 2, .insert 2, .remove 1, .union [1, 4]]
  ⟨inferInstance, h.1.trans (by decide), h.2.1.trans (by decide)⟩

end OrderedSet
end Hsm
