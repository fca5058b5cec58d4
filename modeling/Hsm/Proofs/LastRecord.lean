import Mathlib
import Hsm.History
/-!
# History tables answer the last record

Records are stored sorted and without repeats (`dedupSorted_mergeSort`) under strictly increasing
keys (`Ordered`). After any sequence of records a look-up answers the states of the history
state's last record, or nothing when it was never recorded, and the size counts the keys
(`get_answers_last_record`).
-/

namespace Hsm

/-! ### Sorting and removing repeats -/

theorem mem_dedupSorted {x : Nat} {l : List Nat} : x ∈ dedupSorted l ↔ x ∈ l := by
  fun_induction dedupSorted l with
  | case1 b rest ih => simp [ih]
  | case2 a b rest _ ih => simp [ih]
  | case3 => rfl

/-- Removing repeated neighbours from a non-decreasing list leaves a strictly increasing one. -/
theorem pairwise_lt_dedupSorted {l : List Nat} (h : l.Pairwise (· ≤ ·)) :
    (dedupSorted l).Pairwise (· < ·) := by
  fun_induction dedupSorted l with
  | case1 b rest ih => exact ih (List.pairwise_cons.1 h).2
  | case2 a b rest hab ih =>
    obtain ⟨ha, hrest⟩ := List.pairwise_cons.1 h
    refine List.pairwise_cons.2 ⟨fun y hy => ?_, ih hrest⟩
    -- what stays after `a` is at least `b`, and `b` lies above `a`
    have hb : a < b := Nat.lt_of_le_of_ne (ha b List.mem_cons_self) hab
    rcases List.mem_cons.1 (mem_dedupSorted.1 hy) with rfl | hy
    · exact hb
    · exact Nat.lt_of_lt_of_le hb ((List.pairwise_cons.1 hrest).1 y hy)
  | case3 xs hxs =>
    -- a list with no two items is its own result
    rcases xs with _ | ⟨a, _ | ⟨b, rest⟩⟩
    · exact List.Pairwise.nil
    · exact List.pairwise_singleton _ _
    · exact absurd rfl (hxs a b rest)

theorem dedupSorted_mergeSort (states : List Nat) :
    dedupSorted (states.mergeSort fun a b => a ≤ b) = states.toFinset.sort := by
  have hle : (states.mergeSort fun a b => a ≤ b).Pairwise (· ≤ ·) := by
    have h := @List.pairwise_mergeSort _ (fun a b : Nat => decide (a ≤ b))
      (fun a b c hab hbc => by simp only [decide_eq_true_eq] at *; omega)
      (fun a b => by by_cases h : a ≤ b <;> simp [h]; omega) states
    exact h.imp fun hab => by simpa using hab
  have hlt := pairwise_lt_dedupSorted hle
  have hset : (dedupSorted (states.mergeSort fun a b => a ≤ b)).toFinset = states.toFinset := by
    ext x
    simp [mem_dedupSorted, List.mem_mergeSort]
  rw [← hset]
  exact ((List.toFinset_sort _ hlt.nodup).2 (hlt.imp Nat.le_of_lt)).symm

namespace HistoryTable

/-! ### Records in key order -/

def keys (t : HistoryTable) : List Nat := t.records.map (·.1)

def Ordered (t : HistoryTable) : Prop := t.records.Pairwise (·.1 < ·.1)

/-- Putting a record in answers it under its own key and leaves every other key's answer as it
was. -/
theorem find?_insertRecord (h k : Nat) (r : HistoryRecord) (rs : List (Nat × HistoryRecord)) :
    (insertRecord h r rs).find? (·.1 == k) = if h = k then some (h, r) else rs.find? (·.1 == k) := by
  induction rs with
  | nil => by_cases hk : h = k <;> simp [insertRecord, hk]
  | cons p rest ih =>
    obtain ⟨k', s⟩ := p
    -- the record goes in before `k'`, replaces it, or passes a smaller key
    by_cases hlt : h < k'
    · rw [insertRecord, if_pos hlt]
      by_cases hk : h = k
      · simp [hk]
      · rw [List.find?_cons_of_neg (by simpa using hk), if_neg hk]
    by_cases heq : h = k'
    · subst heq
      by_cases hk : h = k <;> simp [insertRecord, hk]
    · -- a smaller key is passed, and it is not the one looked up when `h` is
      rw [insertRecord, if_neg hlt, if_neg heq]
      by_cases hk' : k' = k
      · have hne : h ≠ k := by omega
        rw [List.find?_cons_of_pos (by simpa using hk'), if_neg hne,
          List.find?_cons_of_pos (by simpa using hk')]
      · rw [List.find?_cons_of_neg (by simpa using hk'), ih,
          List.find?_cons_of_neg (p := (·.1 == k)) (a := (k', s)) (by simpa using hk')]

theorem mem_keys_insertRecord {h k : Nat} {r : HistoryRecord} {rs : List (Nat × HistoryRecord)} :
    k ∈ (insertRecord h r rs).map (·.1) ↔ k = h ∨ k ∈ rs.map (·.1) := by
  induction rs with
  | nil => simp [insertRecord]
  | cons p rest ih =>
    obtain ⟨k', s⟩ := p
    by_cases hlt : h < k'
    · simp [insertRecord, hlt]
    by_cases heq : h = k'
    · subst heq
      simp [insertRecord]
    · simp only [insertRecord, hlt, heq, if_false, List.map_cons, List.mem_cons, ih]
      tauto

theorem ordered_insertRecord {h : Nat} {r : HistoryRecord} {rs : List (Nat × HistoryRecord)}
    (hrs : rs.Pairwise (·.1 < ·.1)) : (insertRecord h r rs).Pairwise (·.1 < ·.1) := by
  induction rs with
  | nil => exact List.pairwise_singleton _ _
  | cons p rest ih =>
    obtain ⟨k', s⟩ := p
    obtain ⟨hk', hrest⟩ := List.pairwise_cons.1 hrs
    by_cases hlt : h < k'
    · -- in front: every later key is above `k'`, so above `h`
      simp only [insertRecord, hlt, if_true]
      refine List.pairwise_cons.2 ⟨fun q hq => ?_, hrs⟩
      rcases List.mem_cons.1 hq with rfl | hq
      · exact hlt
      · exact Nat.lt_trans hlt (hk' q hq)
    by_cases heq : h = k'
    · subst heq
      simp only [insertRecord, hlt, if_false, if_true]
      exact List.pairwise_cons.2 ⟨hk', hrest⟩
    · -- passed: `k'` lies below `h` and below every key after it
      simp only [insertRecord, hlt, heq, if_false]
      refine List.pairwise_cons.2 ⟨fun q hq => ?_, ih hrest⟩
      rcases mem_keys_insertRecord.1 (List.mem_map_of_mem (f := (·.1)) hq) with hq | hq
      · change k' < q.1
        omega
      · obtain ⟨q', hq', hqq⟩ := List.mem_map.1 hq
        exact hqq ▸ hk' q' hq'

/-! ### One record -/

theorem get_record (t : HistoryTable) (h k : Nat) (kind : HistoryKind) (states : List Nat) :
    (t.record h kind states).get k = if h = k then some states.toFinset.sort else t.get k := by
  simp only [get, record, find?_insertRecord]
  by_cases hk : h = k <;> simp [hk, dedupSorted_mergeSort]

theorem mem_keys_record {t : HistoryTable} {h k : Nat} {kind : HistoryKind} {states : List Nat} :
    k ∈ (t.record h kind states).keys ↔ k = h ∨ k ∈ t.keys :=
  mem_keys_insertRecord

theorem ordered_record {t : HistoryTable} (ht : t.Ordered) (h : Nat) (kind : HistoryKind)
    (states : List Nat) : (t.record h kind states).Ordered :=
  ordered_insertRecord ht

theorem size_eq_card_keys {t : HistoryTable} (ht : t.Ordered) : t.size = t.keys.toFinset.card := by
  have hnodup : t.keys.Nodup := (List.pairwise_map.2 ht).nodup
  rw [List.toFinset_card_of_nodup hnodup, keys, List.length_map, size]

theorem isEmpty_iff_size (t : HistoryTable) : t.isEmpty = true ↔ t.size = 0 := by
  simp [isEmpty, size]

/-! ### Runs of records -/

/-- Make the records `rs` in order: each names a history state, the kind of its history, and the
states to remember. -/
def recordAll (t : HistoryTable) (rs : List (Nat × HistoryKind × List Nat)) : HistoryTable :=
  rs.foldl (fun t r => t.record r.1 r.2.1 r.2.2) t

def lastRecorded (rs : List (Nat × HistoryKind × List Nat)) (h : Nat) : Option (List Nat) :=
  ((rs.filter (·.1 = h)).getLast?).map (·.2.2)

theorem recordAll_append (t : HistoryTable) (rs : List (Nat × HistoryKind × List Nat))
    (r : Nat × HistoryKind × List Nat) :
    t.recordAll (rs ++ [r]) = (t.recordAll rs).record r.1 r.2.1 r.2.2 := by
  simp [recordAll, List.foldl_append]

theorem lastRecorded_append (rs : List (Nat × HistoryKind × List Nat))
    (r : Nat × HistoryKind × List Nat) (h : Nat) :
    lastRecorded (rs ++ [r]) h = if r.1 = h then some r.2.2 else lastRecorded rs h := by
  by_cases hr : r.1 = h <;> simp [lastRecorded, List.filter_append, hr]

theorem get_recordAll (t : HistoryTable) (rs : List (Nat × HistoryKind × List Nat)) (h : Nat) :
    (t.recordAll rs).get h = ((lastRecorded rs h).map (·.toFinset.sort)).or (t.get h) := by
  induction rs using List.reverseRecOn with
  | nil => simp [recordAll, lastRecorded]
  | append_singleton rs r ih =>
    rw [recordAll_append, get_record, lastRecorded_append]
    by_cases hr : r.1 = h <;> simp [hr, ih]

theorem ordered_recordAll {t : HistoryTable} (ht : t.Ordered)
    (rs : List (Nat × HistoryKind × List Nat)) : (t.recordAll rs).Ordered := by
  induction rs using List.reverseRecOn with
  | nil => exact ht
  | append_singleton rs r ih =>
    rw [recordAll_append]
    exact ordered_record ih _ _ _

theorem mem_keys_recordAll {t : HistoryTable} {rs : List (Nat × HistoryKind × List Nat)} {k : Nat} :
    k ∈ (t.recordAll rs).keys ↔ k ∈ rs.map (·.1) ∨ k ∈ t.keys := by
  induction rs using List.reverseRecOn with
  | nil => simp [recordAll]
  | append_singleton rs r ih =>
    rw [recordAll_append, mem_keys_record, ih]
    simp only [List.map_append, List.map_cons, List.map_nil, List.mem_append, List.mem_singleton]
    tauto

/-- After any sequence of records made from the empty table, a look-up answers nothing exactly
when the history state was never recorded, and otherwise the states given to its last record as
an increasing list without repeats, whatever their order and multiplicity; the size is the number
of distinct history states recorded, and the table is empty exactly when its size is zero. -/
theorem get_answers_last_record (rs : List (Nat × HistoryKind × List Nat)) (h : Nat) :
    ((({} : HistoryTable).recordAll rs).get h = none ↔ ∀ r ∈ rs, r.1 ≠ h) ∧
    (({} : HistoryTable).recordAll rs).get h = (lastRecorded rs h).map (·.toFinset.sort) ∧
    (({} : HistoryTable).recordAll rs).size = (rs.map (·.1)).toFinset.card ∧
    ((({} : HistoryTable).recordAll rs).isEmpty = true ↔
      (({} : HistoryTable).recordAll rs).size = 0) := by
  have hget : (({} : HistoryTable).recordAll rs).get h = (lastRecorded rs h).map (·.toFinset.sort) := by
    simpa [get] using get_recordAll {} rs h
  have hordered : (({} : HistoryTable).recordAll rs).Ordered := ordered_recordAll List.Pairwise.nil rs
  refine ⟨?_, hget, ?_, isEmpty_iff_size _⟩
  · -- no answer exactly when no record names `h`
    simp [hget, lastRecorded]
  · rw [size_eq_card_keys hordered]
    congr 1
    ext k
    simp only [List.mem_toFinset, mem_keys_recordAll]
    simp [keys]

end HistoryTable
end Hsm
