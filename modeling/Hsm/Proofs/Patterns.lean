import Mathlib
import Hsm.Document.Schema
/-!
# Event patterns and the completion of invocations

`*` matches every name, `p.*` the names that begin with `p.`, any other pattern only itself
(`patternMatches_iff`). An invoke id goes into `done.invoke.<id>` as it is, so an id that is `*`
or ends in `.*` makes the pattern a wildcard (`doneInvoke_matches_iff`).
-/

namespace Hsm

theorem reverse_eq_wildcard_iff (cs : List Char) :
    (∃ rest, cs.reverse = '*' :: '.' :: rest) ↔ ∃ stem, cs = stem ++ ['*'] ∧ stem.getLast? = some '.' := by
  constructor
  · rintro ⟨rest, h⟩
    refine ⟨rest.reverse ++ ['.'], ?_, by simp⟩
    rw [← List.reverse_reverse cs, h]
    simp
  · rintro ⟨stem, rfl, hlast⟩
    obtain ⟨init, rfl⟩ := List.getLast?_eq_some_iff.1 hlast
    exact ⟨init.reverse, by simp⟩

/-- What a pattern matches: every name for `*`, the names that begin with its stem for a stem
ending in a dot followed by `*`, and otherwise the name equal to it. -/
theorem patternMatches_iff (p n : String) :
    patternMatches p n = true ↔
      p = "*" ∨ p = n ∨
        ∃ stem, p.toList = stem ++ ['*'] ∧ stem.getLast? = some '.' ∧ List.IsPrefix stem n.toList := by
  unfold patternMatches
  simp only [Bool.or_eq_true, beq_iff_eq, or_assoc]
  refine or_congr_right (or_congr_right ?_)
  split
  · rename_i rest h
    -- the stem is the pattern without its last character
    have hp : p.toList = (rest.reverse ++ ['.']) ++ ['*'] := by
      rw [← List.reverse_reverse p.toList, h]
      simp
    constructor
    · intro hpre
      refine ⟨rest.reverse ++ ['.'], hp, by simp, ?_⟩
      simpa using List.isPrefixOf_iff_prefix.1 hpre
    · rintro ⟨stem, hs, -, hpre⟩
      have hstem : stem = rest.reverse ++ ['.'] := List.append_inj_left' (hs.symm.trans hp) rfl
      subst hstem
      simpa using List.isPrefixOf_iff_prefix.2 hpre
  · rename_i h
    simp only [Bool.false_eq_true, false_iff, not_exists, not_and]
    intro stem hs hlast _
    exact h _ (((reverse_eq_wildcard_iff p.toList).2 ⟨stem, hs, hlast⟩).choose_spec)

theorem doneInvokePrefix_toList :
    Event.doneInvokePrefix.toList = ['d', 'o', 'n', 'e', '.', 'i', 'n', 'v', 'o', 'k', 'e', '.'] := rfl

theorem doneInvoke_name (j : String) (d : Json.Value) :
    (Event.doneInvoke j d).name = Event.doneInvokePrefix ++ j := rfl

/-- A completion pattern is a wildcard exactly when the invoke id is: `*` itself, or a stem ending
in a dot followed by `*`. Its stem is then the prefix followed by the id's stem. -/
theorem doneInvoke_wildcard_iff (i : String) (ns : List Char) :
    (∃ stem, Event.doneInvokePrefix.toList ++ i.toList = stem ++ ['*'] ∧
        stem.getLast? = some '.' ∧ List.IsPrefix stem (Event.doneInvokePrefix.toList ++ ns)) ↔
      ∃ stem, i.toList = stem ++ ['*'] ∧ (stem = [] ∨ stem.getLast? = some '.') ∧
        List.IsPrefix stem ns := by
  constructor
  · rintro ⟨stem, hs, hlast, hpre⟩
    -- the id is not empty, since the prefix ends in a dot and the pattern in `*`
    rcases List.eq_nil_or_concat i.toList with hi | ⟨s, c, hi⟩
    · rw [hi, List.append_nil, doneInvokePrefix_toList] at hs
      have := congrArg List.getLast? hs
      simp at this
    · rw [List.concat_eq_append] at hi
      rw [hi, ← List.append_assoc] at hs
      obtain ⟨rfl, hc⟩ := List.append_inj' hs rfl
      have hc : c = '*' := List.singleton_inj.1 hc
      subst hc
      refine ⟨s, hi, ?_, List.prefix_append_right_inj _ |>.1 hpre⟩
      rcases List.eq_nil_or_concat s with rfl | ⟨t, x, rfl⟩
      · exact .inl rfl
      · simp only [List.concat_eq_append, ← List.append_assoc, List.getLast?_append,
          List.getLast?_singleton, Option.some_or] at hlast
        exact .inr (by simpa using hlast)
  · rintro ⟨s, hi, hlast, hpre⟩
    refine ⟨Event.doneInvokePrefix.toList ++ s, by rw [hi, List.append_assoc], ?_,
      (List.prefix_append_right_inj _).2 hpre⟩
    rcases hlast with rfl | hlast
    · rw [List.append_nil, doneInvokePrefix_toList]
      rfl
    · rw [List.getLast?_append, hlast]
      rfl

/-- The transition made for the completion of invocation `i` hears the completion of invocation
`j` exactly when `i = j`, or `i` is a wildcard id (`*`, or a stem ending in a dot followed by
`*`) whose stem begins `j`. Whether that event is the completion of `i`, the check that marks an
invocation done, holds exactly when `i = j`. -/
theorem doneInvoke_matches_iff (i j : String) (d : Json.Value) :
    (nameMatches (TransitionSchema.doneInvoke i).events (Event.doneInvoke j d).name = true ↔
      i = j ∨ ∃ stem, i.toList = stem ++ ['*'] ∧ (stem = [] ∨ stem.getLast? = some '.') ∧
        List.IsPrefix stem j.toList) ∧
    ((Event.doneInvoke j d).isDoneInvoke i = true ↔ i = j) := by
  have hcancel : Event.doneInvokePrefix ++ i = Event.doneInvokePrefix ++ j ↔ i = j := by
    rw [← String.toList_inj, ← String.toList_inj, String.toList_append, String.toList_append]
    rw [List.append_cancel_left_eq]
  constructor
  · -- a completion pattern is never `*` alone: it begins with the prefix
    have hstar : Event.doneInvokePrefix ++ i ≠ "*" := fun h => by
      have := congrArg (·.toList.length) h
      simp [String.toList_append, doneInvokePrefix_toList] at this
    simp only [TransitionSchema.doneInvoke, nameMatches, List.any_cons, List.any_nil,
      Bool.or_false, patternMatches_iff, doneInvoke_name, hstar, false_or, hcancel,
      String.toList_append]
    rw [doneInvoke_wildcard_iff]
  · simp only [Event.isDoneInvoke, Event.doneInvoke, Bool.and_eq_true, beq_iff_eq,
      Option.some.injEq]
    constructor
    · rintro ⟨rfl, -⟩
      rfl
    · rintro rfl
      exact ⟨rfl, rfl⟩

/-- The transition made for the completion of the invocation `*` hears the completion of the
invocation `x`. -/
theorem starInvoke_hears_other_completion :
    nameMatches (TransitionSchema.doneInvoke "*").events (Event.doneInvoke "x" .null).name = true ∧
      "*" ≠ "x" := by
  decide

end Hsm
