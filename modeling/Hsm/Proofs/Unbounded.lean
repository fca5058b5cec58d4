import Hsm.Proofs.Entry
/-!
# Entry without a depth bound

The entry walk as a relation without a depth bound (`Selector.Enters`, `Selector.Collects`). Where
it ends, the bounded walk with a large enough bound gives the same (`Selector.Enters.runCalls_eq`),
and a history pseudo-state whose default targets itself is never entered
(`Selector.Enters.not_mem`).
-/

namespace Hsm

/-- One call of the entry walk. -/
inductive EntryCall where
  /-- Enter a state with what it brings along. -/
  | descendants (s : Nat)
  /-- Enter the ancestors of a state below a bound. -/
  | ancestors (s : Nat) (upto : Option Nat)
  /-- Enter the regions of a parallel state. -/
  | regions (p : Nat)
  /-- Enter one ancestor, and its regions when it is parallel. -/
  | ancestor (a : Nat)
  /-- Enter one region unless an entered state already covers it. -/
  | region (c : Nat)
  deriving DecidableEq

/-- The depth a call uses up: the last two are steps of a walk, not walks of their own. -/
def EntryCall.cost : EntryCall → Nat
  | .ancestor _ | .region _ => 0
  | _ => 1

theorem EntryCall.cost_le_one (c : EntryCall) : c.cost ≤ 1 := by
  cases c <;> simp [EntryCall.cost]

namespace Selector
variable (sel : Selector)

/-- What a call does itself, and the calls it then makes, in order. -/
def expand : EntryCall → EntrySet → EntrySet × List EntryCall
  | .descendants s, e =>
    if sel.doc.isHistory s then
      let home := ((sel.doc.state s).parent).getD 0
      match sel.history.get s with
      | some recorded => (e, recorded.map .descendants ++ recorded.map (.ancestors · (some home)))
      | none =>
        match sel.historyDefault s with
        | some dt =>
          let targets := (sel.doc.transition dt).targets
          ({ e with historyContent := setKey home dt e.historyContent },
            targets.map .descendants ++ targets.map (.ancestors · (some home)))
        | none => (e, [])
    else
      let e := { e with states := e.states.add s }
      if sel.doc.isCompound s then
        let e := { e with defaultEntry := e.defaultEntry.add s }
        match (sel.doc.state s).initial with
        | some i =>
          let targets := (sel.doc.transition i).targets
          (e, targets.map .descendants ++ targets.map (.ancestors · (some s)))
        | none => (e, [])
      else if sel.doc.isParallel s then (e, [.regions s])
      else (e, [])
  | .ancestors s upto, e => (e, (sel.doc.properAncestors s upto).map .ancestor)
  | .regions p, e => (e, (sel.doc.state p).children.map .region)
  | .ancestor a, e =>
    ({ e with states := e.states.add a }, if sel.doc.isParallel a then [.regions a] else [])
  | .region c, e =>
    if e.states.items.any (fun s => s == c || sel.doc.isDescendant s c) then (e, [])
    else (e, [.descendants c])

/-- Entry without a depth bound: the calls `cs`, run in order from `e`, end with `e'`. -/
inductive Enters : List EntryCall → EntrySet → EntrySet → Prop
  | nil (e : EntrySet) : Enters [] e e
  | cons {c : EntryCall} {cs : List EntryCall} {e e₁ e₂ : EntrySet} :
      Enters (sel.expand c e).2 (sel.expand c e).1 e₁ → Enters cs e₁ e₂ →
        Enters (c :: cs) e e₂

/-- A call of the bounded walk, with depth `n`. -/
def runCall (n : Nat) : EntryCall → EntrySet → EntrySet
  | .descendants s, e => sel.addDescendants n s e
  | .ancestors s upto, e => sel.addAncestors n s upto e
  | .regions p, e => sel.addRegions n p e
  | .ancestor a, e =>
    let e := { e with states := e.states.add a }
    if sel.doc.isParallel a then sel.addRegions n a e else e
  | .region c, e =>
    if e.states.items.any (fun s => s == c || sel.doc.isDescendant s c) then e
    else sel.addDescendants n c e

def runCalls (n : Nat) (cs : List EntryCall) (e : EntrySet) : EntrySet :=
  cs.foldl (fun e c => sel.runCall n c e) e

@[simp] theorem runCalls_nil (n : Nat) (e : EntrySet) : sel.runCalls n [] e = e := rfl

@[simp] theorem runCalls_cons (n : Nat) (c : EntryCall) (cs : List EntryCall) (e : EntrySet) :
    sel.runCalls n (c :: cs) e = sel.runCalls n cs (sel.runCall n c e) := rfl

theorem runCalls_append (n : Nat) (cs cs' : List EntryCall) (e : EntrySet) :
    sel.runCalls n (cs ++ cs') e = sel.runCalls n cs' (sel.runCalls n cs e) := by
  simp [runCalls, List.foldl_append]

/-- A call of the bounded walk is its own part followed by the calls it makes, with what is left
of the depth. -/
theorem runCall_eq (n : Nat) (c : EntryCall) (e : EntrySet) :
    sel.runCall (n + c.cost) c e = sel.runCalls n (sel.expand c e).2 (sel.expand c e).1 := by
  cases c with
  | descendants s =>
    simp only [runCall, EntryCall.cost, expand]
    rw [addDescendants.eq_2]
    cases hh : sel.doc.isHistory s
    · simp only [Bool.false_eq_true, if_false]
      cases hc : sel.doc.isCompound s
      · cases sel.doc.isParallel s <;> rfl
      · simp only [if_true]
        cases (sel.doc.state s).initial with
        | none => rfl
        | some i => simp [runCalls, runCall, List.foldl_append, List.foldl_map]
    · simp only [if_true]
      cases sel.history.get s with
      | some recorded => simp [runCalls, runCall, List.foldl_append, List.foldl_map]
      | none =>
        cases sel.historyDefault s with
        | none => rfl
        | some dt => simp [runCalls, runCall, List.foldl_append, List.foldl_map]
  | ancestors s upto =>
    simp only [runCall, EntryCall.cost, expand]
    rw [addAncestors.eq_2]
    simp [runCalls, runCall, List.foldl_map]
  | regions p =>
    simp only [runCall, EntryCall.cost, expand]
    rw [addRegions.eq_2]
    simp [runCalls, runCall, List.foldl_map]
  | ancestor a =>
    simp only [runCall, EntryCall.cost, expand]
    split <;> simp [runCalls, runCall]
  | region c =>
    simp only [runCall, EntryCall.cost, expand]
    split <;> simp [runCalls, runCall]

theorem Enters.runCalls_eq {sel : Selector} {cs : List EntryCall} {e e' : EntrySet}
    (h : sel.Enters cs e e') : ∃ k, ∀ n, k ≤ n → sel.runCalls n cs e = e' := by
  induction h with
  | nil e => exact ⟨0, fun n _ => rfl⟩
  | @cons c cs e e₁ e₂ _ _ ih₁ ih₂ =>
    obtain ⟨k₁, hk₁⟩ := ih₁
    obtain ⟨k₂, hk₂⟩ := ih₂
    refine ⟨max (k₁ + 1) k₂, fun n hn => ?_⟩
    -- the call itself takes at most one level of depth, its own calls the rest
    have hcost := c.cost_le_one
    have hcall : sel.runCall n c e = e₁ := by
      rw [show n = (n - c.cost) + c.cost by omega, runCall_eq]
      exact hk₁ _ (by omega)
    rw [runCalls_cons, hcall]
    exact hk₂ n (by omega)

/-- The calls entering a transition makes: its targets with what they bring along, then the
ancestors of its effective targets below its domain. -/
def entryCalls (t : Nat) : List EntryCall :=
  (sel.doc.transition t).targets.map .descendants ++
    (sel.effectiveTargets t).items.map (.ancestors · (sel.domain t))

theorem entrySet_eq_runCalls (ts : List Nat) :
    sel.entrySet ts = sel.runCalls sel.depthBound (ts.flatMap sel.entryCalls) {} := by
  unfold entrySet
  generalize ({} : EntrySet) = e
  induction ts generalizing e with
  | nil => rfl
  | cons t ts ih =>
    rw [List.foldl_cons, ih, List.flatMap_cons, runCalls_append]
    simp [runCalls, runCall, entryCalls, List.foldl_append, List.foldl_map]

theorem descendants_mem_expand_self {h dt : Nat} (hh : sel.doc.isHistory h = true)
    (hr : sel.history.get h = none) (hd : sel.historyDefault h = some dt)
    (hself : h ∈ (sel.doc.transition dt).targets) (e : EntrySet) :
    .descendants h ∈ (sel.expand (.descendants h) e).2 := by
  simp [expand, hh, hr, hd, hself]

theorem Enters.not_mem {sel : Selector} {h dt : Nat} (hh : sel.doc.isHistory h = true)
    (hr : sel.history.get h = none) (hd : sel.historyDefault h = some dt)
    (hself : h ∈ (sel.doc.transition dt).targets) {cs : List EntryCall} {e e' : EntrySet}
    (he : sel.Enters cs e e') : .descendants h ∉ cs := by
  induction he with
  | nil => simp
  | @cons c cs e e₁ e₂ _ _ ih₁ ih₂ =>
    intro hmem
    rcases List.mem_cons.1 hmem with rfl | hmem
    · exact ih₁ (sel.descendants_mem_expand_self hh hr hd hself e)
    · exact ih₂ hmem

/-- Collecting effective targets without a depth bound: the states `ts`, each history
pseudo-state replaced by its record or, without one, by the targets of its default transition,
added to `out` in order, give `out'`. -/
inductive Collects : List Nat → OrderedSet Nat → OrderedSet Nat → Prop
  | nil (out : OrderedSet Nat) : Collects [] out out
  | plain {s : Nat} {rest : List Nat} {out out' : OrderedSet Nat} :
      sel.doc.isHistory s = false → Collects rest (out.add s) out' → Collects (s :: rest) out out'
  | recorded {s : Nat} {rest recorded : List Nat} {out out' : OrderedSet Nat} :
      sel.doc.isHistory s = true → sel.history.get s = some recorded →
        Collects rest (out.union recorded) out' → Collects (s :: rest) out out'
  | viaDefault {s dt : Nat} {rest : List Nat} {out mid out' : OrderedSet Nat} :
      sel.doc.isHistory s = true → sel.history.get s = none → sel.historyDefault s = some dt →
        Collects (sel.doc.transition dt).targets out mid → Collects rest mid out' →
          Collects (s :: rest) out out'
  | noDefault {s : Nat} {rest : List Nat} {out out' : OrderedSet Nat} :
      sel.doc.isHistory s = true → sel.history.get s = none → sel.historyDefault s = none →
        Collects rest out out' → Collects (s :: rest) out out'

theorem collectEffective_cons (n s : Nat) (rest : List Nat) (out : OrderedSet Nat) :
    sel.collectEffective (n + 1) (s :: rest) out = sel.collectEffective (n + 1) rest
      (if !sel.doc.isHistory s then out.add s
      else match sel.history.get s with
        | some recorded => out.union recorded
        | none =>
          match sel.historyDefault s with
          | some d => sel.collectEffective n (sel.doc.transition d).targets out
          | none => out) := rfl

end Selector

/-- A compound state `home` whose only default target is its own history pseudo-state `h`: the
default transition made for `h` targets `h` again. -/
def selfHistoryChart : DocumentSchema :=
  { states := [
      { id := "home"
        initialTargets := ["h"]
        children := [{ id := "h", kind := .history .shallow }, { id := "x" }] }] }

/-- Starting a session of `selfHistoryChart` enters `home`, which calls for entering `h`, whose
default calls for entering `h` again: entry without a depth bound never ends. -/
theorem selfHistory_entry_never_ends :
    selfHistoryChart.Builds fun d =>
      ∀ e, ¬ Selector.Enters ⟨d, {}, {}⟩
        ((d.state 0).initial.toList.flatMap (Selector.entryCalls ⟨d, {}, {}⟩)) {} e := by
  have facts : selfHistoryChart.Builds fun d =>
      let sel : Selector := ⟨d, {}, {}⟩
      ((d.state 0).initial.toList.flatMap sel.entryCalls).head? = some (.descendants 1) ∧
        .descendants 2 ∈ (sel.expand (.descendants 1) {}).2 ∧ d.isHistory 2 = true ∧
        sel.historyDefault 2 = some 2 ∧ 2 ∈ (d.transition 2).targets := by
    decide +kernel
  refine facts.mono fun d ⟨hcalls, hmem, hh, hd, hself⟩ e he => ?_
  generalize (d.state 0).initial.toList.flatMap _ = cs at hcalls he
  cases cs with
  | nil => cases hcalls
  | cons c cs =>
    cases hcalls
    cases he with
    | cons hhome _ => exact Selector.Enters.not_mem hh rfl hd hself hhome hmem

end Hsm
