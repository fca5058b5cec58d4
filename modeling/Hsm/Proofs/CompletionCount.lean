import Hsm.Proofs.Legality
import Hsm.Proofs.Unbounded
/-! # How many completions a microstep reports
A microstep that completes a parallel state with compound regions reports it exactly once. -/

namespace Hsm

/-! ### A compiled document names each state once -/

namespace DocumentSchema
variable {ds : DocumentSchema} {d : Document}

theorem wellFormed_of_build (hb : ds.build = .ok d) : ds.WellFormed := by
  unfold build at hb
  dsimp only at hb
  split at hb
  · rename_i hnil
    cases hb
    obtain ⟨hi, hp⟩ := List.append_eq_nil_iff.1 hnil
    exact wellFormed_of_clean (Array.toList_eq_nil_iff.1 hi) ((Document.problems_eq_nil_iff _).1 hp)
  · cases hb

theorem getElem?_ids_of_build (hb : ds.build = .ok d) {a : Nat} (ha : a < d.size) :
    (Document.rootId :: ds.preorder.map StateSchema.id)[a]? = some (d.name a) := by
  have hL := lowered_of_build hb
  cases a with
  | zero => simp [Document.name, hL.root.1]
  | succ i =>
    have hi' : i < ds.preorder.length := by
      have := hL.size_eq
      omega
    simp [Document.name, (hL.preorder i hi').1, hi']

theorem name_injective_of_build (hb : ds.build = .ok d) {a b : Nat} (ha : a < d.size)
    (hb' : b < d.size) (h : d.name a = d.name b) : a = b := by
  have hw := wellFormed_of_build hb
  have hnd : (Document.rootId :: ds.preorder.map StateSchema.id).Nodup :=
    List.nodup_cons.2 ⟨hw.no_reserved, hw.distinct⟩
  have hlen : a < (Document.rootId :: ds.preorder.map StateSchema.id).length := by
    simpa using (List.getElem?_eq_some_iff.1 (getElem?_ids_of_build hb ha)).1
  exact (List.getElem?_inj hlen hnd).1
    (by rw [getElem?_ids_of_build hb ha, getElem?_ids_of_build hb hb', h])

end DocumentSchema

theorem Document.Legal.eq_of_mem_children {d : Document} {C : List Nat} (hs : d.Shaped)
    (hL : d.Legal C) {R x y : Nat} (hR : d.isCompound R = true) (hx : x ∈ (d.state R).children)
    (hy : y ∈ (d.state R).children) (hxC : x ∈ C) (hyC : y ∈ C) : x = y := by
  -- the parent of an active child is active, or the root
  have hRC : R ∈ 0 :: C := by
    by_cases hR0 : R = 0
    · exact hR0 ▸ List.mem_cons_self
    · exact List.mem_cons_of_mem _ (hL.parent_mem x hxC R (hs.nested.parent_of_mem_children hx) hR0)
  obtain ⟨c, -, -, hc⟩ := hL.one_child R hRC hR
  exact (hc x hx hxC).trans (hc y hy hyC).symm

/-! ### The entry walk adds each state once -/

namespace Selector
variable (sel : Selector)

theorem nodup_expand (c : EntryCall) {e : EntrySet} (h : e.states.items.Nodup) :
    (sel.expand c e).1.states.items.Nodup := by
  cases c <;> simp only [expand] <;> (repeat' split) <;> first
    | exact h
    | exact OrderedSet.nodup_add h _

theorem nodup_runCall (n : Nat) : ∀ (c : EntryCall) {e : EntrySet}, e.states.items.Nodup →
    (sel.runCall n c e).states.items.Nodup := by
  induction n with
  | zero =>
    intro c e h
    cases c <;> simp only [runCall, addDescendants, addAncestors, addRegions] <;> (repeat' split) <;>
      first
      | exact h
      | exact OrderedSet.nodup_add h _
  | succ m ih =>
    have hcalls : ∀ (cs : List EntryCall) {e : EntrySet}, e.states.items.Nodup →
        (sel.runCalls m cs e).states.items.Nodup := by
      intro cs
      induction cs with
      | nil => exact id
      | cons c cs ihc => exact fun h => ihc (ih c h)
    -- a call that takes a level of depth is its own part, then its calls one level down
    have hdeep : ∀ c, c.cost = 1 → ∀ {e : EntrySet}, e.states.items.Nodup →
        (sel.runCall (m + 1) c e).states.items.Nodup := fun c hc e h => by
      rw [show m + 1 = m + c.cost by omega, runCall_eq]
      exact hcalls _ (sel.nodup_expand c h)
    intro c e h
    cases c with
    | ancestor a =>
      simp only [runCall]
      split
      · exact hdeep (.regions a) rfl (OrderedSet.nodup_add h a)
      · exact OrderedSet.nodup_add h a
    | region c =>
      simp only [runCall]
      split
      · exact h
      · exact hdeep (.descendants c) rfl h
    | descendants s => exact hdeep _ rfl h
    | ancestors s upto => exact hdeep _ rfl h
    | regions p => exact hdeep _ rfl h

theorem nodup_entrySet (ts : List Nat) : (sel.entrySet ts).states.items.Nodup := by
  rw [entrySet_eq_runCalls]
  generalize ts.flatMap sel.entryCalls = cs
  suffices ∀ {e : EntrySet}, e.states.items.Nodup →
      (sel.runCalls sel.depthBound cs e).states.items.Nodup from this List.nodup_nil
  induction cs with
  | nil => exact id
  | cons c cs ih => exact fun h => ih (sel.nodup_runCall _ c h)

end Selector

/-! ### How many completions entering states reports -/

def Document.Completes (d : Document) (G st : Nat) : Prop :=
  d.isFinal st = true ∧ ∃ R ∈ (d.state G).children, st ∈ (d.state R).children

instance (d : Document) (G st : Nat) : Decidable (d.Completes G st) :=
  inferInstanceAs (Decidable (_ ∧ _))

namespace Selector
variable {sel : Selector} {G : Nat}

section Regions
variable (hG : sel.doc.isParallel G = true)
  (hR : ∀ R ∈ (sel.doc.state G).children, sel.doc.isCompound R = true)
include hG hR

theorem isInFinalState_mono {K' : OrderedSet Nat} (hK : ∀ x ∈ sel.configuration.items, x ∈ K'.items)
    (h : sel.isInFinalState G = true) :
    ({ sel with configuration := K' } : Selector).isInFinalState G = true := by
  rw [isInFinalState_iff_of_regions hG hR] at h
  refine (@isInFinalState_iff_of_regions { sel with configuration := K' } G hG hR).2
    fun R hRG => ?_
  obtain ⟨c, hc, hf, hin⟩ := h R hRG
  exact ⟨c, hc, hf, hK c hin⟩

theorem isInFinalState_add {st : Nat} (hst : ¬ sel.doc.Completes G st) :
    ({ sel with configuration := sel.configuration.add st } : Selector).isInFinalState G =
      sel.isInFinalState G := by
  refine Bool.eq_iff_iff.2 ?_
  rw [@isInFinalState_iff_of_regions { sel with configuration := sel.configuration.add st } G
    hG hR, isInFinalState_iff_of_regions hG hR]
  refine forall₂_congr fun R hRG => exists_congr fun c => and_congr_right fun hc =>
    and_congr_right fun hf => ?_
  simp only [OrderedSet.mem_add]
  constructor
  · rintro (h | rfl)
    · exact h
    · exact absurd ⟨hf, R, hRG, hc⟩ hst
  · exact .inl

variable (hs : sel.doc.Shaped)
  (hid : ∀ a b, a < sel.doc.size → b < sel.doc.size → sel.doc.name a = sel.doc.name b → a = b)
include hs hid

/-- Entering `st`, once active, reports `done.state` of `G` once exactly when `st` completes a
region of `G` and `G` is then complete: the event for `st`'s parent names a region or another
state, never `G`, whose regions are compound. -/
theorem reportsAt_name {st : Nat} (hst : st < sel.doc.size) :
    sel.reportsAt (sel.doc.name G) st =
      if sel.doc.Completes G st ∧ sel.isInFinalState G = true then 1 else 0 := by
  have hGlt := Document.lt_size_of_isParallel hG
  have hdone : ∀ x, x < sel.doc.size → ∀ d,
      (Event.doneState (sel.doc.name x) d).isDoneState (sel.doc.name G) = decide (x = G) := by
    intro x hx d
    by_cases hxG : x = G
    · simp [Event.isDoneState, Event.doneState, hxG]
    · simp only [Event.isDoneState, Event.doneState, beq_self_eq_true, Bool.true_and, hxG,
        decide_false, beq_eq_false_iff_ne, ne_eq, String.append_right_inj]
      exact fun h => hxG (hid x G hx hGlt h)
  unfold reportsAt
  split
  · rename_i hfp
    obtain ⟨hf, hp0⟩ := hfp
    obtain ⟨p, hp⟩ : ∃ p, (sel.doc.state st).parent = some p := by
      cases h : (sel.doc.state st).parent with
      | none => rw [h] at hp0; exact absurd rfl hp0
      | some p => exact ⟨p, rfl⟩
    have hplt : p < sel.doc.size := Nat.lt_trans (hs.nested.parent_lt hp) hst
    -- the parent is not `G`: a child of `G` is compound, not final
    have hpG : p ≠ G := by
      rintro rfl
      have hc := hR st (hs.mem_children.2 ⟨hst, hp, by simp [Document.isHistory, Document.historyKind?,
        (by simpa [Document.isFinal] using hf : (sel.doc.state st).mode = .final)]⟩)
      simp [Document.isCompound, (by simpa [Document.isFinal] using hf :
        (sel.doc.state st).mode = .final)] at hc
    -- `st` completes a region of `G` exactly when its parent is a child of `G`
    have hcomp : sel.doc.Completes G st ↔ (sel.doc.state p).parent = some G := by
      constructor
      · rintro ⟨-, R, hRG, hstR⟩
        obtain rfl : R = p := Option.some_inj.1 ((hs.nested.parent_of_mem_children hstR).symm.trans hp)
        exact hs.nested.parent_of_mem_children hRG
      · intro hpG'
        exact ⟨hf, p, hs.mem_children.2 ⟨hplt, hpG', hs.parent_not_history hp⟩,
          hs.mem_children.2 ⟨hst, hp, by simp [Document.isHistory, Document.historyKind?,
            (by simpa [Document.isFinal] using hf : (sel.doc.state st).mode = .final)]⟩⟩
    simp only [completions, hp, Option.getD_some, List.countP_cons, hdone p hplt, hpG,
      decide_false, Bool.false_eq_true, if_false, Nat.add_zero, hcomp]
    cases hgp : (sel.doc.state p).parent with
    | none => simp
    | some gp =>
      have hgplt : gp < sel.doc.size := Nat.lt_trans (hs.nested.parent_lt hgp) hplt
      by_cases hgG : gp = G
      · subst hgG
        by_cases hc : sel.isInFinalState gp = true <;> simp [hG, hc, hdone gp hgplt]
      · -- the grandparent's event names another state
        simp [hgG]
        rintro a - - rfl
        rw [hdone gp hgplt .null, decide_eq_false hgG]
  · rename_i hfp
    -- a state completing a region of `G` is final with that region, not the root, as parent
    refine (if_neg ?_).symm
    rintro ⟨⟨hf, R, hRG, hstR⟩, -⟩
    refine hfp ⟨hf, ?_⟩
    rw [hs.nested.parent_of_mem_children hstR, Option.getD_some]
    rintro rfl
    have := hs.nested.parent_of_mem_children hRG
    rw [hs.root_parent] at this
    cases this

/-- Entering new states one after another, each entered once, into a configuration where each
region of `G` keeps at most one active child, reports `done.state` of `G` once if `G` becomes
complete, and not at all otherwise. -/
theorem reports_name {L : List Nat} (hlt : ∀ st ∈ L, st < sel.doc.size) (hnd : L.Nodup)
    (hnew : ∀ st ∈ L, st ∉ sel.configuration.items)
    (hone : ∀ R ∈ (sel.doc.state G).children, ∀ x ∈ (sel.doc.state R).children,
      ∀ y ∈ (sel.doc.state R).children, x ∈ (sel.configuration.union L).items →
        y ∈ (sel.configuration.union L).items → x = y) :
    sel.reports (sel.doc.name G) L =
      if sel.isInFinalState G = false ∧
        ({ sel with configuration := sel.configuration.union L } : Selector).isInFinalState G = true
      then 1 else 0 := by
  induction L generalizing sel with
  | nil =>
    have hself : ({ sel with configuration := sel.configuration.union [] } : Selector) = sel := rfl
    rw [hself]
    simp [reports]
  | cons st L ih =>
    let sel' : Selector := { sel with configuration := sel.configuration.add st }
    have hdoc' : sel'.doc = sel.doc := rfl
    have hst := hlt st List.mem_cons_self
    have hih := @ih sel' hG hR hs hid (fun x hx => hlt x (List.mem_cons_of_mem _ hx))
      (List.nodup_cons.1 hnd).2
      (fun x hx hxK => by
        rcases OrderedSet.mem_add.1 hxK with hxK | rfl
        · exact hnew x (List.mem_cons_of_mem _ hx) hxK
        · exact (List.nodup_cons.1 hnd).1 hx)
      hone
    have hend : ({ sel' with configuration := sel'.configuration.union L } : Selector) =
        { sel with configuration := sel.configuration.union (st :: L) } := rfl
    have hgrow : ∀ x ∈ sel'.configuration.items, x ∈ (sel'.configuration.union L).items :=
      fun x hx => OrderedSet.mem_union.2 (.inl hx)
    show sel'.reportsAt _ st + sel'.reports _ L = _
    rw [@reportsAt_name sel' G hG hR hs hid st hst, hih, hend, hdoc']
    by_cases hc : sel.isInFinalState G = true
    · -- `G` was complete: no region of it can be completed again
      have hnot : ¬ sel.doc.Completes G st := by
        rintro ⟨-, R, hRG, hstR⟩
        obtain ⟨x, hx, -, hxK⟩ := (isInFinalState_iff_of_regions hG hR).1 hc R hRG
        have := hone R hRG x hx st hstR (OrderedSet.mem_union.2 (.inl hxK))
          (OrderedSet.mem_union.2 (.inr List.mem_cons_self))
        exact hnew st List.mem_cons_self (this ▸ hxK)
      have hc' : sel'.isInFinalState G = true :=
        isInFinalState_mono hG hR (fun x hx => OrderedSet.mem_add.2 (.inl hx)) hc
      simp [hnot, hc, hc']
    · rw [Bool.not_eq_true] at hc
      by_cases hst' : sel.doc.Completes G st
      · by_cases hc' : sel'.isInFinalState G = true
        · have hend' := @isInFinalState_mono sel' G hG hR _ hgrow hc'
          rw [hend] at hend'
          simp [hst', hc, hc', hend']
        · simp [hst', hc, hc']
      · have hc' : sel'.isInFinalState G = false := (isInFinalState_add hG hR hst').trans hc
        simp [hst', hc, hc']

end Regions

end Selector


/-! ### One report per completion -/

namespace Engine
variable {me : Nat}

/-- A microstep appends to the internal queue as many `done.state` events as entering its entries
in entry order reports, from the selector its exits leave, and leaves the session on that selector
with the entries added. -/
theorem eval_microstep_reports {ts : List Nat} {w w' : World} (hm : me < w.sessions.size)
    (h : eval (microstep me ts) w = (.ok (), w')) :
    let sel₁ := ((eval (exitStates me ts) w).2.session me).selector
    let L := sortBy sel₁.doc.entryCmp (sel₁.entrySet ts).states.items
    (w'.session me).selector = { sel₁ with configuration := sel₁.configuration.union L } ∧
      ∃ Q, (w'.session me).internal = (w.session me).internal ++ Q ∧
        ∀ id, Q.countP (Event.isDoneState id) = sel₁.reports id L := by
  intro sel₁ L
  obtain ⟨w₁, w₂, h₁, h₂, h₃⟩ := eval_microstep_phases h
  have hm₁ := (Keeps.of_eval (shrinks_exitStates ts) h₁ hm).1
  obtain ⟨hm₂, -, hdoc₂, hconf₂⟩ :=
    Keeps.of_eval (Keeps.forM fun _ _ => keepsShape_exec me _) h₂ hm₁
  have hhist₂ := (Keeps.of_eval (Keeps.forM fun _ _ => keepsRecords_exec _) h₂ hm₁).2.2.2
  -- the transitions' content keeps the selector the exits leave
  have hsel₂ : (w₂.session me).selector = sel₁ := by
    simp only [sel₁, h₁, Session.selector, hdoc₂, hconf₂, hhist₂]
  have hdoc : (w₂.session me).doc = sel₁.doc := congrArg Selector.doc hsel₂
  have hE := eval_enterStates hm₂ h₃
  rw [hdoc, hsel₂] at hE
  -- the exits and the content report no completion; the entries report what `reports` counts
  obtain ⟨-, Q₁, hq₁, hc₁⟩ := (World.contentOnly me).trans
    (Keeps.of_eval (contentOnly_exitStates ts) h₁)
    (Keeps.of_eval (Keeps.forM fun _ _ => contentOnly_exec me _) h₂) hm
  obtain ⟨Q₂, hq₂, hc₂⟩ := hE.raised
  refine ⟨?_, Q₁ ++ Q₂, by rw [hq₂, hq₁, List.append_assoc], fun id => ?_⟩
  · rw [← hsel₂]
    simp only [Session.selector, hE.doc, hE.configuration, hE.history]
    rfl
  · rw [List.countP_append, countP_isDoneState_eq_zero hc₁, Nat.zero_add, hc₂, hsel₂]

/-- A microstep on a session in order, firing transitions that may fire together, appends to the
internal queue one `done.state` of a parallel state of a compiled document whose regions are
compound if the state is incomplete once the exits are done and complete once the entries are,
and none otherwise. -/
theorem microstep_reports_completion_once {ds : DocumentSchema} {D : Document}
    (hb : ds.build = .ok D) (hDo : D.Orderly) {w w' : World} (hm : me < w.sessions.size)
    (hin : (w.session me).InOrder D) {ts : List Nat} (hf : (w.session me).selector.Fires ts)
    (h : eval (microstep me ts) w = (.ok (), w')) {G : Nat} (hG : D.isParallel G = true)
    (hR : ∀ R ∈ (D.state G).children, D.isCompound R = true) :
    ∃ Q, (w'.session me).internal = (w.session me).internal ++ Q ∧
      Q.countP (Event.isDoneState (D.name G)) =
        if ((eval (exitStates me ts) w).2.session me).selector.isInFinalState G = false ∧
          (w'.session me).selector.isInFinalState G = true then 1 else 0 := by
  have hs := DocumentSchema.shaped_of_build hb
  obtain ⟨hsel', Q, hq, hc⟩ := eval_microstep_reports hm h
  obtain ⟨w₁, -, h₁, -, -⟩ := eval_microstep_phases h
  obtain ⟨-, -, hdoc₁, hhist₁, hconf₁⟩ := eval_exitStates hm hin.nodup h₁
  rw [h₁] at hsel' hc ⊢
  dsimp only at hsel' hc ⊢
  -- after the microstep the session is in order: its configuration is legal
  have hIO' := (inOrder_fired hs hDo hm hin hf h).2
  have hdoc : (w₁.session me).selector.doc = D := hdoc₁.trans hin.doc
  have hmem : ∀ x, x ∈ ((w₁.session me).selector.configuration.union
      (sortBy (w₁.session me).selector.doc.entryCmp
        ((w₁.session me).selector.entrySet ts).states.items)).items ↔
      x ∈ (w'.session me).configuration.items := fun x => by
    rw [show (w'.session me).configuration = _ from congrArg Selector.configuration hsel']
  have hsel : (w.session me).selector.doc = D := hin.doc
  have ho : (w.session me).selector.Orderly :=
    ⟨by rw [hsel]; exact hs, by rw [hsel]; exact hDo, by rw [hsel]; exact hin.records⟩
  have ho₁ : (w₁.session me).selector.Orderly := by
    refine ⟨by rw [hdoc]; exact hs, by rw [hdoc]; exact hDo, ?_⟩
    rw [hdoc, show (w₁.session me).selector.history = (w'.session me).history from
      (congrArg Selector.history hsel').symm]
    exact hIO'.records
  have hL : (w.session me).selector.doc.Legal (w.session me).selector.configuration.items := by
    rw [hsel]
    exact hin.legal
  -- the entries are states of the document, each entered once and not active before
  have hG₁ : (w₁.session me).selector.doc.isParallel G = true := by rw [hdoc]; exact hG
  have hR₁ : ∀ R ∈ ((w₁.session me).selector.doc.state G).children,
      (w₁.session me).selector.doc.isCompound R = true := by rw [hdoc]; exact hR
  have hs₁ : (w₁.session me).selector.doc.Shaped := by rw [hdoc]; exact hs
  have hid : ∀ a b, a < (w₁.session me).selector.doc.size → b < (w₁.session me).selector.doc.size →
      (w₁.session me).selector.doc.name a = (w₁.session me).selector.doc.name b → a = b := by
    rw [hdoc]
    exact fun a b ha hb' => DocumentSchema.name_injective_of_build hb ha hb'
  have hcount := Selector.reports_name hG₁ hR₁ hs₁ hid
    (fun st hst => by
      rw [hdoc]
      exact (hIO'.legal.mem st ((hmem st).1 (OrderedSet.mem_union.2 (.inr hst)))).2.1)
    (nodup_sortBy ((w₁.session me).selector.nodup_entrySet ts))
    (fun st hst => hf.entered_not_kept ho hL ho₁ (hdoc.trans hsel.symm) hconf₁ (mem_sortBy.1 hst))
    (fun R hRG x hx y hy hxC hyC => by
      rw [hdoc] at hRG hx hy
      exact hIO'.legal.eq_of_mem_children hs (hR R hRG) hx hy ((hmem x).1 hxC) ((hmem y).1 hyC))
  refine ⟨Q, hq, ?_⟩
  rw [hc, ← hdoc, hcount, hsel']

end Engine


/-- A parallel state `G` whose region `R1` moves from `r1` to its final state `f1` on `E`, and
whose region `R2` starts in its final state `f2`. -/
def twoRegionChart : DocumentSchema :=
  { states := [
      { id := "G", kind := .parallel
        children := [
          { id := "R1"
            children := [
              { id := "r1", transitions := [{ events := ["E"], targets := ["f1"] }] },
              { id := "f1", kind := .final }] },
          { id := "R2", children := [{ id := "f2", kind := .final }] }] },
      { id := "out" }] }

/-- From the initial configuration of `twoRegionChart`, the move of `r1` to `f1` completes `G`, and
the microstep appends exactly one `done.state.G`. -/
theorem regionsCompleted_reported_once :
    twoRegionChart.Builds fun d =>
      let named (name : String) := (d.lookup name).getD 0
      let started := (Selector.entrySet ⟨d, {}, {}⟩ (d.state 0).initial.toList).states
      let move := ((d.state (named "r1")).transitions.head?).getD 0
      let s : Session :=
        { doc := d, config := { name := "main" }, mailbox := 0, configuration := started,
          status := .running }
      let w : World := { sessions := #[s], mailboxes := #[{}] }
      ∃ Q, ((Engine.eval (Engine.microstep 0 [move]) w).2.session 0).internal = s.internal ++ Q ∧
        Q.countP (Event.isDoneState (d.name (named "G"))) = 1 := by
  have hyps : twoRegionChart.Builds fun d =>
      let named (name : String) := (d.lookup name).getD 0
      let started := (Selector.entrySet ⟨d, {}, {}⟩ (d.state 0).initial.toList).states
      let move := ((d.state (named "r1")).transitions.head?).getD 0
      let s : Session :=
        { doc := d, config := { name := "main" }, mailbox := 0, configuration := started,
          status := .running }
      let w : World := { sessions := #[s], mailboxes := #[{}] }
      d.Orderly ∧ started.items.Nodup ∧ d.Legal started.items ∧
        named "r1" ∈ started.items ∧ d.isAtomic (named "r1") = true ∧
        move ∈ (d.state (named "r1")).transitions ∧
        (Engine.eval (Engine.microstep 0 [move]) w).1 = .ok () ∧
        d.isParallel (named "G") = true ∧
        (∀ R ∈ (d.state (named "G")).children, d.isCompound R = true) ∧
        ((Engine.eval (Engine.exitStates 0 [move]) w).2.session 0).selector.isInFinalState
          (named "G") = false ∧
        ((Engine.eval (Engine.microstep 0 [move]) w).2.session 0).selector.isInFinalState
          (named "G") = true := by
    decide +kernel
  refine hyps.imp fun d hb h => ?_
  obtain ⟨hDo, hnd, hL, hr1, hatomic, hmove, hok, hG, hR, hexit, hentry⟩ := h
  -- the active atomic state `r1` picks the move, so it may fire
  have hf := @Selector.fires_single ⟨d, (Selector.entrySet ⟨d, {}, {}⟩
    (d.state 0).initial.toList).states, {}⟩ _ _ ⟨hr1, hatomic, _, List.mem_cons_self, hmove⟩
  let s : Session :=
    { doc := d, config := { name := "main" }, mailbox := 0,
      configuration := (Selector.entrySet ⟨d, {}, {}⟩ (d.state 0).initial.toList).states,
      status := .running }
  obtain ⟨Q, hq, hc⟩ := Engine.microstep_reports_completion_once hb hDo
    (w := { sessions := #[s], mailboxes := #[{}] }) Nat.zero_lt_one
    ⟨rfl, HistoryTable.spreads_empty, hnd, hL⟩ hf (Prod.ext hok rfl) hG hR
  exact ⟨Q, hq, by rw [hc, if_pos ⟨hexit, hentry⟩]⟩


/-- A parallel state `G` whose region `R1` starts in its final state `f1` and whose region `R2` is
itself parallel, with regions `Q1`, moving from `q1` to its final state `qf1` on `E`, and `Q2`,
starting in its final state `qf2`; `G` is left for `out` when reported complete. -/
def nestedParallelChart : DocumentSchema :=
  { states := [
      { id := "G", kind := .parallel
        transitions := [{ events := ["done.state.G"], targets := ["out"] }]
        children := [
          { id := "R1", children := [{ id := "f1", kind := .final }] },
          { id := "R2", kind := .parallel
            children := [
              { id := "Q1"
                children := [
                  { id := "q1", transitions := [{ events := ["E"], targets := ["qf1"] }] },
                  { id := "qf1", kind := .final }] },
              { id := "Q2", children := [{ id := "qf2", kind := .final }] }] }] },
      { id := "out" }] }

/-- From the initial configuration of `nestedParallelChart`, the move of `q1` to `qf1` leaves `G`
incomplete once `q1` is exited and complete once `qf1` is entered, but it reports only `Q1` and
`R2` complete: `done.state.G` is never raised. -/
theorem nestedRegion_completion_unreported :
    nestedParallelChart.Builds fun d =>
      let named (name : String) := (d.lookup name).getD 0
      let started := (Selector.entrySet ⟨d, {}, {}⟩ (d.state 0).initial.toList).states
      let move := ((d.state (named "q1")).transitions.head?).getD 0
      let s : Session :=
        { doc := d, config := { name := "main" }, mailbox := 0, configuration := started,
          status := .running }
      let w : World := { sessions := #[s], mailboxes := #[{}] }
      let exited := (Engine.eval (Engine.exitStates 0 [move]) w).2.session 0
      let after := (Engine.eval (Engine.microstep 0 [move]) w).2.session 0
      started.items.map d.name = ["G", "R1", "f1", "R2", "Q1", "q1", "Q2", "qf2"] ∧
        exited.selector.isInFinalState (named "G") = false ∧
        after.selector.isInFinalState (named "G") = true ∧
        after.status = .running ∧
        after.internal.map Event.name = ["done.state.Q1", "done.state.R2"] := by
  decide +kernel

end Hsm
