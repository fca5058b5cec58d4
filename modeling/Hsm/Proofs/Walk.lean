import Hsm.Proofs.Layout
/-!
# Compiling walks the description in pre-order

Each step of compiling is specified by a triple over arenas (`Lowering.Triple`). The walk keeps
`Lowering.Walk C`, the layout with open chain `C` with fresh orders and the queue of default
entries, and, unless a problem was reported, adds the described states in pre-order
(`lowerState_walk`, `lowerEach_walk`, by mutual induction along the description).
-/

namespace Hsm

namespace StateSchema

mutual

def preorder : StateSchema → List StateSchema
  | s@⟨_, _, _, _, _, children, _, _, _, _, _⟩ => s :: preorderEach children

def preorderEach : List StateSchema → List StateSchema
  | [] => []
  | s :: ss => preorder s ++ preorderEach ss

end

theorem preorder_eq (s : StateSchema) : s.preorder = s :: preorderEach s.children := by
  cases s
  rw [preorder]

/-- What a description says of the state it becomes: its id and the mode of its kind. -/
def key (s : StateSchema) : String × StateMode := (s.id, Lowering.StateKind.mode s.kind)

theorem map_key_preorder (s : StateSchema) :
    s.preorder.map key = s.key :: (preorderEach s.children).map key := by
  rw [preorder_eq, List.map_cons]

end StateSchema

def DocumentSchema.preorder (ds : DocumentSchema) : List StateSchema :=
  StateSchema.preorderEach ds.states

/-- The mode a state was described with: a compound state was described as a plain one. -/
def StateMode.described : StateMode → StateMode
  | .compound => .atomic
  | m => m

def StateNode.key (n : StateNode) : String × StateMode := (n.id, n.mode.described)

theorem Lowering.StateKind.mode_ne_compound (k : StateKind) : Lowering.StateKind.mode k ≠ .compound := by
  cases k <;> simp [Lowering.StateKind.mode]

namespace Lowering
variable {α β : Type}

/-- From every arena satisfying `P`, the step ends in an arena satisfying `Q` of its result. -/
def Triple (P : Lowering → Prop) (x : StateM Lowering α) (Q : α → Lowering → Prop) : Prop :=
  ∀ l, P l → Q (x.run l).1 (x.run l).2

namespace Triple
variable {P P' : Lowering → Prop} {Q Q' : α → Lowering → Prop} {x : StateM Lowering α}

theorem conseq (h : Triple P x Q) (hP : ∀ l, P' l → P l) (hQ : ∀ a l, Q a l → Q' a l) :
    Triple P' x Q' := fun l hl => hQ _ _ (h l (hP l hl))

theorem pure {a : α} (h : ∀ l, P l → Q a l) : Triple P (Pure.pure a : StateM Lowering α) Q := h

theorem bind {f : α → StateM Lowering β} {S : β → Lowering → Prop} (hx : Triple P x Q)
    (hf : ∀ a, Triple (Q a) (f a) S) : Triple P (x >>= f) S := fun l hl => by
  rw [run_bind]
  exact hf _ _ (hx l hl)

theorem get_bind {f : Lowering → StateM Lowering β} {S : β → Lowering → Prop}
    (h : ∀ l₀, Triple (fun l => P l ∧ l = l₀) (f l₀) S) : Triple P (get >>= f) S :=
  fun l hl => h l l ⟨hl, rfl⟩

theorem of_eq (h : ∀ l₀, P l₀ → Triple (· = l₀) x Q) : Triple P x Q := fun l hl => h l hl l rfl

theorem modify {f : Lowering → Lowering} {Q : PUnit → Lowering → Prop} (h : ∀ l, P l → Q () (f l)) :
    Triple P (modify f) Q := h

theorem forM {I : Lowering → Prop} {as : List β} {f : β → StateM Lowering PUnit}
    (h : ∀ a ∈ as, Triple I (f a) fun _ => I) : Triple I (as.forM f) fun _ => I := by
  induction as with
  | nil => exact pure fun _ h => h
  | cons a as ih =>
    exact bind (h a List.mem_cons_self) fun _ => ih fun b hb => h b (List.mem_cons_of_mem _ hb)

end Triple

/-- Every document order taken so far: those of the states, then those of the transitions. -/
def orders (l : Lowering) : List Nat :=
  l.states.toList.map StateNode.order ++ l.transitions.toList.map TransitionNode.order

/-- The document orders taken so far increase with the state index, are never taken twice, and
lie below the counter. -/
structure Numbered (l : Lowering) : Prop where
  state_lt : ∀ {s s'}, s < s' → s' < l.document.size →
    (l.document.state s).order < (l.document.state s').order
  nodup : l.orders.Nodup
  lt_order : ∀ o ∈ l.orders, o < l.order

def keys (l : Lowering) : List (String × StateMode) := l.states.toList.map StateNode.key

/-- Unless a problem has been reported, the states added so far are those `X` describes. -/
def Described (X : List (String × StateMode)) (l : Lowering) : Prop := l.issues = #[] → l.keys = X

/-- What compiling keeps while the states `C` are open. -/
structure Walk (C : List Nat) (l : Lowering) : Prop where
  laid : l.document.Laid C
  numbered : l.Numbered
  initial_none : ∀ s, (l.document.state s).initial = none
  /-- The default entries still to make are those of the compound states. -/
  pending_iff : ∀ s, s ∈ l.pendingInitial.toList.map PendingInitial.state ↔
    s < l.document.size ∧ (l.document.state s).mode = .compound
  pending_ids : ∀ e ∈ l.pendingInitial.toList, ∀ names, e.rule = .ids names → names ≠ []

theorem map_toList_modify_at {δ γ : Type} (xs : Array δ) (s : Nat) (f : δ → δ)
    (g : δ → γ) (h : ∀ hs : s < xs.size, g (f xs[s]) = g xs[s]) :
    (xs.modify s f).toList.map g = xs.toList.map g := by
  apply List.ext_getElem (by simp)
  intro i h₁ h₂
  simp only [List.getElem_map, Array.getElem_toList, Array.getElem_modify]
  split
  · rename_i hi
    subst hi
    exact h (by simpa using h₂)
  · rfl

theorem map_toList_modify {δ γ : Type} (xs : Array δ) (s : Nat) (f : δ → δ)
    (g : δ → γ) (h : ∀ m, g (f m) = g m) :
    (xs.modify s f).toList.map g = xs.toList.map g :=
  map_toList_modify_at xs s f g fun _ => h _

theorem Described.of_issues {X : List (String × StateMode)} {l : Lowering} (h : l.issues ≠ #[]) :
    Described X l := fun h' => absurd h' h

theorem Described.of_eq {X : List (String × StateMode)} {l l' : Lowering} (hd : Described X l)
    (hs : l'.keys = l.keys) (hi : l'.issues = l.issues) : Described X l' := fun h => by
  rw [hs]
  exact hd (hi ▸ h)

theorem Numbered.of_eq {l l' : Lowering} (h : l.Numbered) (hs : l'.states = l.states)
    (ht : l'.transitions.toList.map TransitionNode.order = l.transitions.toList.map TransitionNode.order)
    (ho : l.order ≤ l'.order) : l'.Numbered := by
  have hst : ∀ s, l'.document.state s = l.document.state s := fun s => by
    simp [document, Document.state, hs]
  have hsz : l'.document.size = l.document.size := by simp [document, Document.size, hs]
  have horders : l'.orders = l.orders := by simp only [orders, hs, ht]
  refine ⟨fun hss' hs' => ?_, horders ▸ h.nodup, fun o ho' => ?_⟩
  · rw [hst, hst]
    exact h.state_lt hss' (hsz ▸ hs')
  · rw [horders] at ho'
    exact Nat.lt_of_lt_of_le (h.lt_order o ho') ho

namespace Walk
variable {C : List Nat} {l l' : Lowering}

/-- A step that touches neither the states, nor the orders of the transitions, nor the queue of
default entries, and lets the counter grow, keeps the walk. -/
theorem of_eq (hw : Walk C l) (hs : l'.states = l.states)
    (ht : l'.transitions.toList.map TransitionNode.order = l.transitions.toList.map TransitionNode.order)
    (hp : l'.pendingInitial = l.pendingInitial) (ho : l.order ≤ l'.order) : Walk C l' := by
  have hst : ∀ s, l'.document.state s = l.document.state s := fun s => by
    simp [document, Document.state, hs]
  have hsz : l'.document.size = l.document.size := by simp [document, Document.size, hs]
  exact ⟨hw.laid.of_layout hsz fun s => by rw [hst], hw.numbered.of_eq hs ht ho,
    fun s => by rw [hst]; exact hw.initial_none s,
    fun s => by rw [hp, hst, hsz]; exact hw.pending_iff s, by rw [hp]; exact hw.pending_ids⟩

end Walk

theorem nextOrder_run (l : Lowering) : nextOrder.run l = (l.order, { l with order := l.order + 1 }) :=
  rfl

theorem nextOrder_walk {C : List Nat} {X : List (String × StateMode)} :
    Triple (fun l => Walk C l ∧ Described X l) nextOrder
      (fun o l => Walk C l ∧ Described X l ∧ l.order = o + 1 ∧ ∀ x ∈ l.orders, x < o) := by
  intro l ⟨hw, hx⟩
  rw [nextOrder_run]
  exact ⟨hw.of_eq rfl rfl rfl (Nat.le_succ _), hx.of_eq rfl rfl, rfl, hw.numbered.lt_order⟩

theorem report_run (i : Issue) (l : Lowering) :
    (report i).run l = ((), { l with issues := l.issues.push i }) := rfl

theorem report_walk {C : List Nat} (i : Issue) :
    Triple (Walk C) (report i) (fun _ l => Walk C l ∧ ∀ X, Described X l) := by
  intro l hw
  rw [report_run]
  exact ⟨hw.of_eq rfl rfl rfl (Nat.le_refl _), fun _ => Described.of_issues (by simp)⟩

theorem report_pure_walk {C : List Nat} {Q : Lowering → Prop} {X : List (String × StateMode)}
    (i : Issue) (a : α) :
    Triple (fun l => Walk C l ∧ Q l) (report i >>= fun _ => Pure.pure a)
      (fun _ l => Walk C l ∧ Described X l) :=
  Triple.bind ((report_walk i).conseq (fun _ h => h.1) fun _ _ h => h) fun _ =>
    Triple.pure fun _ h => ⟨h.1, h.2 X⟩

/-- Problems with a state's id are reported before going on: the first check that fails is
reported, and nothing else changes. -/
theorem Triple.check_cases (l₀ : Lowering) {c₁ c₂ : Prop} [Decidable c₁] [Decidable c₂]
    {i₁ i₂ : Issue} {jp : PUnit → StateM Lowering β} {S : β → Lowering → Prop}
    (h : ∀ is : Array Issue, (is = l₀.issues ∧ ¬ c₁ ∧ ¬ c₂) ∨ (is = l₀.issues.push i₁ ∧ c₁) ∨
      (is = l₀.issues.push i₂ ∧ c₂) → Triple (· = { l₀ with issues := is }) (jp ()) S) :
    Triple (· = l₀) (if c₁ then report i₁ >>= jp else if c₂ then report i₂ >>= jp else jp ()) S := by
  intro l hl
  subst hl
  split
  · rename_i h₁
    rw [run_bind, report_run]
    exact h _ (.inr (.inl ⟨rfl, h₁⟩)) _ rfl
  · rename_i h₁
    split
    · rename_i h₂
      rw [run_bind, report_run]
      exact h _ (.inr (.inr ⟨rfl, h₂⟩)) _ rfl
    · rename_i h₂
      exact h l.issues (.inl ⟨rfl, h₁, h₂⟩) _ rfl

theorem Triple.check (l₀ : Lowering) {c₁ c₂ : Prop} [Decidable c₁] [Decidable c₂] {i₁ i₂ : Issue}
    {jp : PUnit → StateM Lowering β} {S : β → Lowering → Prop}
    (h : ∀ is : Array Issue, (is = #[] → l₀.issues = #[]) →
      Triple (· = { l₀ with issues := is }) (jp ()) S) :
    Triple (· = l₀) (if c₁ then report i₁ >>= jp else if c₂ then report i₂ >>= jp else jp ()) S :=
  Triple.check_cases l₀ fun is his => h is fun hnil => by
    rcases his with ⟨rfl, -⟩ | ⟨rfl, -⟩ | ⟨rfl, -⟩
    · exact hnil
    · simp at hnil
    · simp at hnil

theorem state_mem_states {l : Lowering} {s : Nat} (h : s < l.document.size) :
    l.document.state s ∈ l.states.toList := by
  have hs : s < l.states.size := h
  simp only [Document.state, Lowering.document, Array.getD_eq_getD_getElem?, Array.getElem?_eq_getElem hs,
    Option.getD_some]
  exact Array.getElem_mem_toList hs

/-- Changing a state without touching its order keeps the orders fresh. -/
theorem Numbered.modify_states {l : Lowering} (h : l.Numbered) {s : Nat} {f : StateNode → StateNode}
    (hf : ∀ m, (f m).order = m.order) : ({ l with states := l.states.modify s f } : Lowering).Numbered := by
  have horder : ∀ t, (({ l with states := l.states.modify s f } : Lowering).document.state t).order =
      (l.document.state t).order := fun t => by
    rw [show (({ l with states := l.states.modify s f } : Lowering).document.state t) = _ from
      Document.state_modify l.document s f t]
    split
    · rename_i h
      rw [hf, h.1]
    · rfl
  have horders : ({ l with states := l.states.modify s f } : Lowering).orders = l.orders := by
    simp only [orders]
    rw [map_toList_modify _ _ _ _ hf]
  refine ⟨fun hss' hs' => ?_, horders ▸ h.nodup, fun o ho => h.lt_order o (horders ▸ ho)⟩
  rw [horder, horder]
  exact h.state_lt hss' (by simpa [document, Document.size] using hs')

/-- Adding a transition with the next document order keeps the orders fresh. -/
theorem Numbered.push_transition {l : Lowering} (h : l.Numbered) (n : TransitionNode)
    (hn : n.order = l.order) :
    ({ l with order := l.order + 1, transitions := l.transitions.push n } : Lowering).Numbered := by
  have horders : ({ l with order := l.order + 1, transitions := l.transitions.push n } :
      Lowering).orders = l.orders ++ [l.order] := by
    simp [orders, hn]
  have hfresh : l.order ∉ l.orders := fun h' => Nat.lt_irrefl _ (h.lt_order _ h')
  refine ⟨h.state_lt, ?_, fun o ho => ?_⟩
  · rw [horders, List.nodup_append]
    exact ⟨h.nodup, List.nodup_singleton _, fun a ha b hb => by
      rw [List.mem_singleton.1 hb]
      exact fun h' => hfresh (h' ▸ ha)⟩
  · rw [horders] at ho
    rcases List.mem_append.1 ho with ho | ho
    · exact Nat.lt_succ_of_lt (h.lt_order o ho)
    · rw [List.mem_singleton.1 ho]
      exact Nat.lt_succ_self _

namespace Walk
variable {C R : List Nat} {p : Nat} {l : Lowering}

/-- Changing a state without touching its layout, its default entry or its order keeps the walk. -/
theorem modify_states (hw : Walk C l) {s : Nat} {f : StateNode → StateNode}
    (hf : ∀ m, (f m).layout = m.layout ∧ (f m).initial = m.initial ∧ (f m).order = m.order) :
    Walk C { l with states := l.states.modify s f } := by
  have hst : ∀ t, ({ l with states := l.states.modify s f } : Lowering).document.state t =
      if t = s ∧ s < l.document.size then f (l.document.state s) else l.document.state t :=
    fun t => Document.state_modify l.document s f t
  have hsz : ({ l with states := l.states.modify s f } : Lowering).document.size =
      l.document.size := by simp [document, Document.size]
  have hlay : ∀ t, (({ l with states := l.states.modify s f } : Lowering).document.state t).layout =
      (l.document.state t).layout := fun t => by
    rw [hst]
    split
    · rename_i h
      rw [(hf _).1, h.1]
    · rfl
  have hmode : ∀ t, (({ l with states := l.states.modify s f } : Lowering).document.state t).mode =
      (l.document.state t).mode := fun t => congrArg StateLayout.mode (hlay t)
  refine ⟨hw.laid.of_layout hsz hlay, hw.numbered.modify_states fun m => (hf m).2.2, fun t => ?_,
    fun t => ?_, hw.pending_ids⟩
  · rw [hst]
    split
    · rw [(hf _).2.1]
      exact hw.initial_none s
    · exact hw.initial_none t
  · rw [hsz, hmode]
    exact hw.pending_iff t

theorem push_transition (hw : Walk C l) (n : TransitionNode) (hn : n.order = l.order)
    (pt : Array (Nat × List String)) :
    Walk C { l with order := l.order + 1, transitions := l.transitions.push n, pendingTargets := pt } :=
  ⟨hw.laid.of_layout rfl fun _ => rfl, (hw.numbered.push_transition n hn).of_eq rfl rfl (Nat.le_refl _),
    hw.initial_none, hw.pending_iff, hw.pending_ids⟩

/-- Adding a state below the nearest open state `p`, with a fresh document order, and listing it
there keeps the walk. -/
theorem enter (hw : Walk (p :: R) l) {node : StateNode} {o : Nat} (hpar : node.parent = some p)
    (hdepth : node.depth = (l.document.state p).depth + 1)
    (hanc : node.ancestors = p :: (l.document.state p).ancestors)
    (hdesc : node.descendants = []) (hch : node.children = []) (hhist : node.history = [])
    (hinit : node.initial = none) (hmode : node.mode ≠ .compound) (horder : node.order = o)
    (hfresh : ∀ x ∈ l.orders, x < o) (hcounter : l.order = o + 1) :
    Walk (p :: R) { l with
      states := (l.states.push node).modify p (StateNode.adopt node.mode.isHistory l.states.size) } := by
  have hp := (hw.laid.chain_eq rfl).1
  have hdoc : ({ l with
      states := (l.states.push node).modify p (StateNode.adopt node.mode.isHistory l.states.size) } :
      Lowering).document = l.document.enter node p := rfl
  have hsz : l.document.size = l.states.size := rfl
  -- the orders of the states, with the new one last
  have hstorders : ((l.states.push node).modify p
      (StateNode.adopt node.mode.isHistory l.states.size)).toList.map StateNode.order =
      l.states.toList.map StateNode.order ++ [o] := by
    rw [map_toList_modify _ _ _ _ fun m => StateNode.adopt_order _ _ m]
    simp [horder]
  have hfresh' : o ∉ l.orders := fun h => Nat.lt_irrefl _ (hfresh o h)
  refine ⟨hdoc ▸ hw.laid.enter hpar hdepth hanc hdesc hch hhist hmode, ⟨?_, ?_, ?_⟩, ?_, ?_,
    hw.pending_ids⟩
  · intro s s' hss' hs'
    rw [hdoc] at hs' ⊢
    rw [Document.size_enter] at hs'
    have hsN : s ≠ l.document.size := by omega
    rw [Document.state_enter_old hp hsN]
    by_cases hs'N : s' = l.document.size
    · rw [hs'N, Document.state_enter_new hp, horder]
      refine hfresh _ (List.mem_append_left _ (List.mem_map.2 ⟨l.document.state s, ?_, ?_⟩))
      · exact state_mem_states (by omega)
      · split <;> simp_all
    · rw [Document.state_enter_old hp hs'N]
      have h := hw.numbered.state_lt hss' (by omega : s' < l.document.size)
      split <;> split <;> simp_all
  · simp only [orders]
    rw [hstorders, List.append_assoc, List.singleton_append, List.nodup_middle, List.nodup_cons]
    exact ⟨hfresh', hw.numbered.nodup⟩
  · intro x hx
    simp only [orders] at hx
    rw [hstorders, List.append_assoc, List.singleton_append, List.mem_append, List.mem_cons] at hx
    rw [hcounter]
    rcases hx with hx | rfl | hx
    · exact Nat.lt_succ_of_lt (hfresh x (List.mem_append_left _ hx))
    · exact Nat.lt_succ_self _
    · exact Nat.lt_succ_of_lt (hfresh x (List.mem_append_right _ hx))
  · intro s
    rw [hdoc]
    by_cases hsN : s = l.document.size
    · rw [hsN, Document.state_enter_new hp]
      exact hinit
    · rw [Document.state_enter_old hp hsN]
      split
      · rw [StateNode.adopt_initial]
        exact hw.initial_none p
      · exact hw.initial_none s
  · intro s
    rw [hdoc, Document.size_enter]
    by_cases hsN : s = l.document.size
    · rw [hsN, Document.state_enter_new hp]
      refine ⟨fun h => ?_, fun h => absurd h.2 hmode⟩
      exact absurd ((hw.pending_iff _).1 h).1 (Nat.lt_irrefl _)
    · rw [Document.state_enter_old hp hsN, hw.pending_iff s]
      have hmode_s : (if s = p then (l.document.state p).adopt node.mode.isHistory l.document.size
          else l.document.state s).mode = (l.document.state s).mode := by
        split
        · rename_i h
          rw [StateNode.adopt_mode, h]
        · rfl
      rw [hmode_s]
      constructor
      · exact fun h => ⟨Nat.lt_succ_of_lt h.1, h.2⟩
      · exact fun h => ⟨by omega, h.2⟩

theorem descend (hw : Walk C l) {n : Nat}
    (hn : n + 1 = l.document.size) (hC : C = (l.document.state n).ancestors)
    (hmode : (l.document.state n).mode = .atomic ∨ (l.document.state n).mode = .parallel) :
    Walk (n :: C) l :=
  { hw with laid := hw.laid.descend hn hC hmode }

end Walk

def layouts (l : Lowering) : List StateLayout := l.states.toList.map StateNode.layout

theorem keys_eq_layouts (l : Lowering) :
    l.keys = l.layouts.map fun L => (L.id, L.mode.described) := by
  simp only [keys, layouts, List.map_map]
  rfl

theorem layouts_modify (l : Lowering) {s : Nat} {f : StateNode → StateNode}
    (hf : ∀ m, (f m).layout = m.layout) :
    ({ l with states := l.states.modify s f } : Lowering).layouts = l.layouts :=
  map_toList_modify _ _ _ _ hf

theorem size_eq_of_layouts {l l' : Lowering} (h : l.layouts = l'.layouts) :
    l.document.size = l'.document.size := by
  simpa [layouts, document, Document.size] using congrArg List.length h

theorem layout_eq_of_layouts {l l' : Lowering} (h : l.layouts = l'.layouts) (s : Nat) :
    (l.document.state s).layout = (l'.document.state s).layout := by
  have h' := congrArg (·[s]?) h
  simp only [layouts, List.getElem?_map, Array.getElem?_toList] at h'
  simp only [document, Document.state, Array.getD_eq_getD_getElem?]
  cases h₁ : l.states[s]? <;> cases h₂ : l'.states[s]? <;> simp_all

theorem lowerTransition_run (source : Nat) (t : TransitionSchema) (l : Lowering) :
    (lowerTransition source t).run l = ((), { l with
      order := l.order + 1
      transitions := l.transitions.push
        { source, targets := [], events := t.events, kind := t.kind, cond := t.cond,
          content := t.content, order := l.order }
      pendingTargets := l.pendingTargets.push (l.transitions.size, t.targets)
      states := l.states.modify source fun n =>
        { n with transitions := n.transitions ++ [l.transitions.size] } }) := rfl

theorem lowerInvoke_run (state : Nat) (i : InvokeSchema) (l : Lowering) :
    (lowerInvoke state i).run l = ((), { l with
      order := l.order + 1
      invokes := l.invokes.push
        { id := i.id, source := i.source, autoforward := i.autoforward, finalize := i.finalize,
          childData := i.childData, state }
      states := l.states.modify state fun n => { n with invokes := n.invokes ++ [l.invokes.size] } }) :=
  rfl

/-- Adding a transition keeps the walk, what has been described, and every state's layout. -/
theorem lowerTransition_walk {C : List Nat} {X : List (String × StateMode)} {LL : List StateLayout}
    (source : Nat) (t : TransitionSchema) :
    Triple (fun l => Walk C l ∧ Described X l ∧ l.layouts = LL) (lowerTransition source t)
      (fun _ l => Walk C l ∧ Described X l ∧ l.layouts = LL) := by
  intro l ⟨hw, hx, hL⟩
  rw [lowerTransition_run]
  have hL' := layouts_modify ({ l with
      order := l.order + 1
      transitions := l.transitions.push
        { source, targets := [], events := t.events, kind := t.kind, cond := t.cond,
          content := t.content, order := l.order }
      pendingTargets := l.pendingTargets.push (l.transitions.size, t.targets) })
    (s := source) (f := fun n => { n with transitions := n.transitions ++ [l.transitions.size] })
    fun _ => rfl
  refine ⟨(hw.push_transition _ rfl _).modify_states fun _ => ⟨rfl, rfl, rfl⟩,
    hx.of_eq ?_ rfl, hL'.trans hL⟩
  rw [keys_eq_layouts, keys_eq_layouts, hL']
  rfl

/-- Adding an invocation keeps the walk, what has been described, and every state's layout. -/
theorem lowerInvoke_walk {C : List Nat} {X : List (String × StateMode)} {LL : List StateLayout}
    (state : Nat) (i : InvokeSchema) :
    Triple (fun l => Walk C l ∧ Described X l ∧ l.layouts = LL) (lowerInvoke state i)
      (fun _ l => Walk C l ∧ Described X l ∧ l.layouts = LL) := by
  intro l ⟨hw, hx, hL⟩
  rw [lowerInvoke_run]
  have hL' := layouts_modify ({ l with
      order := l.order + 1
      invokes := l.invokes.push
        { id := i.id, source := i.source, autoforward := i.autoforward, finalize := i.finalize,
          childData := i.childData, state } })
    (s := state) (f := fun n => { n with invokes := n.invokes ++ [l.invokes.size] }) fun _ => rfl
  refine ⟨(hw.of_eq rfl rfl rfl (Nat.le_succ _) :
    Walk C { l with order := l.order + 1, invokes := _ }).modify_states fun _ => ⟨rfl, rfl, rfl⟩,
    hx.of_eq ?_ rfl, hL'.trans hL⟩
  rw [keys_eq_layouts, keys_eq_layouts, hL']
  rfl

def queueInitial (l : Lowering) (n : Nat) (content : List Command) : Option InitialRule → Lowering
  | some rule => { l with pendingInitial := l.pendingInitial.push ⟨n, rule, content⟩ }
  | none => l

def closeNode (l : Lowering) (n : Nat) (m : StateNode) : StateNode :=
  { m with
    descendants := (l.document.state n).children.flatMap fun c => c :: (l.document.state c).descendants
    mode := Document.closedMode (l.document.state n).mode (l.document.state n).children }

theorem key_closeNode (l : Lowering) (n : Nat) (m : StateNode) (hm : m.mode = (l.document.state n).mode) :
    (closeNode l n m).key = m.key := by
  simp only [closeNode, StateNode.key, Document.closedMode, hm]
  split
  · rename_i h
    simp only [Bool.and_eq_true, beq_iff_eq] at h
    rw [h.1]
    rfl
  · rfl

theorem keys_close (l : Lowering) (n : Nat) :
    ({ l with states := l.states.modify n (closeNode l n) } : Lowering).keys = l.keys :=
  map_toList_modify_at _ _ _ _ fun hs => key_closeNode l n _ (by
    simp [Lowering.document, Document.state, Array.getD_eq_getD_getElem?, Array.getElem?_eq_getElem hs])

namespace Walk
variable {C : List Nat} {n : Nat} {l : Lowering}

/-- Closing the nearest open state and queueing its default entry, exactly when it became compound,
keeps the walk with the open states above it. -/
theorem close (hw : Walk (n :: C) l) {r : Option InitialRule} (content : List Command)
    (hr : r.isSome = true ↔
      Document.closedMode (l.document.state n).mode (l.document.state n).children = .compound)
    (hids : ∀ names, r = some (.ids names) → names ≠ []) :
    Walk C (queueInitial { l with states := l.states.modify n (closeNode l n) } n content r) := by
  have hn := (hw.laid.chain_eq rfl).1
  have hst : ∀ t, (queueInitial { l with states := l.states.modify n (closeNode l n) } n content
      r).document.state t = if t = n then closeNode l n (l.document.state n) else l.document.state t :=
    fun t => by
      have h := Document.state_modify l.document n (closeNode l n) t
      cases r <;>
      · by_cases ht : t = n
        · rw [if_pos ⟨ht, hn⟩] at h
          rw [if_pos ht]
          exact h
        · rw [if_neg fun h => ht h.1] at h
          rw [if_neg ht]
          exact h
  have hsz : (queueInitial { l with states := l.states.modify n (closeNode l n) } n content
      r).document.size = l.document.size := by
    cases r <;> simp [queueInitial, document, Document.size]
  -- `n` was not queued while open: it was not compound
  have hn_not : n ∉ l.pendingInitial.toList.map PendingInitial.state := fun h => by
    have hc := ((hw.pending_iff n).1 h).2
    rcases hw.laid.open_mode List.mem_cons_self with h' | h' <;> rw [h'] at hc <;> cases hc
  have hqueue : (queueInitial { l with states := l.states.modify n (closeNode l n) } n content
      r).pendingInitial.toList = l.pendingInitial.toList ++
        (r.map fun rule => (⟨n, rule, content⟩ : PendingInitial)).toList := by
    cases r <;> simp [queueInitial]
  have hnum : (queueInitial { l with states := l.states.modify n (closeNode l n) } n content
      r).Numbered := by
    have h := hw.numbered.modify_states (s := n) (f := closeNode l n) fun _ => rfl
    cases r <;> exact h.of_eq rfl rfl (Nat.le_refl _)
  refine ⟨?_, hnum, fun t => ?_, fun t => ?_, fun e he names hnames => ?_⟩
  · cases r <;> exact hw.laid.close
  · rw [hst]
    split
    · exact hw.initial_none n
    · exact hw.initial_none t
  · rw [hsz, hst, hqueue, List.map_append, List.mem_append]
    by_cases ht : t = n
    · subst ht
      rw [if_pos rfl]
      simp only [closeNode]
      cases r <;> simp [hn_not, hn] at hr ⊢ <;> exact hr
    · rw [if_neg ht, ← hw.pending_iff]
      cases r <;> simp [ht]
  · rw [hqueue] at he
    rcases List.mem_append.1 he with he | he
    · exact hw.pending_ids e he names hnames
    · cases r with
      | none => cases he
      | some rule =>
        simp only [Option.map_some, Option.toList_some, List.mem_singleton] at he
        rw [he] at hnames
        exact hids names (congrArg some hnames)

end Walk

/-- Closing a state: it becomes compound exactly when it is an atomic state with children, and
its default entry is queued exactly then, with its explicit targets if it has any, or else its
child marked initial, or else its first child. -/
theorem finishChildren_walk (n : Nat) (explicit : List String) (marked : Option Nat) {C : List Nat}
    {X : List (String × StateMode)} :
    Triple (fun l => Walk (n :: C) l ∧ Described X l) (finishChildren n explicit marked)
      (fun r l => ∀ content, Walk C (queueInitial l n content r) ∧ Described X l) := by
  unfold finishChildren
  refine Triple.get_bind fun l₀ => ?_
  lift_lets
  intro node descendants mode
  refine Triple.bind (Q := fun _ l => Walk (n :: C) l₀ ∧ Described X l₀ ∧
    l = { l₀ with states := l₀.states.modify n (closeNode l₀ n) }) (fun l ⟨⟨hw, hx⟩, hl⟩ => ?_) fun _ => ?_
  · subst hl
    exact ⟨hw, hx, rfl⟩
  · refine Triple.of_eq fun l₁ ⟨hw, hx, hl₁⟩ => ?_
    subst hl₁
    have hmode : mode = Document.closedMode (l₀.document.state n).mode (l₀.document.state n).children := rfl
    have hx' : Described X { l₀ with states := l₀.states.modify n (closeNode l₀ n) } :=
      hx.of_eq (keys_close l₀ n) rfl
    split
    · rename_i hnc
      have hnone : ∀ content, Walk C (queueInitial
          { l₀ with states := l₀.states.modify n (closeNode l₀ n) } n content none) :=
        fun content => hw.close content (by simpa [hmode] using hnc) (fun _ h => by cases h)
      split
      · refine Triple.bind (Q := fun _ l => l = { l₀ with
            states := l₀.states.modify n (closeNode l₀ n)
            issues := l₀.issues.push (.initialOnNonCompound node.id) }) (fun l hl => by subst hl; rfl)
          fun _ => Triple.pure fun l hl content => ?_
        subst hl
        exact ⟨(hnone content).of_eq rfl rfl rfl (Nat.le_refl _), Described.of_issues (by simp)⟩
      · exact Triple.pure fun l hl content => by
          subst hl
          exact ⟨hnone content, hx'⟩
    · rename_i hc
      have hc' : Document.closedMode (l₀.document.state n).mode (l₀.document.state n).children =
          .compound := by simpa [hmode] using hc
      split
      · rename_i hne
        refine Triple.pure fun l hl content => ?_
        subst hl
        refine ⟨hw.close content (by simp [hc']) fun names h => ?_, hx'⟩
        cases h
        simpa using hne
      · refine Triple.pure fun l hl content => ?_
        subst hl
        -- a compound state has children, so it has a first child to enter
        have hch : (l₀.document.state n).children ≠ [] :=
          Document.children_ne_nil_of_closedMode hc' (by
            rcases hw.laid.open_mode List.mem_cons_self with h | h <;> rw [h] <;> simp)
        have hsome : (marked <|> node.children.head?).isSome = true := by
          obtain ⟨c, cs, hcs⟩ := List.exists_cons_of_ne_nil hch
          show (marked <|> (l₀.document.state n).children.head?).isSome = true
          rw [hcs]
          cases marked <;> rfl
        refine ⟨hw.close content ?_ fun names h => ?_, hx'⟩
        · simp only [Option.isSome_map, hsome, hc']
        · generalize (marked <|> node.children.head?) = x at h
          cases x <;> simp at h

theorem adopt_walk {p : Nat} {R : List Nat} {X : List (String × StateMode)} {l : Lowering} {o : Nat}
    (hw : Walk (p :: R) l) (hx : Described X l) (hord : l.order = o + 1)
    (hfresh : ∀ x ∈ l.orders, x < o) {iss : Array Issue} (his : iss = #[] → l.issues = #[])
    (sid : String) {m : StateMode} (hm : m ≠ .compound) (en ex : List Command)
    (dd : Option Json.Value) :
    let node : StateNode :=
      { id := sid, mode := m, order := o, depth := (l.document.state p).depth + 1,
        parent := some p, ancestors := p :: (l.document.state p).ancestors, onEntry := en,
        onExit := ex, doneData := dd }
    Triple (· = { l with issues := iss, states := l.states.push node })
      (modifyNode p (StateNode.adopt m.isHistory l.states.size))
      (fun _ l' => Walk (p :: R) l' ∧ Described (X ++ [(sid, m.described)]) l' ∧
        l'.document = l.document.enter node p) := by
  intro node
  refine Triple.modify fun l' hl' => ?_
  subst hl'
  refine ⟨(hw.enter rfl rfl rfl rfl rfl rfl rfl hm rfl hfresh hord).of_eq rfl rfl rfl (Nat.le_refl _),
    fun h => ?_, rfl⟩
  simp only [keys]
  rw [map_toList_modify _ _ _ _ fun m => by simp [StateNode.key]]
  simp [← hx (his h), keys, node, StateNode.key]

theorem Triple.edges {C : List Nat} {X : List (String × StateMode)} {l₀ : Lowering}
    (hw : Walk C l₀) (hx : Described X l₀) (s : Nat) (ts : List TransitionSchema)
    (is : List InvokeSchema) {f : PUnit → StateM Lowering β} {S : β → Lowering → Prop}
    (h : Triple (fun l => Walk C l ∧ Described X l ∧ l.layouts = l₀.layouts) (f ()) S) :
    Triple (· = l₀) (ts.forM (lowerTransition s) >>= fun _ => is.forM (lowerInvoke s) >>= f) S :=
  (Triple.bind (Triple.forM fun t _ => lowerTransition_walk s t) fun _ =>
    Triple.bind (Triple.forM fun i _ => lowerInvoke_walk s i) fun _ => h).conseq
    (fun l hl => by subst hl; exact ⟨hw, hx, rfl⟩) fun _ _ h => h

mutual

theorem lowerState_walk (p : Nat) (R : List Nat) :
    ∀ (sch : StateSchema) (X : List (String × StateMode)),
    Triple (fun l => Walk (p :: R) l ∧ Described X l) (lowerState p sch)
      (fun _ l => Walk (p :: R) l ∧ Described (X ++ sch.preorder.map StateSchema.key) l)
  | ⟨sid, kind, im, it, ic, ch, ts, is, en, ex, dd⟩, X => by
    rw [lowerState, StateSchema.map_key_preorder]
    refine Triple.bind nextOrder_walk fun order => Triple.get_bind fun l₀ => ?_
    refine Triple.of_eq fun l₁ ⟨⟨hw, hx, hord, hfresh⟩, hl⟩ => ?_
    subst hl
    lift_lets
    intro id pnode mode
    have hp := (hw.laid.chain_eq rfl)
    refine Triple.check l₁ fun iss his => ?_
    dsimp -zeta only
    refine Triple.bind (Q := fun _ l => l = { l₁ with
        issues := iss
        states := l₁.states.push
          { id := sid, mode := mode, order := order, depth := pnode.depth + 1,
            parent := some p, ancestors := p :: pnode.ancestors, onEntry := en,
            onExit := ex, doneData := dd } })
      (fun l hl => by subst hl; rfl) fun _ => ?_
    cases kind with
    | state | parallel =>
      refine Triple.bind (adopt_walk hw hx hord hfresh his sid (StateKind.mode_ne_compound _) en ex dd)
        fun _ => Triple.of_eq fun l₂ h₂ => ?_
      obtain ⟨hw₂, hx₂, hd₂⟩ := h₂
      refine Triple.edges hw₂ hx₂ id ts is ?_
      -- the new state, now last, is opened and its children compiled below it
      have hsz₂ : l₂.document.size = id + 1 := by rw [hd₂, Document.size_enter]; rfl
      have hnew₂ := congrArg StateNode.layout (hd₂ ▸ Document.state_enter_new hp.1 : l₂.document.state id = _)
      refine Triple.bind ((lowerEach_walk id (p :: R) ch _).conseq
        (fun l ⟨hw₃, hx₃, hL₃⟩ => ⟨hw₃.descend ?_ ?_ ?_, hx₃⟩) fun _ _ h => h) fun marked => ?_
      · rw [size_eq_of_layouts hL₃, hsz₂]
      · rw [hp.2]
        exact (congrArg StateLayout.ancestors ((layout_eq_of_layouts hL₃ id).trans hnew₂)).symm
      · have h := congrArg StateLayout.mode ((layout_eq_of_layouts hL₃ id).trans hnew₂)
        simp only [StateNode.layout, StateKind.mode] at h
        simp [h]
      refine Triple.bind (finishChildren_walk id it marked) fun r => ?_
      cases r with
      | none =>
        exact Triple.pure fun l h => ⟨(h ic).1, by
          simpa [StateSchema.key, StateKind.mode, StateMode.described] using (h ic).2⟩
      | some rule =>
        refine Triple.of_eq fun l h => ?_
        refine Triple.bind (Q := fun _ l' => l' = queueInitial l id ic (some rule))
          (Triple.modify fun _ hl => by subst hl; rfl) fun _ => Triple.pure fun l' hl' => ?_
        subst hl'
        exact ⟨(h ic).1, Described.of_eq (l := l) (by
          simpa [StateSchema.key, StateKind.mode, StateMode.described] using (h ic).2) rfl rfl⟩
    | final | history k =>
      refine Triple.bind (adopt_walk hw hx hord hfresh his sid (StateKind.mode_ne_compound _) en ex dd)
        fun _ => Triple.of_eq fun l₂ h₂ => ?_
      obtain ⟨hw₂, hx₂, -⟩ := h₂
      refine Triple.edges hw₂ hx₂ id ts is ?_
      -- a final state or a history pseudo-state has nothing below it
      dsimp only [mode, StateKind.mode]
      split
      · exact report_pure_walk _ _
      · split
        · exact report_pure_walk _ _
        · rename_i hch _
          obtain rfl : ch = [] := by simpa using hch
          exact Triple.pure fun l h => ⟨h.1, by
            simpa [StateSchema.key, StateSchema.preorderEach, StateKind.mode, StateMode.described]
              using h.2.1⟩

theorem lowerEach_walk (p : Nat) (R : List Nat) :
    ∀ (cs : List StateSchema) (X : List (String × StateMode)),
    Triple (fun l => Walk (p :: R) l ∧ Described X l) (lowerEach p cs)
      (fun _ l => Walk (p :: R) l ∧
        Described (X ++ (StateSchema.preorderEach cs).map StateSchema.key) l)
  | [], X => by
    rw [lowerEach]
    exact Triple.pure fun l h => by simpa [StateSchema.preorderEach] using h
  | c :: cs, X => by
    rw [lowerEach]
    exact Triple.bind (lowerState_walk p R c X) fun _ => Triple.bind (lowerEach_walk p R cs _)
      fun _ => Triple.pure fun l h => by simpa [StateSchema.preorderEach] using h

end

end Lowering

end Hsm
