import Hsm.Proofs.Fill
import Hsm.Proofs.Reentry
/-!
# What each call of the entry walk puts in place

`Selector.Does` says what one call of the entry walk does without the calls it makes. In a
compiled document with spread defaults every walk that ends does that call by call
(`Selector.Enters.does`), and entering targets below `u` adds a set that hangs below `u`
(`Selector.steps_block`).
-/

namespace Hsm

def EntrySet.Adds (F : Nat → Prop) (e e' : EntrySet) : Prop :=
  ∀ y, y ∈ e'.states.items ↔ y ∈ e.states.items ∨ F y

def EntrySet.Extends (P : Nat → Prop) (e e' : EntrySet) : Prop :=
  e.states.items ⊆ e'.states.items ∧ e.AddsOnly P e'

namespace EntrySet
variable {F G P : Nat → Prop} {e e₁ e₂ : EntrySet}

namespace Adds

theorem subset (h : e₁.Adds F e₂) : e₁.states.items ⊆ e₂.states.items :=
  fun y hy => (h y).2 (.inl hy)

theorem mem (h : e₁.Adds F e₂) {y : Nat} (hy : F y) : y ∈ e₂.states.items := (h y).2 (.inr hy)

theorem trans (h₁ : e.Adds F e₁) (h₂ : e₁.Adds G e₂) : e.Adds (fun y => F y ∨ G y) e₂ :=
  fun y => by rw [h₂, h₁, or_assoc]

theorem congr (h : e₁.Adds F e₂) (hFG : ∀ y, F y ↔ G y) : e₁.Adds G e₂ :=
  fun y => by rw [h, hFG]

theorem of_add {a : Nat} (h : e₂.states = e₁.states.add a) : e₁.Adds (· = a) e₂ :=
  fun y => by rw [h, OrderedSet.mem_add]

theorem of_states_eq (h : e₁.states = e.states) (h' : e₁.Adds F e₂) : e.Adds F e₂ :=
  fun y => by rw [h', h]

theorem toExtends (h : e₁.Adds F e₂) (hF : ∀ y, F y → P y) : e₁.Extends P e₂ :=
  ⟨h.subset, fun y hy => ((h y).1 hy).imp_right (hF y)⟩

end Adds

namespace Extends

theorem refl (P : Nat → Prop) (e : EntrySet) : e.Extends P e :=
  ⟨fun _ h => h, .refl P e⟩

theorem trans (h₁ : e.Extends P e₁) (h₂ : e₁.Extends P e₂) : e.Extends P e₂ :=
  ⟨List.Subset.trans h₁.1 h₂.1, h₁.2.trans h₂.2⟩

theorem adds (h : e₁.Extends P e₂) : e₁.Adds (fun y => y ∈ e₂.states.items ∧ P y) e₂ := fun y =>
  ⟨fun hy => (h.2 y hy).imp_right fun hP => ⟨hy, hP⟩, fun hy => hy.elim (fun hy => h.1 hy) (·.1)⟩

end Extends

end EntrySet

/-- Calls run one after another, each related to where it starts and ends by `R`. -/
inductive Steps {α : Type} (R : α → EntrySet → EntrySet → Prop) :
    List α → EntrySet → EntrySet → Prop
  | nil (e : EntrySet) : Steps R [] e e
  | cons {a : α} {as : List α} {e e₁ e₂ : EntrySet} :
      R a e e₁ → Steps R as e₁ e₂ → Steps R (a :: as) e e₂

namespace Steps
variable {α β : Type} {R : α → EntrySet → EntrySet → Prop}

theorem nil_eq {e e' : EntrySet} (h : Steps R [] e e') : e' = e := by
  cases h
  rfl

theorem append {as bs : List α} {e e' : EntrySet} (h : Steps R (as ++ bs) e e') :
    ∃ e₁, Steps R as e e₁ ∧ Steps R bs e₁ e' := by
  induction as generalizing e with
  | nil => exact ⟨e, .nil e, h⟩
  | cons a as ih =>
    cases h with
    | cons ha hrest =>
      obtain ⟨e₁, h₁, h₂⟩ := ih hrest
      exact ⟨e₁, .cons ha h₁, h₂⟩

theorem of_map {f : β → α} {bs : List β} {e e' : EntrySet} (h : Steps R (bs.map f) e e') :
    Steps (fun b => R (f b)) bs e e' := by
  induction bs generalizing e with
  | nil => rw [h.nil_eq]; exact .nil e
  | cons b bs ih =>
    cases h with
    | cons hb hrest => exact .cons hb (ih hrest)

theorem fold {I : List α → EntrySet → Prop} {as : List α} {e e' : EntrySet}
    (h : Steps R as e e') (h₀ : I as e)
    (hstep : ∀ a as e₁ e₂, R a e₁ e₂ → I (a :: as) e₁ → I as e₂) : I [] e' := by
  induction h with
  | nil => exact h₀
  | cons ha _ ih => exact ih (hstep _ _ _ _ ha h₀)

end Steps

namespace Selector
variable (sel : Selector)

/-- What entering a target stands for: the target itself, or for a history pseudo-state what
the states it stands for stand for in turn. -/
inductive StandsFor : Nat → Nat → Prop
  | self {x : Nat} : sel.doc.isHistory x = false → StandsFor x x
  | via {h h' r : Nat} : sel.doc.isHistory h = true → h' ∈ sel.standIns h → StandsFor h' r →
      StandsFor h r

/-- What entering `x` puts in place: a set filling `x`, or, for a history pseudo-state, a set
hanging below its home with a child of the home and everything it stands for. -/
def Piece (x : Nat) (F : Nat → Prop) : Prop :=
  if sel.doc.isHistory x then
    sel.doc.Hangs (sel.doc.home x) F ∧ (∃ c ∈ (sel.doc.state (sel.doc.home x)).children, F c) ∧
      (∃ r, sel.StandsFor x r) ∧ ∀ r, sel.StandsFor x r → F r
  else sel.doc.Fills x F

def Covers (c : Nat) (e e' : EntrySet) : Prop :=
  ((∃ y ∈ e.states.items, sel.doc.Within y c) ∧ e' = e) ∨
    ((∀ y ∈ e.states.items, ¬ sel.doc.Within y c) ∧
      (sel.doc.isHistory c = false → ∃ F, e.Adds F e' ∧ sel.doc.Fills c F))

def AddsAncestor (a : Nat) (e e' : EntrySet) : Prop :=
  ∃ e₁ : EntrySet, e₁ = { e with states := e.states.add a } ∧
    (sel.doc.isParallel a = true → Steps sel.Covers (sel.doc.state a).children e₁ e') ∧
    (sel.doc.isParallel a = false → e' = e₁)

/-- What each call of the entry walk does. -/
def Does : EntryCall → EntrySet → EntrySet → Prop
  | .descendants x, e, e' =>
    (∀ y ∈ e.states.items, ¬ sel.doc.Reach x y) → ∃ F, e.Adds F e' ∧ sel.Piece x F
  | .ancestors y u, e, e' => Steps sel.AddsAncestor (sel.doc.properAncestors y u) e e'
  | .regions p, e, e' => Steps sel.Covers (sel.doc.state p).children e e'
  | .ancestor a, e, e' => sel.AddsAncestor a e e'
  | .region c, e, e' => sel.Covers c e e'

/-- What entering needs to put whole subtrees in place: a compiled document whose
default-entry transitions spread their targets below their states, and history pseudo-states
that stand for states spread below their homes. -/
structure Spreads : Prop where
  shaped : sel.doc.Shaped
  initial : ∀ {s i : Nat}, (sel.doc.state s).initial = some i →
    sel.doc.Spread s (sel.doc.transition i).targets
  standIns : ∀ {h : Nat}, sel.doc.isHistory h = true →
    sel.doc.Spread (sel.doc.home h) (sel.standIns h)

variable {sel}

/-! ### Pieces -/

section Piece
variable {x : Nat} {F : Nat → Prop}

theorem piece_of_isHistory (hx : sel.doc.isHistory x = true) :
    sel.Piece x F ↔ sel.doc.Hangs (sel.doc.home x) F ∧
      (∃ c ∈ (sel.doc.state (sel.doc.home x)).children, F c) ∧
      (∃ r, sel.StandsFor x r) ∧ ∀ r, sel.StandsFor x r → F r := by
  simp [Piece, hx]

theorem piece_of_not_isHistory (hx : sel.doc.isHistory x = false) :
    sel.Piece x F ↔ sel.doc.Fills x F := by
  simp [Piece, hx]

theorem standsFor_of_not_isHistory (hx : sel.doc.isHistory x = false) {r : Nat}
    (h : sel.StandsFor x r) : r = x := by
  cases h with
  | self => rfl
  | via hh => rw [hx] at hh; cases hh

theorem Piece.placed (hd : sel.doc.Nested) (h : sel.Piece x F) : sel.doc.Placed x F := by
  cases hx : sel.doc.isHistory x with
  | false => exact ((piece_of_not_isHistory hx).1 h).placed hd hx
  | true =>
    obtain ⟨hF, hc, -⟩ := (piece_of_isHistory hx).1 h
    exact hF.placed hd hx hc

theorem Piece.standsFor (h : sel.Piece x F) {r : Nat} (hr : sel.StandsFor x r) : F r := by
  cases hx : sel.doc.isHistory x with
  | false =>
    rw [standsFor_of_not_isHistory hx hr]
    exact ((piece_of_not_isHistory hx).1 h).self
  | true => exact ((piece_of_isHistory hx).1 h).2.2.2 r hr

theorem Piece.exists_standsFor (h : sel.Piece x F) : ∃ r, sel.StandsFor x r := by
  cases hx : sel.doc.isHistory x with
  | false => exact ⟨x, .self hx⟩
  | true => exact ((piece_of_isHistory hx).1 h).2.2.1

theorem Piece.ready (hs : sel.doc.Shaped) (h : sel.Piece x F) {p : Nat}
    (hp : (sel.doc.state x).parent = some p) : ∃ c ∈ (sel.doc.state p).children, F c := by
  cases hx : sel.doc.isHistory x with
  | false =>
    exact ⟨x, hs.mem_children.2 ⟨Document.lt_size_of_parent hp, hp, hx⟩,
      ((piece_of_not_isHistory hx).1 h).self⟩
  | true =>
    obtain ⟨-, hc, -⟩ := (piece_of_isHistory hx).1 h
    rwa [Document.home_eq hp] at hc

end Piece

/-! ### Regions and ancestors -/

section Walk
variable {u : Nat} {Q : Nat → Prop} {ex : Option Nat} {e e' : EntrySet}

/-- A region of a parallel state that is `u` or slated ends up slated, and what is pending
stays pending. -/
theorem Covers.pending (hs : sel.doc.Shaped) {a c : Nat} (h : sel.Covers c e e')
    (hp : sel.doc.Pending u Q ex e.states.items) (ha : sel.doc.isParallel a = true)
    (hc : c ∈ (sel.doc.state a).children) (hau : a = u ∨ sel.doc.Slated u Q e.states.items a) :
    sel.doc.Pending u Q ex e'.states.items ∧ sel.doc.Slated u Q e'.states.items c ∧
      e.Extends (sel.doc.isDescendant · u) e' := by
  have hd := hs.nested
  have hcu : sel.doc.isDescendant c u = true := by
    have hca := hd.isDescendant_of_parent (hd.parent_of_mem_children hc)
    rcases hau with rfl | hau
    · exact hca
    · exact hd.isDescendant_trans hca (hp.isDescendant hau)
  rcases h with ⟨⟨y, hy, hyc⟩, rfl⟩ | ⟨hfresh, hfill⟩
  · -- covered: something entered within `c` puts `c` among the slated states
    have hyu : sel.doc.isDescendant y u = true := by
      rcases hyc with rfl | hyc
      · exact hcu
      · exact hd.isDescendant_trans hyc hcu
    exact ⟨hp, hp.slated_of_within hd (.of_mem hy hyu) hyc hcu, .refl _ _⟩
  · obtain ⟨F, hadd, hF⟩ := hfill (hs.mem_children.1 hc).2.2
    obtain ⟨hp', hc'⟩ := hp.fill hs ha hc hau hcu hfresh hF hadd
    refine ⟨hp', hc', hadd.toExtends fun y hy => ?_⟩
    rcases hF.within y hy with rfl | hyc
    · exact hcu
    · exact hd.isDescendant_trans hyc hcu

/-- Entering the regions of a parallel state `a` that is `u` or slated slates them all and
leaves nothing out. -/
theorem regions_pending (hs : sel.doc.Shaped) {a : Nat}
    (h : Steps sel.Covers (sel.doc.state a).children e e')
    (hp : sel.doc.Pending u Q (some a) e.states.items) (ha : sel.doc.isParallel a = true)
    (hau : a = u ∨ sel.doc.Slated u Q e.states.items a) :
    sel.doc.Pending u Q none e'.states.items ∧
      (∀ c ∈ (sel.doc.state a).children, sel.doc.Slated u Q e'.states.items c) ∧
      e.Extends (sel.doc.isDescendant · u) e' := by
  -- on the regions still to enter: they are children of `a`, and the others are slated
  have hfold := h.fold (I := fun r e₁ => sel.doc.Pending u Q (some a) e₁.states.items ∧
      (a = u ∨ sel.doc.Slated u Q e₁.states.items a) ∧ (∀ c ∈ r, c ∈ (sel.doc.state a).children) ∧
      (∀ c ∈ (sel.doc.state a).children, c ∈ r ∨ sel.doc.Slated u Q e₁.states.items c) ∧
      e.Extends (sel.doc.isDescendant · u) e₁)
    ⟨hp, hau, fun _ hc => hc, fun c hc => .inl hc, .refl _ e⟩
    (fun c r e₁ e₂ hcov ⟨hp₁, hau₁, hr, hdone, hext⟩ => by
      obtain ⟨hp₂, hc₂, hext₂⟩ := hcov.pending hs hp₁ ha (hr c List.mem_cons_self) hau₁
      refine ⟨hp₂, hau₁.imp_right fun h => h.mono hext₂.1, fun c' hc' => hr c' (.tail _ hc'),
        fun c' hc' => ?_, hext.trans hext₂⟩
      rcases hdone c' hc' with hc'r | hc'S
      · rcases List.mem_cons.1 hc'r with rfl | hc'r
        · exact .inr hc₂
        · exact .inl hc'r
      · exact .inr (hc'S.mono hext₂.1))
  obtain ⟨hp', -, -, hdone, hext⟩ := hfold
  have hall : ∀ c ∈ (sel.doc.state a).children, sel.doc.Slated u Q e'.states.items c :=
    fun c hc => (hdone c hc).resolve_left List.not_mem_nil
  exact ⟨hp'.release fun _ => hall, hall, hext⟩

/-- Entering a slated ancestor, with a child of it entered, keeps what is pending. -/
theorem AddsAncestor.pending (hs : sel.doc.Shaped) {a : Nat} (h : sel.AddsAncestor a e e')
    (hp : sel.doc.Pending u Q none e.states.items) (ha : sel.doc.Slated u Q e.states.items a)
    (hchild : ∃ c ∈ (sel.doc.state a).children, c ∈ e.states.items) :
    sel.doc.Pending u Q none e'.states.items ∧ a ∈ e'.states.items ∧
      e.Extends (sel.doc.isDescendant · u) e' := by
  obtain ⟨e₁, rfl, hpar, hnpar⟩ := h
  have hadd : e.Adds (· = a) { e with states := e.states.add a } := .of_add rfl
  have hp₁ := hp.add ha (fun _ => hchild) fun y => hadd y
  have hext₁ : e.Extends (sel.doc.isDescendant · u) { e with states := e.states.add a } :=
    hadd.toExtends fun y hy => hy ▸ hp.isDescendant ha
  have ha₁ : a ∈ (e.states.add a).items := hadd.mem rfl
  cases hap : sel.doc.isParallel a with
  | true =>
    obtain ⟨hp', -, hext⟩ := regions_pending hs (hpar hap) hp₁ hap (.inr (ha.mono hext₁.1))
    exact ⟨hp', hext.1 ha₁, hext₁.trans hext⟩
  | false =>
    rw [hnpar hap]
    exact ⟨hp₁.release (fun h => by rw [hap] at h; cases h), ha₁, hext₁⟩

/-- Entering the ancestors of `y` below `u`, all slated, with a child of the parent of `y`
entered, keeps what is pending and enters them all. -/
theorem ancestors_pending (hs : sel.doc.Shaped) {y : Nat} (hyu : sel.doc.isDescendant y u = true)
    (h : Steps sel.AddsAncestor (sel.doc.properAncestors y (some u)) e e')
    (hp : sel.doc.Pending u Q none e.states.items)
    (hslated : ∀ a ∈ sel.doc.properAncestors y (some u), sel.doc.Slated u Q e.states.items a)
    (hready : ∀ p, (sel.doc.state y).parent = some p → p ≠ u →
      ∃ c ∈ (sel.doc.state p).children, c ∈ e.states.items) :
    sel.doc.Pending u Q none e'.states.items ∧
      (∀ a ∈ sel.doc.properAncestors y (some u), a ∈ e'.states.items) ∧
      e.Extends (sel.doc.isDescendant · u) e' := by
  induction y using Nat.strongRecOn generalizing e with
  | ind y ih =>
    obtain ⟨p, hpar⟩ := Option.isSome_iff_exists.1 (hs.nested.parent_isSome_of_isDescendant hyu)
    rw [hs.properAncestors_of_parent hyu hpar] at h hslated ⊢
    by_cases hpu : p = u
    · rw [if_pos hpu] at h ⊢
      rw [h.nil_eq]
      exact ⟨hp, fun _ h => absurd h List.not_mem_nil, .refl _ e⟩
    · rw [if_neg hpu] at h hslated ⊢
      cases h with
      | cons hstep hrest =>
        obtain ⟨hp₁, hp₁mem, hext₁⟩ :=
          hstep.pending hs hp (hslated p List.mem_cons_self) (hready p hpar hpu)
        have hpu' := (hs.nested.eq_or_isDescendant_parent hyu hpar).resolve_left hpu
        -- the parent, now entered, is the child the next ancestor needs
        have hpchild : ∀ p', (sel.doc.state p).parent = some p' →
            p ∈ (sel.doc.state p').children := fun p' hp' =>
          hs.mem_children.2 ⟨Document.lt_size_of_parent hp', hp',
            hp.not_history p (hslated p List.mem_cons_self)⟩
        obtain ⟨hp', hmem, hext⟩ := ih p (hs.nested.parent_lt hpar) hpu' hrest hp₁
          (fun a ha => (hslated a (.tail _ ha)).mono hext₁.1)
          (fun p' hp' _ => ⟨p, hpchild p' hp', hp₁mem⟩)
        refine ⟨hp', fun a ha => ?_, hext₁.trans hext⟩
        rcases List.mem_cons.1 ha with rfl | ha
        · exact hext.1 hp₁mem
        · exact hmem a ha

end Walk

/-! ### Targets below a state -/

/-- Entering targets whose anchors are apart, where nothing is entered yet, adds what each of
them puts in place. -/
theorem steps_pieces (hd : sel.doc.Nested) {xs : List Nat} {e e' : EntrySet}
    (hapart : xs.Pairwise fun x y => sel.doc.Apart (sel.doc.anchor x) (sel.doc.anchor y))
    (hfresh : ∀ y ∈ e.states.items, ∀ x ∈ xs, ¬ sel.doc.Reach x y)
    (h : Steps (fun x => sel.Does (.descendants x)) xs e e') :
    ∃ G : Nat → Nat → Prop, e.Adds (fun y => ∃ x ∈ xs, G x y) e' ∧
      ∀ x ∈ xs, sel.Piece x (G x) := by
  induction xs generalizing e with
  | nil =>
    rw [h.nil_eq]
    exact ⟨fun _ _ => False, fun y => by simp, fun _ hx => absurd hx List.not_mem_nil⟩
  | cons x xs ih =>
    rw [List.pairwise_cons] at hapart
    cases h with
    | @cons _ _ _ e₁ _ hx hrest =>
      obtain ⟨F, hF, hpiece⟩ := hx fun y hy => hfresh y hy x List.mem_cons_self
      -- what `x` puts in place lies apart from where the later targets put states
      have hfresh' : ∀ y ∈ e₁.states.items, ∀ x' ∈ xs, ¬ sel.doc.Reach x' y := fun y hy x' hx' => by
        rcases (hF y).1 hy with hy | hy
        · exact hfresh y hy x' (.tail _ hx')
        · exact hd.not_reach_of_apart (hapart.1 x' hx') ((hpiece.placed hd).reach y hy)
      obtain ⟨G, hadd, hG⟩ := ih hapart.2 hfresh' hrest
      have hne : ∀ x' ∈ xs, x' ≠ x := fun x' hx' he => (hapart.1 x' hx').1 (he ▸ .refl _)
      refine ⟨fun z => if z = x then F else G z, (hF.trans hadd).congr fun y => ?_,
        fun z hz => ?_⟩
      · dsimp only
        constructor
        · rintro (hy | ⟨x', hx', hy⟩)
          · exact ⟨x, List.mem_cons_self, by rw [if_pos rfl]; exact hy⟩
          · exact ⟨x', .tail _ hx', by rw [if_neg (hne x' hx')]; exact hy⟩
        · rintro ⟨z, hz, hy⟩
          by_cases hzx : z = x
          · rw [if_pos hzx] at hy
            exact .inl hy
          · rw [if_neg hzx] at hy
            exact .inr ⟨z, (List.mem_cons.1 hz).resolve_left hzx, hy⟩
      · dsimp only
        by_cases hzx : z = x
        · rw [if_pos hzx, hzx]
          exact hpiece
        · rw [if_neg hzx]
          exact hG z ((List.mem_cons.1 hz).resolve_left hzx)

/-- Entering the ancestors below `u` of states each below `u`, with its ancestors slated and a
child of its parent entered, keeps what is pending and enters every one of those ancestors. -/
theorem steps_ancestorsAll (hs : sel.doc.Shaped) {u : Nat} {Q : Nat → Prop} {ys : List Nat}
    {e e' : EntrySet} (h : Steps (fun y => sel.Does (.ancestors y (some u))) ys e e')
    (hp : sel.doc.Pending u Q none e.states.items)
    (hys : ∀ y ∈ ys, sel.doc.isDescendant y u = true ∧
      (∀ a ∈ sel.doc.properAncestors y (some u), sel.doc.Slated u Q e.states.items a) ∧
      ∀ p, (sel.doc.state y).parent = some p → p ≠ u →
        ∃ c ∈ (sel.doc.state p).children, c ∈ e.states.items) :
    sel.doc.Pending u Q none e'.states.items ∧
      (∀ y ∈ ys, ∀ a ∈ sel.doc.properAncestors y (some u), a ∈ e'.states.items) ∧
      e.Extends (sel.doc.isDescendant · u) e' := by
  -- on the states still to go; the others have their ancestors entered
  have hfold := h.fold (I := fun r e₂ => sel.doc.Pending u Q none e₂.states.items ∧
      (∀ y ∈ r, y ∈ ys) ∧ e.Extends (sel.doc.isDescendant · u) e₂ ∧
      ∀ y ∈ ys, y ∈ r ∨ ∀ a ∈ sel.doc.properAncestors y (some u), a ∈ e₂.states.items)
    ⟨hp, fun _ hy => hy, .refl _ e, fun y hy => .inl hy⟩
    (fun y r e₂ e₃ hsteps ⟨hp₂, hr, hext₂, hdone⟩ => by
      obtain ⟨hyu, hsl, hready⟩ := hys y (hr y List.mem_cons_self)
      obtain ⟨hp₃, hmem, hext₃⟩ := ancestors_pending hs hyu hsteps hp₂
        (fun a ha => (hsl a ha).mono hext₂.1)
        (fun p hpar hpu => by
          obtain ⟨c, hc, hce⟩ := hready p hpar hpu
          exact ⟨c, hc, hext₂.1 hce⟩)
      refine ⟨hp₃, fun y' hy' => hr y' (.tail _ hy'), hext₂.trans hext₃, fun y' hy' => ?_⟩
      rcases hdone y' hy' with h | h
      · rcases List.mem_cons.1 h with rfl | h
        · exact .inr hmem
        · exact .inl h
      · exact .inr fun a ha => hext₃.1 (h a ha))
  obtain ⟨hp', -, hext, hdone⟩ := hfold
  exact ⟨hp', fun y hy => (hdone y hy).resolve_left List.not_mem_nil, hext⟩

theorem StandsFor.not_history {x r : Nat} (h : sel.StandsFor x r) : sel.doc.isHistory r = false := by
  induction h with
  | self hx => exact hx
  | via _ _ _ ih => exact ih

/-- Entering targets spread below `u`, where nothing below `u` is entered, and then the ancestors
below `u` of the targets or of what they stand for, covering everything they stand for, adds a
set hanging below `u` with a child of `u` and everything the targets stand for. -/
theorem steps_block (hs : sel.doc.Shaped) {u : Nat} {xs ys : List Nat} {e e' : EntrySet}
    (hxs : sel.doc.Spread u xs) (hys : ∀ y ∈ ys, ∃ x ∈ xs, y = x ∨ sel.StandsFor x y)
    (hcover : ∀ x ∈ xs, ∀ r, sel.StandsFor x r → ∃ y ∈ ys, y = x ∨ sel.StandsFor x y)
    (hfresh : ∀ y ∈ e.states.items, sel.doc.isDescendant y u = false)
    (h : Steps sel.Does (xs.map .descendants ++ ys.map (.ancestors · (some u))) e e') :
    ∃ F, e.Adds F e' ∧ sel.doc.Hangs u F ∧ (∃ c ∈ (sel.doc.state u).children, F c) ∧
      ∀ x ∈ xs, (∃ r, sel.StandsFor x r) ∧ ∀ r, sel.StandsFor x r → F r := by
  have hd := hs.nested
  obtain ⟨e₁, h₁, h₂⟩ := h.append
  -- first what each target puts in place, all of it below `u`
  obtain ⟨G, hadd₁, hG⟩ := steps_pieces hd (hxs.apart.imp (·.1))
    (fun y hy x hx hr => by
      have := hd.isDescendant_of_reach (hxs.below x hx) hr
      rw [hfresh y hy] at this
      cases this) h₁.of_map
  have hGu : ∀ x ∈ xs, ∀ y, G x y → sel.doc.isDescendant y u = true := fun x hx y hy =>
    hd.isDescendant_of_reach (hxs.below x hx) (((hG x hx).placed hd).reach y hy)
  have hp₁ : sel.doc.Pending u (sel.doc.Above u xs) none e₁.states.items :=
    .start hs hxs (fun x hx => (hG x hx).placed hd)
      (fun y hy hyu => ((hadd₁ y).1 hy).resolve_left fun hy' => by
        rw [hfresh y hy'] at hyu
        cases hyu)
      (fun x hx y hy => hadd₁.mem ⟨x, hx, hy⟩)
  have hysu : ∀ y ∈ ys, sel.doc.isDescendant y u = true := fun y hy => by
    obtain ⟨x, hx, rfl | hxy⟩ := hys y hy
    · exact hxs.below y hx
    · exact hGu x hx y ((hG x hx).standsFor hxy)
  -- then the ancestors: a target's lie between its anchor and `u`, and what a target stands
  -- for is entered, with its ancestors up to the anchor
  obtain ⟨hp', hanc, hext₂⟩ := steps_ancestorsAll hs h₂.of_map hp₁ fun y hy => by
    have hyu := hysu y hy
    obtain ⟨x, hx, rfl | hxy⟩ := hys y hy
    · refine ⟨hyu, fun a ha => .inr ⟨((hs.mem_properAncestors hyu).1 ha).2, y, hx,
        hd.within_anchor_of_isDescendant ((hs.mem_properAncestors hyu).1 ha).1⟩,
        fun p hpar _ => ?_⟩
      obtain ⟨c, hc, hcG⟩ := (hG y hx).ready hs hpar
      exact ⟨c, hc, hadd₁.mem ⟨y, hx, hcG⟩⟩
    · have hyG := (hG x hx).standsFor hxy
      have hye := hadd₁.mem ⟨x, hx, hyG⟩
      refine ⟨hyu, fun a ha => hp₁.slated_of_within hd (.of_mem hye hyu)
        (.inr ((hs.mem_properAncestors hyu).1 ha).1) ((hs.mem_properAncestors hyu).1 ha).2,
        fun p hpar _ => ⟨y, hs.mem_children.2 ⟨Document.lt_size_of_parent hpar, hpar,
          hxy.not_history⟩, hye⟩⟩
  have hG' : ∀ x ∈ xs, ∀ y, G x y → y ∈ e'.states.items := fun x hx y hy =>
    hext₂.1 (hadd₁.mem ⟨x, hx, hy⟩)
  -- every state between an anchor and `u` is entered: a state within it is entered, and it is
  -- that state or one of that state's ancestors
  have hQ : ∀ q, sel.doc.Above u xs q → q ∈ e'.states.items := by
    rintro q ⟨hqu, x, hx, hxq⟩
    obtain ⟨r, hr⟩ := (hG x hx).exists_standsFor
    obtain ⟨y, hy, hyx⟩ := hcover x hx r hr
    have hyq : sel.doc.Within y q ∧ (y = q → y ∈ e'.states.items) := by
      rcases hyx with rfl | hxy
      · refine ⟨hd.within_trans (hd.within_anchor y) hxq, fun hyq => ?_⟩
        subst hyq
        have hy' := hp'.not_history y (.inr ⟨hqu, y, hx, hxq⟩)
        exact hG' y hx y ((piece_of_not_isHistory hy').1 (hG y hx)).self
      · have hyG := (hG x hx).standsFor hxy
        exact ⟨hd.within_trans (Document.within_anchor_of_reach
          (((hG x hx).placed hd).reach y hyG)) hxq, fun _ => hG' x hx y hyG⟩
    rcases hyq.1 with hyq' | hyq'
    · exact hyq' ▸ hyq.2 hyq'
    · exact hanc y hy q ((hs.mem_properAncestors (hysu y hy)).2 ⟨hyq', hqu⟩)
  refine ⟨_, ((hadd₁.toExtends fun y ⟨x, hx, hy⟩ => hGu x hx y hy).trans hext₂).adds,
    hp'.hangs hd hQ, ?_, fun x hx => ⟨(hG x hx).exists_standsFor, fun r hr => ?_⟩⟩
  · -- what the first target puts in place lies within a child of `u`, which is then entered
    obtain ⟨x, hx⟩ := List.exists_mem_of_ne_nil _ hxs.ne_nil
    obtain ⟨s, hsG, -⟩ := ((hG x hx).placed hd).covers
    have hsu := hGu x hx s hsG
    obtain ⟨c, hc, hsc⟩ := hs.exists_child_within hsu (((hG x hx).placed hd).not_history s hsG)
    have hcu : sel.doc.isDescendant c u = true :=
      hd.isDescendant_of_parent (hd.parent_of_mem_children hc)
    rcases hp'.slated_of_within hd (.of_mem (hG' x hx s hsG) hsu) hsc hcu with hc' | hc'
    · exact ⟨c, hc, hc'⟩
    · exact ⟨c, hc, hQ c hc', hcu⟩
  · exact ⟨hG' x hx r ((hG x hx).standsFor hr), hGu x hx r ((hG x hx).standsFor hr)⟩

/-! ### Each call does what it says -/

theorem any_within_iff (c : Nat) (e : EntrySet) :
    (e.states.items.any fun s => s == c || sel.doc.isDescendant s c) = true ↔
      ∃ y ∈ e.states.items, sel.doc.Within y c := by
  simp [Document.Within]

/-- Entering a history pseudo-state where nothing below its home is entered puts in place what
it stands for. -/
theorem does_history (hsp : sel.Spreads) {x : Nat} {e e' : EntrySet}
    (hx : sel.doc.isHistory x = true)
    (h : Steps sel.Does (sel.expand (.descendants x) e).2 (sel.expand (.descendants x) e).1 e') :
    sel.Does (.descendants x) e e' := by
  intro hfresh
  rw [sel.expand_history hx] at h
  obtain ⟨F, hadd, hF, hc, hstand⟩ := steps_block hsp.shaped (hsp.standIns hx)
    (fun y hy => ⟨y, hy, .inl rfl⟩) (fun x hx _ _ => ⟨x, hx, .inl rfl⟩)
    (fun y hy => by
      rw [expand_history_states hx] at hy
      cases hyh : sel.doc.isDescendant y (sel.doc.home x)
      · rfl
      · exact absurd ((Document.reach_of_isHistory hx).2 hyh) (hfresh y hy)) h
  refine ⟨F, hadd.of_states_eq (expand_history_states hx e), (piece_of_isHistory hx).2
    ⟨hF, hc, ?_, fun r hr => ?_⟩⟩
  · obtain ⟨x₀, hx₀⟩ := List.exists_mem_of_ne_nil _ (hsp.standIns hx).ne_nil
    obtain ⟨r, hr⟩ := (hstand x₀ hx₀).1
    exact ⟨r, .via hx hx₀ hr⟩
  · cases hr with
    | self hx' => rw [hx] at hx'; cases hx'
    | via _ hmem hr' => exact (hstand _ hmem).2 r hr'

theorem Document.lt_size_of_isCompound {d : Document} {s : Nat} (h : d.isCompound s = true) :
    s < d.size := by
  refine Nat.lt_of_not_le fun hs => ?_
  have hout : ¬ s < d.states.size := Nat.not_lt.2 hs
  simp [Document.isCompound, Document.state, Array.getD, hout] at h

/-- Entering a compound state where nothing within it is entered fills it, through its
default-entry transition. -/
theorem does_compound (hsp : sel.Spreads) {x : Nat} {e e' : EntrySet}
    (hx : sel.doc.isHistory x = false) (hc : sel.doc.isCompound x = true)
    (h : Steps sel.Does (sel.expand (.descendants x) e).2 (sel.expand (.descendants x) e).1 e') :
    sel.Does (.descendants x) e e' := by
  intro hfresh
  have hs := hsp.shaped
  obtain ⟨i, hi⟩ := Option.isSome_iff_exists.1 ((hs.initial_iff (Document.lt_size_of_isCompound hc)).2
    (by simpa [Document.isCompound] using hc))
  simp only [expand, hx, hc, hi, Bool.false_eq_true, if_false, if_true] at h
  obtain ⟨F, hadd, hF, hchild, -⟩ := steps_block hs (hsp.initial hi)
    (fun y hy => ⟨y, hy, .inl rfl⟩) (fun x hx _ _ => ⟨x, hx, .inl rfl⟩)
    (fun y hy => by
      rcases OrderedSet.mem_add.1 hy with hy | rfl
      · cases hyx : sel.doc.isDescendant y x
        · rfl
        · exact absurd ((Document.reach_of_not_isHistory hx).2 (.inr hyx)) (hfresh y hy)
      · exact hs.nested.not_isDescendant_self y) h
  have hnp : sel.doc.isParallel x = false := by
    simp only [Document.isCompound, beq_iff_eq] at hc
    simp [Document.isParallel, hc]
  exact ⟨_, (EntrySet.Adds.of_add rfl).trans hadd, (piece_of_not_isHistory hx).2
    (hF.fills hs.nested hx (fun _ => hchild) fun hp => by rw [hnp] at hp; cases hp)⟩

/-- Entering a parallel state where nothing within it is entered fills it, region by region. -/
theorem does_parallel (hsp : sel.Spreads) {x : Nat} {e e' : EntrySet}
    (hx : sel.doc.isHistory x = false) (hc : sel.doc.isCompound x = false)
    (hpar : sel.doc.isParallel x = true)
    (h : Steps sel.Does (sel.expand (.descendants x) e).2 (sel.expand (.descendants x) e).1 e') :
    sel.Does (.descendants x) e e' := by
  intro hfresh
  have hs := hsp.shaped
  simp only [expand, hx, hc, hpar, Bool.false_eq_true, if_false, if_true] at h
  cases h with
  | cons hreg hnil =>
    rw [hnil.nil_eq]
    have hp₀ : sel.doc.Pending x (fun _ => False) (some x)
        (e.states.add x).items := .empty fun y hy => by
      rcases OrderedSet.mem_add.1 hy with hy | rfl
      · cases hyx : sel.doc.isDescendant y x
        · rfl
        · exact absurd ((Document.reach_of_not_isHistory hx).2 (.inr hyx)) (hfresh y hy)
      · exact hs.nested.not_isDescendant_self y
    obtain ⟨hp', hall, hext⟩ := regions_pending hs hreg hp₀ hpar (.inl rfl)
    exact ⟨_, (EntrySet.Adds.of_add rfl).trans hext.adds, (piece_of_not_isHistory hx).2
      ((hp'.hangs hs.nested fun _ h => h.elim).fills hs.nested hx
        (fun h => by rw [hc] at h; cases h)
        fun _ c hc => (hall c hc).resolve_right id)⟩

theorem does_atomic (hsp : sel.Spreads) {x : Nat} {e e' : EntrySet}
    (hx : sel.doc.isHistory x = false) (hc : sel.doc.isCompound x = false)
    (hpar : sel.doc.isParallel x = false)
    (h : Steps sel.Does (sel.expand (.descendants x) e).2 (sel.expand (.descendants x) e).1 e') :
    sel.Does (.descendants x) e e' := by
  intro _
  simp only [expand, hx, hc, hpar, Bool.false_eq_true, if_false] at h
  rw [h.nil_eq]
  exact ⟨_, .of_add rfl, (piece_of_not_isHistory hx).2 (Document.fills_self hsp.shaped.nested hx hc hpar)⟩

/-- A call does what it says once the calls it makes do. -/
theorem does_of_steps (hsp : sel.Spreads) {c : EntryCall} {e e' : EntrySet}
    (h : Steps sel.Does (sel.expand c e).2 (sel.expand c e).1 e') : sel.Does c e e' := by
  cases c with
  | descendants x =>
    cases hx : sel.doc.isHistory x
    · cases hc : sel.doc.isCompound x
      · cases hpar : sel.doc.isParallel x
        · exact does_atomic hsp hx hc hpar h
        · exact does_parallel hsp hx hc hpar h
      · exact does_compound hsp hx hc h
    · exact does_history hsp hx h
  | ancestors y u => exact h.of_map
  | regions p => exact h.of_map
  | ancestor a =>
    refine ⟨_, rfl, fun hpar => ?_, fun hnpar => ?_⟩
    · simp only [expand, hpar, if_true] at h
      cases h with
      | cons hreg hnil =>
        rw [hnil.nil_eq]
        exact hreg
    · simp only [expand, hnpar, Bool.false_eq_true, if_false] at h
      exact h.nil_eq
  | region c =>
    by_cases hcov : (e.states.items.any fun s => s == c || sel.doc.isDescendant s c) = true
    · simp only [expand, hcov, if_true] at h
      exact .inl ⟨(any_within_iff c e).1 hcov, h.nil_eq⟩
    · simp only [expand, hcov, Bool.false_eq_true, if_false] at h
      have hfresh : ∀ y ∈ e.states.items, ¬ sel.doc.Within y c := fun y hy hyc =>
        hcov ((any_within_iff c e).2 ⟨y, hy, hyc⟩)
      refine .inr ⟨hfresh, fun hch => ?_⟩
      cases h with
      | cons hdesc hnil =>
        rw [hnil.nil_eq]
        obtain ⟨F, hadd, hpiece⟩ := hdesc fun y hy hr => hfresh y hy ((Document.reach_of_not_isHistory hch).1 hr)
        exact ⟨F, hadd, (piece_of_not_isHistory hch).1 hpiece⟩

theorem Enters.does (hsp : sel.Spreads) {cs : List EntryCall} {e e' : EntrySet}
    (h : sel.Enters cs e e') : Steps sel.Does cs e e' := by
  induction h with
  | nil e => exact .nil e
  | cons _ _ ih₁ ih₂ => exact .cons (does_of_steps hsp ih₁) ih₂

end Selector

end Hsm
