import Hsm.Proofs.Link
/-!
# Routing what content sends

Where a sent event goes is read off the session (`Session.destination`). Routing one item is one
enqueue, or `error.communication` when nobody takes it (`World.routeItem_enqueues_once`), and an
outbox is routed item by item, in order (`Engine.route_delivers_in_order`).
-/

namespace Hsm

/-- Where a sent event goes. -/
inductive Destination where
  /-- The sending session's internal queue, as an internal event. -/
  | internal
  /-- A mailbox: the session's own external queue, or that of one of its invocations. -/
  | mailbox (m : Nat)
  /-- The invoking session, through the parent link. -/
  | parent (link : ParentLink)
  /-- Nobody: there is no invoking session, or no invocation of that id. -/
  | nowhere

/-- Where session `s` sends an event for `target`: the reserved targets first, then the session's
own name, then the ids of its invocations. -/
def Session.destination (s : Session) : Option String → Destination
  | none => .mailbox s.mailbox
  | some "_self" => .mailbox s.mailbox
  | some "_internal" => .internal
  | some "_parent" =>
    match s.parent with
    | some link => .parent link
    | none => .nowhere
  | some t =>
    if t = s.config.name then .mailbox s.mailbox
    else match s.child? t with
      | some c => .mailbox c.mailbox
      | none => .nowhere

namespace World

def enqueueInternal (w : World) (me : Nat) (e : Event) : World :=
  w.modifySession me fun s => { s with internal := s.internal ++ [e] }

/-- Route one item of the outbox of session `me`. -/
def routeItem (w : World) (me : Nat) : Outgoing → World
  | .raise e => w.enqueueInternal me e
  | .send e target =>
    let undelivered := w.enqueueInternal me (Event.errorCommunication (target.getD "_self") e.name)
    match (w.session me).destination target with
    | .internal => w.enqueueInternal me { e with kind := .internal }
    | .mailbox m => (w.post m (.event e)).toOption.getD undelivered
    | .parent link => (w.send link e).toOption.getD undelivered
    | .nowhere => undelivered

/-- Routing one item is one enqueue: an event appended to the internal queue of `me`, or an
envelope posted to a mailbox. -/
theorem routeItem_enqueues_once (w : World) (me : Nat) (o : Outgoing) :
    (∃ e, w.routeItem me o = w.enqueueInternal me e) ∨
      ∃ m env, w.post m env = .ok (w.routeItem me o) := by
  cases o with
  | raise e => exact .inl ⟨e, rfl⟩
  | send e target =>
    simp only [routeItem]
    split
    · exact .inl ⟨_, rfl⟩
    · rename_i m _
      cases h : w.post m (.event e) with
      | ok w' => exact .inr ⟨m, _, by rw [h]; rfl⟩
      | error err => exact .inl ⟨_, rfl⟩
    · rename_i link _
      cases h : w.send link e with
      | ok w' => exact .inr ⟨link.mailbox, _, by rw [← send, h]; rfl⟩
      | error err => exact .inl ⟨_, rfl⟩
    · exact .inl ⟨_, rfl⟩

end World

namespace Engine

theorem eval_raiseInternal (me : Nat) (e : Event) (w : World) :
    eval (raiseInternal me e) w = (.ok (), w.enqueueInternal me e) := rfl

/-- A result that is a post's: the world it leaves, or the failure with the world unchanged. -/
def posted (r : Except SessionError World) (w : World) : Except SessionError Unit × World :=
  match r with
  | .ok w' => (.ok (), w')
  | .error err => (.error err, w)

theorem eval_post_posted (m : Nat) (env : Envelope) (w : World) :
    eval (post m env) w = posted (w.post m env) w := by
  rw [eval_post]
  cases w.post m env <;> rfl

/-- Delivering one event follows the session's table: it appends to the internal queue, posts to
a mailbox or through the parent link and fails as that post fails, or fails for a target that
names nobody, leaving the world as it was. -/
theorem eval_deliver (me : Nat) (e : Event) (target : Option String) (w : World) :
    eval (deliver me e target) w = match (w.session me).destination target with
      | .internal => (.ok (), w.enqueueInternal me { e with kind := .internal })
      | .mailbox m => posted (w.post m (.event e)) w
      | .parent link => posted (w.send link e) w
      | .nowhere => (.error (.undeliverable (target.getD "_self")), w) := by
  unfold deliver
  rw [eval_bind, eval_current]
  dsimp only
  rcases target with _ | t
  · simp only [Session.destination, eval_post_posted]
  -- the reserved targets, in the order the table takes them
  by_cases hself : t = "_self"
  · subst hself
    simp [Session.destination, eval_post_posted]
  by_cases hint : t = "_internal"
  · subst hint
    simp only [String.reduceBEq, Bool.false_eq_true, ↓reduceIte, BEq.rfl, Session.destination]
    rfl
  by_cases hpar : t = "_parent"
  · subst hpar
    simp only [String.reduceBEq, Bool.false_eq_true, ↓reduceIte, BEq.rfl, Session.destination,
      Option.getD_some]
    rcases (w.session me).parent with _ | link
    · rfl
    · simp only [eval_bind, eval_get, posted]
      rcases w.send link e with err | w' <;> rfl
  -- past the reserved targets: the session's own name, then the invocations
  simp only [beq_iff_eq, hself, ↓reduceIte, hint, hpar, Session.destination, Option.getD_some]
  by_cases hname : t = (w.session me).config.name
  · rw [if_pos hname, if_pos hname]
    exact eval_post_posted _ _ _
  · rw [if_neg hname, if_neg hname]
    rcases (w.session me).child? t with _ | c
    · rfl
    · exact eval_post_posted _ _ _

/-- Routing the item at the head of an outbox. -/
theorem eval_route_cons (me : Nat) (o : Outgoing) (rest : List Outgoing) (w : World) :
    eval (route me (o :: rest)) w = eval (route me rest) (w.routeItem me o) := by
  cases o with
  | raise e =>
    rw [route, eval_bind, eval_raiseInternal]
    rfl
  | send e target =>
    rw [route, eval_bind, eval_observe, eval_deliver]
    simp only [World.routeItem]
    -- a failed delivery is replaced by `error.communication`, a successful one is the post
    cases (w.session me).destination target with
    | internal => rfl
    | mailbox m =>
      dsimp only
      cases w.post m (.event e) <;> rfl
    | parent link =>
      dsimp only
      cases w.send link e <;> rfl
    | nowhere => rfl

theorem eval_route (me : Nat) (out : List Outgoing) (w : World) :
    eval (route me out) w = (.ok (), out.foldl (fun u o => u.routeItem me o) w) := by
  induction out generalizing w with
  | nil => rfl
  | cons o rest ih => rw [eval_route_cons, ih, List.foldl_cons]

/-- Routing an outbox never fails: it routes its items one after another, in outbox order, each
to where the session's table sends it. Each item is one enqueue: an event appended to the
session's internal queue, or an envelope posted to one mailbox. -/
theorem route_delivers_in_order (me : Nat) (out : List Outgoing) (w : World) :
    eval (route me out) w = (.ok (), out.foldl (fun u o => u.routeItem me o) w) ∧
      ∀ o ∈ out, ∀ u : World, (∃ e, u.routeItem me o = u.enqueueInternal me e) ∨
        ∃ m env, u.post m env = .ok (u.routeItem me o) :=
  ⟨eval_route me out w, fun o _ u => u.routeItem_enqueues_once me o⟩

end Engine
end Hsm
