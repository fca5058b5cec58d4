import Hsm.Session.Basic
/-! Everything the sessions of one host share: mailboxes, the sessions, the queues of ready tasks,
the registry of services and scripts, the effects the host has observed, and the external services
started so far. A mailbox keeps envelopes in arrival order; posting to one whose reader has gone
fails with `closed`. -/
namespace Hsm

/-- A session's external queue, or the queue an external service reads. -/
structure Mailbox where
  queue : List Envelope := []
  /-- Whether the reader is still there. -/
  live : Bool := true
  /-- The session task that reads this mailbox. -/
  owner : Option Nat := none

/-- A service outside the sessions: on start it may fail with a reason, otherwise it sends
`onStart` to the invoking session and reads a mailbox of its own, unless it closes it at once. -/
structure ExternalService where
  fail : Option String := none
  onStart : List Event := []
  closed : Bool := false

/-- What a service name stands for: a machine run as a child session, or an external service. -/
inductive Service where
  | machine (doc : Document)
  | external (svc : ExternalService)

/-- Services by name, and the hooks content calls. -/
structure Registry where
  services : List (String × Service) := []
  hooks : Hooks := {}

namespace Registry

def register (r : Registry) (src : String) (svc : Service) : Registry :=
  if r.services.any (·.1 == src) then
    { r with services := r.services.map fun p => if p.1 == src then (src, svc) else p }
  else { r with services := r.services ++ [(src, svc)] }

def resolve (r : Registry) (src : String) : Except InvokeError Service :=
  match r.services.lookup src with
  | some svc => .ok svc
  | none => .error (.unknownService src)

end Registry

/-- An external service as the host sees it once started: its name, its invocation, the mailbox
it reads, and its link to the session that started it. -/
structure ServiceLink where
  src : String
  invokeId : String
  inbox : Nat
  link : ParentLink

/-- The shared state of all sessions of one host. -/
structure World where
  sessions : Array Session := #[]
  mailboxes : Array Mailbox := #[]
  /-- Tasks made ready while the runtime polls tasks, oldest first. -/
  taskQueue : List Nat := []
  /-- Tasks made ready by the host, oldest first. -/
  hostQueue : List Nat := []
  /-- Tasks that used up their budget, most recent first; they become ready when the runtime
  next rests. -/
  deferred : List Nat := []
  /-- How many times the runtime has looked for a task to poll. -/
  tick : Nat := 0
  /-- Whether the runtime is polling tasks now. -/
  polling : Bool := false
  registry : Registry := {}
  runtime : Bool := false
  effects : Array Effect := #[]
  services : Array ServiceLink := #[]

namespace World

def session (w : World) (i : Nat) : Session := w.sessions.getD i default

def modifySession (w : World) (i : Nat) (f : Session → Session) : World :=
  { w with sessions := w.sessions.modify i f }

def mailbox (w : World) (m : Nat) : Mailbox := w.mailboxes.getD m {}

def addMailbox (w : World) (mb : Mailbox) : Nat × World :=
  (w.mailboxes.size, { w with mailboxes := w.mailboxes.push mb })

/-- Queue a ready task: on the task queue while the runtime polls tasks, else on the host
queue. -/
def schedule (w : World) (t : Nat) : World :=
  if w.polling then { w with taskQueue := w.taskQueue ++ [t] }
  else { w with hostQueue := w.hostQueue ++ [t] }

def wake (w : World) (t : Nat) : World :=
  match (w.session t).drive with
  | .waiting => (w.modifySession t fun s => { s with drive := .ready }).schedule t
  | _ => w

/-- Post an envelope to a mailbox, waking the task that reads it. -/
def post (w : World) (m : Nat) (env : Envelope) : Except SessionError World :=
  let mb := w.mailbox m
  if !mb.live then .error .closed
  else
    let w := { w with mailboxes := w.mailboxes.modify m fun mb => { mb with queue := mb.queue ++ [env] } }
    match mb.owner with
    | some t => .ok (w.wake t)
    | none => .ok w

def postQuiet (w : World) (m : Nat) (env : Envelope) : World :=
  match w.post m env with
  | .ok w' => w'
  | .error _ => w

def send (w : World) (link : ParentLink) (e : Event) : Except SessionError World :=
  w.post link.mailbox (.event (e.withInvokeId link.invokeId))

def sendQuiet (w : World) (link : ParentLink) (e : Event) : World :=
  match w.send link e with
  | .ok w' => w'
  | .error _ => w

def take (w : World) (m : Nat) : Option Envelope × World :=
  match (w.mailbox m).queue with
  | [] => (none, w)
  | env :: rest =>
    (some env, { w with mailboxes := w.mailboxes.modify m fun mb => { mb with queue := rest } })

/-- The reader of a mailbox goes away: what it held is dropped, and posting fails from now. -/
def close (w : World) (m : Nat) : World :=
  { w with mailboxes := w.mailboxes.modify m fun mb => { mb with queue := [], live := false } }

def isClosed (w : World) (m : Nat) : Bool := !(w.mailbox m).live

end World
end Hsm
