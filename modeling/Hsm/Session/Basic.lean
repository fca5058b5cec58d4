import Hsm.Session.Select
/-! A session: one running instance of a document. It holds its settings, its active
configuration, its queues, its history records, its data bag, and handles on the sessions and
services it invoked. Other parties reach it only through its external queue, a mailbox that
holds events and the request to stop. -/
namespace Hsm

/-- Where a session is in its life. -/
inductive SessionStatus where
  | idle
  | running
  | done
  | cancelled
  | failed
  deriving DecidableEq

namespace SessionStatus

/-- The lowercase name of a status. -/
def name : SessionStatus → String
  | .idle => "idle"
  | .running => "running"
  | .done => "done"
  | .cancelled => "cancelled"
  | .failed => "failed"

/-- The capitalised name of a status, as a debug rendering shows it. -/
def title : SessionStatus → String
  | .idle => "Idle"
  | .running => "Running"
  | .done => "Done"
  | .cancelled => "Cancelled"
  | .failed => "Failed"

end SessionStatus

/-- Where an invocation is in its life. -/
inductive InvokeStatus where
  | invoked
  | cancelled
  | done
  deriving DecidableEq

def InvokeStatus.name : InvokeStatus → String
  | .invoked => "invoked"
  | .cancelled => "cancelled"
  | .done => "done"

/-- Settings of a session: its name (child sessions are named `parent.invokeId`), how many
microsteps one macrostep may take, and whether macrosteps are traced. -/
structure SessionConfig where
  name : String
  maxMicrosteps : Nat := 10000
  traceConfiguration : Bool := true

/-- How an invoked session or service reaches the session that invoked it: that session's
mailbox, and the invoke id stamped on everything sent. -/
structure ParentLink where
  mailbox : Nat
  invokeId : String

/-- A session's handle on something it invoked: the mailbox of the child, the child session
whose data bag finalize content changes (none for a service), and the invocation's status. -/
structure ChildHandle where
  invokeId : String
  mailbox : Nat
  session : Option Nat := none
  status : InvokeStatus := .invoked

/-- What a session reports when it stops. -/
structure Outcome where
  name : String
  status : SessionStatus
  doneData : Option Json.Value
  configuration : List String

/-- How a session is driven: by host calls, or as a task, which starts with its data bag when
first polled, then waits on its mailbox, and ends with its outcome or error. -/
inductive Drive where
  | host
  | fresh (data : Data)
  | ready
  | waiting
  | finished (result : Except SessionError Outcome)

/-- One running instance of a document. -/
structure Session where
  doc : Document
  config : SessionConfig
  /-- The session's own external queue. -/
  mailbox : Nat
  data : Data := {}
  /-- The event being processed (the last one processed, between events). -/
  event : Event := {}
  history : HistoryTable := {}
  configuration : OrderedSet Nat := {}
  /-- States entered since invocations were last started. -/
  toInvoke : OrderedSet Nat := {}
  internal : List Event := []
  children : List (String × ChildHandle) := []
  parent : Option ParentLink := none
  status : SessionStatus := .idle
  doneData : Option Json.Value := none
  /-- The configuration last published to subscribers, and how many times it was published. -/
  published : List String := []
  version : Nat := 0
  drive : Drive := .host

instance : Inhabited Session := ⟨{ doc := ⟨#[], #[], #[]⟩, config := { name := "" }, mailbox := 0 }⟩

namespace Session

def isRunning (s : Session) : Bool := s.status == .running

def selector (s : Session) : Selector := ⟨s.doc, s.configuration, s.history⟩

def names (s : Session) (states : List Nat) : List String := states.map s.doc.name

def activeNames (s : Session) : List String :=
  s.names (sortBy s.doc.entryCmp s.configuration.items)

def exitOrder (s : Session) : List String :=
  s.names (sortBy s.doc.exitCmp s.configuration.items)

def isActive (s : Session) (id : String) : Bool :=
  match s.doc.lookup id with
  | some st => s.configuration.contains st
  | none => false

def historyOf (s : Session) (id : String) : Option (List String) := do
  let h ← s.doc.lookup id
  let recorded ← s.history.get h
  pure (s.names recorded)

def child? (s : Session) (invokeId : String) : Option ChildHandle := s.children.lookup invokeId

def invokeStatus (s : Session) (invokeId : String) : Option InvokeStatus :=
  (s.child? invokeId).map (·.status)

def outcome (s : Session) : Outcome := ⟨s.config.name, s.status, s.doneData, s.activeNames⟩

end Session
end Hsm
