import Hsm.Json.Value
/-! Events: a name matched against transition patterns, where the event came from, a JSON
payload, and optional routing facts (the invocation it comes from, the session that sent it, the
id and delay of the send that made it). The interpreter raises completion and error events
under reserved names: `done.state.<id>` when a state is done, `done.invoke.<id>` when an invoked
session finishes, `error.execution` and `error.communication`. -/
namespace Hsm

/-- Where an event comes from. -/
inductive EventKind where
  /-- Raised by the interpreter itself (`done.*`, `error.*`). -/
  | platform
  /-- Raised by executable content onto the internal queue. -/
  | internal
  /-- Delivered through a session's external queue. -/
  | external
  deriving DecidableEq, Inhabited

def EventKind.name : EventKind → String
  | .platform => "platform"
  | .internal => "internal"
  | .external => "external"

def EventKind.names : List String := ["platform", "internal", "external"]

def EventKind.ofName? (s : String) : Option EventKind :=
  if s = "platform" then some .platform
  else if s = "internal" then some .internal
  else if s = "external" then some .external
  else none

/-- A span of time: whole seconds and the nanoseconds past them (below `10^9`). -/
structure Duration where
  secs : Nat
  nanos : Nat
  deriving DecidableEq

/-- An event processed by a session. -/
structure Event where
  name : String := ""
  kind : EventKind := .external
  data : Json.Value := .null
  invokeId : Option String := none
  origin : Option String := none
  sendId : Option String := none
  delay : Option Duration := none

instance : Inhabited Event := ⟨{}⟩

namespace Event

def doneStatePrefix : String := "done.state."

def doneInvokePrefix : String := "done.invoke."

def named (name : String) : Event := { name }

def doneState (stateId : String) (data : Json.Value) : Event :=
  { name := doneStatePrefix ++ stateId, kind := .platform, data }

def doneInvoke (invokeId : String) (data : Json.Value) : Event :=
  { name := doneInvokePrefix ++ invokeId, kind := .platform, data, invokeId := some invokeId }

def errorExecution (reason : String) : Event :=
  { name := "error.execution", kind := .platform, data := .obj [("reason", .str reason)] }

def errorCommunication (target event : String) : Event :=
  { name := "error.communication", kind := .platform,
    data := .obj [("event", .str event), ("target", .str target)] }

/-- Whether this is the completion event of the invocation `invokeId`: it carries that invoke id
and is named `done.invoke.` followed by exactly that id. -/
def isDoneInvoke (e : Event) (invokeId : String) : Bool :=
  e.invokeId == some invokeId && e.name == doneInvokePrefix ++ invokeId

def withInvokeId (e : Event) (invokeId : String) : Event := { e with invokeId := some invokeId }

end Event

/-- Whether a transition's event pattern matches an event name: `*` matches every name, a
pattern ending in `.*` matches every name that starts with the part before the `*`, and any
other pattern only the name equal to it. -/
def patternMatches (pattern name : String) : Bool :=
  pattern == "*" || pattern == name ||
    match pattern.toList.reverse with
    | '*' :: '.' :: rest => ('.' :: rest).reverse.isPrefixOf name.toList
    | _ => false

def nameMatches (patterns : List String) (name : String) : Bool :=
  patterns.any fun p => patternMatches p name

/-- What travels on a session's external queue: an event, or the request to stop. -/
inductive Envelope where
  | event (e : Event)
  | cancel

end Hsm
