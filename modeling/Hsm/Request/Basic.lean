import Hsm.Chart.Document
import Hsm.Dump.Chart
/-! Requests and answers: every request is a JSON object naming an operation, every answer a
JSON object (or list). This module holds the JSON forms of the library's values that answers
share: events, effects, outgoing events, data bags, compile problems and documents. -/
namespace Hsm
open Json

namespace Request

def str (v : Value) (key : String) : String := (v.read? key Value.asStr?).getD ""

def flag (v : Value) (key : String) : Bool := (v.read? key Value.asBool?).getD false

def answer (fields : List (String × Value)) : Value := Value.ofFields fields

def badInput (message : String) : Value :=
  answer [("error", .str "bad_input"), ("message", .str message)]

def strs (xs : List String) : Value := .arr (xs.map .str)

def nats (xs : List Nat) : Value := .arr (xs.map fun n => .num (.nat n))

def opt {α : Type} (f : α → Value) : Option α → Value
  | some a => f a
  | none => .null

def varsValue (vs : List (String × Int)) : Value := .obj (vs.map fun kv => (kv.1, Value.ofInt kv.2))

/-- The machines of a request: the members of its `machines` object, none when it is not an
object. -/
def machinesOf (v : Value) : Machines :=
  { sources := ((v.get? "machines").map Value.fields).getD [] }

def registryOf (v : Value) : Describe (Hooks × Registry) := do
  let hooks := Hooks.ofValue (v.get? "scripts") true
  pure (hooks, ← Registry.describe (v.get? "services") hooks)

def describe {α : Type} (v : Value) (x : Describe α) : Except ChartError α :=
  (x.run (machinesOf v)).1

end Request

/-- An effect as JSON. -/
def Effect.toValue : Effect → Value
  | .log label session event =>
    .obj [("event", .str event), ("log", Request.opt .str label), ("session", .str session)]
  | .script src event vars =>
    .obj [("event", .str event), ("script", .str src), ("vars", Request.varsValue vars)]
  | .service src invoke => .obj [("invoke", .str invoke), ("service", .str src)]

def Outgoing.toValue : Outgoing → Value
  | .raise e => .obj [("raise", e.toValue)]
  | .send e target => .obj [("send", e.toValue), ("target", Request.opt .str target)]

/-- The named fields of an issue. -/
def Issue.fields : Issue → Value
  | .duplicateStateId id | .reservedStateId id | .finalWithChildren id
  | .historyWithChildren id | .initialOnNonCompound id => .obj [("id", .str id)]
  | .unresolvedTarget s t | .unresolvedInitial s t | .initialNotDescendant s t =>
    .obj [("state", .str s), ("target", .str t)]
  | .illegalTargetSet s ts => .obj [("state", .str s), ("targets", Request.strs ts)]

def Issue.toValue (i : Issue) : Value :=
  .obj [("fields", i.fields), ("kind", .str i.kindName), ("message", .str i.message)]

/-- The answer to a description that cannot be used. -/
def ChartError.toValue : ChartError → Value
  | .badInput message => Request.badInput message
  | .invalid machine issues =>
    Request.answer ([("error", .str "BuildError"), ("message", .str (issuesMessage issues)),
      ("issues", .arr (issues.map Issue.toValue))] ++
      match machine with
      | some name => [("machine", .str name)]
      | none => [])

/-- The mode of a state as JSON. -/
def StateMode.toValue : StateMode → Value
  | .atomic => .str "atomic"
  | .compound => .str "compound"
  | .parallel => .str "parallel"
  | .final => .str "final"
  | .history .shallow => .obj [("history", .str "shallow")]
  | .history .deep => .obj [("history", .str "deep")]

namespace Document

/-- A state of a document as JSON. -/
def stateValue (d : Document) (s : Nat) : Value :=
  let n := d.state s
  Request.answer [("id", .str n.id), ("mode", n.mode.toValue), ("depth", Value.ofInt n.depth),
    ("order", .num (.nat n.order)), ("parent", Request.opt (fun p => .num (.nat p)) n.parent),
    ("ancestors", Request.nats n.ancestors), ("children", Request.nats n.children),
    ("descendants", Request.nats n.descendants), ("history", Request.nats n.history),
    ("transitions", Request.nats n.transitions), ("invokes", Request.nats n.invokes),
    ("initial", Request.opt (fun t => .num (.nat t)) n.initial),
    ("done_data", Request.opt id n.doneData), ("atomic", .bool (d.isAtomic s)),
    ("entry", Request.strs (n.onEntry.map Command.kind)),
    ("exit", Request.strs (n.onExit.map Command.kind))]

def transitionValue (t : TransitionNode) : Value :=
  Request.answer [("source", .num (.nat t.source)), ("targets", Request.nats t.targets),
    ("events", Request.strs t.events),
    ("kind", .str (match t.kind with | .internal => "internal" | .external => "external")),
    ("order", .num (.nat t.order)), ("content", Request.strs (t.content.map Command.kind))]

/-- An invocation of a document as JSON. -/
def invokeValue (i : InvokeNode Document) : Value :=
  Request.answer [("id", .str i.id), ("state", .num (.nat i.state)),
    ("autoforward", .bool i.autoforward),
    ("source", match i.source with
      | .machine m => .obj [("machine_states", .num (.nat m.size))]
      | .service src => .obj [("service", .str src)]),
    ("finalize", Request.strs (i.finalize.map Command.kind))]

def toValue (d : Document) : Value :=
  Request.answer [("len", .num (.nat d.size)),
    ("states", .arr ((List.range d.size).map d.stateValue)),
    ("transitions", .arr (d.transitions.toList.map transitionValue)),
    ("invokes", .arr (d.invokes.toList.map invokeValue))]

end Document
end Hsm
