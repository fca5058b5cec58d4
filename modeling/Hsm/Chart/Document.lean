import Hsm.Chart.Guard
import Hsm.Chart.Command
import Hsm.Document.Build
import Hsm.Session.World
/-! Documents written as JSON, and the machines and services they refer to. A document is an
object with `states`, `initial` and `on_initial`; states, transitions and invocations are objects
read field by field in the order given below, and a list or object of the wrong kind is refused
with a message naming what was expected. Machines are compiled when first referred to, and a
machine that refers back to one being compiled is a cycle. -/
namespace Hsm
open Json

/-- The machines of a request: descriptions by name, those compiled so far, and the names being
compiled, innermost first. -/
structure Machines where
  sources : List (String × Value)
  built : List (String × Document) := []
  pending : List String := []

abbrev Describe := ExceptT ChartError (StateM Machines)

namespace Describe

def bad {α : Type} (message : String) : Describe α := throw (.badInput message)

def lift {α : Type} : Except String α → Describe α
  | .ok a => pure a
  | .error message => bad message

def content (v : Value) (key : String) : Describe (List Command) :=
  lift (Command.memberOf v key)

/-- The kind of a state from its name; a kind that is not a string is a plain state. -/
def kindOf : Option Value → Describe StateKind
  | some (.str k) =>
    if k = "state" then pure .state
    else if k = "parallel" then pure .parallel
    else if k = "final" then pure .final
    else if k = "history" then pure (.history .shallow)
    else if k = "history_deep" then pure (.history .deep)
    else bad ("unknown kind " ++ k)
  | _ => pure .state

/-- The events of a transition: those of `done_invoke`, `event` or `events`, whichever comes
first, or none. -/
def eventsOf (v : Value) : Except String (List String) :=
  if let some (.str id) := v.get? "done_invoke" then .ok (TransitionSchema.doneInvoke id).events
  else if let some (.str e) := v.get? "event" then .ok [e]
  else match v.get? "events" with
    | some es => Value.stringList es
    | none => .ok []

/-- The targets of a transition: `target` when it is a string, else the list `targets` (or a
list given as `target`). -/
def targetsOf (v : Value) : Except String (List String) :=
  if let some (.str t) := v.get? "target" then .ok [t]
  else match v.get? "targets" with
    | some ts => Value.stringList ts
    | none => match v.get? "target" with
      | some ts => Value.stringList ts
      | none => .ok []

def guardOf (v : Value) (key : String) : Describe (Option Guard) :=
  lift (v.member? key Guard.ofValue)

/-- A transition. -/
def transition (v : Value) : Describe TransitionSchema := do
  discard (lift (Value.objectOf "transition" v))
  let events ← lift (eventsOf v)
  let targets ← lift (targetsOf v)
  let kind : TransitionKind := if (v.read? "internal" Value.asBool?).getD false then .internal
    else .external
  let guard ← guardOf v "guard"
  let cond := match ← guardOf v "when" with
    | some g => some (Guard.lenient g)
    | none => guard
  pure { events, targets, kind, cond, content := ← content v "actions" }

/-- How an invoked session's data bag is made: a copy of the parent's, or given variables. -/
def childDataOf : Option Value → Except String (Option ChildData)
  | none | some .null => .ok none
  | some (.str "copy") => .ok (some .copy)
  | some v => (some ∘ ChildData.vars) <$> Value.varTable v

def itemsOf (v : Value) (key : String) : Describe (List Value) := do
  pure ((← lift (v.member? key (Value.listOf key))).getD [])

mutual

/-- The machine of a name, compiled on first use. -/
def machine : Nat → String → Describe Document
  | 0, name => bad ("machine nesting too deep at " ++ name)
  | fuel + 1, name => do
    let m ← get
    if let some d := m.built.lookup name then return d
    if m.pending.contains name then bad ("machine cycle at " ++ name)
    let some src := m.sources.lookup name | bad ("unknown machine " ++ name)
    modify fun m => { m with pending := name :: m.pending }
    let schema ← document fuel src
    modify fun m => { m with pending := m.pending.drop 1 }
    match schema.build with
    | .ok d =>
      modify fun m => { m with built := (name, d) :: m.built }
      pure d
    | .error issues => throw (.invalid (some name) issues)

/-- An invocation. -/
def invoke : Nat → Value → Describe InvokeSchema
  | 0, _ => bad "description nesting too deep"
  | fuel + 1, v => do
    discard (lift (Value.objectOf "invoke" v))
    let id := (v.read? "id" Value.asStr?).getD ""
    let source ← match v.get? "machine" with
      | some (.str name) => InvokeSource.machine <$> machine fuel name
      | _ => match v.get? "src" with
        | some (.str src) => pure (InvokeSource.service src)
        | _ => bad "invoke needs machine or src"
    pure { id, source, autoforward := (v.read? "autoforward" Value.asBool?).getD false,
           finalize := ← content v "finalize", childData := ← lift (childDataOf (v.get? "with_data")) }

/-- A state and everything nested in it. -/
def state : Nat → Value → Describe StateSchema
  | 0, _ => bad "description nesting too deep"
  | fuel + 1, v => do
    discard (lift (Value.objectOf "state" v))
    let id := (v.read? "id" Value.asStr?).getD ""
    let kind ← kindOf (v.get? "kind")
    let initialMarker := (v.read? "initial" Value.asBool?).getD false
    let initialTargets := (← lift (v.member? "initial_targets" Value.stringList)).getD []
    let initialContent ← content v "on_initial"
    let onEntry ← content v "on_entry"
    let onExit ← content v "on_exit"
    let doneData := v.get? "done_data"
    let transitions ← (← itemsOf v "transitions").mapM transition
    let invokes ← (← itemsOf v "invokes").mapM (invoke fuel)
    let children ← (← itemsOf v "children").mapM (state fuel)
    pure { id, kind, initialMarker, initialTargets, initialContent, children, transitions,
           invokes, onEntry, onExit, doneData }

/-- A document. -/
def document : Nat → Value → Describe DocumentSchema
  | 0, _ => bad "description nesting too deep"
  | fuel + 1, v => do
    discard (lift (Value.objectOf "doc" v))
    let states ← (← itemsOf v "states").mapM (state fuel)
    let initial := (← lift (v.member? "initial" Value.stringList)).getD []
    pure { states, initial, onInitial := ← content v "on_initial" }

end

/-- Enough nesting for any chain of documents, states, invocations and machines of a request:
every step of such a chain goes one level deeper into one description, or into a machine not yet
being compiled. -/
def nestingBound (main : Value) (machines : List (String × Value)) : Nat :=
  (machines.length + 1) * ((machines.map (·.2.depth)).foldl max main.depth + 4)

end Describe

def Machines.compile (main : Value) : Describe Document := do
  let schema ← Describe.document (Describe.nestingBound main (← get).sources) main
  match schema.build with
  | .ok d => pure d
  | .error issues => throw (.invalid none issues)

/-- Hooks from a request's `scripts` (an object; anything else registers none): each succeeds,
or fails with its `fail` reason. -/
def Hooks.ofValue (scripts : Option Value) (logSink : Bool) : Hooks :=
  let specs := (scripts.map Value.fields).getD []
  { scripts := specs.map fun (src, spec) => (src, spec.read? "fail" Value.asStr?), logSink }

/-- An external service from its description; `on_start` events count only as a list. -/
def ExternalService.ofValue (v : Value) : Except String ExternalService := do
  let onStart ← ((v.get? "on_start").map Value.items |>.getD []).mapM Event.ofInput
  pure { fail := v.read? "fail" Value.asStr?, onStart,
         closed := (v.read? "closed" Value.asBool?).getD false }

/-- A registry from a request's `services` (in name order; anything but an object registers
none) and hooks: a service naming a `machine` runs it, any other is external. -/
def Registry.describe (services : Option Value) (hooks : Hooks) : Describe Registry := do
  let specs := (services.map Value.fields).getD []
  let bound := Describe.nestingBound .null (← get).sources
  specs.foldlM (fun (r : Registry) (src, spec) => do
    match spec.get? "machine" with
    | some (.str name) => pure (r.register src (.machine (← Describe.machine bound name)))
    | _ => pure (r.register src (.external (← Describe.lift (ExternalService.ofValue spec)))))
    { hooks }

end Hsm
