import Hsm.Request.Core
import Hsm.Request.Document
import Hsm.Session.Task
/-! Requests that run sessions. A `session` request drives one session by host calls, step by
step, with invoked sessions running as tasks whenever the host lets the runtime run; after each
step it reports the session's state, the effects observed and what external services received.
A `spawn` request runs the session itself as a task and drives it through a handle: sending to
it, letting the runtime run, waiting for a new configuration or for the outcome. -/
namespace Hsm
namespace Request
open Json

def generatedCandidate (k : Nat) : String :=
  let digits := Nat.toDigits 16 k
  "00000000-0000-4000-8000-" ++ String.ofList (List.replicate (12 - digits.length) '0' ++ digits)

/-- A generated session name that occurs nowhere in `text`. Distinct candidates of one length
occur at distinct places of the text, so one of the first `text.length + 1` is free. -/
def generatedName (text : String) : String :=
  let free := (List.range (text.length + 1)).map generatedCandidate |>.find? fun n =>
    !occursIn n.toList text.toList
  free.getD (generatedCandidate 0)

def mapText (f : String → String) : Value → Value
  | .str s => .str (f s)
  | .arr xs => .arr (mapItems xs)
  | .obj fs => .obj (mapFields fs)
  | v => v
where
  mapItems : List Value → List Value
    | [] => []
    | x :: xs => mapText f x :: mapItems xs
  mapFields : List (String × Value) → List (String × Value)
    | [] => []
    | (k, x) :: fs => (f k, mapText f x) :: mapFields fs

def eventOf (step : Value) : Except String Event := Event.ofInput ((step.get? "event").getD .null)

def stepName (step : Value) : String := (step.read? "do" Value.asStr?).getD ""

/-- The steps of a request: the items of its `steps` list, none when it is not a list. -/
def stepsOf (v : Value) : List Value := ((v.get? "steps").map Value.items).getD []

def errorFields (e : SessionError) : List (String × Value) :=
  [("error", .str e.kindName), ("message", .str e.message)]

/-- Compile the request's document and registry: the document's machines first, then those of
services. -/
def describeSession (v : Value) : Except ChartError (Document × Registry) :=
  describe v do
    let d ← Machines.compile ((v.get? "doc").getD .null)
    let (_, r) ← registryOf v
    pure (d, r)

def hostWorld (d : Document) (config : SessionConfig) (registry : Registry) (runtime : Bool) :
    World :=
  { sessions := #[{ doc := d, config, mailbox := 0 }], mailboxes := #[{}], registry, runtime }

def runStep {α : Type} (w : World) (x : Engine α) : Except SessionError α × World := x.run.run w

/-- What external services received since the last look, in the order they started; their
mailboxes are emptied. -/
def drainInboxes (w : World) : List Value × World :=
  w.services.toList.foldl (fun (acc : List Value × World) svc =>
    let mb := acc.2.mailbox svc.inbox
    let entries := mb.queue.map fun
      | .event e => answer [("invoke", .str svc.invokeId), ("event", e.toValue)]
      | .cancel => answer [("invoke", .str svc.invokeId), ("cancel", .bool true)]
    (acc.1 ++ entries,
      { acc.2 with mailboxes := acc.2.mailboxes.modify svc.inbox fun mb => { mb with queue := [] } }))
    ([], w)

def newEffects (w : World) (seen : Nat) : Value :=
  .arr ((w.effects.toList.drop seen).map Effect.toValue)

/-- Settle a host-driven session: twelve times, let the runtime run (when there is one) and
handle what is queued; stop at the first error. -/
def settleHost : Nat → Engine Unit
  | 0 => pure ()
  | n + 1 => do
    if (← get).runtime then modifyGet (fun w => ((), ((Engine.yieldTimes Runtime.host 16).run w).2))
    Engine.runPending 0
    settleHost n

/-- One step of a `session` request: the outcome of the step and the value it reports. -/
def hostStep (step : Value) : StateM World (Except (Option String) Unit × Option Value) := do
  let w ← get
  let s := w.session 0
  let engine (x : Engine Unit) : StateM World (Except (Option String) Unit × Option Value) := do
    let (r, w) := runStep (← get) x
    set w
    pure (r.mapError (fun e => some (e.kindName ++ "\n" ++ e.message)), none)
  let refuse (message : String) : StateM World (Except (Option String) Unit × Option Value) :=
    pure (.error (some ("bad_input\n" ++ message)), none)
  let withEvent (f : Event → Engine Unit) :
      StateM World (Except (Option String) Unit × Option Value) :=
    match eventOf step with
    | .ok e => engine (f e)
    | .error message => refuse message
  let value (x : Value) : StateM World (Except (Option String) Unit × Option Value) :=
    pure (.ok (), some x)
  let invoke : Except String String := match step.get? "invoke" with
    | some (.str id) => .ok id
    | _ => .error "needs invoke"
  match step.get? "do" with
  | some (.str name) =>
  if name = "start" then
    match varsOf step "vars" with
    | .ok vars => engine (Engine.start 0 (dataOf vars))
    | .error message => refuse message
  else if name = "send" then withEvent (Engine.send 0)
  else if name = "run" then engine (Engine.runPending 0)
  else if name = "event" then withEvent fun e => do Engine.send 0 e; Engine.runPending 0
  else if name = "send_to" then
    match step.get? "target" with
    | some (.str target) => withEvent fun e => Engine.sendTo 0 e target
    | _ => refuse "send_to needs target"
  else if name = "cancel" then engine (Engine.cancel 0)
  else if name = "service_send" then
    match invoke with
    | .error message => refuse message
    | .ok id =>
      match w.services.toList.reverse.find? (·.invokeId == id) with
      | some svc => withEvent fun e => do
        match (← get).send svc.link e with
        | .ok w => set w
        | .error err => throw err
      | none => refuse "no service started for that invoke"
  else if name = "service_drop" then
    match invoke with
    | .error message => refuse message
    | .ok id =>
      set (w.services.toList.foldl (fun w svc => if svc.invokeId == id then w.close svc.inbox else w) w)
      pure (.ok (), none)
  else if name = "settle" then engine (settleHost 12)
  else if name = "history" then value (opt strs (s.historyOf (str step "id")))
  else if name = "is_active" then value (.bool (s.isActive (str step "id")))
  else if name = "exit_order" then value (strs s.exitOrder)
  else if name = "outcome" then
    value (answer [("name", .str s.config.name), ("status", .str s.status.name),
      ("done_data", opt id s.doneData), ("configuration", strs s.activeNames)])
  else if name = "debug" then value (.str s.dump)
  else if name = "snapshot" then value (strs s.published)
  else if name = "shared_data" then value s.data.toValue
  else if name = "document" then
    value (answer [("len", .num (.nat s.doc.size)), ("debug", .str s.doc.dump)])
  else if name = "sender_send" then
    match eventOf step with
    | .error message => refuse message
    | .ok e =>
      let (r, w') := runStep w (Engine.send 0 e)
      set w'
      pure (r.mapError (fun e => some (e.kindName ++ "\n" ++ e.message)),
        some (answer [("closed", .bool (w'.isClosed s.mailbox))]))
  else refuse ("unknown step " ++ name)
  | _ => refuse "step needs do"

def failureFields (text : String) : List (String × Value) :=
  match text.splitOn "\n" with
  | kind :: rest => [("error", .str kind), ("message", .str ("\n".intercalate rest))]
  | [] => [("error", .str text)]

/-- The report after a step of a `session` request. -/
def hostReport (invokeIds : List String) (result : Except (Option String) Unit)
    (value : Option Value) (seen : Nat) : StateM World Value := do
  let (inbox, w) := drainInboxes (← get)
  set w
  let s := w.session 0
  pure (answer ([("status", .str s.status.name), ("configuration", strs s.activeNames),
    ("data", s.data.toValue), ("done_data", opt id s.doneData),
    ("invokes", Value.ofFields (invokeIds.map fun i =>
      (i, opt (fun st => .str (InvokeStatus.name st)) (s.invokeStatus i)))),
    ("effects", newEffects w seen), ("inbox", .arr inbox)] ++
    (match result with
      | .ok () => [("ok", .bool true)]
      | .error (some text) => failureFields text
      | .error none => []) ++
    (match value with
      | some x => [("value", x)]
      | none => [])))

/-- Run the steps of a `session` request. -/
def hostSteps (invokeIds : List String) : List Value → StateM World (List Value)
  | [] => pure []
  | step :: rest => do
    let seen := (← get).effects.size
    let (result, value) ← hostStep step
    let report ← hostReport invokeIds result value seen
    pure (report :: (← hostSteps invokeIds rest))

/-- `session`: drive a session by host calls. With `default_config` the session gets a
generated name, reported as `$generated`, and an empty registry. -/
def session (v : Value) : Value :=
  let defaults := flag v "default_config"
  match describeSession v with
  | .error err => err.toValue
  | .ok (d, registry) =>
    let cv := (v.get? "config").getD .null
    let name := generatedName v.render
    let config : SessionConfig := if defaults then { name }
      else { name := (cv.read? "name" Value.asStr?).getD "main",
             maxMicrosteps := (cv.read? "max_microsteps" Value.asNat?).getD 10000,
             traceConfiguration := (cv.read? "trace_configuration" Value.asBool?).getD true }
    let registry : Registry := if defaults then {} else registry
    match d.unknownScript registry.hooks with
    | some err => answer [("error", .str ("Content." ++ err.kindName)),
        ("message", .str err.message), ("construct", .bool true)]
    | none =>
      let invokeIds := sortedNames (d.invokes.toList.map (·.id)) |>.eraseDups
      let w := hostWorld d config registry (flag v "runtime")
      let result := answer [("steps", .arr (hostSteps invokeIds (stepsOf v) |>.run w).1)]
      if defaults then mapText (·.replace name "$generated") result else result

/-- How far a `join` of a spawned session has come: not asked, waiting for the outcome, or
answered. Once asked, the handle is consumed. -/
inductive JoinState where
  | idle
  | waiting
  | answered
  deriving DecidableEq

/-- What a handle on a spawned session holds: the publication it has seen, and how far a join
has come. -/
structure Handle where
  seen : Nat
  join : JoinState := .idle

/-- Wait for something of the spawned session: check, and let the runtime run, up to `n`
times; `none` when it is still not there. -/
def waitFor {α : Type} (check : World → Option α) : Nat → StateM World (Option α)
  | 0 => pure none
  | n + 1 => do
    match check (← get) with
    | some a => pure (some a)
    | none =>
      Engine.yieldTimes Runtime.host 1
      waitFor check n

/-- A new configuration of the spawned session, or `closed` once it is gone. -/
def changedOf (seen : Nat) (w : World) : Option (Except SessionError (List String × Nat)) :=
  let s := w.session 0
  if s.version != seen then some (.ok (s.published, s.version))
  else match s.drive with
    | .finished _ => some (.error .closed)
    | _ => none

def joinOf (w : World) : Option (Except SessionError Outcome) :=
  match (w.session 0).drive with
  | .finished r => some r
  | _ => none

def outcomeValue (o : Outcome) : Value :=
  answer [("name", .str o.name), ("status", .str o.status.name), ("done_data", opt id o.doneData),
    ("configuration", strs o.configuration)]

def refusal (message : String) : List (String × Value) :=
  [("error", .str "bad_input"), ("message", .str message)]

/-- One step of a `spawn` request: the fields it reports. Settling needs no handle; a join waits
for the outcome and consumes the handle (a later join waits again until the outcome came); the
other steps need the handle. -/
def handleStep (step : Value) (h : Handle) : StateM World (List (String × Value) × Handle) := do
  let w ← get
  let s := w.session 0
  let post (env : Envelope) : StateM World (List (String × Value)) := do
    match (← get).post s.mailbox env with
    | .ok w' => set w'; pure [("ok", .bool true)]
    | .error e => pure (errorFields e)
  let name := stepName step
  if name = "settle" then do Engine.yieldTimes Runtime.host 64; pure ([("ok", .bool true)], h)
  else if name = "join" then
    if h.join = .answered then pure (refusal "already joined", h)
    else do
      match ← waitFor joinOf 64 with
      | some (.ok o) => pure ([("value", outcomeValue o)], { h with join := .answered })
      | some (.error e) => pure (errorFields e, { h with join := .answered })
      | none => pure ([("pending", .bool true)], { h with join := .waiting })
  else if h.join != .idle then pure (refusal "handle already consumed by join", h)
  else if name = "send" then
    match eventOf step with
    | .ok e => do pure (← post (.event e), h)
    | .error message => pure (refusal message, h)
  else if name = "cancel" then do pure (← post .cancel, h)
  else if name = "debug" then pure ([("value", .str (handleDump s.config.name s.published))], h)
  else if name = "sender_send" then
    match eventOf step with
    | .ok e => do
      let fields ← post (.event e)
      pure (fields ++ [("closed", .bool ((← get).isClosed s.mailbox))], h)
    | .error message => pure (refusal message, h)
  else if name = "changed" then do
    match ← waitFor (changedOf h.seen) 64 with
    | some (.ok (config, version)) => pure ([("value", strs config)], { h with seen := version })
    | some (.error e) => pure (errorFields e, h)
    | none => pure ([("pending", .bool true)], h)
  else pure (refusal ("unknown step " ++ name), h)

/-- Run the steps of a `spawn` request; each reports the effects observed since the previous
one, the first those since the session started, and the handle's configuration while it is
not consumed. -/
def handleSteps : List Value → Handle → Nat → StateM World (List Value)
  | [], _, _ => pure []
  | step :: rest, h, seen => do
    let (fields, h) ← handleStep step h
    let w ← get
    let config := if h.join = .idle then [("configuration", strs (w.session 0).published)] else []
    let report := answer (fields ++ config ++ [("effects", newEffects w seen)])
    pure (report :: (← handleSteps rest h w.effects.size))

/-- `spawn`: start a session as a task and drive it through a handle. -/
def spawn (v : Value) : Value :=
  match describeSession v with
  | .error err => err.toValue
  | .ok (d, registry) =>
    match varsOf v "vars" with
    | .error message => badInput message
    | .ok vars =>
    match d.unknownScript registry.hooks with
    | some err => answer [("error", .str ("Content." ++ err.kindName)), ("message", .str err.message)]
    | none =>
      let runtime := (v.read? "runtime" Value.asBool?).getD true
      if !runtime then answer (errorFields .noRuntime)
      else
        let config : SessionConfig := { name := (v.read? "name" Value.asStr?).getD "spawned" }
        let w := hostWorld d config registry true
        match runStep w (Engine.start 0 (dataOf vars)) with
        | (.error e, _) => answer (errorFields e)
        | (.ok (), w) =>
          let w := ({ w.modifySession 0 (fun s => { s with drive := .ready }) with
            mailboxes := w.mailboxes.modify 0 fun mb => { mb with owner := some 0 } }).schedule 0
          let s := w.session 0
          let first := answer [("name", .str s.config.name), ("configuration", strs s.published)]
          answer [("steps", .arr (first :: (handleSteps (stepsOf v) ⟨s.version, .idle⟩ 0 |>.run w).1))]

end Request
end Hsm
