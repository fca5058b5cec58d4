import Hsm.Session.World
/-! Running a session, as computations over the shared world on behalf of the session at index
`me`. A macrostep takes one external event, fires what it enables, processes eventless
transitions and internal events up to the microstep limit, and starts invocations of entered
states. A session that stops is torn down; one that fails cancels its invocations and tells the
invoking session with `error.execution`. -/
namespace Hsm

/-- The first `script` command whose script is not registered, among the entry and exit content
of every state, the content of every transition, and the finalize content of every invocation. -/
def Document.unknownScript (d : Document) (hooks : Hooks) : Option ContentError :=
  let commands := d.states.toList.flatMap (fun s => s.onEntry ++ s.onExit) ++
    d.transitions.toList.flatMap (·.content) ++ d.invokes.toList.flatMap (·.finalize)
  commands.findSome? fun
    | .script src => if hooks.hasScript src then none else some (.unknownScript src)
    | _ => none

/-- Steps of sessions: state changes of the world that may fail with a session error, keeping
what they changed before failing. -/
abbrev Engine := ExceptT SessionError (StateM World)

abbrev Launch := ExceptT InvokeError (StateM World)

namespace Engine

def observe {α : Type} (x : Engine α) : Engine (Except SessionError α) := ExceptT.lift x.run

def current (me : Nat) : Engine Session := return (← get).session me

def update (me : Nat) (f : Session → Session) : Engine Unit := modify (·.modifySession me f)

def post (m : Nat) (env : Envelope) : Engine Unit := do
  match (← get).post m env with
  | .ok w => set w
  | .error e => throw e

def raiseInternal (me : Nat) (e : Event) : Engine Unit :=
  update me fun s => { s with internal := s.internal ++ [e] }

def publish (me : Nat) : Engine Unit :=
  update me fun s => { s with published := s.activeNames, version := s.version + 1 }

def cancelChild (c : ChildHandle) : Engine Unit :=
  if c.status == .invoked then modify (·.postQuiet c.mailbox .cancel) else pure ()

/-- Remove and cancel the handle of an invocation. -/
def cancelInvoke (me : Nat) (invokeId : String) : Engine Unit := do
  match (← current me).child? invokeId with
  | some c =>
    update me fun s => { s with children := s.children.filter (·.1 != invokeId) }
    cancelChild c
  | none => pure ()

def cancelInvokesOf (me : Nat) (doc : Document) (st : Nat) : Engine Unit :=
  (doc.state st).invokes.forM fun i =>
    match doc.invoke? i with
    | some node => cancelInvoke me node.id
    | none => pure ()

/-- Deliver an event: no target, `_self` and the session's own name mean its external queue,
`_internal` its internal queue (as an internal event), `_parent` the invoking session, and any
other target the invocation of that id. -/
def deliver (me : Nat) (e : Event) (target : Option String) : Engine Unit := do
  let s ← current me
  match target with
  | none => post s.mailbox (.event e)
  | some t =>
    if t == "_self" then post s.mailbox (.event e)
    else if t == "_internal" then raiseInternal me { e with kind := .internal }
    else if t == "_parent" then
      match s.parent with
      | some link =>
        match (← get).send link e with
        | .ok w => set w
        | .error err => throw err
      | none => throw (.undeliverable "_parent")
    else if t == s.config.name then post s.mailbox (.event e)
    else match s.child? t with
      | some c => post c.mailbox (.event e)
      | none => throw (.undeliverable t)

/-- Route what content produced, in order: raised events go to the internal queue, sent ones
are delivered, and one that cannot be delivered becomes `error.communication`. -/
def route (me : Nat) : List Outgoing → Engine Unit
  | [] => pure ()
  | .raise e :: rest => do
    raiseInternal me e
    route me rest
  | .send e target :: rest => do
    match ← observe (deliver me e target) with
    | .ok () => pure ()
    | .error _ => raiseInternal me (Event.errorCommunication (target.getD "_self") e.name)
    route me rest

/-- Run content on behalf of session `me`, against the data bag of session `owner`, for event
`e`; what it produced is routed only if it all succeeded. -/
def runOn (me owner : Nat) (e : Event) (cmds : List Command) : Engine Unit := do
  let w ← get
  let r := execute w.registry.hooks (w.session me).config.name e cmds (w.session owner).data
  set ({ w with effects := w.effects ++ r.effects.toArray }.modifySession owner
    fun o => { o with data := r.data })
  match r.error with
  | some err => throw (.content err)
  | none => route me r.outbox

def exec (me : Nat) (cmds : List Command) : Engine Unit := do
  if cmds.isEmpty then return
  runOn me me (← current me).event cmds

def selectEventless (me : Nat) : Engine (OrderedSet Nat) := do
  let s ← current me
  match s.selector.selectEventless s.data s.event with
  | .ok r => pure r
  | .error e => throw e

def selectCurrent (me : Nat) : Engine (OrderedSet Nat) := do
  let s ← current me
  match s.selector.selectFor s.data s.event with
  | .ok r => pure r
  | .error e => throw e

/-- Exit what transitions leave: record history of the states left, then in exit order run each
state's exit content, cancel its invocations and deactivate it. -/
def exitStates (me : Nat) (ts : List Nat) : Engine Unit := do
  let s ← current me
  let sel := s.selector
  let exit := sel.exitSet ts
  let snapshots := exit.items.flatMap fun st => (s.doc.state st).history.filterMap fun h =>
    (s.doc.historyKind? h).map fun k => (h, k, sel.historySnapshot st k)
  update me fun s => { s with
    toInvoke := exit.items.foldl OrderedSet.erase s.toInvoke
    history := snapshots.foldl (fun t r => t.record r.1 r.2.1 r.2.2) s.history }
  (sortBy s.doc.exitCmp exit.items).forM fun st => do
    exec me (s.doc.state st).onExit
    cancelInvokesOf me s.doc st
    update me fun s => { s with configuration := s.configuration.erase st }

/-- A final state was entered: a top-level one ends the session; another raises
`done.state.<parent>`, and `done.state.<grandparent>` too when that completes a parallel
grandparent. -/
def enterFinal (me : Nat) (st : Nat) : Engine Unit := do
  let s ← current me
  let parent := (s.doc.state st).parent.getD 0
  if parent == 0 then update me fun s => { s with status := .done }
  else
    raiseInternal me (Event.doneState (s.doc.name parent) ((s.doc.state st).doneData.getD .null))
    match (s.doc.state parent).parent with
    | some gp =>
      if s.doc.isParallel gp && (← current me).selector.isInFinalState gp then
        raiseInternal me (Event.doneState (s.doc.name gp) .null)
    | none => pure ()

/-- Enter what transitions enter, in entry order: activate each state, run its entry content,
then its default-entry content when entered by default, then the content of the history default
that led into it, and handle final states. -/
def enterStates (me : Nat) (ts : List Nat) : Engine Unit := do
  let s ← current me
  let entry := s.selector.entrySet ts
  (sortBy s.doc.entryCmp entry.states.items).forM fun st => do
    let node := s.doc.state st
    update me fun s =>
      { s with configuration := s.configuration.add st, toInvoke := s.toInvoke.add st }
    exec me node.onEntry
    if entry.defaultEntry.contains st then
      if let some i := node.initial then exec me (s.doc.transition i).content
    if let some d := entry.historyContent.lookup st then exec me (s.doc.transition d).content
    if s.doc.isFinal st then enterFinal me st

def microstep (me : Nat) (ts : List Nat) : Engine Unit := do
  exitStates me ts
  let doc := (← current me).doc
  ts.forM fun t => exec me (doc.transition t).content
  enterStates me ts

/-- Start a child session for an invocation, with its data bag made from the invoking
session's; it runs as a task once the runtime polls it. -/
def spawnChild (me : Nat) (node : InvokeNode Document) (doc : Document) : Launch ChildHandle := do
  let w ← get
  if !w.runtime then throw (.noRuntime node.id)
  let s := w.session me
  let data : Data := match node.childData with
    | none => {}
    | some .copy => s.data
    | some (.vars vs) => Data.ofVars vs
  if let some err := doc.unknownScript w.registry.hooks then
    throw (.serviceFailed node.id err.message)
  let id := w.sessions.size
  let (mb, w) := w.addMailbox { owner := some id }
  let child : Session :=
    { doc, config := { s.config with name := s.config.name ++ "." ++ node.id }, mailbox := mb,
      parent := some ⟨s.mailbox, node.id⟩, drive := .fresh data }
  set ({ w with sessions := w.sessions.push child }.schedule id)
  pure { invokeId := node.id, mailbox := mb, session := some id }

/-- Start an external service for an invocation. -/
def startService (me : Nat) (invokeId src : String) (svc : ExternalService) :
    Launch ChildHandle := do
  modify fun w => { w with effects := w.effects.push (.service src invokeId) }
  if let some reason := svc.fail then throw (.serviceFailed src reason)
  let link : ParentLink := ⟨((← get).session me).mailbox, invokeId⟩
  svc.onStart.forM fun e => modify (·.sendQuiet link e)
  let (mb, w) := (← get).addMailbox { live := !svc.closed }
  set { w with services := w.services.push { src, invokeId, inbox := mb, link } }
  pure { invokeId, mailbox := mb }

/-- Start one invocation and keep its handle, cancelling a handle it replaces. -/
def startInvoke (me : Nat) (node : InvokeNode Document) : Launch Unit := do
  let child ← match node.source with
    | .machine doc => spawnChild me node doc
    | .service src =>
      match (← get).registry.resolve src with
      | .error e => throw e
      | .ok (.machine doc) => spawnChild me node doc
      | .ok (.external svc) => startService me node.id src svc
  let s := (← get).session me
  match s.child? node.id with
  | some previous =>
    modify (·.modifySession me fun s => { s with
      children := s.children.map fun p => if p.1 == node.id then (node.id, child) else p })
    if previous.status == .invoked then modify (·.postQuiet previous.mailbox .cancel)
  | none =>
    modify (·.modifySession me fun s => { s with children := s.children ++ [(node.id, child)] })

/-- Start the invocations of the states entered since the last time, in entry order; one that
cannot start raises `error.execution` carrying its invoke id. -/
def startInvokes (me : Nat) : Engine Unit := do
  let s ← current me
  update me fun s => { s with toInvoke := {} }
  (sortBy s.doc.entryCmp s.toInvoke.items).forM fun st =>
    (s.doc.state st).invokes.forM fun i =>
      match s.doc.invoke? i with
      | some node => do
        match ← (ExceptT.lift (startInvoke me node).run : Engine (Except InvokeError Unit)) with
        | .ok () => pure ()
        | .error err =>
          raiseInternal me ((Event.errorExecution err.message).withInvokeId node.id)
      | none => pure ()

/-- The next enabled transitions: eventless ones first; otherwise those of the next internal
event of `queue` that enables any (the events before it are consumed); none when the queue runs
out. -/
def nextEnabled (me : Nat) (queue : List Event) : Engine (Option (OrderedSet Nat)) := do
  update me fun s => { s with internal := queue }
  let enabled ← selectEventless me
  if !enabled.isEmpty then return some enabled
  match queue with
  | [] => return none
  | e :: rest =>
    update me fun s => { s with internal := rest, event := e }
    let enabled ← selectCurrent me
    if !enabled.isEmpty then return some enabled
    nextEnabled me rest

/-- Fire enabled transitions until none is enabled or the session stops; `left` microsteps are
still allowed, and one more fails with the limit. Returns how many are left. -/
def drain (me limit : Nat) (left : Nat) : Engine Nat := do
  if !(← current me).isRunning then return left
  match ← nextEnabled me (← current me).internal with
  | none => return left
  | some enabled =>
    match left with
    | 0 => throw (.microstepLimit limit)
    | left + 1 =>
      microstep me enabled.items
      drain me limit left

/-- Alternate draining and starting invocations until starting them raises nothing; `false`
when the session stopped. Each round but the last follows a microstep, so `fuel` rounds of
`limit + 2` always suffice. -/
def rounds (me limit : Nat) : Nat → Nat → Engine Bool
  | 0, _ => return true
  | fuel + 1, left => do
    let left ← drain me limit left
    if !(← current me).isRunning then return false
    startInvokes me
    if (← current me).internal.isEmpty then return true
    rounds me limit fuel left

def macrostep (me : Nat) : Engine Unit := do
  let limit := (← current me).config.maxMicrosteps
  if ← rounds me limit (limit + 2) limit then publish me

/-- Exit everything still active, cancel every invocation, clear the queues, and, when a
top-level final state was active, keep its done data and tell the invoking session. -/
def teardown (me : Nat) : Engine Unit := do
  let s ← current me
  let done ← (sortBy s.doc.exitCmp s.configuration.items).foldlM (fun done st => do
    let node := s.doc.state st
    exec me node.onExit
    cancelInvokesOf me s.doc st
    update me fun s => { s with configuration := s.configuration.erase st }
    pure (if node.mode == .final && node.parent == some 0 then some (node.doneData.getD .null)
      else done)) none
  (← current me).children.forM fun c => cancelChild c.2
  update me fun s => { s with children := [], toInvoke := {}, internal := [] }
  if let some data := done then
    if let some link := s.parent then modify (·.sendQuiet link (Event.doneInvoke link.invokeId data))
    update me fun s => { s with doneData := some data }
  publish me

/-- Fail with an error: cancel every invocation, tell the invoking session, publish. -/
def fail (me : Nat) (err : SessionError) : Engine SessionError := do
  update me fun s => { s with status := .failed }
  (← current me).children.forM fun c => cancelChild c.2
  update me fun s => { s with children := [] }
  if let some link := (← current me).parent then
    modify (·.sendQuiet link (Event.errorExecution err.message))
  publish me
  return err

/-- After a step: fail on its error, tear down when the session stopped. -/
def settle (me : Nat) (result : Except SessionError Unit) : Engine Unit := do
  match result with
  | .error e => throw (← fail me e)
  | .ok () =>
    if (← current me).isRunning then pure ()
    else match ← observe (teardown me) with
      | .ok () => pure ()
      | .error e => throw (← fail me e)

/-- Run the finalize content of an invocation on its child's data bag. -/
def applyFinalize (me : Nat) (node : InvokeNode Document) (e : Event) : Engine Unit := do
  if node.finalize.isEmpty then return
  match (← current me).child? node.id >>= (·.session) with
  | none =>
    raiseInternal me ((Event.errorExecution
      ("no child session for invoke '" ++ node.id ++ "'")).withInvokeId node.id)
  | some c => runOn me c e node.finalize

/-- Forward an event to an invocation that is still running, ignoring a closed mailbox. -/
def autoforward (me : Nat) (invokeId : String) (e : Event) : Engine Unit := do
  match (← current me).child? invokeId with
  | some c => if c.status == .invoked then modify (·.postQuiet c.mailbox (.event e))
  | none => pure ()

/-- For each invocation of each active state: finalize it when the event comes from it, and
forward the event when it asks for that. -/
def finalizeAndForward (me : Nat) (e : Event) : Engine Unit := do
  let s ← current me
  s.configuration.items.forM fun st =>
    (s.doc.state st).invokes.forM fun i =>
      match s.doc.invoke? i with
      | some node => do
        if e.invokeId == some node.id then applyFinalize me node e
        if node.autoforward then autoforward me node.id e
      | none => pure ()

/-- Process one external event. -/
def processExternal (me : Nat) (e : Event) : Engine Unit := do
  if let some id := e.invokeId then
    if e.isDoneInvoke id then
      update me fun s => { s with children := s.children.map fun p =>
        if p.1 == id && p.2.status == .invoked then (p.1, { p.2 with status := .done }) else p }
  update me fun s => { s with event := e }
  finalizeAndForward me e
  let enabled ← selectCurrent me
  if !enabled.isEmpty then microstep me enabled.items
  macrostep me

/-- Handle one envelope of the external queue; nothing happens once the session stopped. -/
def handle (me : Nat) (env : Envelope) : Engine Unit := do
  if !(← current me).isRunning then return
  match env with
  | .cancel =>
    update me fun s => { s with status := .cancelled }
    settle me (.ok ())
  | .event e => settle me (← observe (processExternal me e))

def enterInitial (me : Nat) : Engine Unit := do
  let s ← current me
  if let some i := (s.doc.state 0).initial then microstep me [i]
  macrostep me

def start (me : Nat) (data : Data) : Engine Unit := do
  if (← current me).status != .idle then throw .alreadyStarted
  update me fun s => { s with data, status := .running }
  settle me (← observe (enterInitial me))

def ensureStarted (me : Nat) : Engine Unit := do
  if (← current me).status == .idle then throw .notStarted

/-- Handle queued envelopes while the session runs, at most `fuel` of them. -/
def runQueued (me : Nat) : Nat → Engine Unit
  | 0 => pure ()
  | fuel + 1 => do
    if !(← current me).isRunning then return
    let (env, w) := (← get).take (← current me).mailbox
    set w
    match env with
    | none => pure ()
    | some env =>
      handle me env
      runQueued me fuel

def queueBudget : Nat := 1048576

def runPending (me : Nat) : Engine Unit := do
  ensureStarted me
  runQueued me queueBudget

/-- Wait for one envelope and handle it; `env` is the envelope that arrives. A session never
started refuses, and one that stopped returns at once. -/
def processNext (me : Nat) (env : Envelope) : Engine Unit := do
  ensureStarted me
  handle me env

/-- Route an event as content would; an `_internal` one is processed at once when the session
runs. -/
def sendTo (me : Nat) (e : Event) (target : String) : Engine Unit := do
  deliver me e (some target)
  if target == "_internal" && (← current me).isRunning then
    settle me (← observe (macrostep me))

def send (me : Nat) (e : Event) : Engine Unit := do post (← current me).mailbox (.event e)

def cancel (me : Nat) : Engine Unit := do post (← current me).mailbox .cancel

end Engine
end Hsm
