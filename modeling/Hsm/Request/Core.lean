import Hsm.Request.Basic
import Hsm.Session.Config
/-! Requests on the building blocks: event patterns, the three orders of document nodes,
ordered sets, history tables, events, send actions, session settings, and one run of
executable content. -/
namespace Hsm
namespace Request
open Json

def pattern (v : Value) : Value := answer [("value", .bool (patternMatches (str v "pattern") (str v "name")))]

def nameMatches (v : Value) : Value :=
  match v.member? "patterns" Value.stringList with
  | .error message => badInput message
  | .ok patterns => answer [("value", .bool (Hsm.nameMatches (patterns.getD []) (str v "name")))]

/-- A node of the `order` request: a list of a label of any kind, a depth that is a 64-bit
integer and an order that is an unsigned one; further items are ignored. Both numbers are read
before either is checked to fit in 32 bits (the depth signed). -/
def orderNode (v : Value) : Except String (Value × Place) :=
  match v with
  | .arr items => do
    let some d := items[1]?.bind Value.asInt? | .error "bad depth"
    let some o := items[2]?.bind Value.asNat? | .error "bad order"
    if d < -2147483648 || d ≥ 2147483648 then .error "depth out of range"
    if o ≥ 4294967296 then .error "order out of range"
    pure (items.head?.getD .null, ⟨d, o⟩)
  | _ => .error "node is [label, depth, order]"

/-- A list member that a request needs, refused with `message` when it is not a list. -/
def needList (v : Value) (key : String) (message : String) : Except String (List Value) :=
  match v.get? key with
  | some (.arr xs) => .ok xs
  | _ => .error message

/-- `order`: node labels sorted stably in document, entry and exit order. -/
def order (v : Value) : Value :=
  let nodes : Except String (List (Value × Place)) := do
    (← needList v "nodes" "needs nodes").mapM orderNode
  match nodes with
  | .error message => badInput message
  | .ok nodes =>
    let sorted (cmp : Place → Place → Ordering) : Value :=
      .arr ((sortBy (fun a b => cmp a.2 b.2) nodes).map (·.1))
    answer [("document", sorted Place.documentCmp), ("entry", sorted Place.entryCmp),
      ("exit", sorted Place.exitCmp)]

def setItem : Value → Except String String
  | .str s => .ok s
  | _ => .error "string"

/-- Apply the operation `op` with argument `x` to an ordered set of strings: the operation's
result, and the set after it. -/
def orderedSetOp (s : OrderedSet String) (op : String) (x : Value) :
    Except String (Value × OrderedSet String) :=
  if op = "insert" then do
    let (s, added) := s.insert (← setItem x)
    pure (.bool added, s)
  else if op = "remove" then do
    let (s, removed) := s.remove (← setItem x)
    pure (.bool removed, s)
  else if op = "contains" then do pure (.bool (s.contains (← setItem x)), s)
  else if op = "union" then do pure (.null, s.union (← Value.stringList x))
  else if op = "intersects" then do
    pure (.bool (s.intersects (OrderedSet.ofList (← Value.stringList x))), s)
  else if op = "clear" then .ok (.null, {})
  else if op = "sorted" then
    let sorted := if x.asStr? == some "desc" then s.sortedBy (fun a b => compare b a)
      else s.sortedBy (fun a b => compare a b)
    .ok (strs sorted, s)
  else if op = "sorted_len" then
    .ok (strs (s.sortedBy fun a b => compare a.utf8ByteSize b.utf8ByteSize), s)
  else if op = "any_prefix" then do
    let p ← setItem x
    pure (.bool (s.items.any fun item => p.toList.isPrefixOf item.toList), s)
  else .error ("unknown set op " ++ op)

/-- One step on an ordered set: an object whose first member (in key order) names the
operation and holds its argument. -/
def orderedSetStep (s : OrderedSet String) (step : Value) :
    Except String (Value × OrderedSet String) :=
  match step with
  | .obj ((op, x) :: _) => orderedSetOp s op x
  | .obj [] => .error "empty step"
  | _ => .error "step must be object"

/-- The answer to each step on an ordered set, with the items after it. -/
def orderedSetSteps : OrderedSet String → List Value → Except String (List Value)
  | _, [] => .ok []
  | s, step :: rest => do
    let (result, s) ← orderedSetStep s step
    let report := answer [("result", result), ("items", strs s.items),
      ("len", .num (.nat s.size)), ("empty", .bool s.isEmpty)]
    pure (report :: (← orderedSetSteps s rest))

/-- `ordered_set`: the answer to each step, with the items after it. -/
def orderedSet (v : Value) : Value :=
  let answers : Except String (List Value) := do
    let steps ← needList v "steps" "needs steps"
    let init := (← v.member? "init" Value.stringList).getD []
    orderedSetSteps (OrderedSet.ofList init) steps
  match answers with
  | .ok xs => .arr xs
  | .error message => badInput message

def stateIndex (v : Value) : Except String Nat :=
  match v.asNat? with
  | some n => if n < 64 then .ok n else .error "state index must be < 64"
  | none => .error "state index"

/-- One step on a history table: a record (with its kind and the list of its states, read
before the record's own index) or a look-up. -/
def historyStep (t : HistoryTable) (step : Value) : Except String (Value × HistoryTable) :=
  match step.get? "record", step.get? "get" with
  | some h, _ => do
    let states ← (← needList step "states" "needs states").mapM stateIndex
    let h ← stateIndex h
    let kind := if step.read? "kind" Value.asStr? == some "deep" then HistoryKind.deep
      else .shallow
    pure (.null, t.record h kind states)
  | none, some h => do pure (opt nats (t.get (← stateIndex h)), t)
  | none, none => .error "history step needs record or get"

/-- The answer to each step on a history table, with its size after it. -/
def historySteps : HistoryTable → List Value → Except String (List Value)
  | _, [] => .ok []
  | t, step :: rest => do
    let (result, t) ← historyStep t step
    let report := answer [("result", result), ("len", .num (.nat t.size)),
      ("empty", .bool t.isEmpty)]
    pure (report :: (← historySteps t rest))

/-- `history_table`: the answer to each record or look-up, with the table's size after it. -/
def historyTable (v : Value) : Value :=
  let answers : Except String (List Value) := do
    historySteps {} (← needList v "steps" "needs steps")
  match answers with
  | .ok xs => .arr xs
  | .error message => badInput message

def serdeError (message : String) : Value :=
  answer [("error", .str "serde"), ("message", .str message)]

def textOf (v : Value) : Except String String :=
  match v.get? "text" with
  | some (.str t) => .ok t
  | _ => .error "needs text"

/-- The event an `event` request makes: by a constructor, from a JSON event (a malformed one is
a bad request), or from text (a malformed one is a serialization failure, answered at once). -/
def eventOfRequest (v : Value) : Except Value Event :=
  let data := (v.get? "data").getD .null
  match v.get? "ctor" with
  | some (.str ctor) =>
    if ctor = "new" then .ok { name := str v "name", data }
    else if ctor = "done_state" then .ok (Event.doneState (str v "id") data)
    else if ctor = "done_invoke" then .ok (Event.doneInvoke (str v "id") data)
    else if ctor = "error_execution" then .ok (Event.errorExecution (str v "reason"))
    else if ctor = "error_communication" then
      .ok (Event.errorCommunication (str v "target") (str v "event"))
    else if ctor = "parse" then
      (Event.ofInput ((v.get? "event").getD .null)).mapError badInput
    else if ctor = "parse_text" then
      (Event.ofText (str v "text")).mapError fun err => serdeError err.message
    else .error (badInput ("unknown ctor " ++ ctor))
  | _ => .error (badInput "needs ctor")

/-- `event`: an event made by a constructor or read, with completion tests against ids. -/
def event (v : Value) : Value :=
  match eventOfRequest v with
  | .error answer => answer
  | .ok e =>
    match v.member? "is_done_invoke" Value.stringList with
    | .error message => badInput message
    | .ok ids =>
      answer ([("event", e.toValue),
        ("is_done_invoke", .arr ((ids.getD []).map fun i => .bool (e.isDoneInvoke i)))] ++
        if flag v "envelope" then [("envelope_is_event", .bool true)] else [])

/-- `send_action`: an action read from JSON and the event it sends. -/
def sendAction (v : Value) : Value :=
  match SendAction.ofValue ((v.get? "action").getD .null) with
  | .error m => serdeError m.message
  | .ok a =>
    let origin := (v.read? "origin" Value.asStr?).getD "main"
    answer [("action", a.toValue), ("event", (a.toEvent origin).toValue)]

def occursIn (needle : List Char) : List Char → Bool
  | [] => needle.isEmpty
  | c :: cs => needle.isPrefixOf (c :: cs) || occursIn needle cs

/-- Whether a text is a UUID: 32 hexadecimal digits, alone or grouped 8-4-4-4-12 by hyphens,
the grouped form also between braces or after `urn:uuid:` in any case. -/
def isUuidText (s : String) : Bool :=
  let hex (c : Char) : Bool := c.isDigit || ('a' ≤ c && c ≤ 'f') || ('A' ≤ c && c ≤ 'F')
  let grouped (cs : List Char) : Bool :=
    cs.length = 36 && (cs.zipIdx.all fun (c, i) =>
      if i = 8 || i = 13 || i = 18 || i = 23 then c = '-' else hex c)
  let cs := s.toList
  (cs.length = 32 && cs.all hex) || grouped cs ||
    (cs.length = 38 && cs.head? = some '{' && cs.getLast? = some '}' &&
      grouped ((cs.drop 1).take 36)) ||
    (cs.length = 45 && (cs.take 9).map Char.toLower = "urn:uuid:".toList && grouped (cs.drop 9))

/-- `config_json`: session settings read from text. A name is reported as generated when the
text gives none, or gives a UUID that it does not spell out literally. -/
def configJson (v : Value) : Value :=
  match textOf v with
  | .error message => badInput message
  | .ok text =>
    match ConfigFields.ofText text with
    | .error err => serdeError err.message
    | .ok c =>
      let generated := .obj [("generated", .bool true)]
      answer [("name", match c.name with
          | some n => if !occursIn n.toList text.toList && isUuidText n then generated else .str n
          | none => generated),
        ("max_microsteps", .num (.nat c.maxMicrosteps)),
        ("trace_configuration", .bool c.traceConfiguration)]

def dataOf (vars : List (String × Int)) : Data := Data.ofVars vars

def varsOf (v : Value) (key : String) : Except String (List (String × Int)) := do
  pure ((← v.member? key Value.varTable).getD [])

/-- `evaluate`: one run of content on a data bag, with its outbox, effects and kinds. The
request's services are read first, without its machines, then the content, the event and the
variables. -/
def evaluate (v : Value) : Value :=
  let read : Describe (List Command × List (String × Int) × Event × Hooks) := do
    let (hooks, _) ← registryOf v
    let commands ← Describe.lift (Command.memberOf v "commands")
    let e ← Describe.lift ((v.member? "event" Event.ofInput).map (·.getD {}))
    let vars ← Describe.lift (varsOf v "vars")
    pure (commands, vars, e, hooks)
  match (read.run { sources := [] }).1 with
  | .error err => err.toValue
  | .ok (commands, vars, e, hooks) =>
    let session := (v.read? "session" Value.asStr?).getD "main"
    let r := execute hooks session e commands (dataOf vars)
    answer ([("data", r.data.toValue), ("outbox", .arr (r.outbox.map Outgoing.toValue)),
      ("effects", .arr (r.effects.map Effect.toValue)),
      ("kinds", strs (commands.map Command.kind))] ++
      (match r.error with
        | some err => [("error", .str err.kindName), ("message", .str err.message)]
        | none => [("ok", .bool true)]) ++
      if flag v "outbox_stats" then
        [("outbox_stats", .obj [("empty", .bool r.outbox.isEmpty),
          ("len", .num (.nat r.outbox.length))])]
      else [])

end Request
end Hsm
