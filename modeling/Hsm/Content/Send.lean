import Hsm.Event.Codec
/-! Send actions: an event name with an optional target, payload, send id and delay. As JSON the
event name is required, the payload always written, and the other fields written only when set.
The event put on the wire is external, comes from the sending session, and carries the
action's payload, id and delay. -/
namespace Hsm
open Json

/-- An event to deliver to a queue: `none`, `_self` or the session's own name mean its external
queue, `_internal` its internal queue, `_parent` the invoking session, anything else an invoke
id. -/
structure SendAction where
  event : String
  target : Option String := none
  data : Json.Value := .null
  id : Option String := none
  delay : Option Duration := none

namespace SendAction

def toEvent (a : SendAction) (origin : String) : Event :=
  { name := a.event, kind := .external, data := a.data, origin := some origin,
    sendId := a.id, delay := a.delay }

def fieldNames : List String := ["event", "target", "data", "id", "delay"]

/-- An action as a JSON object. -/
def toValue (a : SendAction) : Value :=
  let opt (k : String) : Option Value → List (String × Value)
    | some v => [(k, v)]
    | none => []
  Value.ofFields ([("event", .str a.event)] ++ opt "target" (a.target.map .str) ++
    [("data", a.data)] ++ opt "id" (a.id.map .str) ++ opt "delay" (a.delay.map Duration.toValue))

/-- The fields read so far: the event name is required, the others default. -/
structure Partial where
  event : Option String := none
  target : Option String := none
  data : Json.Value := .null
  id : Option String := none
  delay : Option Duration := none

/-- Set field `k` from a JSON value; unknown fields change nothing. -/
def Partial.set (p : Partial) (k : String) (v : Value) : Except Mismatch Partial :=
  if k = "event" then do pure { p with event := some (← Value.asString v) }
  else if k = "target" then do pure { p with target := ← Value.asOption Value.asString v }
  else if k = "data" then pure { p with data := v }
  else if k = "id" then do pure { p with id := ← Value.asOption Value.asString v }
  else if k = "delay" then do pure { p with delay := ← Value.asOption Duration.ofValue v }
  else pure p

def Partial.finish (p : Partial) (missing : Mismatch) : Except Mismatch SendAction :=
  match p.event with
  | some event => .ok { event, target := p.target, data := p.data, id := p.id, delay := p.delay }
  | none => .error missing

/-- An action from a JSON value. -/
def ofValue : Value → Except Mismatch SendAction :=
  Value.asStruct "SendAction"
    (fun xs => do
      let p ← (fieldNames.zip xs).foldlM (fun (p : Partial) (kv : String × Value) => p.set kv.1 kv.2) {}
      let a ← p.finish (.invalidLength 0 "struct SendAction with 5 elements")
      pure (a, min xs.length fieldNames.length))
    (fun fs => do
      let p ← fs.foldlM (fun (p : Partial) (kv : String × Value) => p.set kv.1 kv.2) {}
      p.finish (.missingField "event"))

def printWith (lib : Json.Library) (a : SendAction) : String := lib.print a.toValue

def parseWith (lib : Json.Library) (s : String) : Except Error SendAction := do
  (ofValue (← lib.parse s)).mapError fun m => ⟨.inr m, none⟩

end SendAction
end Hsm
