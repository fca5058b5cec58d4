import Hsm.Chart.Basic
import Hsm.Content.Command
/-! Executable content written as JSON: a list of objects, one per command, each read by the
first of these keys that it has with a value of the right kind: `assign` (a variable name, with an
optional `location` and one update among `set`, `add`, `mul` (each an integer once present),
`from_event` and `fail` (each a string, else skipped), taken in that order), `record`, `record_event`, `raise`, `send` (the JSON form of a send action), `log` (a
label, or anything else for none) and `script`. -/
namespace Hsm
namespace Command
open Json

def need {α : Type} (message : String) : Option α → Except String α
  | some a => .ok a
  | none => .error message

/-- The update of an assignment to `var`, from its object. -/
def updateOf (v : Value) (var : String) : Except String Update :=
  if let some x := v.get? "set" then .set var <$> need "set needs integer" x.asInt?
  else if let some x := v.get? "add" then .add var <$> need "add needs integer" x.asInt?
  else if let some x := v.get? "mul" then .mul var <$> need "mul needs integer" x.asInt?
  else if let some (.str key) := v.get? "from_event" then .ok (.fromEvent var key)
  else if let some (.str reason) := v.get? "fail" then .ok (.fail reason)
  else .error "assign needs set/add/mul/from_event/fail"

/-- A command from JSON. -/
def ofValue (v : Value) : Except String Command :=
  match v with
  | .obj _ =>
    if let some (.str var) := v.get? "assign" then do
      let location := (v.read? "location" Value.asStr?).getD var
      pure (.assign ⟨location, ← updateOf v var⟩)
    else if let some (.str label) := v.get? "record" then .ok (.assign ⟨"trace", .record label⟩)
    else if let some (.str label) := v.get? "record_event" then
      .ok (.assign ⟨"trace", .recordEvent label⟩)
    else if let some (.str name) := v.get? "raise" then .ok (.raise name)
    else if let some a := v.get? "send" then
      match SendAction.ofValue a with
      | .ok action => .ok (.send action)
      | .error m => .error ("send: " ++ m.message)
    else if let some label := v.get? "log" then .ok (.log label.asStr?)
    else if let some (.str src) := v.get? "script" then .ok (.script src)
    else .error "unknown action"
  | _ => .error "action must be an object"

def listOf (v : Value) : Except String (List Command) := do
  (← Value.listOf "actions" v).mapM ofValue

def memberOf (v : Value) (key : String) : Except String (List Command) := do
  pure ((← v.givenWith? key listOf).getD [])

end Command
end Hsm
