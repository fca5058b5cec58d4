import Hsm.Content.Data
import Hsm.Content.Send
/-! Executable content: assignments to the data bag, sends, raises, log lines and calls of host
scripts. An assignment names a location (how it is reported) and an update: set, add or multiply
a variable (sums and products must stay within 64 bits), copy an integer member of the event's
payload, append to the trace, or fail. A failed update leaves the bag as it was. -/
namespace Hsm

/-- How an assignment changes the data bag. -/
inductive Update where
  | set (var : String) (value : Int)
  | add (var : String) (value : Int)
  | mul (var : String) (value : Int)
  /-- Copy the integer member `key` of the event's payload. -/
  | fromEvent (var : String) (key : String)
  | fail (reason : String)
  /-- Append a label to the trace. -/
  | record (label : String)
  /-- Append a label and the event's JSON text to the trace. -/
  | recordEvent (label : String)

/-- An assignment: where it writes, as reported, and what it does. -/
structure Assign where
  location : String
  update : Update

/-- One command of executable content. -/
inductive Command where
  | assign (a : Assign)
  | send (action : SendAction)
  /-- Put an event with this name on the session's own internal queue. -/
  | raise (name : String)
  | log (label : Option String)
  /-- Call the host script registered under this name. -/
  | script (src : String)

/-- The kind of a command. -/
def Command.kind : Command → String
  | .assign _ => "assign"
  | .send _ => "send"
  | .raise _ => "raise"
  | .log _ => "log"
  | .script _ => "script"

def checked64 (i : Int) : Except String Int :=
  if fitsInt64 i then .ok i else .error "overflow"

def integerMember (data : Json.Value) (key : String) : Option Int :=
  match data.get? key with
  | some (.num (.nat n)) => if n < 9223372036854775808 then some n else none
  | some (.num (.neg i)) => some i
  | _ => none

/-- Apply an update to the data bag for the current event. -/
def Update.apply (d : Data) (e : Event) : Update → Except String Data
  | .set var value => .ok (d.set var value)
  | .add var value => do pure (d.set var (← checked64 (d.get var + value)))
  | .mul var value => do pure (d.set var (← checked64 (d.get var * value)))
  | .fromEvent var key =>
    match integerMember e.data key with
    | some i => .ok (d.set var i)
    | none => .error ("event has no integer '" ++ key ++ "'")
  | .fail reason => .error reason
  | .record label => .ok (d.record label)
  | .recordEvent label => .ok (d.record (label ++ " " ++ e.render))

end Hsm
