import Hsm.Event.Basic
import Hsm.Json.Decode
import Hsm.Json.Library
/-! Events as JSON objects, with `name`, `kind` and `data` always present and the optional fields
only when set. `printWith` and `parseWith` go through a JSON library given as a parameter;
`render` and `read` are the host's own writer and reader (the text `record_event` stores). -/
namespace Hsm
open Json

namespace Duration

/-- A duration from seconds and nanoseconds as written: whole seconds in the nanoseconds carry
over, and the seconds must stay below `2^64`. -/
def ofParts (secs nanos : Nat) : Except Mismatch Duration :=
  if secs + nanos / 1000000000 > u64Bound then .error (.custom "overflow deserializing Duration")
  else .ok ⟨secs + nanos / 1000000000, nanos % 1000000000⟩

def fieldNames : List String := ["secs", "nanos"]

def toValue (d : Duration) : Value :=
  .obj [("nanos", .num (.nat d.nanos)), ("secs", .num (.nat d.secs))]

def render (d : Duration) : String :=
  "\x7b\"secs\":" ++ toString d.secs ++ ",\"nanos\":" ++ toString d.nanos ++ "\x7d"

def ofValue : Value → Except Mismatch Duration :=
  Value.asStruct "Duration" fromList fromFields
where
  fromList : List Value → Except Mismatch (Duration × Nat)
    | [] => .error (.invalidLength 0 "struct Duration")
    | [s] => do
      let _ ← Value.asUnsigned "u64" u64Bound s
      .error (.invalidLength 1 "struct Duration")
    | s :: n :: _ => do
      let s ← Value.asUnsigned "u64" u64Bound s
      let n ← Value.asUnsigned "u32" u32Bound n
      pure (← ofParts s n, 2)
  fromFields (fs : List (String × Value)) : Except Mismatch Duration := do
    let step : Option Nat × Option Nat → String × Value → Except Mismatch (Option Nat × Option Nat)
      | (secs, nanos), (k, v) =>
        if k = "secs" then do pure (some (← Value.asUnsigned "u64" u64Bound v), nanos)
        else if k = "nanos" then do pure (secs, some (← Value.asUnsigned "u32" u32Bound v))
        else .error (.unknownField k fieldNames)
    let (secs, nanos) ← fs.foldlM step (none, none)
    let some s := secs | .error (.missingField "secs")
    let some n := nanos | .error (.missingField "nanos")
    ofParts s n

def read (depth : Nat) : Reader Duration :=
  Reader.readStruct "Duration" depth (fun _ => fromList) (fun _ => do fromFields (← Reader.budget) true none none)
where
  fromList : Reader Duration := do
    let some s ← Reader.nextItem true (Reader.readUnsigned "u64" u64Bound)
      | Reader.mismatch (.invalidLength 0 "struct Duration")
    let some n ← Reader.nextItem false (Reader.readUnsigned "u32" u32Bound)
      | Reader.mismatch (.invalidLength 1 "struct Duration")
    match ofParts s n with
    | .ok d => pure d
    | .error m => Reader.mismatch m
  fromFields : Nat → Bool → Option Nat → Option Nat → Reader Duration
    | 0, _, _, _ => Reader.mismatch (.missingField "secs")
    | fuel + 1, first, secs, nanos => do
      match ← Reader.nextKey first with
      | some k =>
        if k = "secs" then
          if secs.isSome then Reader.mismatch (.duplicateField "secs")
          else do
            Reader.colon
            fromFields fuel false (some (← Reader.readUnsigned "u64" u64Bound)) nanos
        else if k = "nanos" then
          if nanos.isSome then Reader.mismatch (.duplicateField "nanos")
          else do
            Reader.colon
            fromFields fuel false secs (some (← Reader.readUnsigned "u32" u32Bound))
        else Reader.mismatch (.unknownField k fieldNames)
      | none =>
        let some s := secs | Reader.mismatch (.missingField "secs")
        let some n := nanos | Reader.mismatch (.missingField "nanos")
        match ofParts s n with
        | .ok d => pure d
        | .error m => Reader.mismatch m

end Duration

namespace Event

def fieldNames : List String :=
  ["name", "kind", "data", "invoke_id", "origin", "send_id", "delay"]

/-- An event as a JSON object. -/
def toValue (e : Event) : Value :=
  let opt (k : String) : Option Value → List (String × Value)
    | some v => [(k, v)]
    | none => []
  Value.ofFields ([("name", .str e.name), ("kind", .str e.kind.name), ("data", e.data)] ++
    opt "invoke_id" (e.invokeId.map .str) ++ opt "origin" (e.origin.map .str) ++
    opt "send_id" (e.sendId.map .str) ++ opt "delay" (e.delay.map Duration.toValue))

/-- An event as compact text, its fields in declaration order. -/
def render (e : Event) : String :=
  let opt (k : String) : Option String → String
    | some v => ",\"" ++ k ++ "\":" ++ v
    | none => ""
  "\x7b\"name\":" ++ Json.quote e.name ++ ",\"kind\":\"" ++ e.kind.name ++ "\",\"data\":" ++
    e.data.render ++ opt "invoke_id" (e.invokeId.map Json.quote) ++
    opt "origin" (e.origin.map Json.quote) ++ opt "send_id" (e.sendId.map Json.quote) ++
    opt "delay" (e.delay.map Duration.render) ++ "\x7d"

def kindOfValue (v : Value) : Except Mismatch EventKind := do
  let s ← Value.asVariant EventKind.names v
  pure ((EventKind.ofName? s).getD .external)

/-- Set the field `k` of an event from a JSON value; unknown fields change nothing. -/
def setField (e : Event) (k : String) (v : Value) : Except Mismatch Event :=
  if k = "name" then do pure { e with name := ← Value.asString v }
  else if k = "kind" then do pure { e with kind := ← kindOfValue v }
  else if k = "data" then pure { e with data := v }
  else if k = "invoke_id" then do pure { e with invokeId := ← Value.asOption Value.asString v }
  else if k = "origin" then do pure { e with origin := ← Value.asOption Value.asString v }
  else if k = "send_id" then do pure { e with sendId := ← Value.asOption Value.asString v }
  else if k = "delay" then do pure { e with delay := ← Value.asOption Duration.ofValue v }
  else pure e

/-- An event from a JSON value: an object of optional fields or a list of fields in order. -/
def ofValue : Value → Except Mismatch Event :=
  Value.asStruct "Event"
    (fun xs => do
      let e ← (fieldNames.zip xs).foldlM (fun e (k, v) => setField e k v) {}
      pure (e, min xs.length fieldNames.length))
    (fun fs => fs.foldlM (fun e (k, v) => setField e k v) {})

/-- An event as text, through the JSON library `lib`: the library prints the event's object. -/
def printWith (lib : Json.Library) (e : Event) : String := lib.print e.toValue

/-- An event from text, through the JSON library `lib`: the library parses the text, and the value
is read as an event. -/
def parseWith (lib : Json.Library) (s : String) : Except Error Event := do
  (ofValue (← lib.parse s)).mapError fun m => ⟨.inr m, none⟩

/-- Read the value of field `k` from text into an event; an unknown field's value is skipped. -/
def readField (depth : Nat) (e : Event) (k : String) : Reader Event :=
  if k = "name" then do pure { e with name := ← Reader.readString }
  else if k = "kind" then do
    let s ← Reader.readVariant EventKind.names
    pure { e with kind := (EventKind.ofName? s).getD .external }
  else if k = "data" then do pure { e with data := ← Reader.value depth }
  else if k = "invoke_id" then do pure { e with invokeId := ← Reader.readOption Reader.readString }
  else if k = "origin" then do pure { e with origin := ← Reader.readOption Reader.readString }
  else if k = "send_id" then do pure { e with sendId := ← Reader.readOption Reader.readString }
  else if k = "delay" then do pure { e with delay := ← Reader.readOption (Duration.read depth) }
  else do Reader.skipValue (← Reader.budget); pure e

def read (depth : Nat) : Reader Event :=
  Reader.readStruct "Event" depth (fun d => fromList d fieldNames true {})
    (fun d => do fromFields d (← Reader.budget) true [] {})
where
  fromList (depth : Nat) : List String → Bool → Event → Reader Event
    | [], _, e => pure e
    | k :: ks, first, e => do
      if ← Reader.moreItems first then fromList depth ks false (← readField depth e k) else pure e
  fromFields (depth : Nat) : Nat → Bool → List String → Event → Reader Event
    | 0, _, _, e => pure e
    | fuel + 1, first, seen, e => do
      match ← Reader.nextKey first with
      | none => pure e
      | some k =>
        if k ∈ fieldNames then
          if k ∈ seen then Reader.mismatch (.duplicateField k)
          else do
            Reader.colon
            fromFields depth fuel false (k :: seen) (← readField depth e k)
        else do
          Reader.colon
          fromFields depth fuel false seen (← readField depth e k)

def ofText (s : String) : Except Error Event :=
  (Reader.run' (do let e ← read Reader.topDepth; Reader.finish; pure e) s).1

end Event
end Hsm
