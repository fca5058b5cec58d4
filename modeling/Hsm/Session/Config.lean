import Hsm.Json.Decode
/-! Session settings as JSON text: an object whose fields `name`, `max_microsteps` and
`trace_configuration` are each optional (unknown fields are skipped, a repeated one is refused),
or a list of them in that order. A missing name is generated. -/
namespace Hsm
open Json

/-- Settings as read: the name, unless it is to be generated; the microstep limit; whether
macrosteps are traced. -/
structure ConfigFields where
  name : Option String := none
  maxMicrosteps : Nat := 10000
  traceConfiguration : Bool := true

namespace ConfigFields

def fieldNames : List String := ["name", "max_microsteps", "trace_configuration"]

def readField (c : ConfigFields) (k : String) : Reader ConfigFields :=
  if k = "name" then do pure { c with name := some (← Reader.readString) }
  else if k = "max_microsteps" then do
    pure { c with maxMicrosteps := ← Reader.readUnsigned "usize" u64Bound }
  else do pure { c with traceConfiguration := ← Reader.readBool }

def read (depth : Nat) : Reader ConfigFields :=
  Reader.readStruct "SessionConfig" depth (fun _ => fromList)
    (fun _ => do fromFields (← Reader.budget) true [] {})
where
  fromList : Reader ConfigFields := do
    match ← Reader.nextItem true Reader.readString with
    | none => pure {}
    | some name =>
      match ← Reader.nextItem false (Reader.readUnsigned "usize" u64Bound) with
      | none => pure { name := some name }
      | some m =>
        match ← Reader.nextItem false Reader.readBool with
        | none => pure { name := some name, maxMicrosteps := m }
        | some b => pure ⟨some name, m, b⟩
  fromFields : Nat → Bool → List String → ConfigFields → Reader ConfigFields
    | 0, _, _, c => pure c
    | fuel + 1, first, seen, c => do
      match ← Reader.nextKey first with
      | none => pure c
      | some k =>
        if k ∈ fieldNames then
          if k ∈ seen then Reader.mismatch (.duplicateField k)
          else do
            Reader.colon
            fromFields fuel false (k :: seen) (← c.readField k)
        else do
          Reader.colon
          Reader.skipValue (← Reader.budget)
          fromFields fuel false seen c

def ofText (s : String) : Except Error ConfigFields :=
  (Reader.run' (do let c ← read Reader.topDepth; Reader.finish; pure c) s).1

end ConfigFields
end Hsm
