import Hsm.Json.Value
/-! The data bag of a session: named signed 64-bit integer variables, kept in key order (an
unset variable reads as zero), and a trace of text entries in the order they were recorded. -/
namespace Hsm

def fitsInt64 (i : Int) : Bool := -9223372036854775808 ≤ i && i < 9223372036854775808

/-- Variables in key order and a trace of entries. -/
structure Data where
  vars : List (String × Int) := []
  trace : Array String := #[]

instance : Inhabited Data := ⟨{}⟩

namespace Data

/-- Put a variable into a key-ordered list, replacing one of the same name. -/
def insertVar (name : String) (v : Int) : List (String × Int) → List (String × Int)
  | [] => [(name, v)]
  | (k, w) :: rest =>
    if name < k then (name, v) :: (k, w) :: rest
    else if name = k then (name, v) :: rest
    else (k, w) :: insertVar name v rest

def get (d : Data) (name : String) : Int :=
  ((d.vars.find? (·.1 == name)).map (·.2)).getD 0

def set (d : Data) (name : String) (v : Int) : Data := { d with vars := insertVar name v d.vars }

def record (d : Data) (entry : String) : Data := { d with trace := d.trace.push entry }

/-- Recording puts the entry last in the trace and leaves the variables alone. -/
@[simp]
theorem trace_toList_record (d : Data) (entry : String) :
    (d.record entry).trace.toList = d.trace.toList ++ [entry] := by
  simp [record]

@[simp]
theorem vars_record (d : Data) (entry : String) : (d.record entry).vars = d.vars := rfl

def ofVars (vs : List (String × Int)) : Data := ⟨vs.foldl (fun acc kv => insertVar kv.1 kv.2 acc) [], #[]⟩

def varsValue (d : Data) : Json.Value := .obj (d.vars.map fun kv => (kv.1, Json.Value.ofInt kv.2))

def toValue (d : Data) : Json.Value :=
  .obj [("trace", .arr (d.trace.toList.map .str)), ("vars", d.varsValue)]

end Data
end Hsm
