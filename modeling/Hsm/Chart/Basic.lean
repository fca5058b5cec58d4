import Hsm.Document.Issue
import Hsm.Event.Codec
import Hsm.Content.Guard
/-! Charts written as JSON: the reading conventions shared by the description language of
guards, content, documents and services. Flags, names and labels are read leniently (a member of
the wrong type counts as absent); structure is read strictly, and a malformed part is refused
with a message that names what was expected: a list of strings (a string alone stands for a list
of one), a variable table of 64-bit integers, a list, an object. -/
namespace Hsm
namespace Json
namespace Value

def asStr? : Value → Option String
  | .str s => some s
  | _ => none

def asInt? : Value → Option Int
  | .num (.nat n) => if n < 9223372036854775808 then some n else none
  | .num (.neg i) => some i
  | _ => none

def asNat? : Value → Option Nat
  | .num (.nat n) => some n
  | _ => none

def asBool? : Value → Option Bool
  | .bool b => some b
  | _ => none

def asFloat? : Value → Option Float
  | .num n => some n.toFloat
  | _ => none

def items : Value → List Value
  | .arr xs => xs
  | _ => []

def fields : Value → List (String × Value)
  | .obj fs => fs
  | _ => []

def strings : Value → List String
  | .str s => [s]
  | .arr xs => xs.filterMap asStr?
  | _ => []

def string : Value → Except String String
  | .str s => .ok s
  | _ => .error "expected string"

def stringList : Value → Except String (List String)
  | .str s => .ok [s]
  | .arr xs => xs.mapM string
  | _ => .error "expected string list"

/-- A table of variables: an object whose members are 64-bit integers. -/
def varTable : Value → Except String (List (String × Int))
  | .obj fs => fs.mapM fun (k, x) =>
    match asInt? x with
    | some i => .ok (k, i)
    | none => .error "var values must be integers"
  | _ => .error "vars must be an object"

def listOf (what : String) : Value → Except String (List Value)
  | .arr xs => .ok xs
  | _ => .error (what ++ " must be a list")

def objectOf (what : String) : Value → Except String (List (String × Value))
  | .obj fs => .ok fs
  | _ => .error (what ++ " must be an object")

def member? {α : Type} (v : Value) (key : String) (f : Value → Except String α) :
    Except String (Option α) :=
  match v.get? key with
  | some x => some <$> f x
  | none => .ok none

def given? (v : Value) (key : String) : Option Value :=
  match v.get? key with
  | some .null | none => none
  | some x => some x

def givenWith? {α : Type} (v : Value) (key : String) (f : Value → Except String α) :
    Except String (Option α) :=
  match v.given? key with
  | some x => some <$> f x
  | none => .ok none

def read? {α : Type} (v : Value) (key : String) (f : Value → Option α) : Option α :=
  (v.get? key).bind f

def depth : Value → Nat
  | .arr xs => depthItems xs + 1
  | .obj fs => depthFields fs + 1
  | _ => 0
where
  depthItems : List Value → Nat
    | [] => 0
    | x :: xs => max (depth x) (depthItems xs)
  depthFields : List (String × Value) → Nat
    | [] => 0
    | (_, x) :: xs => max (depth x) (depthFields xs)

end Value
end Json

/-- Why a description cannot be used: a malformed input, or a document (the main one, or a
machine of that name) that does not compile. -/
inductive ChartError where
  | badInput (message : String)
  | invalid (machine : Option String) (issues : List Issue)

/-- An event as a request writes it: a name alone, or the fields of an event (anything else is
refused with the decoder's message). -/
def Event.ofInput : Json.Value → Except String Event
  | .str name => .ok (Event.named name)
  | v =>
    match Event.ofValue v with
    | .ok e => .ok e
    | .error m => .error m.message

end Hsm
