import Hsm.Content.Data
import Hsm.Event.Basic
/-! Guards: conditions on the data bag and the current event that decide whether a transition is
enabled. Conjunctions and disjunctions are evaluated left to right and stop at the first operand
that decides them; a failing guard stops evaluation with its reason. A lenient guard turns any
failure inside it into `false`. -/
namespace Hsm

/-- A comparison operator. -/
inductive Comparison where
  | lt | le | eq | ne | gt | ge

namespace Comparison

def ofSymbol? (s : String) : Option Comparison :=
  if s = "<" then some .lt else if s = "<=" then some .le else if s = "==" then some .eq
  else if s = "!=" then some .ne else if s = ">" then some .gt else if s = ">=" then some .ge
  else none

/-- Compare two integers. -/
def onInt : Comparison → Int → Int → Bool
  | .lt, a, b => a < b
  | .le, a, b => a ≤ b
  | .eq, a, b => a == b
  | .ne, a, b => a != b
  | .gt, a, b => a > b
  | .ge, a, b => a ≥ b

/-- Compare two binary64 values; a comparison with NaN holds only for `!=`. -/
def onFloat : Comparison → Float → Float → Bool
  | .lt, a, b => a < b
  | .le, a, b => a ≤ b
  | .eq, a, b => a == b
  | .ne, a, b => !(a == b)
  | .gt, a, b => b < a
  | .ge, a, b => b ≤ a

end Comparison

def Json.Number.toFloat : Json.Number → Float
  | .nat n => n.toUInt64.toFloat
  | .neg i => -((-i).toNat.toUInt64.toFloat)
  | .float f => f

/-- A condition of a transition. -/
inductive Guard where
  /-- Always this answer. -/
  | const (b : Bool)
  /-- A variable compared with an integer. -/
  | var (name : String) (op : Comparison) (value : Int)
  /-- A numeric member of the event's payload compared with a number; false when the payload
  has no such number. -/
  | eventNum (key : String) (op : Comparison) (value : Float)
  /-- The event has this name. -/
  | eventName (name : String)
  /-- The event's payload equals this value. -/
  | eventData (value : Json.Value)
  /-- Fails with this reason. -/
  | fail (reason : String)
  | not (g : Guard)
  | all (gs : List Guard)
  | any (gs : List Guard)
  /-- The inner guard, with every failure read as `false`. -/
  | lenient (g : Guard)

namespace Guard

/-- Evaluate a guard against the data bag and the current event. -/
def check (d : Data) (e : Event) : Guard → Except String Bool
  | .const b => pure b
  | .var name op value => pure (op.onInt (d.get name) value)
  | .eventNum key op value =>
    pure (match e.data.get? key with
      | some (.num n) => op.onFloat n.toFloat value
      | _ => false)
  | .eventName name => pure (e.name == name)
  | .eventData value => pure (e.data == value)
  | .fail reason => throw reason
  | .not g => (fun b => !b) <$> check d e g
  | .all gs => checkAll gs
  | .any gs => checkAny gs
  | .lenient g =>
    match check d e g with
    | .ok b => pure b
    | .error _ => pure false
where
  checkAll : List Guard → Except String Bool
    | [] => pure true
    | g :: gs => do if ← check d e g then checkAll gs else pure false
  checkAny : List Guard → Except String Bool
    | [] => pure false
    | g :: gs => do if ← check d e g then pure true else checkAny gs

end Guard
end Hsm
