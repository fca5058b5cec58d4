import Hsm.Chart.Basic
/-! Guards written as JSON. `true` and `false` are constants; an object is read by the first of
these keys that it has with a value of the right kind: `var` (a variable compared by `op` with the
integer `value`), `event_num` (a numeric payload member compared by `op` with the number
`value`), `event_name`, `event_data` (equality with the payload), `fail` (a failing guard with
that reason), `not`, and `and` and `or` (lists of guards). The value is checked before the
operator, which defaults to `==` when it is not a string. Anything else is refused. -/
namespace Hsm
namespace Guard
open Json

/-- The comparison named by the `op` member of an object, `==` when it is absent or not a
string. -/
def opOf (whole : Value) : Except String Comparison :=
  match whole.get? "op" with
  | some (.str sym) =>
    match Comparison.ofSymbol? sym with
    | some op => .ok op
    | none => .error ("unknown op " ++ sym)
  | _ => .ok .eq

/-- A guard from JSON, reading at most `fuel` levels of nested guards. -/
def ofValueWithin : Nat → Value → Except String Guard
  | 0, _ => .error "unknown guard"
  | fuel + 1, v =>
    match v with
    | .bool b => .ok (.const b)
    | .obj _ =>
      if let some (.str name) := v.get? "var" then do
        let some value := v.read? "value" Value.asInt? | .error "var guard needs integer value"
        pure (.var name (← opOf v) value)
      else if let some (.str key) := v.get? "event_num" then do
        let some value := v.read? "value" Value.asFloat? | .error "event_num guard needs number"
        pure (.eventNum key (← opOf v) value)
      else if let some (.str name) := v.get? "event_name" then .ok (.eventName name)
      else if let some data := v.get? "event_data" then .ok (.eventData data)
      else if let some (.str reason) := v.get? "fail" then .ok (.fail reason)
      else if let some g := v.get? "not" then .not <$> ofValueWithin fuel g
      else if let some (.arr gs) := v.get? "and" then .all <$> gs.mapM (ofValueWithin fuel)
      else if let some (.arr gs) := v.get? "or" then .any <$> gs.mapM (ofValueWithin fuel)
      else .error "unknown guard"
    | _ => .error "guard must be bool or object"

/-- A guard from JSON. Each nested guard sits one level deeper in the value, so the value's
depth bounds the nesting. -/
def ofValue (v : Value) : Except String Guard := ofValueWithin (v.depth + 1) v

end Guard
end Hsm
