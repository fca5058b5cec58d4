/-! JSON values: the payload of events, the done data of final states and the data language of
documents. A number keeps the class the reader gave it (unsigned 64-bit, negative 64-bit or
binary64), because `1` and `1.0` are different values. An object lists its fields in strictly
increasing key order, one field per key; `insertField` is the only way fields are added, and a
later field with the same key replaces the earlier one. -/
namespace Hsm
namespace Json

/-- A JSON number in one of three classes. -/
inductive Number where
  /-- A non-negative integer below `2^64`. -/
  | nat (n : Nat)
  /-- A negative integer not below `-2^63`. -/
  | neg (n : Int)
  /-- Every other number, as a binary64 value. -/
  | float (f : Float)

/-- Numbers are equal when they have the same class and value; binary64 values compare as
numbers, so `0.0` equals `-0.0`. -/
def Number.beq : Number → Number → Bool
  | .nat a, .nat b => a == b
  | .neg a, .neg b => a == b
  | .float a, .float b => a == b
  | _, _ => false

instance : BEq Number := ⟨Number.beq⟩

/-- A JSON value. -/
inductive Value where
  | null
  | bool (b : Bool)
  | num (n : Number)
  | str (s : String)
  | arr (items : List Value)
  | obj (fields : List (String × Value))

instance : Inhabited Value := ⟨.null⟩

namespace Value

def ofInt (i : Int) : Value :=
  if i < 0 then .num (.neg i) else .num (.nat i.toNat)

/-- Structural equality; objects compare field by field in key order. -/
def beq : Value → Value → Bool
  | .null, .null => true
  | .bool a, .bool b => a == b
  | .num a, .num b => a.beq b
  | .str a, .str b => a == b
  | .arr xs, .arr ys => beqList xs ys
  | .obj xs, .obj ys => beqFields xs ys
  | _, _ => false
where
  beqList : List Value → List Value → Bool
    | [], [] => true
    | x :: xs, y :: ys => beq x y && beqList xs ys
    | _, _ => false
  beqFields : List (String × Value) → List (String × Value) → Bool
    | [], [] => true
    | (k, x) :: xs, (l, y) :: ys => k == l && beq x y && beqFields xs ys
    | _, _ => false

instance : BEq Value := ⟨Value.beq⟩

def field? (fields : List (String × Value)) (key : String) : Option Value :=
  (fields.find? (·.1 == key)).map (·.2)

def get? : Value → String → Option Value
  | .obj fields, key => field? fields key
  | _, _ => none

/-- Put a field into a key-ordered field list, replacing a field with the same key. -/
def insertField (key : String) (v : Value) : List (String × Value) → List (String × Value)
  | [] => [(key, v)]
  | (k, w) :: rest =>
    if key < k then (key, v) :: (k, w) :: rest
    else if key = k then (key, v) :: rest
    else (k, w) :: insertField key v rest

def ofFields (fields : List (String × Value)) : Value :=
  .obj (fields.foldl (fun acc kv => insertField kv.1 kv.2 acc) [])

def KeysOrdered : List (String × Value) → Prop
  | [] => True
  | [_] => True
  | (k, _) :: (l, w) :: rest => k < l ∧ KeysOrdered ((l, w) :: rest)

end Value
end Json
end Hsm
