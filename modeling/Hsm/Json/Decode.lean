import Hsm.Json.Read
/-! Typed decoding, from text and from values already read. Each decoder expects one kind of
value and names what it met otherwise; an unsigned integer must fit its bound; an enumeration is
a string naming a variant (or an object of one such key whose value is `null`); a struct is an
object of named fields or a list of its fields in declaration order. Decoding text places a
mismatch where the offending value ends, or, for a struct, after its closing bracket. -/
namespace Hsm
namespace Json

def u64Bound : Nat := 18446744073709551615

def u32Bound : Nat := 4294967295

namespace Reader

/-- The next value does not have the expected kind: it is read to name it. -/
def invalidType {α : Type} (expected : String) : Reader α := placed do
  match ← peek with
  | some 'n' => bump; ident ['u', 'l', 'l']; mismatch (.invalidType .unit expected)
  | some 't' => bump; ident ['r', 'u', 'e']; mismatch (.invalidType (.bool true) expected)
  | some 'f' => bump; ident ['a', 'l', 's', 'e']; mismatch (.invalidType (.bool false) expected)
  | some '-' => bump; let n ← number false; mismatch (.invalidType n.unexpected expected)
  | some '"' => bump; let s ← string; mismatch (.invalidType (.str s) expected)
  | some '[' => mismatch (.invalidType .seq expected)
  | some '{' => mismatch (.invalidType .map expected)
  | some c =>
    if c.isDigit then do let n ← number true; mismatch (.invalidType n.unexpected expected)
    else faultAhead .expectedValue
  | none => faultAhead .expectedValue

def readString : Reader String := placed do
  match ← blank with
  | none => faultAhead .eofValue
  | some '"' => bump; string
  | some _ => invalidType "a string"

/-- A boolean. -/
def readBool : Reader Bool := placed do
  match ← blank with
  | none => faultAhead .eofValue
  | some 't' => bump; ident ['r', 'u', 'e']; pure true
  | some 'f' => bump; ident ['a', 'l', 's', 'e']; pure false
  | some _ => invalidType "a boolean"

def unsignedOf (expected : String) (bound : Nat) : Number → Reader Nat
  | .nat n => if n ≤ bound then pure n else mismatch (.invalidValue (.unsigned n) expected)
  | .neg i => mismatch (.invalidValue (.signed i) expected)
  | .float f => mismatch (.invalidType (.float f) expected)

def readUnsigned (expected : String) (bound : Nat) : Reader Nat := placed do
  match ← blank with
  | none => faultAhead .eofValue
  | some '-' => bump; unsignedOf expected bound (← number false)
  | some c => if c.isDigit then unsignedOf expected bound (← number true) else invalidType expected

def readOption {α : Type} (r : Reader α) : Reader (Option α) := do
  match ← blank with
  | some 'n' => bump; ident ['u', 'l', 'l']; pure none
  | _ => some <$> r

/-- The name of a variant of an enumeration whose variants carry nothing. -/
def readVariant (variants : List String) : Reader String := do
  let name : Reader String := placed do
    match ← blank with
    | none => faultAhead .eofValue
    | some '"' =>
      bump
      let s ← string
      if s ∈ variants then pure s else mismatch (.unknownVariant s variants)
    | some _ => invalidType "variant identifier"
  match ← blank with
  | some '"' => name
  | some '{' =>
    bump
    let s ← name
    colon
    placed do
      match ← blank with
      | none => faultAhead .eofValue
      | some 'n' => bump; ident ['u', 'l', 'l']
      | some _ => invalidType "unit"
    match ← blank with
    | some '}' => bump; pure s
    | some _ => faultHere .expectedValue
    | none => faultHere .eofObject
  | some _ => faultAhead .expectedValue
  | none => faultAhead .eofValue

def closing {α : Type} (body : Reader α) (close : Reader Unit) : Reader α :=
  tryCatch (do let a ← body; close; pure a) fun e => do
    tryCatch close fun _ => pure ()
    throw e

/-- A struct named `name`, with `depth` levels of nesting allowed: `fromList` reads its fields in
declaration order from a list, `fromFields` reads an object; both get the nesting left inside. -/
def readStruct {α : Type} (name : String) (depth : Nat) (fromList : Nat → Reader α)
    (fromFields : Nat → Reader α) : Reader α := placed do
  match ← blank with
  | none => faultAhead .eofValue
  | some '[' =>
    if depth ≤ 1 then faultAhead .recursionLimit
    else do bump; closing (fromList (depth - 1)) closeList
  | some '{' =>
    if depth ≤ 1 then faultAhead .recursionLimit
    else do bump; closing (fromFields (depth - 1)) closeObject
  | some _ => invalidType ("struct " ++ name)

def nextItem {α : Type} (first : Bool) (r : Reader α) : Reader (Option α) := do
  if ← moreItems first then some <$> r else pure none

end Reader

namespace Value

def asString : Value → Except Mismatch String
  | .str s => .ok s
  | v => .error (.invalidType v.unexpected "a string")

def asBool : Value → Except Mismatch Bool
  | .bool b => .ok b
  | v => .error (.invalidType v.unexpected "a boolean")

def asUnsigned (expected : String) (bound : Nat) : Value → Except Mismatch Nat
  | .num (.nat n) => if n ≤ bound then .ok n else .error (.invalidValue (.unsigned n) expected)
  | .num (.neg i) => .error (.invalidValue (.signed i) expected)
  | .num (.float f) => .error (.invalidType (.float f) expected)
  | v => .error (.invalidType v.unexpected expected)

def asOption {α : Type} (f : Value → Except Mismatch α) : Value → Except Mismatch (Option α)
  | .null => .ok none
  | v => some <$> f v

/-- The name of a variant of an enumeration whose variants carry nothing. -/
def asVariant (variants : List String) : Value → Except Mismatch String
  | .str s => if s ∈ variants then .ok s else .error (.unknownVariant s variants)
  | .obj [(s, v)] =>
    if s ∈ variants then
      match v with
      | .null => .ok s
      | w => .error (.invalidType w.unexpected "unit")
    else .error (.unknownVariant s variants)
  | .obj _ => .error (.invalidValue .map "map with a single key")
  | v => .error (.invalidType v.unexpected "string or map")

/-- A struct named `name`: `fromList` reads the leading items of a list and says how many it
took (a longer list is refused), `fromFields` reads an object. -/
def asStruct {α : Type} (name : String) (fromList : List Value → Except Mismatch (α × Nat))
    (fromFields : List (String × Value) → Except Mismatch α) : Value → Except Mismatch α
  | .arr xs => do
    let (a, used) ← fromList xs
    if used < xs.length then .error (.invalidLength xs.length "fewer elements in array") else pure a
  | .obj fs => fromFields fs
  | v => .error (.invalidType v.unexpected ("struct " ++ name))

end Value

end Json
end Hsm
