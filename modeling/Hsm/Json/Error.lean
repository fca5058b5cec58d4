import Hsm.Json.Value
import Hsm.Json.Write
import Hsm.Text.Quoted
/-! Why reading JSON text, or decoding a typed value from it, fails. A syntax fault names the
first character that cannot continue the text; a mismatch names the value that does not fit the
expected shape. A failure carries the line and column (in bytes) where it was noticed, except
when the value came from an already read tree. -/
namespace Hsm
namespace Json

/-- Faults of JSON syntax and of the reader's limits. -/
inductive Fault where
  | eofList | eofObject | eofString | eofValue
  | expectedColon | expectedListCommaOrEnd | expectedObjectCommaOrEnd
  | expectedIdent | expectedValue
  | invalidEscape | invalidNumber | numberOutOfRange
  | controlCharacter | keyMustBeString
  | loneLeadingSurrogate | unexpectedEndOfHexEscape
  | trailingComma | trailingCharacters
  | recursionLimit

/-- The message of a syntax fault. -/
def Fault.message : Fault → String
  | .eofList => "EOF while parsing a list"
  | .eofObject => "EOF while parsing an object"
  | .eofString => "EOF while parsing a string"
  | .eofValue => "EOF while parsing a value"
  | .expectedColon => "expected `:`"
  | .expectedListCommaOrEnd => "expected `,` or `]`"
  | .expectedObjectCommaOrEnd => "expected `,` or `\x7d`"
  | .expectedIdent => "expected ident"
  | .expectedValue => "expected value"
  | .invalidEscape => "invalid escape"
  | .invalidNumber => "invalid number"
  | .numberOutOfRange => "number out of range"
  | .controlCharacter => "control character (\\u0000-\\u001F) found while parsing a string"
  | .keyMustBeString => "key must be a string"
  | .loneLeadingSurrogate => "lone leading surrogate in hex escape"
  | .unexpectedEndOfHexEscape => "unexpected end of hex escape"
  | .trailingComma => "trailing comma"
  | .trailingCharacters => "trailing characters"
  | .recursionLimit => "recursion limit exceeded"

/-- The kind of value met where another was expected. -/
inductive Unexpected where
  | bool (b : Bool)
  | unsigned (n : Nat)
  | signed (i : Int)
  | float (f : Float)
  | str (s : String)
  | unit
  | seq
  | map

/-- How a met value is named in a message. -/
def Unexpected.describe : Unexpected → String
  | .bool b => "boolean `" ++ toString b ++ "`"
  | .unsigned n => "integer `" ++ toString n ++ "`"
  | .signed i => "integer `" ++ toString i ++ "`"
  | .float f => "floating point `" ++ Decimal.Layout.data.render f ++ "`"
  | .str s => "string " ++ Text.quote s
  | .unit => "null"
  | .seq => "sequence"
  | .map => "map"

def Number.unexpected : Number → Unexpected
  | .nat n => .unsigned n
  | .neg i => .signed i
  | .float f => .float f

/-- How a value is named when it does not fit. -/
def Value.unexpected : Value → Unexpected
  | .null => .unit
  | .bool b => .bool b
  | .num n => n.unexpected
  | .str s => .str s
  | .arr _ => .seq
  | .obj _ => .map

/-- Alternatives as a message lists them: one, two joined by `or`, or `one of` a list. -/
def oneOf (names : List String) : String :=
  match names with
  | [a] => "`" ++ a ++ "`"
  | [a, b] => "`" ++ a ++ "` or `" ++ b ++ "`"
  | _ => "one of " ++ ", ".intercalate (names.map fun n => "`" ++ n ++ "`")

/-- A value that does not have the expected shape. -/
inductive Mismatch where
  | invalidType (met : Unexpected) (expected : String)
  | invalidValue (met : Unexpected) (expected : String)
  | invalidLength (n : Nat) (expected : String)
  | unknownVariant (name : String) (variants : List String)
  | unknownField (name : String) (fields : List String)
  | missingField (name : String)
  | duplicateField (name : String)
  | custom (text : String)

/-- The message of a mismatch. -/
def Mismatch.message : Mismatch → String
  | .invalidType met e => "invalid type: " ++ met.describe ++ ", expected " ++ e
  | .invalidValue met e => "invalid value: " ++ met.describe ++ ", expected " ++ e
  | .invalidLength n e => "invalid length " ++ toString n ++ ", expected " ++ e
  | .unknownVariant v [] => "unknown variant `" ++ v ++ "`, there are no variants"
  | .unknownVariant v vs => "unknown variant `" ++ v ++ "`, expected " ++ oneOf vs
  | .unknownField f [] => "unknown field `" ++ f ++ "`, there are no fields"
  | .unknownField f fs => "unknown field `" ++ f ++ "`, expected " ++ oneOf fs
  | .missingField f => "missing field `" ++ f ++ "`"
  | .duplicateField f => "duplicate field `" ++ f ++ "`"
  | .custom t => t

/-- A line (from one) and a column (bytes since the line began). -/
structure Pos where
  line : Nat
  col : Nat

/-- A failure to read or decode, with where it was noticed when reading text. -/
structure Error where
  cause : Fault ⊕ Mismatch
  pos : Option Pos

/-- The message of a failure, with its place when it has one. -/
def Error.message (e : Error) : String :=
  let text := match e.cause with
    | .inl f => f.message
    | .inr m => m.message
  match e.pos with
  | some p => text ++ " at line " ++ toString p.line ++ " column " ++ toString p.col
  | none => text

end Json
end Hsm
