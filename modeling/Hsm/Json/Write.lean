import Hsm.Json.Value
import Hsm.Decimal.Shortest
/-! Compact JSON text: no blanks, object fields in the order the value holds them (key order),
numbers by class (integers in full, binary64 values as their shortest decimal). A string escapes
the quote and the backslash, writes backspace, form feed, line feed, carriage return and tab as
two-character escapes and the other control characters as `\u00` and two lowercase hex digits;
every other character is written as itself. -/
namespace Hsm
namespace Json

/-- The escaped form of one character inside a JSON string. -/
def escapeChar (c : Char) : String :=
  match c with
  | '"' => "\\\""
  | '\\' => "\\\\"
  | '\n' => "\\n"
  | '\r' => "\\r"
  | '\t' => "\\t"
  | c =>
    if c.toNat = 8 then "\\b"
    else if c.toNat = 12 then "\\f"
    else if c.toNat < 0x20 then
      "\\u00" ++ String.ofList [Nat.digitChar (c.toNat / 16), Nat.digitChar (c.toNat % 16)]
    else String.singleton c

def quote (s : String) : String :=
  "\"" ++ String.join (s.toList.map escapeChar) ++ "\""

/-- The text of a number; a binary64 value that is not finite has none and is written `null`. -/
def Number.render : Number → String
  | .nat n => toString n
  | .neg n => toString n
  | .float f => if f.isFinite then Decimal.Layout.data.render f else "null"

/-- Compact text of a value. -/
def Value.render : Value → String
  | .null => "null"
  | .bool true => "true"
  | .bool false => "false"
  | .num n => n.render
  | .str s => quote s
  | .arr xs => "[" ++ renderItems xs ++ "]"
  | .obj fs => "\x7b" ++ renderFields fs ++ "\x7d"
where
  renderItems : List Value → String
    | [] => ""
    | [x] => Value.render x
    | x :: xs => Value.render x ++ "," ++ renderItems xs
  renderFields : List (String × Value) → String
    | [] => ""
    | [(k, x)] => quote k ++ ":" ++ Value.render x
    | (k, x) :: xs => quote k ++ ":" ++ Value.render x ++ "," ++ renderFields xs

end Json
end Hsm
