import Hsm.Text.Quoted
import Hsm.Json.Write
import Hsm.Content.Command
/-! Dumps: the text a structure shows when inspected. A record is `Name { field: value, … }`, a
tuple `Name(value)`, an optional value `Some(value)` or `None`, text is quoted, and a list is
`[a, b]`. A JSON value names its kind: `Null`, `Bool(true)`, `Number(1.5)`, `String("x")`,
`Array [...]`, `Object {"key": value}`. A duration is written in the largest unit that has a
whole part (`s`, `ms`, `µs`, `ns`), with the exact fraction and no trailing zeros. -/
namespace Hsm

/-- A fraction of `width` decimal places, without trailing zeros, after a point; nothing for
zero. -/
def decimalFraction (x width : Nat) : String :=
  if x == 0 then ""
  else
    let digits := (Nat.toDigits 10 x)
    let padded := List.replicate (width - digits.length) '0' ++ digits
    "." ++ String.ofList (padded.reverse.dropWhile (· == '0')).reverse

/-- A duration as a dump shows it: `3.000000005s`, `20ms`, `1.5µs`, `7ns`. -/
def Duration.dump (d : Duration) : String :=
  if d.secs > 0 then toString d.secs ++ decimalFraction d.nanos 9 ++ "s"
  else if d.nanos ≥ 1000000 then
    toString (d.nanos / 1000000) ++ decimalFraction (d.nanos % 1000000) 6 ++ "ms"
  else if d.nanos ≥ 1000 then
    toString (d.nanos / 1000) ++ decimalFraction (d.nanos % 1000) 3 ++ "µs"
  else toString d.nanos ++ "ns"

def dumpOption {α : Type} (f : α → String) : Option α → String
  | some a => "Some(" ++ f a ++ ")"
  | none => "None"

namespace Json

/-- A JSON value as a dump shows it. -/
def Value.dump : Value → String
  | .null => "Null"
  | .bool b => "Bool(" ++ toString b ++ ")"
  | .num n => "Number(" ++ n.render ++ ")"
  | .str s => "String(" ++ Text.quote s ++ ")"
  | .arr xs => "Array [" ++ dumpItems xs ++ "]"
  | .obj fs => "Object \x7b" ++ dumpFields fs ++ "\x7d"
where
  dumpItems : List Value → String
    | [] => ""
    | [x] => x.dump
    | x :: xs => x.dump ++ ", " ++ dumpItems xs
  dumpFields : List (String × Value) → String
    | [] => ""
    | [(k, x)] => Text.quote k ++ ": " ++ x.dump
    | (k, x) :: xs => Text.quote k ++ ": " ++ x.dump ++ ", " ++ dumpFields xs

end Json

def SendAction.dump (a : SendAction) : String :=
  "SendAction \x7b event: " ++ Text.quote a.event ++ ", target: " ++ Text.quoteOption a.target ++
    ", data: " ++ a.data.dump ++ ", id: " ++ Text.quoteOption a.id ++ ", delay: " ++
    dumpOption Duration.dump a.delay ++ " \x7d"

/-- A command as a dump shows it: an assignment by its location, a send by its action. -/
def Command.dump : Command → String
  | .assign a => "Assign(" ++ Text.quote a.location ++ ")"
  | .send a => "Send(" ++ a.dump ++ ")"
  | .raise name => "Raise(" ++ Text.quote name ++ ")"
  | .log label => "Log(" ++ Text.quoteOption label ++ ")"
  | .script src => "Script(" ++ Text.quote src ++ ")"

end Hsm
