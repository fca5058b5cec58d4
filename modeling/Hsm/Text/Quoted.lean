import Hsm.Text.Printable
/-! Quoted text as diagnostics and structure dumps show it: between double quotes, a backslash
escapes the quote, the backslash, tab, carriage return, line feed and NUL; a character that
extends a grapheme cluster or is not printable becomes `\u` followed by its code point in
lowercase hexadecimal between braces; every other character stands for itself. -/
namespace Hsm
namespace Text

def hex (n : Nat) : String := String.ofList (Nat.toDigits 16 n)

/-- The quoted form of one character. -/
def quoteChar (c : Char) : String :=
  match c with
  | '\x00' => "\\0"
  | '\t' => "\\t"
  | '\r' => "\\r"
  | '\n' => "\\n"
  | '\\' => "\\\\"
  | '"' => "\\\""
  | c =>
    if isExtend c || !isPrintable c then "\\u\x7b" ++ hex c.toNat ++ "\x7d"
    else String.singleton c

def quote (s : String) : String :=
  "\"" ++ String.join (s.toList.map quoteChar) ++ "\""

def quoteList (xs : List String) : String :=
  "[" ++ ", ".intercalate (xs.map quote) ++ "]"

def quoteOption : Option String → String
  | some s => "Some(" ++ quote s ++ ")"
  | none => "None"

end Text
end Hsm
