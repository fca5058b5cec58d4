import Hsm.Json.Error
/-! The JSON library that events and send actions are written and read with, given by what it
does: it prints a value as text, and it parses text into a value or fails with an error. -/
namespace Hsm
namespace Json

/-- A JSON library: printing a value as text, and parsing text into a value. -/
structure Library where
  print : Value → String
  parse : String → Except Error Value

end Json
end Hsm
