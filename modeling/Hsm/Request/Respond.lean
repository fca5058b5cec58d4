import Hsm.Request.Session
/-! Answering request lines. A line is a JSON object naming an operation in `op`; a line that is
not JSON is answered with the reader's message; a blank line has no answer. -/
namespace Hsm
namespace Request
open Json

/-- The answer to a request. -/
def answerOf (v : Value) : Value :=
  match str v "op" with
  | "pattern" => pattern v
  | "name_matches" => nameMatches v
  | "order" => order v
  | "ordered_set" => orderedSet v
  | "history_table" => historyTable v
  | "event" => event v
  | "send_action" => sendAction v
  | "config_json" => configJson v
  | "evaluate" => evaluate v
  | "debug" => debug v
  | "build" => build v
  | "query" => query v
  | "session" => session v
  | "spawn" => spawn v
  | other => badInput ("unknown op " ++ other)

def respond (line : String) : Option String :=
  if line.toList.all Char.isWhitespace then none
  else match Value.ofText line with
    | .error e => some (badInput e.message).render
    | .ok v => some (answerOf v).render

end Request
end Hsm
