import Hsm.Dump.Basic
import Hsm.Session.World
import Hsm.Document.Schema
/-! Dumps of documents, their descriptions, hooks, registries and sessions. -/
namespace Hsm

/-- The kind of a described state: `State`, `Parallel`, `Final`, `History(Shallow)`,
`History(Deep)`. -/
def StateKind.dump : StateKind → String
  | .state => "State"
  | .parallel => "Parallel"
  | .final => "Final"
  | .history .shallow => "History(Shallow)"
  | .history .deep => "History(Deep)"

def Document.dump (d : Document) : String :=
  "Document \x7b states: " ++ Text.quoteList (d.states.toList.map (·.id)) ++ ", transitions: " ++
    toString d.transitions.size ++ ", invokes: " ++ toString d.invokes.size ++ " \x7d"

/-- What an invocation starts: a machine by its number of states, or a service by name. -/
def InvokeSource.dump : InvokeSource Document → String
  | .machine d => "Machine(" ++ toString d.size ++ " states)"
  | .service src => "Service(" ++ Text.quote src ++ ")"

def sortedNames (names : List String) : List String := sortBy (fun a b => compare a b) names

def Hooks.dump (h : Hooks) : String :=
  "Hooks \x7b scripts: " ++ Text.quoteList (sortedNames (h.scripts.map (·.1))) ++
    ", log_sink: " ++ toString h.logSink ++ " \x7d"

def Registry.dump (r : Registry) : String :=
  "Registry \x7b services: " ++ Text.quoteList (sortedNames (r.services.map (·.1))) ++
    ", hooks: " ++ r.hooks.dump ++ " \x7d"

def Session.dump (s : Session) : String :=
  "Session \x7b name: " ++ Text.quote s.config.name ++ ", status: " ++ s.status.title ++
    ", configuration: " ++ toString s.configuration.size ++ ", children: " ++
    toString s.children.length ++ " \x7d"

def handleDump (name : String) (configuration : List String) : String :=
  "SessionHandle \x7b name: " ++ Text.quote name ++ ", configuration: " ++
    Text.quoteList configuration ++ " \x7d"

end Hsm
