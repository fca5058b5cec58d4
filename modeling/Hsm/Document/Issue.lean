import Hsm.Text.Quoted
/-! What can be wrong with a described document. Compiling reports every problem it finds, in a
fixed order: problems of the tree walk, unknown transition targets, unknown initial targets, then
per state the initial targets that are not below it and the target sets that cannot be active
together. -/
namespace Hsm

/-- One problem of a described document. -/
inductive Issue where
  | duplicateStateId (id : String)
  | reservedStateId (id : String)
  | unresolvedTarget (state target : String)
  | unresolvedInitial (state target : String)
  | initialNotDescendant (state target : String)
  | illegalTargetSet (state : String) (targets : List String)
  | finalWithChildren (id : String)
  | historyWithChildren (id : String)
  | initialOnNonCompound (id : String)
  deriving DecidableEq

namespace Issue

/-- The message of an issue. -/
def message : Issue → String
  | .duplicateStateId id => "State id '" ++ id ++ "' is used more than once"
  | .reservedStateId id => "State id '" ++ id ++ "' is reserved for the document root"
  | .unresolvedTarget s t => "Transition in '" ++ s ++ "' targets unknown state '" ++ t ++ "'"
  | .unresolvedInitial s t => "Initial target '" ++ t ++ "' of '" ++ s ++ "' does not exist"
  | .initialNotDescendant s t => "Initial target '" ++ t ++ "' is not a descendant of '" ++ s ++ "'"
  | .illegalTargetSet s ts =>
    "Targets " ++ Text.quoteList ts ++ " of a transition in '" ++ s ++ "' cannot be active together"
  | .finalWithChildren id => "Final state '" ++ id ++ "' cannot have child states"
  | .historyWithChildren id => "History state '" ++ id ++ "' cannot have child states"
  | .initialOnNonCompound id =>
    "State '" ++ id ++ "' is not compound and cannot declare initial targets"

/-- The name of an issue's kind. -/
def kindName : Issue → String
  | .duplicateStateId .. => "DuplicateStateId"
  | .reservedStateId .. => "ReservedStateId"
  | .unresolvedTarget .. => "UnresolvedTarget"
  | .unresolvedInitial .. => "UnresolvedInitial"
  | .initialNotDescendant .. => "InitialNotDescendant"
  | .illegalTargetSet .. => "IllegalTargetSet"
  | .finalWithChildren .. => "FinalWithChildren"
  | .historyWithChildren .. => "HistoryWithChildren"
  | .initialOnNonCompound .. => "InitialOnNonCompound"

end Issue

def issuesMessage (issues : List Issue) : String :=
  "Invalid document: " ++ "; ".intercalate (issues.map Issue.message)

end Hsm
