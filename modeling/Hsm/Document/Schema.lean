import Hsm.Document.Basic
/-! Descriptions of state trees, as they are written before compiling: states by id, with their
kind, children, transitions (targets by id), invocations and content. Nothing is resolved here. -/
namespace Hsm

/-- The kind of a described state. -/
inductive StateKind where
  | state
  | parallel
  | final
  | history (kind : HistoryKind)

/-- A described transition. -/
structure TransitionSchema where
  events : List String := []
  targets : List String := []
  kind : TransitionKind := .external
  cond : Option Guard := none
  content : List Command := []

/-- A transition taken when the invocation `invokeId` completes: its one pattern is
`done.invoke.` followed by the id. -/
def TransitionSchema.doneInvoke (invokeId : String) : TransitionSchema :=
  { events := [Event.doneInvokePrefix ++ invokeId] }

/-- A described invocation. -/
structure InvokeSchema where
  id : String
  source : InvokeSource Document
  autoforward : Bool := false
  finalize : List Command := []
  childData : Option ChildData := none

/-- A described state with its subtree. -/
structure StateSchema where
  id : String
  kind : StateKind := .state
  /-- Marks this state as its parent's default entry. -/
  initialMarker : Bool := false
  initialTargets : List String := []
  initialContent : List Command := []
  children : List StateSchema := []
  transitions : List TransitionSchema := []
  invokes : List InvokeSchema := []
  onEntry : List Command := []
  onExit : List Command := []
  doneData : Option Json.Value := none

/-- A described document: its top-level states, explicit initial targets, and the content run
when the initial configuration is entered. -/
structure DocumentSchema where
  states : List StateSchema := []
  initial : List String := []
  onInitial : List Command := []

end Hsm
