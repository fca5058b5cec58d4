import Hsm.Content.Command
import Hsm.Content.Guard
import Hsm.History
import Hsm.Order
/-! A compiled state tree: arrays of state, transition and invoke nodes addressed by index.
State 0 is the root container (`$root`, depth `-1`); the other states follow a pre-order walk of
the description. Each state knows its parent, its ancestors (nearest first, ending at the root),
its children and descendants (history pseudo-states excluded), its history pseudo-states, its
transitions and invocations. Every node has a document order, one counter shared by states,
transitions and invocations. -/
namespace Hsm

/-- What a state is once its children are known. -/
inductive StateMode where
  | atomic
  | compound
  | parallel
  | final
  | history (kind : HistoryKind)
  deriving DecidableEq

/-- Whether a transition leaves its source state when its targets lie inside it. -/
inductive TransitionKind where
  | internal
  | external
  deriving DecidableEq

/-- What an invocation starts: a machine (a compiled document of type `δ`) or a service
registered under a name. -/
inductive InvokeSource (δ : Type) where
  | machine (doc : δ)
  | service (src : String)

/-- How an invoked session's data bag is made from its parent's. -/
inductive ChildData where
  /-- A copy of the parent's bag. -/
  | copy
  /-- Exactly these variables and an empty trace. -/
  | vars (vs : List (String × Int))

/-- One state of the tree. -/
structure StateNode where
  id : String
  mode : StateMode
  order : Nat
  depth : Int
  parent : Option Nat := none
  ancestors : List Nat := []
  descendants : List Nat := []
  children : List Nat := []
  transitions : List Nat := []
  invokes : List Nat := []
  history : List Nat := []
  onEntry : List Command := []
  onExit : List Command := []
  initial : Option Nat := none
  doneData : Option Json.Value := none

instance : Inhabited StateNode := ⟨{ id := "", mode := .atomic, order := 0, depth := 0 }⟩

/-- One transition, its targets resolved to states. -/
structure TransitionNode where
  source : Nat
  targets : List Nat
  events : List String
  kind : TransitionKind
  cond : Option Guard
  content : List Command
  order : Nat

instance : Inhabited TransitionNode :=
  ⟨{ source := 0, targets := [], events := [], kind := .external, cond := none, content := [],
     order := 0 }⟩

def TransitionNode.isEventless (t : TransitionNode) : Bool := t.events.isEmpty

def TransitionNode.matches (t : TransitionNode) (name : String) : Bool := nameMatches t.events name

/-- One invocation attached to a state; machines are compiled documents of type `δ`. -/
structure InvokeNode (δ : Type) where
  id : String
  source : InvokeSource δ
  autoforward : Bool
  finalize : List Command
  childData : Option ChildData
  state : Nat

/-- A compiled state tree. -/
structure Document where
  states : Array StateNode
  transitions : Array TransitionNode
  invokes : Array (InvokeNode Document)

namespace Document

def rootId : String := "$root"

def state (d : Document) (s : Nat) : StateNode := d.states.getD s default

def transition (d : Document) (t : Nat) : TransitionNode := d.transitions.getD t default

def invoke? (d : Document) (i : Nat) : Option (InvokeNode Document) := d.invokes[i]?

def size (d : Document) : Nat := d.states.size

def name (d : Document) (s : Nat) : String := (d.state s).id

def lookup (d : Document) (id : String) : Option Nat :=
  if id = rootId then none else d.states.toList.findIdx? (·.id == id)

def isDescendant (d : Document) (s a : Nat) : Bool := (d.state s).ancestors.contains a

def isAtomic (d : Document) (s : Nat) : Bool :=
  (d.state s).descendants.isEmpty && (d.state s).mode != .parallel

def isCompound (d : Document) (s : Nat) : Bool := (d.state s).mode == .compound

def isParallel (d : Document) (s : Nat) : Bool := (d.state s).mode == .parallel

def isFinal (d : Document) (s : Nat) : Bool := (d.state s).mode == .final

def historyKind? (d : Document) (s : Nat) : Option HistoryKind :=
  match (d.state s).mode with
  | .history k => some k
  | _ => none

def isHistory (d : Document) (s : Nat) : Bool := (d.historyKind? s).isSome

def isCompoundOrRoot (d : Document) (s : Nat) : Bool := s == 0 || d.isCompound s

/-- Ancestors of `s`, nearest first, stopping before `upto` and never including the root; none
at all when `upto` is `s`, its parent, or lies below `s`. -/
def properAncestors (d : Document) (s : Nat) (upto : Option Nat) : List Nat :=
  match upto with
  | some u =>
    if u == s || (d.state s).parent == some u || d.isDescendant u s then []
    else (d.state s).ancestors.takeWhile fun a => a != u && a != 0
  | none => (d.state s).ancestors.takeWhile fun a => a != 0

def nearestCommonAncestor (d : Document) (a b : Nat) : Nat :=
  ((d.state a).ancestors.find? fun anc => d.isDescendant b anc).getD 0

/-- Whether two states may be active together: equal, nested, or in different regions of a
parallel state. -/
def compatible (d : Document) (a b : Nat) : Bool :=
  a == b || d.isDescendant a b || d.isDescendant b a || d.isParallel (d.nearestCommonAncestor a b)

def isLegalSet (d : Document) : List Nat → Bool
  | [] => true
  | a :: rest => rest.all (d.compatible a) && d.isLegalSet rest

def place (d : Document) (s : Nat) : Place := ⟨(d.state s).depth, (d.state s).order⟩

def entryCmp (d : Document) (a b : Nat) : Ordering := (d.place a).entryCmp (d.place b)

def exitCmp (d : Document) (a b : Nat) : Ordering := (d.place a).exitCmp (d.place b)

def documentCmp (d : Document) (a b : Nat) : Ordering := (d.place a).documentCmp (d.place b)

end Document
end Hsm
