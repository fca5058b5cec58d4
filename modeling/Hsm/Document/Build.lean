import Hsm.Document.Schema
import Hsm.Document.Issue
/-! Compiling a described tree into a document. A pre-order walk gives every state, transition
and invocation its document order from one counter and records the problems it meets; then
transition targets are resolved, every compound state (and the root) gets a default-entry
transition (its explicit targets, else its first marked child, else its first child), every
history pseudo-state without transitions gets a default transition (all regions of a parallel
home, else the home's default targets), and the result is checked. Every problem is reported. -/
namespace Hsm

/-- How a state's default entry is chosen once all ids are known. -/
inductive InitialRule where
  /-- Enter this child. -/
  | child (s : Nat)
  /-- Enter the states with these ids. -/
  | ids (names : List String)

/-- A default entry still to be made into a transition. -/
structure PendingInitial where
  state : Nat
  rule : InitialRule
  content : List Command

/-- The arena while the tree is walked. -/
structure Lowering where
  states : Array StateNode := #[{ id := Document.rootId, mode := .atomic, order := 0, depth := -1 }]
  transitions : Array TransitionNode := #[]
  invokes : Array (InvokeNode Document) := #[]
  pendingTargets : Array (Nat × List String) := #[]
  pendingInitial : Array PendingInitial := #[]
  issues : Array Issue := #[]
  order : Nat := 1

namespace Lowering

def find? (l : Lowering) (name : String) : Option Nat :=
  if name = Document.rootId then none else l.states.findIdx? (·.id == name)

def nextOrder : StateM Lowering Nat :=
  modifyGet fun l => (l.order, { l with order := l.order + 1 })

def modifyNode (s : Nat) (f : StateNode → StateNode) : StateM Lowering Unit :=
  modify fun l => { l with states := l.states.modify s f }

def report (i : Issue) : StateM Lowering Unit :=
  modify fun l => { l with issues := l.issues.push i }

/-- Add a transition of `source`; its targets are resolved later. -/
def lowerTransition (source : Nat) (t : TransitionSchema) : StateM Lowering Unit := do
  let order ← nextOrder
  let l ← get
  let tid := l.transitions.size
  set { l with
    transitions := l.transitions.push
      { source, targets := [], events := t.events, kind := t.kind, cond := t.cond,
        content := t.content, order }
    pendingTargets := l.pendingTargets.push (tid, t.targets) }
  modifyNode source fun n => { n with transitions := n.transitions ++ [tid] }

/-- Add an invocation started by `state`; it takes a document order of its own. -/
def lowerInvoke (state : Nat) (i : InvokeSchema) : StateM Lowering Unit := do
  let _ ← nextOrder
  let l ← get
  let iid := l.invokes.size
  set { l with
    invokes := l.invokes.push
      { id := i.id, source := i.source, autoforward := i.autoforward, finalize := i.finalize,
        childData := i.childData, state } }
  modifyNode state fun n => { n with invokes := n.invokes ++ [iid] }

/-- Once the children of `parent` are in place: its descendants (children first, each followed
by its own), compound mode if it has children, and how its default entry is chosen. Explicit
targets on a state that is not compound are a problem. -/
def finishChildren (parent : Nat) (explicit : List String) (marked : Option Nat) :
    StateM Lowering (Option InitialRule) := do
  let l ← get
  let node := l.states.getD parent default
  let descendants := node.children.flatMap fun c => c :: (l.states.getD c default).descendants
  let mode := if node.mode == .atomic && !node.children.isEmpty then .compound else node.mode
  modifyNode parent fun n => { n with descendants, mode }
  if mode != .compound then
    if !explicit.isEmpty then report (.initialOnNonCompound node.id)
    pure none
  else if !explicit.isEmpty then pure (some (.ids explicit))
  else pure ((marked <|> node.children.head?).map .child)

def StateKind.mode : StateKind → StateMode
  | .state => .atomic
  | .parallel => .parallel
  | .final => .final
  | .history k => .history k

mutual

/-- Add a state under `parent`, with everything nested in it; returns its index. -/
def lowerState (parent : Nat) : StateSchema → StateM Lowering Nat
  | ⟨sid, kind, _, initialTargets, initialContent, children, transitions, invokes, onEntry,
      onExit, doneData⟩ => do
    let order ← nextOrder
    let l ← get
    let id := l.states.size
    let p := l.states.getD parent default
    if sid = Document.rootId then report (.reservedStateId sid)
    else if (l.find? sid).isSome then report (.duplicateStateId sid)
    let mode := StateKind.mode kind
    modify fun l => { l with
      states := l.states.push
        { id := sid, mode, order, depth := p.depth + 1, parent := some parent,
          ancestors := parent :: p.ancestors, onEntry, onExit, doneData } }
    match mode with
    | .history _ => modifyNode parent fun n => { n with history := n.history ++ [id] }
    | _ => modifyNode parent fun n => { n with children := n.children ++ [id] }
    transitions.forM (lowerTransition id)
    invokes.forM (lowerInvoke id)
    match mode with
    | .final =>
      if !children.isEmpty then report (.finalWithChildren sid)
      else if !initialTargets.isEmpty then report (.initialOnNonCompound sid)
    | .history _ =>
      if !children.isEmpty then report (.historyWithChildren sid)
      else if !initialTargets.isEmpty then report (.initialOnNonCompound sid)
    | _ =>
      let marked ← lowerEach id children
      if let some rule ← finishChildren id initialTargets marked then
        modify fun l => { l with
          pendingInitial := l.pendingInitial.push ⟨id, rule, initialContent⟩ }
    pure id

/-- Add states under `parent` in order; returns the first one marked initial that is not a
history pseudo-state. -/
def lowerEach (parent : Nat) : List StateSchema → StateM Lowering (Option Nat)
  | [] => pure none
  | c :: cs => do
    let id ← lowerState parent c
    let isHistory := match StateKind.mode c.kind with
      | .history _ => true
      | _ => false
    let rest ← lowerEach parent cs
    pure (if c.initialMarker && !isHistory then some id else rest)

end

/-- Add a transition made by the compiler: eventless, external, unguarded. -/
def pushSynthetic (source : Nat) (targets : List Nat) (content : List Command) :
    StateM Lowering Nat := do
  let order ← nextOrder
  modifyGet fun l =>
    (l.transitions.size,
      { l with
        transitions := l.transitions.push
          { source, targets, events := [], kind := .external, cond := none, content, order } })

def resolve (issue : String → Issue) (names : List String) : StateM Lowering (List Nat) :=
  names.filterMapM fun name => do
    match (← get).find? name with
    | some s => pure (some s)
    | none => report (issue name); pure none

/-- Resolve transition targets, make default-entry transitions (in the order they were queued)
and default transitions of history pseudo-states (in arena order). -/
def finish : StateM Lowering Unit := do
  let l ← get
  l.pendingTargets.toList.forM fun (tid, names) => do
    let source := ((← get).transitions.getD tid default).source
    let sname := ((← get).states.getD source default).id
    let targets ← resolve (.unresolvedTarget sname) names
    modify fun l => { l with transitions := l.transitions.modify tid fun t => { t with targets } }
  l.pendingInitial.toList.forM fun p => do
    let targets ← match p.rule with
      | .child c => pure [c]
      | .ids names => resolve (.unresolvedInitial ((← get).states.getD p.state default).id) names
    let tid ← pushSynthetic p.state targets p.content
    modifyNode p.state fun n => { n with initial := some tid }
  let l ← get
  let histories := (List.range l.states.size).filter fun s =>
    let n := l.states.getD s default
    (match n.mode with
      | .history _ => true
      | _ => false) && n.transitions.isEmpty
  histories.forM fun h => do
    let l ← get
    let home := l.states.getD ((l.states.getD h default).parent.getD 0) default
    let targets := match home.mode with
      | .parallel => home.children
      | _ => match home.initial with
        | some t => (l.transitions.getD t default).targets
        | none => []
    let tid ← pushSynthetic h targets []
    modifyNode h fun n => { n with transitions := n.transitions ++ [tid] }

def document (l : Lowering) : Document := ⟨l.states, l.transitions, l.invokes⟩

end Lowering

namespace Document

def targetSetIssue (d : Document) (t : Nat) : List Issue :=
  let node := d.transition t
  if d.isLegalSet node.targets then []
  else [.illegalTargetSet (d.name node.source) (node.targets.map d.name)]

/-- The structural problems of a compiled document, state by state in arena order: default
targets that are not below their state, a default-entry target set that cannot be active, then
each of the state's own transitions whose targets cannot be active together. -/
def problems (d : Document) : List Issue :=
  (List.range d.size).flatMap fun s =>
    let node := d.state s
    let initial := match node.initial with
      | some t =>
        ((d.transition t).targets.filterMap fun target =>
          if d.isDescendant target s then none
          else some (Issue.initialNotDescendant (d.name s) (d.name target))) ++
        d.targetSetIssue t
      | none => []
    initial ++ node.transitions.flatMap d.targetSetIssue

end Document

namespace DocumentSchema

/-- Compiling: the top-level states below the root, then the root closed, then names resolved
and default transitions made. -/
def walk (ds : DocumentSchema) : StateM Lowering Unit := do
  let marked ← Lowering.lowerEach 0 ds.states
  if let some rule ← Lowering.finishChildren 0 ds.initial marked then
    modify fun l => { l with pendingInitial := l.pendingInitial.push ⟨0, rule, ds.onInitial⟩ }
  Lowering.finish

def arena (ds : DocumentSchema) : Lowering := (ds.walk.run {}).2

def build (ds : DocumentSchema) : Except (List Issue) Document :=
  let d := ds.arena.document
  match ds.arena.issues.toList ++ d.problems with
  | [] => .ok d
  | issues => .error issues

end DocumentSchema
end Hsm
