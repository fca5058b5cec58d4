import Hsm.Document.Basic
import Hsm.OrderedSet
import Hsm.Session.Error
/-! Choosing transitions and the states they leave and enter, from the document, the active
configuration and the history table alone: selection with conflict removal, domains and exit
sets, and the entry walk. History defaults may point back to their own pseudo-state, so the walks
through them carry a depth bound, the square of the number of states. -/
namespace Hsm

/-- What a set of transitions enters. -/
structure EntrySet where
  states : OrderedSet Nat := {}
  /-- Compound states entered through their default-entry transition. -/
  defaultEntry : OrderedSet Nat := {}
  /-- For a home state, the history default transition whose content runs when it is entered. -/
  historyContent : List (Nat × Nat) := []

def setKey (k v : Nat) : List (Nat × Nat) → List (Nat × Nat)
  | [] => [(k, v)]
  | (k', v') :: rest => if k' == k then (k, v) :: rest else (k', v') :: setKey k v rest

/-- What selection reads: a document, the active states and the history records. -/
structure Selector where
  doc : Document
  configuration : OrderedSet Nat
  history : HistoryTable

namespace Selector

variable (sel : Selector)

def depthBound : Nat := (sel.doc.size + 1) * (sel.doc.size + 1)

def historyDefault (h : Nat) : Option Nat := (sel.doc.state h).transitions.head?

/-- Add states to `out`, each history pseudo-state replaced by its record or, without one, by
the targets of its default transition. -/
def collectEffective : Nat → List Nat → OrderedSet Nat → OrderedSet Nat
  | 0, _, out => out
  | fuel + 1, states, out =>
    states.foldl (fun out s =>
      if !sel.doc.isHistory s then out.add s
      else match sel.history.get s with
        | some recorded => out.union recorded
        | none =>
          match sel.historyDefault s with
          | some d => collectEffective fuel (sel.doc.transition d).targets out
          | none => out) out

/-- The targets of a transition with history pseudo-states replaced by what they stand for. -/
def effectiveTargets (t : Nat) : OrderedSet Nat :=
  sel.collectEffective sel.depthBound (sel.doc.transition t).targets {}

/-- The nearest compound ancestor (or the root) of the first state that contains all the
others; the root for no states. -/
def lcca : List Nat → Nat
  | [] => 0
  | head :: tail =>
    (((sel.doc.properAncestors head none).filter sel.doc.isCompoundOrRoot).find? fun a =>
      tail.all fun s => sel.doc.isDescendant s a).getD 0

/-- The state whose active descendants a transition exits; none without effective targets. -/
def domain (t : Nat) : Option Nat :=
  let node := sel.doc.transition t
  let targets := sel.effectiveTargets t
  if targets.isEmpty then none
  else if node.kind == .internal && sel.doc.isCompound node.source &&
      targets.items.all (sel.doc.isDescendant · node.source) then some node.source
  else some (sel.lcca (node.source :: targets.items))

/-- The active states that transitions leave, transition by transition. -/
def exitSet (ts : List Nat) : OrderedSet Nat :=
  ts.foldl (fun exit t =>
    if (sel.doc.transition t).targets.isEmpty then exit
    else match sel.domain t with
      | some d => exit.union (sel.configuration.items.filter (sel.doc.isDescendant · d))
      | none => exit) {}

/-- The accepted transitions a candidate with exit set `exits` and source `source` evicts, in
order, or `none` when one of them preempts it. -/
def evicted (exits : OrderedSet Nat) (source : Nat) : List Nat → Option (List Nat)
  | [] => some []
  | a :: rest =>
    if !exits.intersects (sel.exitSet [a]) then evicted exits source rest
    else if sel.doc.isDescendant source (sel.doc.transition a).source then
      (evicted exits source rest).map (a :: ·)
    else none

/-- Keep transitions in order, dropping each whose exit set meets an accepted one's, unless it
comes from below that one's source and so replaces it. -/
def removeConflicts (enabled : OrderedSet Nat) : OrderedSet Nat :=
  enabled.items.foldl (fun filtered c =>
    match sel.evicted (sel.exitSet [c]) (sel.doc.transition c).source filtered.items with
    | none => filtered
    | some out => (out.foldl OrderedSet.erase filtered).add c) {}

def guardHolds (d : Data) (e : Event) (t : TransitionNode) : Except String Bool :=
  match t.cond with
  | some g => g.check d e
  | none => pure true

/-- The first transition of `level`, among `ts`, that qualifies and whose guard holds. -/
def firstOfLevel (d : Data) (e : Event) (qualifies : TransitionNode → Bool) (level : Nat) :
    List Nat → Except SessionError (Option Nat)
  | [] => pure none
  | t :: ts =>
    let node := sel.doc.transition t
    if !qualifies node then firstOfLevel d e qualifies level ts
    else match guardHolds d e node with
      | .error reason => throw (.guard (sel.doc.name level) reason)
      | .ok true => pure (some t)
      | .ok false => firstOfLevel d e qualifies level ts

/-- The first enabled transition along a chain of states, nearest first. -/
def firstOfChain (d : Data) (e : Event) (qualifies : TransitionNode → Bool) :
    List Nat → Except SessionError (Option Nat)
  | [] => pure none
  | level :: rest => do
    match ← sel.firstOfLevel d e qualifies level (sel.doc.state level).transitions with
    | some t => pure (some t)
    | none => firstOfChain d e qualifies rest

def atomicStates : List Nat :=
  sortBy sel.doc.documentCmp (sel.configuration.items.filter sel.doc.isAtomic)

/-- The first enabled transition of the chain of each of `states`, in order, among those that
qualify; a failing guard is an error of the state it belongs to. -/
def enabledAlong (d : Data) (e : Event) (qualifies : TransitionNode → Bool) (states : List Nat) :
    Except SessionError (OrderedSet Nat) :=
  states.foldlM (fun enabled s => do
    match ← sel.firstOfChain d e qualifies (s :: sel.doc.properAncestors s none) with
    | some t => pure (enabled.add t)
    | none => pure enabled) {}

/-- The transitions enabled for data `d` and event `e` among those that qualify, before conflicts
are removed: the first of each active atomic state's chain, states taken in document order. -/
def enabled (d : Data) (e : Event) (qualifies : TransitionNode → Bool) :
    Except SessionError (OrderedSet Nat) :=
  sel.enabledAlong d e qualifies sel.atomicStates

/-- The transitions enabled for data `d` and event `e` among those that qualify, conflicts
removed. -/
def select (d : Data) (e : Event) (qualifies : TransitionNode → Bool) :
    Except SessionError (OrderedSet Nat) := do
  let enabled ← sel.enabled d e qualifies
  pure (sel.removeConflicts enabled)

def selectEventless (d : Data) (e : Event) : Except SessionError (OrderedSet Nat) :=
  sel.select d e TransitionNode.isEventless

def selectFor (d : Data) (e : Event) : Except SessionError (OrderedSet Nat) :=
  sel.select d e fun t => !t.isEventless && t.matches e.name

mutual

/-- Enter a state with what it brings along: a history pseudo-state its record or default, a
compound state its default targets, a parallel state its regions. -/
def addDescendants : Nat → Nat → EntrySet → EntrySet
  | 0, _, e => e
  | fuel + 1, s, e =>
    if sel.doc.isHistory s then
      let home := ((sel.doc.state s).parent).getD 0
      match sel.history.get s with
      | some recorded =>
        let e := recorded.foldl (fun e r => addDescendants fuel r e) e
        recorded.foldl (fun e r => addAncestors fuel r (some home) e) e
      | none =>
        match sel.historyDefault s with
        | some dt =>
          let e := { e with historyContent := setKey home dt e.historyContent }
          let targets := (sel.doc.transition dt).targets
          let e := targets.foldl (fun e r => addDescendants fuel r e) e
          targets.foldl (fun e r => addAncestors fuel r (some home) e) e
        | none => e
    else
      let e := { e with states := e.states.add s }
      if sel.doc.isCompound s then
        let e := { e with defaultEntry := e.defaultEntry.add s }
        match (sel.doc.state s).initial with
        | some i =>
          let targets := (sel.doc.transition i).targets
          let e := targets.foldl (fun e r => addDescendants fuel r e) e
          targets.foldl (fun e r => addAncestors fuel r (some s) e) e
        | none => e
      else if sel.doc.isParallel s then addRegions fuel s e
      else e

/-- Enter the ancestors of a state below `upto`, with the regions of parallel ones. -/
def addAncestors : Nat → Nat → Option Nat → EntrySet → EntrySet
  | 0, _, _, e => e
  | fuel + 1, s, upto, e =>
    (sel.doc.properAncestors s upto).foldl (fun e a =>
      let e := { e with states := e.states.add a }
      if sel.doc.isParallel a then addRegions fuel a e else e) e

/-- Enter every region of a parallel state that nothing entered yet covers. -/
def addRegions : Nat → Nat → EntrySet → EntrySet
  | 0, _, e => e
  | fuel + 1, p, e =>
    (sel.doc.state p).children.foldl (fun e c =>
      if e.states.items.any (fun s => s == c || sel.doc.isDescendant s c) then e
      else addDescendants fuel c e) e

end

/-- What transitions enter, transition by transition. -/
def entrySet (ts : List Nat) : EntrySet :=
  ts.foldl (fun e t =>
    let e := (sel.doc.transition t).targets.foldl
      (fun e s => sel.addDescendants sel.depthBound s e) e
    let domain := sel.domain t
    (sel.effectiveTargets t).items.foldl (fun e s => sel.addAncestors sel.depthBound s domain e) e)
    {}

/-- What a history pseudo-state of `home` records: the active atomic states below it (deep), or
its active children (shallow). -/
def historySnapshot (home : Nat) (kind : HistoryKind) : List Nat :=
  sel.configuration.items.filter fun s =>
    match kind with
    | .deep => sel.doc.isAtomic s && sel.doc.isDescendant s home
    | .shallow => (sel.doc.state s).parent == some home

/-- Whether a state is complete within `fuel` levels: a compound state when a final child is
active, a parallel state when every region is complete. -/
def completeWithin : Nat → Nat → Bool
  | 0, _ => false
  | fuel + 1, s =>
    let node := sel.doc.state s
    if node.mode == .compound then
      node.children.any fun c => sel.doc.isFinal c && sel.configuration.contains c
    else if node.mode == .parallel then node.children.all (completeWithin fuel)
    else false

def isInFinalState (s : Nat) : Bool := sel.completeWithin (sel.doc.size + 1) s

end Selector
end Hsm
