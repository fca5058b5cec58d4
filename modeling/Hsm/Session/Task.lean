import Hsm.Session.Step
/-! Sessions as tasks on one thread, scheduled by a runtime given as a parameter. A poll starts a
fresh task, then handles at most a budget of queued envelopes; a task ends when its session stops.
Each time the host yields, the runtime polls a round of ready tasks and then rests. -/
namespace Hsm

/-- A cooperative runtime: how many envelopes a task handles in one poll before yielding its
turn, how many times it looks for a ready task each time the host yields, and every how many of
those looks (ticks) the host's queue of ready tasks comes before the tasks' own. -/
structure Runtime where
  pollBudget : Nat
  pollsPerYield : Nat
  hostInterval : Nat

def Runtime.host : Runtime := { pollBudget := 128, pollsPerYield := 61, hostInterval := 31 }

namespace Engine

def finish (me : Nat) (result : Except SessionError Outcome) : StateM World Unit :=
  modify fun w =>
    (w.modifySession me fun s => { s with drive := .finished result }).close (w.session me).mailbox

def defer (me : Nat) : StateM World Unit :=
  modify fun w =>
    { w.modifySession me (fun s => { s with drive := .ready }) with deferred := me :: w.deferred }

/-- Serve a started task: handle queued envelopes while the session runs, `budget` at most. -/
def serve (me : Nat) : Nat → StateM World Unit
  | 0 => do
    let s := (← get).session me
    if !s.isRunning then finish me (.ok s.outcome) else defer me
  | b + 1 => do
    let s := (← get).session me
    if !s.isRunning then finish me (.ok s.outcome)
    else
      let (env, w) := (← get).take s.mailbox
      set w
      match env with
      | none => modify (·.modifySession me fun s => { s with drive := .waiting })
      | some env =>
        match ← (handle me env).run with
        | .error e => finish me (.error e)
        | .ok () => serve me b

/-- Poll a task with a budget of `budget` envelopes: start it if it is fresh, then serve it. -/
def poll (budget me : Nat) : StateM World Unit := do
  match ((← get).session me).drive with
  | .fresh data =>
    modify (·.modifySession me fun s => { s with drive := .ready })
    match ← (start me data).run with
    | .error e => finish me (.error e)
    | .ok () => serve me budget
  | .ready => serve me budget
  | _ => pure ()

def firstOf (first second : List Nat) : Option (Nat × List Nat × List Nat) :=
  match first, second with
  | t :: rest, _ => some (t, rest, second)
  | [], t :: rest => some (t, [], rest)
  | [], [] => none

/-- Count a tick and take the next ready task, if any: on every `interval`-th tick from the
host's queue first, otherwise from the tasks' own, so tasks that tasks made ready run first. -/
def nextTask (interval : Nat) : StateM World (Option Nat) := do
  let w ← get
  let tick := w.tick + 1
  if tick % interval == 0 then
    match firstOf w.hostQueue w.taskQueue with
    | some (t, hosts, tasks) =>
      set { w with tick, hostQueue := hosts, taskQueue := tasks }
      pure (some t)
    | none => set { w with tick }; pure none
  else
    match firstOf w.taskQueue w.hostQueue with
    | some (t, tasks, hosts) =>
      set { w with tick, hostQueue := hosts, taskQueue := tasks }
      pure (some t)
    | none => set { w with tick }; pure none

/-- Look for ready tasks and poll them, at most `n` looks; stop at the first look that finds
none. -/
def pollRound (rt : Runtime) : Nat → StateM World Unit
  | 0 => pure ()
  | n + 1 => do
    match ← nextTask rt.hostInterval with
    | none => pure ()
    | some t =>
      poll rt.pollBudget t
      pollRound rt n

def rest : StateM World Unit :=
  modify fun w => { w with taskQueue := w.taskQueue ++ w.deferred, deferred := [] }

/-- Yield to the runtime `k` times: a round of polls and a rest each time. -/
def yieldTimes (rt : Runtime) : Nat → StateM World Unit
  | 0 => pure ()
  | k + 1 => do
    modify fun w => { w with polling := true }
    pollRound rt rt.pollsPerYield
    rest
    modify fun w => { w with polling := false }
    yieldTimes rt k

end Engine
end Hsm
