import Hsm.Content.Command
/-! Running executable content. Commands run in order against the data bag and the current event;
the first failure stops the run, and what the earlier commands did stays done. Raises and sends
are collected in an outbox, in command order, for the session to route; log lines (when the host
collects them) and script calls are host effects, also in command order. -/
namespace Hsm

/-- What the host provides to content: scripts by name, each succeeding or failing with a reason,
and whether log lines are collected. -/
structure Hooks where
  scripts : List (String × Option String) := []
  logSink : Bool := false

namespace Hooks

def hasScript (h : Hooks) (src : String) : Bool := h.scripts.any (·.1 == src)

def script? (h : Hooks) (src : String) : Option (Option String) :=
  (h.scripts.find? (·.1 == src)).map (·.2)

end Hooks

/-- Something the host observes while content runs. -/
inductive Effect where
  /-- A log line from a session while it processed an event. -/
  | log (label : Option String) (session : String) (event : String)
  /-- A script call, with the variables it saw. -/
  | script (src : String) (event : String) (vars : List (String × Int))
  /-- An external service asked to start for an invocation. -/
  | service (src : String) (invoke : String)

/-- An event produced by content, before routing. -/
inductive Outgoing where
  | raise (e : Event)
  | send (e : Event) (target : Option String)

/-- Why content failed. -/
inductive ContentError where
  | unknownScript (src : String)
  | scriptFailed (src : String) (reason : String)
  | assignFailed (location : String) (reason : String)
  deriving DecidableEq

def ContentError.message : ContentError → String
  | .unknownScript src => "No script registered under '" ++ src ++ "'"
  | .scriptFailed src reason => "Script '" ++ src ++ "' failed: " ++ reason
  | .assignFailed location reason => "Assignment to '" ++ location ++ "' failed: " ++ reason

def ContentError.kindName : ContentError → String
  | .unknownScript .. => "UnknownScript"
  | .scriptFailed .. => "ScriptFailed"
  | .assignFailed .. => "AssignFailed"

/-- What a run of content leaves: the data bag, the outbox, the host effects, and the failure
that stopped it, if any. -/
structure Run where
  data : Data
  outbox : List Outgoing := []
  effects : List Effect := []
  error : Option ContentError := none

/-- Run commands for session `session` on the current event `e`. -/
def execute (hooks : Hooks) (session : String) (e : Event) : List Command → Data → Run
  | [], d => { data := d }
  | c :: cs, d =>
    let step : Except ContentError (Data × List Outgoing × List Effect) :=
      match c with
      | .assign a =>
        match a.update.apply d e with
        | .ok d' => .ok (d', [], [])
        | .error reason => .error (.assignFailed a.location reason)
      | .send action => .ok (d, [.send (action.toEvent session) action.target], [])
      | .raise name =>
        .ok (d, [.raise { name, kind := .internal, origin := some session }], [])
      | .log label => .ok (d, [], if hooks.logSink then [.log label session e.name] else [])
      | .script src =>
        match hooks.script? src with
        | none => .error (.unknownScript src)
        | some none => .ok (d, [], [.script src e.name d.vars])
        | some (some reason) => .error (.scriptFailed src reason)
    match step with
    | .ok (d', out, eff) =>
      let rest := execute hooks session e cs d'
      { rest with outbox := out ++ rest.outbox, effects := eff ++ rest.effects }
    | .error err =>
      let eff := match c with
        | .script src => if hooks.hasScript src then [.script src e.name d.vars] else []
        | _ => []
      { data := d, effects := eff, error := some err }

end Hsm
