import Hsm.Content.Evaluate
/-! Why a session stops, and why an invocation cannot start. A session error is fatal: content
that fails, a guard that fails, a macrostep that needs more microsteps than allowed; or a host
call that is refused (not started, started twice, a closed queue, no route, no runtime). An
invocation error is not fatal: the invoking session receives it as `error.execution`. -/
namespace Hsm

/-- Why a session stopped or refused a host call. -/
inductive SessionError where
  | content (e : ContentError)
  | guard (state reason : String)
  | microstepLimit (limit : Nat)
  | notStarted
  | alreadyStarted
  | closed
  | undeliverable (target : String)
  | noRuntime
  | aborted (reason : String)
  deriving DecidableEq

namespace SessionError

/-- The message of a session error. -/
def message : SessionError → String
  | .content e => e.message
  | .guard state reason => "Guard on a transition of '" ++ state ++ "' failed: " ++ reason
  | .microstepLimit limit => "Macrostep exceeded " ++ toString limit ++ " microsteps"
  | .notStarted => "Session has not been started"
  | .alreadyStarted => "Session has already been started"
  | .closed => "Session queue is closed"
  | .undeliverable target => "No route to '" ++ target ++ "'"
  | .noRuntime => "No tokio runtime available to spawn the session"
  | .aborted reason => "Session task aborted: " ++ reason

/-- The name of a session error's kind; content errors are qualified by `Content.`. -/
def kindName : SessionError → String
  | .content e => "Content." ++ e.kindName
  | .guard .. => "Guard"
  | .microstepLimit .. => "MicrostepLimit"
  | .notStarted => "NotStarted"
  | .alreadyStarted => "AlreadyStarted"
  | .closed => "Closed"
  | .undeliverable .. => "Undeliverable"
  | .noRuntime => "NoRuntime"
  | .aborted .. => "Aborted"

end SessionError

/-- Why an invocation could not start. -/
inductive InvokeError where
  | unknownService (src : String)
  | noRuntime (id : String)
  | serviceFailed (src reason : String)

def InvokeError.message : InvokeError → String
  | .unknownService src => "No service registered under '" ++ src ++ "'"
  | .noRuntime id => "Invoke '" ++ id ++ "' needs a tokio runtime to start its child session"
  | .serviceFailed src reason => "Service '" ++ src ++ "' failed to start: " ++ reason

end Hsm
