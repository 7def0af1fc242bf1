import Logo.Fault

/-!
# The state of an engine and its signals

At most one program runs on an engine. From outside it can be paused, resumed
and cancelled; each request is refused in the states in which it makes no
sense. A run takes notice at its next checkpoint.
-/

namespace Logo
set_option autoImplicit false

inductive RunState where
  | idle | running | paused
  /-- A cancel was accepted and the run has not ended yet. -/
  | cancelling
  deriving DecidableEq, Repr

namespace RunState

def name : RunState → String
  | idle => "Idle"
  | running => "Running"
  | paused => "Paused"
  | cancelling => "Cancelling"

/-- Start a run. -/
def begin : RunState → Except Fault RunState
  | idle => .ok running
  | _ => .error .alreadyRunning

def pause : RunState → Except Fault RunState
  | running => .ok paused
  | paused => .error .alreadyPaused
  | cancelling => .error .alreadyStopping
  | idle => .error .notRunning

def resume : RunState → Except Fault RunState
  | paused => .ok running
  | running => .error .notPaused
  | cancelling => .error .alreadyStopping
  | idle => .error .notRunning

def cancel : RunState → Except Fault RunState
  | running | paused => .ok cancelling
  | cancelling => .error .alreadyStopping
  | idle => .error .notRunning

end RunState

/-- A request to a run from outside. -/
inductive Signal where
  | pause | resume | cancel
  deriving DecidableEq, Repr

def Signal.apply : Signal → RunState → Except Fault RunState
  | pause => RunState.pause
  | resume => RunState.resume
  | cancel => RunState.cancel

/-- The state after a signal, which stays as it was if the signal is refused. -/
def RunState.after (state : RunState) (s : Signal) : RunState :=
  match s.apply state with
  | .ok state => state
  | .error _ => state

end Logo
