import Logo.Activation
import Logo.Host.Function
import Logo.Scopes
import Logo.Sink

/-!
# Engines and machines

An engine is what outlives a run: the scope graph with its global frame, the
run state, the sink, the clock, the host's functions and memory. A run adds
what is live in it, as stacks of its own; both together are the machine that a
running program works on.
-/

namespace Logo
set_option autoImplicit false

structure Engine (σ : Type) where
  scopes : Scopes
  state : RunState
  sink : Sink
  /-- Nanoseconds since the engine was made. -/
  clock : Nat
  /-- How many procedure calls may be nested. -/
  depthLimit : Nat
  /-- The host functions, by number. -/
  hosts : Array (HostFunction σ)
  /-- How many procedures have been defined. -/
  definitions : Nat
  memory : σ
  /-- Is an answer noticed before a break, where both have come? This is not for
  anybody to choose. -/
  answersFirst : Bool

def nanosecondsPerSecond : Nat := 1000000000

def nanosecondsPerMillisecond : Nat := 1000000

/-- The depth limit of an engine that is given none. -/
def defaultDepth : Nat := 10000

/-- The frame of the names that outlive a run. -/
def globalFrame : FrameId := 0

/-- What is live in a run, innermost first. -/
structure Live where
  /-- The frames of activations and templates. -/
  frames : List FrameId := []
  activations : List Activation := []
  /-- The pass numbers of `repeat` loops. -/
  counters : List Nat := []

structure Machine (σ : Type) where
  engine : Engine σ
  live : Live

namespace Engine

variable {σ : Type}

/-- Bind a primitive under its name and its other names. -/
def bindPrimitive (s : Scopes) (p : Primitive) : Scopes :=
  (p.aliases ++ [p.name]).foldl (fun s name => s.bind globalFrame name (.procedure (.primitive p))) s

/-- An idle engine that knows the primitives, if it is to. -/
def new (memory : σ) (sink : Sink) (depthLimit : Nat) (primitives : Bool) : Engine σ where
  scopes := if primitives then Primitive.all.foldl bindPrimitive Scopes.initial else Scopes.initial
  state := .idle
  sink := sink
  clock := 0
  depthLimit := depthLimit
  hosts := #[]
  definitions := 0
  memory := memory
  answersFirst := false

/-- Give a host function a global name. -/
def bindHost (e : Engine σ) (name : String) (f : HostFunction σ) : Engine σ :=
  let procedure := Procedure.host e.hosts.size name f.arity
  { e with
    hosts := e.hosts.push f
    scopes := e.scopes.bind globalFrame name (.procedure procedure) }

/-- Give a global name a value, in a cell of its own. -/
def setGlobal (e : Engine σ) (name : String) (v : Value) : Engine σ :=
  { e with scopes := e.scopes.bind globalFrame name v }

/-- The value of a global name. -/
def global? (e : Engine σ) (name : String) : Option Value := e.scopes.lookup? globalFrame name

/-- Send a signal. -/
def signal (e : Engine σ) (s : Signal) : Except Fault (Engine σ) :=
  match s.apply e.state with
  | .ok state => .ok { e with state }
  | .error f => .error f

/-- Let time pass. -/
def elapse (e : Engine σ) (nanoseconds : Nat) : Engine σ :=
  { e with clock := e.clock + nanoseconds }

def hostView (e : Engine σ) : HostView σ := ⟨e.memory, e.state⟩

/-- Take over what host code left. -/
def afterHost {α : Type} (e : Engine σ) (work : HostWork σ α) : Engine σ :=
  { e with memory := work.memory, state := work.signals.foldl RunState.after e.state }

end Engine

namespace Machine

variable {σ : Type}

/-- The innermost live frame. -/
def currentFrame (m : Machine σ) : FrameId := m.live.frames.headD globalFrame

/-- Has the innermost activation ended? -/
def isStopped (m : Machine σ) : Bool :=
  match m.live.activations with
  | a :: _ => a.stopped
  | [] => false

/-- The pass number of the innermost `repeat`. -/
def passNumber? (m : Machine σ) : Option Nat := m.live.counters.head?

/-- The value that a name has in the innermost frame. -/
def lookup? (m : Machine σ) (name : String) : Option Value :=
  m.engine.scopes.lookup? m.currentFrame name

/-- The procedure that a name means in the innermost frame. -/
def procedure (m : Machine σ) (name : String) : Except Fault Procedure :=
  match m.lookup? name with
  | some (.procedure p) => .ok p
  | some _ => .error (.notProcedure name)
  | none => .error (.unknownProcedure name)

/-- The innermost activation hands over the value it ended with. -/
def output? (m : Machine σ) : Option Value :=
  match m.live.activations with
  | a :: _ => a.take.1
  | [] => none

def mapScopes (m : Machine σ) (f : Scopes → Scopes) : Machine σ :=
  { m with engine := { m.engine with scopes := f m.engine.scopes } }

/-- Open a frame inside the current one, with names bound to values in order. -/
def openFrame (m : Machine σ) (bindings : List (String × Value)) : Machine σ :=
  let (f, scopes) := m.engine.scopes.child m.currentFrame
  let scopes := bindings.foldl (fun s b => s.bind f b.1 b.2) scopes
  { engine := { m.engine with scopes }
    live := { m.live with frames := f :: m.live.frames } }

/-- Leave the innermost frame. -/
def closeFrame (m : Machine σ) : Machine σ :=
  { m with live := { m.live with frames := m.live.frames.tail } }

def openActivation (m : Machine σ) : Machine σ :=
  { m with live := { m.live with activations := {} :: m.live.activations } }

def closeActivation (m : Machine σ) : Machine σ :=
  { m with live := { m.live with activations := m.live.activations.tail } }

def openCounter (m : Machine σ) : Machine σ :=
  { m with live := { m.live with counters := 0 :: m.live.counters } }

def setCounter (m : Machine σ) (n : Nat) : Machine σ :=
  match m.live.counters with
  | _ :: counters => { m with live := { m.live with counters := n :: counters } }
  | [] => m

def closeCounter (m : Machine σ) : Machine σ :=
  { m with live := { m.live with counters := m.live.counters.tail } }

/-- Hand a chunk of text to the sink. -/
def write (m : Machine σ) (chunk : String) : Machine σ :=
  { m with engine := { m.engine with sink := m.engine.sink.write chunk } }

end Machine

end Logo
