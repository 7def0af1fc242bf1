import Logo.Run.Poll

/-!
# Sessions

A session is a series of requests to one engine: run a source, look at or set
a global name, send a signal, advance a run poll by poll with other actions in
between. Each request has an answer and leaves something to observe.
-/

namespace Logo
set_option autoImplicit false

inductive Mode where
  | execute | evaluate
  deriving DecidableEq, Repr

inductive Finished where
  | executed (c : Completion)
  | evaluated (o : Outcome)

def Mode.finish : Mode → Outcome → Finished
  | execute, o => .executed (Completion.of o)
  | evaluate, o => .evaluated o

/-- What can be done between the polls of a run. -/
inductive Action where
  | poll (times : Nat)
  | signal (s : Signal)
  | set (name : String) (v : Value)
  | get (name : String)
  /-- Start another run on the same engine and poll it for a while. -/
  | second (source : String) (mode : Mode)
  | advance (milliseconds : Nat)
  | drop

inductive Request (σ : Type) where
  | run (source : String) (mode : Mode)
  | parse (source : String)
  | bind (name : String) (f : HostFunction σ)
  | set (name : String) (v : Value)
  | get (name : String)
  | detail (name : String)
  | names
  | signal (s : Signal)
  | status
  | drive (source : String) (mode : Mode) (script : List Action)

/-- What an engine shows after an answer: what was printed and noted since the
last one, and its state. -/
structure Observed where
  text : String
  chunks : List String
  notes : List String
  state : RunState

inductive Answer where
  | finished (f : Finished)
  /-- The run waited for something that nobody would do. -/
  | stuck
  | program (p : Except Source.Fault (List Value))
  | bound (arity : Nat) (detail : String)
  | done
  | refused (f : Fault)
  | value (v : Option Value)
  | detail (text : Option String)
  | names (text : String)
  | status (running paused : Bool)
  | polled (times : Nat) (result : Option Finished)
  | alreadyEnded
  | driven (trace : List (Answer × Observed)) (ended : Bool)

/-- What a host has noted in its memory, to be shown once. -/
class Notes (σ : Type) where
  take : σ → List String × σ

namespace Engine

variable {σ : Type}

/-- Look at the engine; what was printed and noted is then shown. -/
def observe [Notes σ] (e : Engine σ) : Observed × Engine σ :=
  let (text, sink) := e.sink.take
  let (chunks, sink) := sink.takeChunks
  let (notes, memory) := Notes.take e.memory
  (⟨text, chunks, notes, e.state⟩, { e with sink, memory })

def answerSignal (e : Engine σ) (s : Signal) : Answer × Engine σ :=
  match e.signal s with
  | .ok e => (.done, e)
  | .error f => (.refused f, e)

/-- How often another run on the same engine is polled. -/
def secondPolls : Nat := 1000

/-- Take one action of a script. -/
def take (mode : Mode) (e : Engine σ) (r : Run) : Action → Answer × Run × Engine σ
  | .poll times =>
    match r with
    | .ended => (.alreadyEnded, r, e)
    | r =>
      let (n, outcome, r, e) := e.pollTimes ample 0 times r
      (.polled n (outcome.map mode.finish), r, e)
  | .signal s =>
    let (answer, e) := e.answerSignal s
    (answer, r, e)
  | .set name v => (.done, r, e.setGlobal name v)
  | .get name => (.value (e.global? name), r, e)
  | .second source mode =>
    let (n, outcome, other, e) := e.pollTimes ample 0 secondPolls (.created source)
    (.polled n (outcome.map mode.finish), r, e.drop other)
  | .advance milliseconds => (.done, r, e.elapse (milliseconds * nanosecondsPerMillisecond))
  | .drop => (.done, .ended, e.drop r)

/-- Follow a script, looking at the engine after each action. -/
def takeAll [Notes σ] (mode : Mode) :
    Engine σ → Run → List Action → List (Answer × Observed) × Run × Engine σ
  | e, r, [] => ([], r, e)
  | e, r, a :: script =>
    let (answer, r, e) := e.take mode r a
    let (observed, e) := e.observe
    let (trace, r, e) := e.takeAll mode r script
    ((answer, observed) :: trace, r, e)

/-- Answer a request. -/
def answer [Notes σ] (e : Engine σ) : Request σ → Answer × Engine σ
  | .run source mode =>
    match e.complete ample ample (.created source) with
    | (some outcome, e) => (.finished (mode.finish outcome), e)
    | (none, e) => (.stuck, e)
  | .parse source => (.program (Logo.parse source), e)
  | .bind name f => (.bound f.arity f.detail, e.bindHost name f)
  | .set name v => (.done, e.setGlobal name v)
  | .get name => (.value (e.global? name), e)
  | .detail name => (.detail ((e.global? name).map Value.detail), e)
  | .names => (.names (e.scopes.frameDetail globalFrame), e)
  | .signal s => e.answerSignal s
  | .status => (.status (e.state != .idle) (e.state == .paused), e)
  | .drive source mode script =>
    let (trace, r, e) := e.takeAll mode (.created source) script
    (.driven trace r.hasEnded, e.drop r)

end Engine

end Logo
