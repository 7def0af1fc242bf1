import Logo.Engine
import Logo.Primitive.Compute

/-!
# What a primitive does

`Primitive.perform` carries out a primitive on a machine. A primitive that runs
other instructions does not run them itself but says in its `Effect` what is to
be run. A primitive checks all of its inputs before it changes anything, so one
that fails leaves the machine as it was.
-/

namespace Logo
set_option autoImplicit false

/-- A loop with what is left of it. -/
inductive Loop where
  /-- `repeat`, with the passes begun and all passes. -/
  | times (block : List Value) (begun total : Nat)
  | endless (block : List Value)
  /-- `foreach` over the members still to come. -/
  | each (template : Value) (items : List Value)
  /-- `map` over the members still to come, and the outputs so far, last first. -/
  | collect (template : Value) (items outputs : List Value)

/-- What remains to be done for a primitive that did not fail. -/
inductive Effect where
  /-- Nothing: this is its output. -/
  | reply (v : Option Value)
  /-- Run instructions in place; their value is the output. -/
  | block (items : List Value)
  | loop (l : Loop)
  /-- Apply a template on behalf of a procedure. -/
  | template (caller : String) (template : Value) (inputs : List Value)
  /-- Wait for so many nanoseconds. -/
  | sleep (nanoseconds : Nat)

/-- Nanoseconds in a number of sixtieths of a second; a negative number counts as none. -/
def tickNanoseconds (ticks : Float) : Nat :=
  match Decimal.Kind.ofFloat (ticks / 60.0) with
  | .finite b =>
    if b.negative then 0 else Decimal.roundHalfEven (b.ratio.1 * nanosecondsPerSecond) b.ratio.2
  | _ => 0

namespace Primitive

variable {σ : Type}

/-- The instructions that a value stands for when it is run. -/
def instructions (p : Primitive) (v : Value) : Except Fault (List Value) :=
  match v with
  | .list items => .ok items
  | v => if v.isWord then .ok [v] else p.taker.refuse v

/-- The effect of a primitive that changes nothing by itself. -/
def plan (p : Primitive) (inputs : List Value) (m : Machine σ) : Except Fault Effect :=
  match p with
  | ifTrue => p.two inputs fun cond block => do
      let items ← p.taker.list block
      if ← p.taker.boolean cond then return .block items else return .reply none
  | ifElse => p.three inputs fun cond yes no => do
      let chosen := if ← p.taker.boolean cond then yes else no
      return .block (← p.taker.list chosen)
  | repeatTimes => p.two inputs fun count block => do
      let total ← p.taker.whole count
      return .loop (.times (← p.taker.list block) 0 total.toNat)
  | forever => p.one inputs fun block => do return .loop (.endless (← p.taker.list block))
  | run => p.one inputs fun v => do return .block (← p.instructions v)
  | wait => p.one inputs fun v => do
      let ticks ← p.taker.number v
      if Decimal.isFinite ticks then return .sleep (tickNanoseconds ticks) else p.taker.refuse v
  | repcount => .ok (.reply (some (.number (match m.passNumber? with
      | some n => Float.ofNat n
      | none => -1.0))))
  | thing => p.one inputs fun v => do
      let name ← p.taker.name v
      match m.lookup? name with
      | some v => return .reply (some v)
      | none => .error (.noValue name)
  | apply => p.two inputs fun template values => do
      return .template p.name template (← p.taker.list values)
  | invoke =>
    match inputs with
    | template :: values => .ok (.template p.name template values)
    | [] => .error (.notEnoughInputs p.name)
  | foreach => p.two inputs fun items template => do
      return .loop (.each template (← p.taker.list items))
  | map => p.two inputs fun template items => do
      return .loop (.collect template (← p.taker.list items) [])
  | p => do return .reply (some (← p.compute inputs))

/-- The name, the parameters and the body given to `to`. -/
def definition (p : Primitive) (inputs : List Value) :
    Except Fault (String × List String × List Value) :=
  match inputs.getLast?, inputs.dropLast with
  | some body, name :: params => do
    let body ← p.taker.list body
    let name ← p.taker.name name
    let params ← params.mapM p.taker.name
    return (name, params, body)
  | some body, [] => do
    let _ ← p.taker.list body
    .error (.notEnoughInputs p.name)
  | none, _ => .error (.notEnoughInputs p.name)

/-- Define a procedure in the current frame. -/
def bindDefinition (m : Machine σ) (name : String) (params : List String) (body : List Value) :
    Machine σ :=
  let f := m.currentFrame
  let procedure := Procedure.defined m.engine.definitions name params body
  { m with engine := { m.engine with
      definitions := m.engine.definitions + 1
      scopes := m.engine.scopes.bind f name (.procedure procedure) } }

/-- Assign to what a name means in the current frame, or else make it a global name. -/
def assign (m : Machine σ) (name : String) (v : Value) : Machine σ :=
  let f := m.currentFrame
  m.mapScopes fun s =>
    match s.resolve? f name with
    | some c => s.write c v
    | none => s.bind globalFrame name v

/-- Declare a name in frame `f`, unless the frame has it. -/
def declareLocal (f : FrameId) (s : Scopes) (name : String) : Scopes :=
  match s.localCell? f name with
  | some _ => s
  | none => (s.declare f name none).2

/-- Tie a name in frame `f` to its global cell, which is made if there is none. -/
def tieGlobal (f : FrameId) (s : Scopes) (name : String) : Scopes :=
  match s.localCell? globalFrame name with
  | some c => if f = globalFrame then s else s.share f name c
  | none =>
    let (c, s) := s.declare globalFrame name none
    if f = globalFrame then s else s.share f name c

/-- End the innermost activation. -/
def finish (p : Primitive) (m : Machine σ) (how : Activation → Activation) :
    Except Fault Effect × Machine σ :=
  match m.live.activations with
  | a :: rest =>
    (.ok (.reply none), { m with live := { m.live with activations := how a :: rest } })
  | [] => (.error (.outsideProcedure p.name), m)

/-- Go on with an input that was taken, or fail with the machine as it is. -/
def taking {α : Type} (r : Except Fault α) (m : Machine σ) (k : α → Machine σ → Machine σ) :
    Except Fault Effect × Machine σ :=
  match r with
  | .ok a => (.ok (.reply none), k a m)
  | .error f => (.error f, m)

/-- Carry out a primitive. -/
def perform (p : Primitive) (inputs : List Value) (m : Machine σ) :
    Except Fault Effect × Machine σ :=
  match p with
  | output =>
    match inputs with
    | [v] => p.finish m fun a => a.output v
    | _ => (.error (.notEnoughInputs p.name), m)
  | stop => p.finish m Activation.stop
  | define => taking (p.definition inputs) m fun d m => bindDefinition m d.1 d.2.1 d.2.2
  | make => taking (p.two inputs fun name v => do return (← p.taker.name name, v)) m
      fun b m => assign m b.1 b.2
  | localName => taking (p.one inputs p.taker.names) m fun names m =>
      let f := m.currentFrame
      m.mapScopes fun s => names.foldl (declareLocal f) s
  | globalName => taking (p.one inputs p.taker.names) m fun names m =>
      let f := m.currentFrame
      m.mapScopes fun s => names.foldl (tieGlobal f) s
  | print => (.ok (.reply none), m.write (joined " " (inputs.map Value.printed) ++ "\n"))
  | display => (.ok (.reply none), m.write (joined " " (inputs.map Value.render) ++ "\n"))
  | type => (.ok (.reply none), m.write (joined " " (inputs.map Value.printed)))
  | p => (p.plan inputs m, m)

end Primitive

end Logo
