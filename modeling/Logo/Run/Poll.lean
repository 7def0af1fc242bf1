import Logo.Run.Step
import Logo.Source.Reader

/-!
# Runs and polls

A run is made from a source and does nothing until it is polled. The first poll
takes hold of the engine, which is refused while another run has it, and reads the
source. Every poll goes on until the run ends or has to wait. However a run
ends, and also when it is dropped, the engine is idle again.
-/

namespace Logo
set_option autoImplicit false

variable {σ : Type}

/-- A run that waits: all of it but the engine. -/
structure Thread where
  live : Live
  focus : Focus
  tokens : List Value
  pending : List Pending

def Config.thread (c : Config σ) : Thread := ⟨c.machine.live, c.focus, c.tokens, c.pending⟩

def Thread.config (t : Thread) (e : Engine σ) : Config σ := ⟨⟨e, t.live⟩, t.focus, t.tokens, t.pending⟩

inductive Run where
  /-- Not polled yet. -/
  | created (source : String)
  | inFlight (t : Thread)
  | ended

def Run.hasEnded : Run → Bool
  | .ended => true
  | _ => false

inductive Polled where
  | pending (why : Wait)
  | resolved (outcome : Outcome)
  /-- The poll took all the steps it was allowed. -/
  | exhausted
  /-- The run had ended before. -/
  | over

/-- Take steps until the run waits or ends, but at most `fuel`. -/
def advance : Nat → Config σ → Next σ
  | 0, c => .go c
  | fuel + 1, c =>
    match step c with
    | .go c => advance fuel c
    | next => next

/-- A run of `program` that is about to start. -/
def Thread.start (program : List Value) : Thread :=
  match program with
  | [] => ⟨{}, .reply none, [], []⟩
  | program => ⟨{}, .expression, program, [.sequence []]⟩

namespace Engine

/-- The engine after its run has ended. -/
def release (e : Engine σ) : Engine σ := { e with state := .idle }

/-- Go on with a run that has the engine. -/
def pollThread (fuel : Nat) (e : Engine σ) (t : Thread) : Polled × Run × Engine σ :=
  match advance fuel (t.config e) with
  | .go c => (.exhausted, .inFlight c.thread, c.machine.engine)
  | .suspend why c => (.pending why, .inFlight c.thread, c.machine.engine)
  | .resolved outcome m => (.resolved outcome, .ended, m.engine.release)

/-- Poll a run. -/
def poll (fuel : Nat) (e : Engine σ) : Run → Polled × Run × Engine σ
  | .created source =>
    match e.state.begin with
    | .error f => (.resolved (.error f), .ended, e)
    | .ok state =>
      match parse source with
      | .error f => (.resolved (.error (.unreadable f)), .ended, { e with state }.release)
      | .ok program => pollThread fuel { e with state } (Thread.start program)
  | .inFlight t => pollThread fuel e t
  | .ended => (.over, .ended, e)

/-- Drop a run. -/
def drop (e : Engine σ) : Run → Engine σ
  | .inFlight _ => e.release
  | _ => e

/-- Poll a run until it ends, but at most `times`; `made` counts the polls. -/
def pollTimes (fuel : Nat) (made : Nat) : Nat → Engine σ → Run → Nat × Option Outcome × Run × Engine σ
  | 0, e, r => (made, none, r, e)
  | times + 1, e, r =>
    match e.poll fuel r with
    | (.resolved outcome, r, e) => (made + 1, some outcome, r, e)
    | (_, r, e) => pollTimes fuel (made + 1) times e r

/-- Poll a run to its end, letting the clock run on whenever it waits for that.
There is no outcome if it waits for something that nobody will do; it is then
dropped. -/
def complete (fuel : Nat) : Nat → Engine σ → Run → Option Outcome × Engine σ
  | 0, e, r => (none, e.drop r)
  | times + 1, e, r =>
    match e.poll fuel r with
    | (.resolved outcome, _, e) => (some outcome, e)
    | (.pending .paused, r, e) | (.pending .hopeless, r, e) | (.over, r, e) => (none, e.drop r)
    | (.pending (.clock deadline), r, e) =>
      complete fuel times (e.elapse (deadline - e.clock)) r
    | (_, r, e) => complete fuel times e r

end Engine

/-- How an executed program ended. -/
inductive Completion where
  | completed
  | cancelled
  | failed (f : Fault)

/-- An executed program has no use for a value. -/
def Completion.of : Outcome → Completion
  | .ok none => .completed
  | .ok (some v) => .failed (.unusedValue v)
  | .error f => if f.kind = .cancelled then .cancelled else .failed f

/-- A bound on steps and polls that no run meets in practice. -/
def ample : Nat := Decimal.twoPow 62

end Logo
