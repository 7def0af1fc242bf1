import Logo.Primitive.Perform
import Logo.Role

/-!
# A run at one moment

A run works through a program by small steps. `Focus` says what it is about to
do, `Pending` what is waiting for the outcome of that, innermost first, and
`tokens` what is left of the list being read. How many tokens an instruction
takes is known only as it is read: a call takes as many inputs as its
procedure wants, each a full expression.
-/

namespace Logo
set_option autoImplicit false

/-- An operator chain so far: operands and operators waiting to be combined,
both last first. There is always one operand more than operators. -/
structure Chain where
  operands : List Value
  operators : List Operator

/-- A call whose inputs are being read. -/
structure Gathering where
  procedure : Procedure
  /-- The inputs so far, last first. -/
  inputs : List Value
  /-- How many more a plain call wants. -/
  missing : Nat
  /-- Do the inputs end at a closing parenthesis? -/
  parenthesised : Bool

/-- What happens once a checkpoint lets the run through. -/
inductive Act where
  | literal (v : Value)
  | read (name : String)
  | call (p : Procedure) (inputs : List Value)
  | pass (l : Loop)

/-- What the run is about to do. -/
inductive Focus where
  /-- Read an expression: an operand and the operators that follow. -/
  | expression
  /-- Read one operand. -/
  | operand
  /-- Look for an operator behind the operands read so far. -/
  | chain (c : Chain)
  /-- Read the next input of a call, or make the call. -/
  | gather (g : Gathering)
  /-- Begin the next pass of a loop, or end it. -/
  | turn (l : Loop)
  /-- Act, unless the run is paused or cancelled. -/
  | checkpoint (a : Act)
  /-- Ask a host function, for the time after the first `asked` times. -/
  | ask (id : Nat) (inputs : List Value) (asked : Nat)
  /-- Wait for the clock. -/
  | sleep (deadline : Nat)
  /-- Hand the outcome to what is waiting for it. -/
  | reply (v : Option Value)
  /-- Give up what is waiting. -/
  | raise (f : Fault)

/-- What is waiting for an outcome. -/
inductive Pending where
  /-- A list of instructions, for one of them; `saved` is what is left of the
  list around it. -/
  | sequence (saved : List Value)
  /-- An expression, for its first operand. -/
  | firstOperand
  /-- A chain, for the right operand of `op`, which begins with `producer`. -/
  | rightOperand (c : Chain) (op : Operator) (producer : Value)
  /-- A minus sign, for its operand. -/
  | negation
  /-- A group in parentheses, for its expression. -/
  | group
  /-- A call, for an input, which begins with `producer`. -/
  | input (g : Gathering) (producer : Value)
  /-- A call of a defined procedure, for its body. -/
  | activation
  /-- A list template, for its body. -/
  | template
  /-- A `repeat`, for its loop. -/
  | counter
  /-- A loop, for one of its passes. -/
  | loop (l : Loop)

structure Config (σ : Type) where
  machine : Machine σ
  focus : Focus
  tokens : List Value
  pending : List Pending

/-- Why a run waits to be polled again. -/
inductive Wait where
  /-- A loop is about to begin a pass. -/
  | pass
  /-- The run is paused. -/
  | paused
  /-- A host function has not answered yet. -/
  | host
  /-- A host function has not answered and never will. -/
  | hopeless
  | clock (deadline : Nat)
  deriving DecidableEq, Repr

/-- What a step leads to. -/
inductive Next (σ : Type) where
  | go (c : Config σ)
  /-- The run waits until it is polled again. -/
  | suspend (why : Wait) (c : Config σ)
  | resolved (outcome : Outcome) (m : Machine σ)

end Logo
