import Logo.RunState
import Logo.Value.Coercion

/-!
# Host functions

A host adds procedures of its own to an engine. A synchronous function states
which kind of value it takes at each place and is entered only when every
input has been converted. An asynchronous one is asked again and again, with
its inputs and the number of times it was asked before, until it answers.

While host code runs it has a view of the run: its own memory, of a type `σ`
that the host chooses, and the run's state. It can change the state only by
signals, as anybody can between polls.
-/

namespace Logo
set_option autoImplicit false

structure HostView (σ : Type) where
  memory : σ
  state : RunState

/-- What host code leaves: its memory, the signals that it sent, in order, and its
answer. -/
structure HostWork (σ α : Type) where
  memory : σ
  signals : List Signal
  answer : α

/-- What a host function wants at a place. -/
inductive InputKind where
  | number | integer | truth | word | list | any
  deriving DecidableEq, Repr

namespace InputKind

/-- What the host function gets. -/
def Carrier : InputKind → Type
  | number => Float
  | integer => Int
  | truth => Bool
  | word => String
  | list => List Value
  | any => Value

/-- The kind as a message names it. -/
def noun : InputKind → String
  | number => "a number"
  | integer => "an integer"
  | truth => "true or false"
  | word => "a word"
  | list => "a list"
  | any => "a value"

def convert? : (k : InputKind) → Value → Option k.Carrier
  | number, v => v.toNumber?
  | integer, v => v.toWhole?
  | truth, v => v.toBoolean?
  | word, v => if v.isWord then some v.render else none
  | list, v => v.asList?
  | any, v => some v

def convert (k : InputKind) (v : Value) : Except Fault k.Carrier :=
  match k.convert? v with
  | some x => .ok x
  | none => .error (.expected k.noun v)

end InputKind

/-- What a call gives: a value, nothing, or a failure. -/
abbrev Outcome := Except Fault (Option Value)

/-- Host code that takes inputs of the given kinds. -/
def HostBody (σ : Type) : List InputKind → Type
  | [] => HostView σ → HostWork σ Outcome
  | k :: ks => k.Carrier → HostBody σ ks

/-- Convert the inputs in order and run the code on them. -/
def HostBody.apply {σ : Type} :
    (ks : List InputKind) → HostBody σ ks → List Value → HostView σ → HostWork σ Outcome
  | [], body, _, view => body view
  | k :: ks, body, v :: vs, view =>
    match k.convert v with
    | .ok x => HostBody.apply ks (body x) vs view
    | .error f => ⟨view.memory, [], .error f⟩
  | _ :: _, _, [], view => ⟨view.memory, [], .error (.notEnoughInputs "host function")⟩

/-- The answer of an asynchronous function to being asked. -/
inductive HostReply where
  | ready (outcome : Outcome)
  | pending
  /-- Pending, and the host knows that it will stay so. -/
  | hopeless

inductive HostFunction (σ : Type) where
  | sync (inputs : List InputKind) (body : HostBody σ inputs)
  | async (arity : Nat) (ask : List Value → Nat → HostView σ → HostWork σ HostReply)

namespace HostFunction

variable {σ : Type}

def arity : HostFunction σ → Nat
  | sync inputs _ => inputs.length
  | async arity _ => arity

def detail (f : HostFunction σ) : String :=
  let kind := match f with
    | sync _ _ => "sync"
    | async _ _ => "async"
  "HostFunction \x7b arity: " ++ Decimal.digitString f.arity ++ ", kind: \"" ++ kind ++ "\" \x7d"

end HostFunction

end Logo
