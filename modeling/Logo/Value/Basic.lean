import Logo.Primitive

/-!
# Values

A value is a number, a text, a truth value, a list or a procedure. Numbers,
texts and truth values are words. A program is a list of values: its texts keep
the mark they were written with (`"x`, `:x`), from which a reader of the
program tells what each is for.

A procedure made while a program runs carries a number that no other one has,
so procedures are the same only if they come from the same definition.
-/

namespace Logo
set_option autoImplicit false

mutual

inductive Value where
  | number (n : Float)
  | text (s : String)
  | boolean (b : Bool)
  | list (items : List Value)
  | procedure (p : Procedure)

inductive Procedure where
  | primitive (p : Primitive)
  /-- Supplied by the host, as the `id`-th function it registered. -/
  | host (id : Nat) (name : String) (arity : Nat)
  /-- Defined by a program. -/
  | defined (id : Nat) (name : String) (params : List String) (body : List Value)

end

instance : Inhabited Value := ⟨.list []⟩

namespace Procedure

/-- The name it was defined or bound under. -/
def name : Procedure → String
  | primitive p => p.name
  | host _ name _ => name
  | defined _ name _ _ => name

/-- How many inputs a plain call gathers. -/
def arity : Procedure → Nat
  | primitive p => p.arity
  | host _ _ arity => arity
  | defined _ _ params _ => params.length

/-- Are two procedures the same one? -/
def same : Procedure → Procedure → Bool
  | primitive p, primitive q => p == q
  | host i _ _, host j _ _ => i == j
  | defined i _ _ _, defined j _ _ _ => i == j
  | _, _ => false

end Procedure

namespace Value

/-- The kind of a value, as a noun. -/
def kindName : Value → String
  | number _ => "number"
  | text _ => "word"
  | boolean _ => "boolean"
  | list _ => "list"
  | procedure _ => "procedure"

def asNumber? : Value → Option Float
  | number n => some n
  | _ => none

def asText? : Value → Option String
  | text s => some s
  | _ => none

def asBoolean? : Value → Option Bool
  | boolean b => some b
  | _ => none

def asList? : Value → Option (List Value)
  | list items => some items
  | _ => none

/-- Numbers, texts and truth values are words. -/
def isWord : Value → Bool
  | number _ | text _ | boolean _ => true
  | _ => false

end Value

end Logo
