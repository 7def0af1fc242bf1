import Logo.Decimal.Reader
import Logo.Fault
import Logo.Text.Blank
import Logo.Text.Fold

/-!
# Inputs

How a procedure takes its inputs: a text that reads as a number will do for a
number, the words `true` and `false` for the truth values, and a name may
carry a mark in front. An input that will not do is reported together with the
procedure that was given it.
-/

namespace Logo
set_option autoImplicit false

namespace Value

/-- A number, or a text that reads as a finite one, with blanks around it or not. -/
def toNumber? : Value → Option Float
  | number n => some n
  | text s =>
    match Decimal.read? (Text.trim s.toList) with
    | some n => if Decimal.isFinite n then some n else none
    | none => none
  | _ => none

/-- A whole number of a size up to which all are representable. -/
def toWhole? (v : Value) : Option Int :=
  match v.toNumber? with
  | some n =>
    match Decimal.wholeNumber? n with
    | some i => if i.natAbs ≤ exactLimit then some i else none
    | none => none
  | none => none

def toBoolean? : Value → Option Bool
  | boolean b => some b
  | text s =>
    if Text.sameName s "true" then some true
    else if Text.sameName s "false" then some false
    else none
  | _ => none

end Value

/-- A word without the mark `"` or else `:` in front of it. -/
def unmarked (s : String) : String :=
  match s.toList with
  | '"' :: cs => String.ofList cs
  | ':' :: cs => String.ofList cs
  | _ => s

/-- What a procedure, given by its name, makes of one of its inputs. -/
structure Taker where
  procedure : String

namespace Taker

def refuse {α : Type} (t : Taker) (v : Value) : Except Fault α := .error (.unsuitable t.procedure v)

def accept {α : Type} (t : Taker) (v : Value) : Option α → Except Fault α
  | some a => .ok a
  | none => t.refuse v

def number (t : Taker) (v : Value) : Except Fault Float := t.accept v v.toNumber?

def whole (t : Taker) (v : Value) : Except Fault Int := t.accept v v.toWhole?

def boolean (t : Taker) (v : Value) : Except Fault Bool := t.accept v v.toBoolean?

def list (t : Taker) (v : Value) : Except Fault (List Value) := t.accept v v.asList?

/-- The text of a word. -/
def word (t : Taker) (v : Value) : Except Fault String :=
  if v.isWord then .ok v.render else t.refuse v

/-- The name of a variable or a procedure: a text that is not empty without its mark. -/
def name (t : Taker) (v : Value) : Except Fault String :=
  match v with
  | .text s => if unmarked s = "" then t.refuse v else .ok (unmarked s)
  | _ => t.refuse v

/-- One name, or a list of names. -/
def names (t : Taker) (v : Value) : Except Fault (List String) :=
  match v with
  | .list items => items.mapM t.name
  | v => do return [← t.name v]

end Taker

end Logo
