import Logo.Operator
import Logo.Value.Basic

/-!
# What a member of a program is for

Only texts have a part of their own to play in a program: grouping, an
operator, a quoted word, the name of a variable, the name of a procedure.
Every other value stands for itself.
-/

namespace Logo
set_option autoImplicit false

inductive Role where
  | literal (v : Value)
  | quoted (word : String)
  | reference (name : String)
  | openParen
  | closeParen
  | operator (op : Operator)
  | word (name : String)

namespace Role

def ofText (s : String) : Role :=
  if s = "(" then openParen
  else if s = ")" then closeParen
  else match Operator.ofSymbol? s with
    | some op => operator op
    | none =>
      match s.toList with
      | '"' :: rest => quoted (String.ofList rest)
      | ':' :: rest => reference (String.ofList rest)
      | _ => word s

def of : Value → Role
  | .text s => ofText s
  | v => literal v

end Role

/-- The operator that stands first in `tokens`, if one does. -/
def operatorAhead? (tokens : List Value) : Option Operator :=
  match tokens with
  | [] => none
  | v :: _ =>
    match Role.of v with
    | .operator op => some op
    | _ => none

/-- Can no further input be read from `tokens`? -/
def atInputEnd (tokens : List Value) : Bool :=
  match tokens with
  | [] => true
  | v :: _ =>
    match Role.of v with
    | .closeParen => true
    | _ => false

end Logo
