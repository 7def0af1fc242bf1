import Logo.Decimal.Layout

/-!
# Why a source cannot be read

A refusal names its cause and the rest of the source from the offending
construct on; `Fault` is the same with the place counted out, which needs the
whole source. A byte offset counts the UTF-8 encoding, a column counts
characters.
-/

namespace Logo.Source
set_option autoImplicit false

inductive Cause where
  | unterminatedList
  | unterminatedParen
  | unterminatedString
  | unexpectedClose (c : Char)
  | malformedNumber (text : String)
  | missingVariableName
  | unterminatedDefinition (name : String)
  deriving DecidableEq, Repr

def Cause.message : Cause → String
  | unterminatedList => "unterminated list: missing ']'"
  | unterminatedParen => "unterminated parenthesis: missing ')'"
  | unterminatedString => "unterminated string literal"
  | unexpectedClose c => "unexpected '" ++ c.toString ++ "'"
  | malformedNumber text => "malformed number '" ++ text ++ "'"
  | missingVariableName => "missing variable name after ':'"
  | unterminatedDefinition name => "definition of '" ++ name ++ "' is missing 'end'"

/-- A cause, and the source from the offending construct on. -/
structure Refusal where
  cause : Cause
  rest : List Char
  deriving DecidableEq, Repr

/-- A place in a source; lines and columns count from one. -/
structure Position where
  offset : Nat
  line : Nat
  column : Nat
  deriving DecidableEq, Repr

namespace Position

def start : Position := ⟨0, 1, 1⟩

/-- The place behind one more character. -/
def advance (p : Position) (c : Char) : Position :=
  if c = '\n' then ⟨p.offset + c.utf8Size, p.line + 1, 1⟩
  else ⟨p.offset + c.utf8Size, p.line, p.column + 1⟩

/-- The place behind the characters `cs`. -/
def behind (cs : List Char) : Position := cs.foldl advance start

end Position

structure Fault where
  cause : Cause
  position : Position
  deriving DecidableEq, Repr

/-- Count out the place of a refusal in its source. -/
def Refusal.locate (source : List Char) (r : Refusal) : Fault :=
  ⟨r.cause, Position.behind (source.take (source.length - r.rest.length))⟩

def Fault.message (f : Fault) : String :=
  f.cause.message ++ " (line " ++ Decimal.digitString f.position.line ++ ", column "
    ++ Decimal.digitString f.position.column ++ ")"

end Logo.Source
