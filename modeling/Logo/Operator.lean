/-!
# Infix operators

One character each. The multiplicative ones bind strongest, then the additive
ones, then the comparisons; operators of one strength group from the left.
-/

namespace Logo
set_option autoImplicit false

inductive Operator where
  | add | subtract | multiply | divide | less | greater | equal
  deriving DecidableEq, Repr

namespace Operator

def symbol : Operator → String
  | add => "+"
  | subtract => "-"
  | multiply => "*"
  | divide => "/"
  | less => "<"
  | greater => ">"
  | equal => "="

def ofChar? : Char → Option Operator
  | '+' => some add
  | '-' => some subtract
  | '*' => some multiply
  | '/' => some divide
  | '<' => some less
  | '>' => some greater
  | '=' => some equal
  | _ => none

def ofSymbol? : String → Option Operator
  | "+" => some add
  | "-" => some subtract
  | "*" => some multiply
  | "/" => some divide
  | "<" => some less
  | ">" => some greater
  | "=" => some equal
  | _ => none

/-- Is `c` an operator by itself? -/
def isSymbol (c : Char) : Bool := (ofChar? c).isSome

/-- Binding strength. -/
def precedence : Operator → Nat
  | less | greater | equal => 1
  | add | subtract => 2
  | multiply | divide => 3

theorem ofSymbol?_symbol (op : Operator) : ofSymbol? op.symbol = some op := by
  cases op <;> rfl

end Operator

end Logo
