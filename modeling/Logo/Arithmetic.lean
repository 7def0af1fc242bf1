import Logo.Operator
import Logo.Value.Coercion
import Logo.Value.Equality

/-!
# Arithmetic and comparison

The infix operators and the procedures that compute with numbers and truth
values. `=` compares any two values; all else asks for numbers, and takes the
left one first when neither is.
-/

namespace Logo
set_option autoImplicit false

/-- Divide, on behalf of `procedure`. -/
def quotientOf (procedure : String) (a b : Float) : Except Fault Float :=
  if b == 0.0 then .error (.zeroDivisor procedure) else .ok (a / b)

/-- What division leaves, with the sign of the dividend. -/
def remainderOf (procedure : String) (a b : Float) : Except Fault Float :=
  if b == 0.0 then .error (.zeroDivisor procedure) else .ok (Decimal.remainder a b)

/-- The number opposite to an input of `procedure`. -/
def negate (procedure : String) (v : Value) : Except Fault Value := do
  let n ← (Taker.mk procedure).number v
  return .number (-n)

/-- Two numbers, the left one taken first. -/
def numbers (procedure : String) (a b : Value) : Except Fault (Float × Float) := do
  let x ← (Taker.mk procedure).number a
  let y ← (Taker.mk procedure).number b
  return (x, y)

/-- The value of `a op b`. -/
def Operator.apply (op : Operator) (a b : Value) : Except Fault Value :=
  match op with
  | .equal => .ok (.boolean (a.equal b))
  | .add => do let (x, y) ← numbers op.symbol a b; return .number (x + y)
  | .subtract => do let (x, y) ← numbers op.symbol a b; return .number (x - y)
  | .multiply => do let (x, y) ← numbers op.symbol a b; return .number (x * y)
  | .divide => do let (x, y) ← numbers op.symbol a b; return .number (← quotientOf op.symbol x y)
  | .less => do let (x, y) ← numbers op.symbol a b; return .boolean (x < y)
  | .greater => do let (x, y) ← numbers op.symbol a b; return .boolean (x > y)

end Logo
