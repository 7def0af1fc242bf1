import Logo.Arithmetic
import Logo.Primitive
import Logo.Value.Selection

/-!
# Primitives that only compute

The primitives on words, lists, numbers and truth values, whose output depends
on nothing but their inputs and which change nothing.
-/

namespace Logo.Primitive
set_option autoImplicit false

/-- Exactly one input. -/
def one {α : Type} (p : Primitive) (inputs : List Value) (k : Value → Except Fault α) :
    Except Fault α :=
  match inputs with
  | [a] => k a
  | _ => .error (.notEnoughInputs p.name)

/-- Exactly two inputs. -/
def two {α : Type} (p : Primitive) (inputs : List Value) (k : Value → Value → Except Fault α) :
    Except Fault α :=
  match inputs with
  | [a, b] => k a b
  | _ => .error (.notEnoughInputs p.name)

/-- Exactly three inputs. -/
def three {α : Type} (p : Primitive) (inputs : List Value)
    (k : Value → Value → Value → Except Fault α) : Except Fault α :=
  match inputs with
  | [a, b, c] => k a b c
  | _ => .error (.notEnoughInputs p.name)

def taker (p : Primitive) : Taker := ⟨p.name⟩

/-- A word or list to take apart. -/
def data (p : Primitive) (v : Value) : Except Fault Data := p.taker.accept v (Data.of? v)

/-- A part of the only input, which is unsuitable if it has no such part. -/
def select (p : Primitive) (inputs : List Value) (part? : Data → Option Value) : Except Fault Value :=
  p.one inputs fun v => do p.taker.accept v (part? (← p.data v))

/-- A list and a value to add to it. -/
def insert (p : Primitive) (inputs : List Value) (add : Value → List Value → List Value) :
    Except Fault Value :=
  p.two inputs fun v l => do return .list (add v (← p.taker.list l))

/-- The part at a place counted from one. -/
def pick (p : Primitive) (index v : Value) : Except Fault Value := do
  let n ← p.taker.whole index
  if n < 1 then p.taker.refuse index
  else p.taker.accept index ((← p.data v).item? (n.toNat - 1))

/-- Combine all inputs, taken as numbers, from the left. -/
def foldNumbers (p : Primitive) (inputs : List Value) (start : Float) (f : Float → Float → Float) :
    Except Fault Value := do
  let total ← inputs.foldlM (fun t v => do return f t (← p.taker.number v)) start
  return .number total

/-- Combine all inputs, taken as truth values. Each is looked at, even when the
result is already known. -/
def foldTruths (p : Primitive) (inputs : List Value) (start : Bool) (f : Bool → Bool → Bool) :
    Except Fault Value := do
  let total ← inputs.foldlM (fun t v => do return f t (← p.taker.boolean v)) start
  return .boolean total

/-- A question about the only input. -/
def ask (p : Primitive) (inputs : List Value) (answer : Value → Bool) : Except Fault Value :=
  p.one inputs fun v => .ok (.boolean (answer v))

/-- The output of a primitive that only computes. -/
def compute (p : Primitive) (inputs : List Value) : Except Fault Value :=
  match p with
  | first => p.select inputs Data.first?
  | butFirst => p.select inputs Data.butFirst?
  | last => p.select inputs Data.last?
  | butLast => p.select inputs Data.butLast?
  | fput => p.insert inputs fun v l => v :: l
  | lput => p.insert inputs fun v l => l ++ [v]
  | list => .ok (.list inputs)
  | sentence => .ok (.list (inputs.flatMap Value.spliced))
  | word => do return .text (String.join (← inputs.mapM p.taker.word))
  | count => p.select inputs fun d => some (.number (Float.ofNat d.size))
  | item => p.two inputs p.pick
  | isEmpty => p.ask inputs Value.isEmptyData
  | isEqual => p.two inputs fun a b => .ok (.boolean (a.equal b))
  | isList => p.ask inputs fun v => v.asList?.isSome
  | isWord => p.ask inputs Value.isWord
  | isNumber => p.ask inputs fun v => v.toNumber?.isSome
  | sum => p.foldNumbers inputs 0.0 (· + ·)
  | product => p.foldNumbers inputs 1.0 (· * ·)
  | difference => p.two inputs fun a b => do
      let (x, y) ← numbers p.name a b
      return .number (x - y)
  | quotient => p.two inputs fun a b => do
      let (x, y) ← numbers p.name a b
      return .number (← quotientOf p.name x y)
  | remainder => p.two inputs fun a b => do
      let (x, y) ← numbers p.name a b
      return .number (← remainderOf p.name x y)
  | minus => p.one inputs (negate p.name)
  | not => p.one inputs fun v => do return .boolean (!(← p.taker.boolean v))
  | and => p.foldTruths inputs true (· && ·)
  | or => p.foldTruths inputs false (· || ·)
  | _ => .error (.notEnoughInputs p.name)

end Logo.Primitive
