import Logo.Decimal.Binary

/-!
# Reading decimals

The numerals a number can be read from: an optional sign, digits with an
optional point (at least one digit in all), an optional power of ten; or one
of the names of infinity and of "not a number". The value is the float
closest to the decimal.
-/

namespace Logo.Decimal
set_option autoImplicit false

/-- The value of a string of digits, continuing from `start`. -/
def digitsValue (start : Nat) (ds : List Char) : Nat :=
  ds.foldl (fun n d => 10 * n + (d.toNat - '0'.toNat)) start

/-- The float closest to `digits * 10 ^ power`. Far outside the range of floats
the answer is known without computing the power. -/
def nearestDecimal (negative : Bool) (digits : Nat) (power : Int) : Float :=
  let size := Nat.log2 digits / 3 + 1
  if digits = 0 then withSign negative 0
  else if 400 < power then withSign negative infinityBits
  else if power + size < -400 then withSign negative 0
  else if 0 ≤ power then nearest negative (digits * tenPow power.toNat) 1
  else nearest negative digits (tenPow (-power).toNat)

/-- The power of ten that follows the digits: nothing, or `e` and a whole number. -/
def readPower? : List Char → Option Int
  | [] => some 0
  | e :: cs =>
    if e = 'e' ∨ e = 'E' then
      let (negative, ds) := match cs with
        | '-' :: ds => (true, ds)
        | '+' :: ds => (false, ds)
        | ds => (false, ds)
      if ds.isEmpty || !ds.all Char.isDigit then none
      else
        let n : Int := digitsValue 0 ds
        some (if negative then -n else n)
    else none

/-- The part of a numeral after its sign. -/
def readUnsigned? (negative : Bool) (cs : List Char) : Option Float :=
  let whole := cs.takeWhile Char.isDigit
  let afterWhole := cs.dropWhile Char.isDigit
  let (fraction, rest) := match afterWhole with
    | '.' :: r => (r.takeWhile Char.isDigit, r.dropWhile Char.isDigit)
    | r => ([], r)
  if whole.isEmpty && fraction.isEmpty then
    match String.ofList (cs.map Char.toLower) with
    | "inf" | "infinity" => some (withSign negative infinityBits)
    | "nan" => some (0.0 / 0.0)
    | _ => none
  else do
    let power ← readPower? rest
    pure (nearestDecimal negative (digitsValue (digitsValue 0 whole) fraction) (power - fraction.length))

/-- Read a whole text as a number. -/
def read? : List Char → Option Float
  | '-' :: cs => readUnsigned? true cs
  | '+' :: cs => readUnsigned? false cs
  | cs => readUnsigned? false cs

end Logo.Decimal
