/-!
# Binary floating-point numbers, exactly

A finite 64-bit float is a whole number times a power of two. `Binary` is
that pair with its sign; `Kind.ofFloat` reads it off the bits and
`nearest` goes the other way, from any positive ratio to the closest float
(a half goes to the even neighbour). All of it is exact arithmetic on whole
numbers.
-/

namespace Logo.Decimal
set_option autoImplicit false

/-- Two to the power of `n`. -/
def twoPow (n : Nat) : Nat := Nat.pow 2 n

/-- Ten to the power of `n`. -/
def tenPow (n : Nat) : Nat := Nat.pow 10 n

/-- The number `mantissa * 2 ^ exponent`, negated if `negative`. -/
structure Binary where
  negative : Bool
  mantissa : Nat
  exponent : Int
  deriving DecidableEq, Repr

/-- What the bits of a float stand for. -/
inductive Kind where
  | finite (b : Binary)
  | infinite (negative : Bool)
  | notNumber
  deriving DecidableEq, Repr

/-- The least exponent of a float: that of the subnormal numbers. -/
def leastExponent : Int := -1074

/-- Read a float off its bits. -/
def Kind.ofBits (bits : Nat) : Kind :=
  let negative := bits.testBit 63
  let biased := (bits >>> 52) % 2048
  let fraction := bits % twoPow 52
  if biased = 2047 then
    if fraction = 0 then .infinite negative else .notNumber
  else if biased = 0 then .finite ⟨negative, fraction, leastExponent⟩
  else .finite ⟨negative, fraction + twoPow 52, (biased : Int) - 1075⟩

def Kind.ofFloat (x : Float) : Kind := Kind.ofBits x.toBits.toNat

/-- Is a float neither infinite nor "not a number"? -/
def isFinite (x : Float) : Bool :=
  match Kind.ofFloat x with
  | .finite _ => true
  | _ => false

/-- The magnitude as a ratio of whole numbers. -/
def Binary.ratio (b : Binary) : Nat × Nat :=
  if 0 ≤ b.exponent then (b.mantissa * twoPow b.exponent.toNat, 1)
  else (b.mantissa, twoPow (-b.exponent).toNat)

/-- The whole number that `b` is, if it is one. -/
def Binary.toInt? (b : Binary) : Option Int :=
  let (num, den) := b.ratio
  if num % den = 0 then
    let n : Int := (num / den : Nat)
    some (if b.negative then -n else n)
  else none

/-- The whole number that a float is, if it is one. -/
def wholeNumber? (x : Float) : Option Int :=
  match Kind.ofFloat x with
  | .finite b => b.toInt?
  | _ => none

/-- `num / den` rounded to a whole number, a half to the even one. -/
def roundHalfEven (num den : Nat) : Nat :=
  let q := num / den
  let r := num % den
  if 2 * r < den then q
  else if den < 2 * r then q + 1
  else if q % 2 = 0 then q else q + 1

/-- The greatest `e` with `2 ^ e ≤ num / den`, for a positive ratio. -/
def floorLog2 (num den : Nat) : Int :=
  let e : Int := (Nat.log2 num : Int) - Nat.log2 den
  let reaches := if 0 ≤ e then den * twoPow e.toNat ≤ num else den ≤ num * twoPow (-e).toNat
  if reaches then e else e - 1

/-- The bits of infinity, above those of every finite magnitude. -/
def infinityBits : Nat := 2047 * twoPow 52

/-- The bits of the float closest to the ratio `num / den`. A carry out of the
mantissa moves into the exponent by itself, and past the largest exponent it
reaches infinity. -/
def nearestBits (num den : Nat) : Nat :=
  if num = 0 then 0
  else
    let exponent := max (floorLog2 num den - 52) leastExponent
    let mantissa :=
      if 0 ≤ exponent then roundHalfEven num (den * twoPow exponent.toNat)
      else roundHalfEven (num * twoPow (-exponent).toNat) den
    if mantissa < twoPow 52 then mantissa
    else min infinityBits ((exponent + 1075).toNat * twoPow 52 + (mantissa - twoPow 52))

/-- A float from the bits of its magnitude and its sign. -/
def withSign (negative : Bool) (bits : Nat) : Float :=
  Float.ofBits (UInt64.ofNat (if negative then bits + twoPow 63 else bits))

/-- The float closest to `num / den`. -/
def nearest (negative : Bool) (num den : Nat) : Float := withSign negative (nearestBits num den)

/-- What is left of `x` after taking away the whole multiples of `y` nearest
to zero. It has the sign of `x`, and is exact. -/
def remainder (x y : Float) : Float :=
  match Kind.ofFloat x, Kind.ofFloat y with
  | .finite a, .finite b =>
    if b.mantissa = 0 then 0.0 / 0.0
    else
      let (an, ad) := a.ratio
      let (bn, bd) := b.ratio
      nearest a.negative ((an * bd) % (bn * ad)) (ad * bd)
  | .finite _, .infinite _ => x
  | _, _ => 0.0 / 0.0

end Logo.Decimal
