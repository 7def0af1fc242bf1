import Logo.Decimal.Binary

/-!
# Shortest decimal digits

Of all decimals that read back as a given float, the one with the fewest
digits; among those, the one closest to the float, and of two equally close
ones the larger. The decimals that read back are those between the midpoints
to the neighbouring floats, the midpoints themselves included when the
mantissa is even.
-/

namespace Logo.Decimal
set_option autoImplicit false

/-- The number `digits * 10 ^ exponent`. -/
structure Scaled where
  digits : Nat
  exponent : Int
  deriving DecidableEq, Repr

/-- The number as a ratio of whole numbers. -/
def Scaled.ratio (s : Scaled) : Nat × Nat :=
  if 0 ≤ s.exponent then (s.digits * tenPow s.exponent.toNat, 1)
  else (s.digits, tenPow (-s.exponent).toNat)

/-- The ratios that round to a given float. -/
structure Interval where
  low : Nat × Nat
  high : Nat × Nat
  closed : Bool

def ratioLe (a b : Nat × Nat) : Bool := a.1 * b.2 ≤ b.1 * a.2
def ratioLt (a b : Nat × Nat) : Bool := a.1 * b.2 < b.1 * a.2

def Interval.contains (i : Interval) (r : Nat × Nat) : Bool :=
  if i.closed then ratioLe i.low r && ratioLe r i.high
  else ratioLt i.low r && ratioLt r i.high

/-- The interval around `b`. Just above a power of two the neighbour below
is only half as far away. -/
def Binary.interval (b : Binary) : Interval :=
  let quarters (n : Nat) : Nat × Nat := (Binary.mk false n (b.exponent - 2)).ratio
  let below := if b.mantissa = twoPow 52 ∧ leastExponent < b.exponent then 1 else 2
  ⟨quarters (4 * b.mantissa - below), quarters (4 * b.mantissa + 2), b.mantissa % 2 = 0⟩

/-- Does the ratio reach `10 ^ k`? -/
def reachesPower (r : Nat × Nat) (k : Int) : Bool :=
  if 0 ≤ k then tenPow k.toNat * r.2 ≤ r.1 else r.2 ≤ r.1 * tenPow (-k).toNat

/-- The greatest `k` with `10 ^ k ≤ r`: an estimate from the binary logarithm,
which is at most three too small, corrected. -/
def floorLog10 (r : Nat × Nat) : Int :=
  let low := (floorLog2 r.1 r.2 * 30103).fdiv 100000 - 1
  if reachesPower r (low + 3) then low + 3
  else if reachesPower r (low + 2) then low + 2
  else if reachesPower r (low + 1) then low + 1
  else low

/-- `r / 10 ^ k` rounded down to a whole number. -/
def gridFloor (r : Nat × Nat) (k : Int) : Nat :=
  if 0 ≤ k then r.1 / (r.2 * tenPow k.toNat) else r.1 * tenPow (-k).toNat / r.2

/-- Is the upper of the two neighbours on the grid `10 ^ k` the one to take?
It is at least as close when the value is past their middle or on it. -/
def upperCloser (r : Nat × Nat) (below : Nat) (k : Int) : Bool :=
  let middle := (Scaled.mk (2 * below + 1) k).ratio
  ratioLe (middle.1, 2 * middle.2) r

/-- The decimal with at most `n` digits that reads back, if there is one. -/
def onGrid? (r : Nat × Nat) (i : Interval) (k : Int) : Option Scaled :=
  let below := gridFloor r k
  let lower := Scaled.mk below k
  let upper := Scaled.mk (below + 1) k
  match i.contains lower.ratio, i.contains upper.ratio with
  | true, true => some (if upperCloser r below k then upper else lower)
  | true, false => some lower
  | false, true => some upper
  | false, false => none

/-- Drop the zeros at the end of the digits. -/
def Scaled.strip : Nat → Scaled → Scaled
  | 0, s => s
  | fuel + 1, s =>
    if s.digits % 10 = 0 ∧ s.digits ≠ 0 then
      Scaled.strip fuel ⟨s.digits / 10, s.exponent + 1⟩
    else s

/-- The shortest digits of a positive `b`. Seventeen digits always suffice. -/
def Binary.shortest (b : Binary) : Scaled :=
  let r := b.ratio
  let i := b.interval
  let top := floorLog10 r
  let found := (List.range 17).findSome? fun (n : Nat) => onGrid? r i (top - n)
  ((found.getD ⟨gridFloor r (top - 16), top - 16⟩)).strip 20

end Logo.Decimal
