import Logo.Decimal.Shortest

/-!
# Decimal text

How the shortest digits of a number are laid out. A `Layout` says from which
magnitudes an exponent is written, and whether a whole number keeps a
fractional part.
-/

namespace Logo.Decimal
set_option autoImplicit false

/-- Choices of a number format. -/
structure Layout where
  /-- Powers of ten `k` with `10 ^ k ≤ n` for which the digits are written positionally. -/
  positional : Int → Bool
  /-- What follows the digits of a whole number written positionally. -/
  wholeSuffix : String

def digitString (n : Nat) : String := String.ofList (Nat.toDigits 10 n)

def zeros (n : Nat) : String := String.ofList (List.replicate n '0')

/-- The digits with a point where it belongs, and zeros up to it. -/
def Scaled.positional (s : Scaled) (wholeSuffix : String) : String :=
  let ds := Nat.toDigits 10 s.digits
  if 0 ≤ s.exponent then String.ofList ds ++ zeros s.exponent.toNat ++ wholeSuffix
  else
    let places := (-s.exponent).toNat
    if places < ds.length then
      String.ofList (ds.take (ds.length - places)) ++ "." ++ String.ofList (ds.drop (ds.length - places))
    else "0." ++ zeros (places - ds.length) ++ String.ofList ds

/-- One digit, a point and the others, if any, and the power of ten. -/
def Scaled.scientific (s : Scaled) : String :=
  let ds := Nat.toDigits 10 s.digits
  let power := s.exponent + ((ds.length : Int) - 1)
  let powerText := if power < 0 then "-" ++ digitString power.natAbs else digitString power.natAbs
  String.ofList (ds.take 1) ++ (if 1 < ds.length then "." ++ String.ofList (ds.drop 1) else "")
    ++ "e" ++ powerText

/-- The text of a float. -/
def Layout.render (l : Layout) (x : Float) : String :=
  match Kind.ofFloat x with
  | .notNumber => "NaN"
  | .infinite negative => if negative then "-inf" else "inf"
  | .finite b =>
    let sign := if b.negative then "-" else ""
    if b.mantissa = 0 then sign ++ "0" ++ l.wholeSuffix
    else
      let s := b.shortest
      let top := s.exponent + ((Nat.toDigits 10 s.digits).length : Int) - 1
      sign ++ (if l.positional top then s.positional l.wholeSuffix else s.scientific)

/-- Every digit is written out, never an exponent. -/
def Layout.plain : Layout := ⟨fun _ => true, ""⟩

/-- Positional from `0.0001` up to `10 ^ 16`, and always visibly a fraction. -/
def Layout.detailed : Layout := ⟨fun k => -4 ≤ k && k < 16, ".0"⟩

end Logo.Decimal
