import Logo.Value.Basic
import Logo.Decimal.Layout

/-!
# The text of a value

`Value.render` writes a value the way it stands inside a program: lists in
brackets with a blank between members, words as they are. `Value.printed` is
what printing shows, where the outermost brackets are left out.
-/

namespace Logo
set_option autoImplicit false

/-- The first whole number that need not be exactly representable. -/
def exactLimit : Nat := Decimal.twoPow 53

/-- A number as text. A whole number below the limit has no sign at zero and
no fraction; every other number has its shortest digits, without an exponent. -/
def numberText (n : Float) : String :=
  match Decimal.wholeNumber? n with
  | some i =>
    if i.natAbs < exactLimit then
      if i < 0 then "-" ++ Decimal.digitString i.natAbs else Decimal.digitString i.natAbs
    else Decimal.Layout.plain.render n
  | none => Decimal.Layout.plain.render n

def booleanText (b : Bool) : String := if b then "true" else "false"

mutual

/-- `before` followed by the text of a value. -/
def Value.renderAfter (before : String) : Value → String
  | .number n => before ++ numberText n
  | .text s => before ++ s
  | .boolean b => before ++ booleanText b
  | .list items => Value.membersAfter (before ++ "[") items ++ "]"
  | .procedure p => before ++ "<procedure " ++ p.name ++ ">"

/-- `before` followed by the members of a list, with a blank between any two. -/
def Value.membersAfter (before : String) : List Value → String
  | [] => before
  | v :: vs => Value.moreAfter (Value.renderAfter before v) vs

/-- `before` followed by members that each have a blank in front. -/
def Value.moreAfter (before : String) : List Value → String
  | [] => before
  | v :: vs => Value.moreAfter (Value.renderAfter (before ++ " ") v) vs

end

/-- The text of a value as it stands in a program. -/
def Value.render (v : Value) : String := v.renderAfter ""

/-- The text that printing shows: a list loses its outermost brackets. -/
def Value.printed : Value → String
  | .list items => Value.membersAfter "" items
  | v => v.render

/-- Texts with a separator between any two. -/
def joined (separator : String) (texts : List String) : String := separator.intercalate texts

end Logo
