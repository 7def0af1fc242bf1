/-!
# Letter case

Names and keywords ignore the case of the letters `a` to `z`; every other
character stands for itself, so `é` and `É` are different names.
-/

namespace Logo.Text
set_option autoImplicit false

/-- The key under which a name is kept: ASCII letters in lower case. -/
def fold (name : String) : String := name.map Char.toLower

/-- Do two texts differ at most in the case of ASCII letters? -/
def sameName (a b : String) : Bool := fold a == fold b

end Logo.Text
