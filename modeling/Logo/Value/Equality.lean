import Logo.Value.Basic

/-!
# Equality of values

Numbers are compared as numbers (so `0` equals `-0`, and "not a number" equals
nothing), texts and truth values by content, lists member by member,
procedures by identity. Values of different kinds are never equal: the text
`3` is not the number 3.
-/

namespace Logo
set_option autoImplicit false

mutual

def Value.equal : Value → Value → Bool
  | .number a, .number b => a == b
  | .text a, .text b => a == b
  | .boolean a, .boolean b => a == b
  | .list as, .list bs => Value.equalAll as bs
  | .procedure p, .procedure q => p.same q
  | _, _ => false

def Value.equalAll : List Value → List Value → Bool
  | [], [] => true
  | a :: as, b :: bs => a.equal b && Value.equalAll as bs
  | _, _ => false

end

instance : BEq Value := ⟨Value.equal⟩

end Logo
