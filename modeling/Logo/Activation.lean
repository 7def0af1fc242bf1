import Logo.Value.Basic

/-!
# Activations

One record for each call of a defined procedure that has not returned. Blocks
and templates inside the procedure share it, so ending it from within a block
ends the whole procedure.
-/

namespace Logo
set_option autoImplicit false

structure Activation where
  result : Option Value := none
  stopped : Bool := false

namespace Activation

/-- End the activation with a value. -/
def output (_ : Activation) (v : Value) : Activation := ⟨some v, true⟩

/-- End the activation; a value given before stays. -/
def stop (a : Activation) : Activation := { a with stopped := true }

/-- Hand over the value it ended with. -/
def take (a : Activation) : Option Value × Activation := (a.result, { a with result := none })

end Activation

end Logo
