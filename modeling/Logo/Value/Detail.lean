import Logo.Value.Basic
import Logo.Decimal.Layout
import Logo.Text.Quoted

/-!
# Values in detail

The text of a value for someone who looks at a value from outside: every kind
is named, texts are quoted, and a number shows that it is one by a fraction or
an exponent.
-/

namespace Logo
set_option autoImplicit false

def Procedure.detail (p : Procedure) : String :=
  "Procedure(" ++ p.name ++ "/" ++ Decimal.digitString p.arity ++ ")"

mutual

def Value.detail : Value → String
  | .number n => "Number(" ++ Decimal.Layout.detailed.render n ++ ")"
  | .text s => "Text(" ++ Text.quoted s ++ ")"
  | .boolean b => "Boolean(" ++ (if b then "true" else "false") ++ ")"
  | .list items => "List([" ++ ", ".intercalate (Value.details items) ++ "])"
  | .procedure p => "Procedure(" ++ p.detail ++ ")"

def Value.details : List Value → List String
  | [] => []
  | v :: vs => v.detail :: Value.details vs

end

end Logo
