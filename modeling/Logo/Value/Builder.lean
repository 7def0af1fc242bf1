import Logo.Value.Basic

/-!
# Building a list from front to back

Members are staged one at a time and published together, on their own or in
front of an existing list.
-/

namespace Logo
set_option autoImplicit false

/-- The staged members, last first. -/
structure Builder where
  staged : List Value := []

namespace Builder

def push (b : Builder) (v : Value) : Builder := ⟨v :: b.staged⟩

/-- Stage every member of a list, in order. -/
def extend (b : Builder) (vs : List Value) : Builder := ⟨vs.reverse ++ b.staged⟩

def size (b : Builder) : Nat := b.staged.length

def isEmpty (b : Builder) : Bool := b.staged.isEmpty

/-- The member staged last. -/
def last? (b : Builder) : Option Value := b.staged.head?

/-- Publish the staged members in front of `tail`. -/
def finishOnto (b : Builder) (tail : List Value) : List Value := b.staged.reverse ++ tail

def finish (b : Builder) : List Value := b.finishOnto []

@[simp] theorem finish_push (b : Builder) (v : Value) : (b.push v).finish = b.finish ++ [v] := by
  simp [finish, finishOnto, push]

@[simp] theorem finish_extend (b : Builder) (vs : List Value) :
    (b.extend vs).finish = b.finish ++ vs := by
  simp [finish, finishOnto, extend]

theorem finishOnto_eq (b : Builder) (tail : List Value) : b.finishOnto tail = b.finish ++ tail := by
  simp [finish, finishOnto]

end Builder

end Logo
