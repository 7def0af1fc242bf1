import Logo.Value.Coercion

/-!
# Taking words and lists apart

A list consists of its members and a word of its letters, where a number or a
truth value counts as the word it is written as. `Data.pieces` is the common
view: every selector is an operation on lists, seen through it.
-/

namespace Logo
set_option autoImplicit false

/-- A value that can be taken apart. -/
inductive Data where
  | members (items : List Value)
  | letters (cs : List Char)

namespace Data

def of? (v : Value) : Option Data :=
  match v with
  | .list items => some (members items)
  | v => if v.isWord then some (letters v.render.toList) else none

/-- The parts in order: members, or one-letter words. -/
def pieces : Data → List Value
  | members items => items
  | letters cs => cs.map fun c => .text (String.ofList [c])

def size : Data → Nat
  | members items => items.length
  | letters cs => cs.length

def first? (d : Data) : Option Value := d.pieces.head?

def last? (d : Data) : Option Value := d.pieces.getLast?

/-- The part at `index`, counted from zero. -/
def item? (d : Data) (index : Nat) : Option Value := d.pieces[index]?

/-- All but the first part; there is none of a value without parts. -/
def butFirst? : Data → Option Value
  | members (_ :: items) => some (.list items)
  | letters (_ :: cs) => some (.text (String.ofList cs))
  | _ => none

/-- All but the last part; there is none of a value without parts. -/
def butLast? : Data → Option Value
  | members [] | letters [] => none
  | members items => some (.list items.dropLast)
  | letters cs => some (.text (String.ofList cs.dropLast))

@[simp] theorem length_pieces (d : Data) : d.pieces.length = d.size := by
  cases d <;> simp [pieces, size]

end Data

/-- The members of a list, or the value as the only one. -/
def Value.spliced : Value → List Value
  | .list items => items
  | v => [v]

/-- Does a value have no parts? A word that is not a text always has some. -/
def Value.isEmptyData : Value → Bool
  | .list items => items.isEmpty
  | .text s => s == ""
  | _ => false

end Logo
