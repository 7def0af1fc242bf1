import Logo.Proofs.Lines
import Logo.Proofs.Numerals
import Logo.Value.Equality

/-!
# Plain programs

A plain program is one whose text needs nothing quoted by a backslash and means
the same when read again: its numbers are finite, its texts are of the kinds the
reader makes, its parentheses balance in every list, and at the top no `to` stands
before a name, where it would begin a definition. All of this can be computed.
-/

namespace Logo.Source
set_option autoImplicit false
open Logo.Text

/-- Stands for itself in a quoted word. -/
def isQuotable (c : Char) : Bool := !isDelimiter c && c != '\\'

/-- Stands for itself in a bare word and in the name of a variable. -/
def isNameable (c : Char) : Bool := !isTerminator c && c != '\\'

/-- An operator or a parenthesis. -/
def isMark : List Char → Bool
  | [c] => Operator.isSymbol c || c == '(' || c == ')'
  | _ => false

def isQuoted : List Char → Bool
  | '"' :: cs => cs.all isQuotable
  | _ => false

def isVariable : List Char → Bool
  | ':' :: cs => !cs.isEmpty && cs.all isNameable
  | _ => false

/-- A word that is neither quoted nor a variable, a number or a truth value. -/
def isBare : List Char → Bool
  | [] => false
  | c :: cs => (c :: cs).all isNameable && c != '"' && c != ':' && !startsNumber (c :: cs)
      && !sameName (String.ofList (c :: cs)) "true" && !sameName (String.ofList (c :: cs)) "false"

def isPlainText (cs : List Char) : Bool := isMark cs || isQuoted cs || isVariable cs || isBare cs

end Logo.Source

namespace Logo.Value
set_option autoImplicit false
open Logo.Text Logo.Source

/-- How many parentheses are open behind a member, if `depth` are before it. There is no
answer at a closing one that closes nothing. -/
def depthAfter (depth : Nat) : Value → Option Nat
  | .text s =>
    if s = "(" then some (depth + 1)
    else if s = ")" then
      match depth with
      | 0 => none
      | depth + 1 => some depth
    else some depth
  | _ => some depth

/-- Do the parentheses among these members balance? -/
def balanced (items : List Value) : Bool := items.foldlM depthAfter 0 == some 0

mutual

def plain : Value → Bool
  | .number n => Decimal.isFinite n && (Decimal.read? (numberText n).toList).any (· == n)
  | .text s => isPlainText s.toList
  | .boolean _ => true
  | .list items => allPlain items && balanced items
  | .procedure _ => false

def allPlain : List Value → Bool
  | [] => true
  | v :: vs => v.plain && allPlain vs

end

mutual

/-- Is every number in a value finite? -/
def finite : Value → Bool
  | .number n => Decimal.isFinite n
  | .list items => allFinite items
  | _ => true

def allFinite : List Value → Bool
  | [] => true
  | v :: vs => v.finite && allFinite vs

end

/-- The word `to`, in any case. -/
def isTo : Value → Bool
  | .text s => sameName s "to"
  | _ => false

/-- A bare word or a truth value, which behind `to` is the name of a definition. -/
def isName : Value → Bool
  | .text s => isBare s.toList
  | .boolean _ => true
  | _ => false

/-- Is there a `to` that begins a definition? -/
def beginsDefinition : List Value → Bool
  | v :: w :: vs => v.isTo && w.isName || beginsDefinition (w :: vs)
  | _ => false

def plainProgram (program : List Value) : Bool :=
  allPlain program && balanced program && !beginsDefinition program

theorem allPlain_iff {items : List Value} :
    allPlain items = true ↔ ∀ v ∈ items, v.plain = true := by
  induction items with
  | nil => simp [allPlain]
  | cons v vs ih => simp [allPlain, ih]

theorem allFinite_iff {items : List Value} :
    allFinite items = true ↔ ∀ v ∈ items, v.finite = true := by
  induction items with
  | nil => simp [allFinite]
  | cons v vs ih => simp [allFinite, ih]

theorem plain_number_iff {n : Float} : (Value.number n).plain = true ↔ Decimal.isFinite n = true := by
  rw [plain, Bool.and_eq_true, and_iff_left_iff_imp]
  intro h
  obtain ⟨y, hy, heq⟩ := Decimal.read_numberText h
  rw [hy]
  exact heq

theorem plain_list_iff {items : List Value} : (Value.list items).plain = true ↔
    (∀ v ∈ items, v.plain = true) ∧ items.foldlM depthAfter 0 = some 0 := by
  rw [plain, Bool.and_eq_true, allPlain_iff, balanced, beq_iff_eq]

theorem plainProgram_iff {program : List Value} : plainProgram program = true ↔
    (∀ v ∈ program, v.plain = true) ∧ program.foldlM depthAfter 0 = some 0 ∧
      beginsDefinition program = false := by
  rw [plainProgram, Bool.and_eq_true, Bool.and_eq_true, allPlain_iff, balanced, beq_iff_eq,
    Bool.not_eq_true', and_assoc]

end Logo.Value
