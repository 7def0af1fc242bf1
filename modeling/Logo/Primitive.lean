/-!
# The built-in procedures

Each built-in procedure with its name, the number of inputs a plain call
gathers, and whether a parenthesised call may pass it more.
-/

namespace Logo
set_option autoImplicit false

inductive Primitive where
  -- control
  | ifTrue | ifElse | repeatTimes | forever | run | wait | output | stop | repcount
  -- names
  | define | make | localName | globalName | thing
  -- templates
  | apply | invoke | foreach | map
  -- printing
  | print | display | type
  -- words and lists
  | first | butFirst | last | butLast | fput | lput | list | sentence | word
  | count | item | isEmpty | isEqual | isList | isWord | isNumber
  -- arithmetic and logic
  | sum | difference | product | quotient | remainder | minus | not | and | or
  deriving DecidableEq, Repr

namespace Primitive

/-- The name a program calls it by, which is also how messages name it. -/
def name : Primitive → String
  | ifTrue => "if"
  | ifElse => "ifelse"
  | repeatTimes => "repeat"
  | forever => "forever"
  | run => "run"
  | wait => "wait"
  | output => "output"
  | stop => "stop"
  | repcount => "repcount"
  | define => "to"
  | make => "make"
  | localName => "local"
  | globalName => "global"
  | thing => "thing"
  | apply => "apply"
  | invoke => "invoke"
  | foreach => "foreach"
  | map => "map"
  | print => "print"
  | display => "show"
  | type => "type"
  | first => "first"
  | butFirst => "butfirst"
  | last => "last"
  | butLast => "butlast"
  | fput => "fput"
  | lput => "lput"
  | list => "list"
  | sentence => "sentence"
  | word => "word"
  | count => "count"
  | item => "item"
  | isEmpty => "emptyp"
  | isEqual => "equalp"
  | isList => "listp"
  | isWord => "wordp"
  | isNumber => "numberp"
  | sum => "sum"
  | difference => "difference"
  | product => "product"
  | quotient => "quotient"
  | remainder => "remainder"
  | minus => "minus"
  | not => "not"
  | and => "and"
  | or => "or"

/-- Other names for the same procedure. -/
def aliases : Primitive → List String
  | output => ["op"]
  | print => ["pr"]
  | butFirst => ["bf"]
  | butLast => ["bl"]
  | sentence => ["se"]
  | isEmpty => ["empty?"]
  | isEqual => ["equal?"]
  | isList => ["list?"]
  | isWord => ["word?"]
  | isNumber => ["number?"]
  | _ => []

/-- How many inputs a plain call gathers. -/
def arity : Primitive → Nat
  | stop | repcount => 0
  | forever | run | wait | output | localName | globalName | thing | print | display | type
  | first | butFirst | last | butLast | count | isEmpty | isList | isWord | isNumber
  | minus | not => 1
  | ifElse => 3
  | _ => 2

/-- Does a parenthesised call pass on all of its inputs? -/
def variadic : Primitive → Bool
  | define | invoke | print | display | type | list | sentence | word
  | sum | product | and | or => true
  | _ => false

/-- All of them, in the order in which an engine binds them. -/
def all : List Primitive :=
  [ifTrue, ifElse, repeatTimes, forever, run, wait, output, stop, repcount,
   define, make, localName, globalName, thing,
   apply, invoke, foreach, map,
   print, display, type,
   first, butFirst, last, butLast, fput, lput, list, sentence, word,
   count, item, isEmpty, isEqual, isList, isWord, isNumber,
   sum, difference, product, quotient, remainder, minus, not, and, or]

theorem mem_all (p : Primitive) : p ∈ all := by cases p <;> decide

end Primitive

end Logo
