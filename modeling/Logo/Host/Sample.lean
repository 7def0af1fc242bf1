import Logo.Session

/-!
# A sample host

Host functions of every kind to try an engine with: conversions in both
directions, failures, signals to the run from within, and functions that let
the run wait. The host's memory is a journal to which one of them adds.
-/

namespace Logo
set_option autoImplicit false

/-- Notes, last first. -/
structure Journal where
  notes : List String := []

instance : Notes Journal := ⟨fun j => (j.notes.reverse, {})⟩

namespace Sample

/-- Host code that has a result at once and touches nothing. -/
def giving (outcome : Outcome) : HostBody Journal [] := fun view => ⟨view.memory, [], outcome⟩

def output (v : Value) : HostBody Journal [] := giving (.ok (some v))

/-- Send a signal to the run that called, then output a value or nothing. -/
def signalling (s : Signal) (v : Option Value) : HostBody Journal [] := fun view =>
  match s.apply view.state with
  | .ok _ => ⟨view.memory, [s], .ok v⟩
  | .error f => ⟨view.memory, [], .error f⟩

/-- The kind of failure that a word names. -/
def kindNamed : String → FaultKind
  | "structural" => .structural
  | "unbound" => .unbound
  | "type" => .type
  | "resource" => .resource
  | "cancelled" => .cancelled
  | _ => .usage

/-- How many polls a value asks to wait for: a number without its fraction, and
none for a negative number or any other value. -/
def pollsWanted (v : Value) : Nat :=
  match v with
  | .number n =>
    match Decimal.Kind.ofFloat n with
    | .finite b => if b.negative then 0 else b.ratio.1 / b.ratio.2
    | _ => 0
  | _ => 0

/-- Wait for as many polls as the first input asks for, then answer. -/
def delayed (arity : Nat) (outcome : List Value → Outcome) : HostFunction Journal :=
  .async arity fun inputs asked view =>
    if asked < pollsWanted (inputs.headD (.list [])) then ⟨view.memory, [], .pending⟩
    else ⟨view.memory, [], .ready (outcome inputs)⟩

/-- Try to start a program on the engine that called, and output how that ended. An
engine that makes a call is not idle, so it always refuses. -/
def nested : HostFunction Journal :=
  .async 1 fun _ _ view =>
    match view.state.begin with
    | .error f => ⟨view.memory, [], .ready (.ok (some (.text f.message)))⟩
    | .ok _ => ⟨view.memory, [], .ready (.ok (some (.text "completed")))⟩

def function? : String → Option (HostFunction Journal)
  | "half" => some (.sync [.number] fun (n : Float) => output (.number (n / 2.0)))
  | "inc" => some (.sync [.integer] fun (n : Int) => output (.number (Float.ofInt (n + 1))))
  | "flip" => some (.sync [.truth] fun (b : Bool) => output (.boolean (!b)))
  | "shout" => some (.sync [.word] fun (s : String) => output (.text (s ++ "!")))
  | "rest" => some (.sync [.list] fun (l : List Value) => output (.list l.tail))
  | "same" => some (.sync [.any] fun (v : Value) => output v)
  | "maybe" => some (.sync [.truth, .any] fun (b : Bool) (v : Value) =>
      giving (.ok (if b then some v else none)))
  | "note" => some (.sync [.any] fun (v : Value) view =>
      ⟨⟨v.render :: view.memory.notes⟩, [], .ok none⟩)
  | "checked" => some (.sync [.number] fun (n : Float) =>
      if n < 0.0 then giving (.error (.reported .type "negative")) else output (.number n))
  | "fail" => some (.sync [.word, .word] fun (kind message : String) =>
      giving (.error (.reported (kindNamed kind) message)))
  | "greet" => some (.sync [] (output (.text "hello")))
  | "join3" => some (.sync [.word, .word, .word] fun (a b c : String) => output (.text (a ++ b ++ c)))
  | "pick4" => some (.sync [.integer, .any, .any, .any] fun (n : Int) (a b c : Value) =>
      giving (.ok (if n = 1 then some a else if n = 2 then some b else if n = 3 then some c else none)))
  | "add5" => some (.sync [.number, .number, .number, .number, .number]
      fun (a b c d e : Float) => output (.number (a + b + c + d + e)))
  | "mix6" => some (.sync [.number, .integer, .truth, .word, .list, .any]
      fun (n : Float) (i : Int) (b : Bool) (s : String) (l : List Value) (v : Value) =>
        output (.list [.number n, .number (Float.ofInt i), .boolean b, .text s, .list l, v]))
  | "hpause" => some (.sync [] (signalling .pause none))
  | "hresume" => some (.sync [] (signalling .resume none))
  | "hcancel" => some (.sync [] (signalling .cancel none))
  | "hstate" => some (.sync [] fun (view : HostView Journal) =>
      ⟨view.memory, [], .ok (some (.text view.state.name))⟩)
  | "vpause" => some (.sync [.any] fun (v : Value) => signalling .pause (some v))
  | "vcancel" => some (.sync [.any] fun (v : Value) => signalling .cancel (some v))
  | "later" => some (delayed 2 fun inputs => .ok inputs[1]?)
  | "latercmd" => some (delayed 1 fun _ => .ok none)
  | "laterfail" => some (delayed 1 fun _ => .error (.reported .resource "host gave up"))
  | "never" => some (.async 0 fun _ _ view => ⟨view.memory, [], .hopeless⟩)
  | "nested" => some nested
  | _ => none

end Sample

end Logo
