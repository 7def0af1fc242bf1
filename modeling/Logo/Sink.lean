/-!
# Where printed text goes

A program prints in chunks. A buffer joins them until somebody takes the text,
a recorder keeps them apart, a silent sink drops them.
-/

namespace Logo
set_option autoImplicit false

inductive Sink where
  | buffer (text : String)
  /-- The chunks so far, last first. -/
  | recorder (chunks : List String)
  | silent
  deriving DecidableEq, Repr

namespace Sink

def write : Sink → String → Sink
  | buffer text, chunk => buffer (text ++ chunk)
  | recorder chunks, chunk => recorder (chunk :: chunks)
  | silent, _ => silent

/-- Write a chunk that ends its line. -/
def writeLine (s : Sink) (text : String) : Sink := s.write (text ++ "\n")

/-- The text in the buffer. -/
def text : Sink → String
  | buffer text => text
  | _ => ""

/-- Empty the buffer. -/
def clear : Sink → Sink
  | buffer _ => buffer ""
  | s => s

/-- The text in the buffer, which is then empty. -/
def take (s : Sink) : String × Sink := (s.text, s.clear)

/-- The recorded chunks in order. -/
def chunks : Sink → List String
  | recorder chunks => chunks.reverse
  | _ => []

/-- The recorded chunks in order, which are then forgotten. -/
def takeChunks : Sink → List String × Sink
  | recorder chunks => (chunks.reverse, recorder [])
  | s => ([], s)

end Sink

end Logo
