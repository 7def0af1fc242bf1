import Logo.Text.Fold
import Logo.Text.Quoted
import Logo.Value.Detail

/-!
# Scopes

A scope graph has frames and cells. A frame maps names to cells, and all but
the outermost frames have a parent in which a name is looked for next. A cell
holds a value or nothing yet. Several names, in several frames, may share a
cell; whoever assigns through one of them is seen through all.

Frames and cells are numbered in the order in which they were made, and no
number is ever used again, so a cell handed out earlier keeps its meaning when
its name is declared anew. Names are compared by `Text.fold`.
-/

namespace Logo
set_option autoImplicit false

abbrev FrameId := Nat
abbrev CellId := Nat

structure Frame where
  /-- Folded names, each at most once, with their cells. -/
  names : List (String × CellId) := []
  parent : Option FrameId := none

namespace Frame

/-- The entry of a folded name. -/
def entry? (key : String) : List (String × CellId) → Option CellId
  | [] => none
  | (name, cell) :: names => if name = key then some cell else entry? key names

/-- The cell of a folded name in this frame. -/
def find? (f : Frame) (key : String) : Option CellId := entry? key f.names

/-- Map a folded name to a cell, in place of what it was mapped to. -/
def put (f : Frame) (key : String) (cell : CellId) : Frame :=
  { f with names := (key, cell) :: f.names.filter fun entry => entry.1 != key }

end Frame

structure Scopes where
  frames : Array Frame
  cells : Array (Option Value)

namespace Scopes

/-- One frame without a parent, which binds nothing. -/
def initial : Scopes := ⟨#[{}], #[]⟩

/-- A new frame without a parent. -/
def root (s : Scopes) : FrameId × Scopes :=
  (s.frames.size, { s with frames := s.frames.push {} })

/-- A new frame whose names, where it has none itself, are those of `f`. -/
def child (s : Scopes) (f : FrameId) : FrameId × Scopes :=
  (s.frames.size, { s with frames := s.frames.push { parent := some f } })

def parent? (s : Scopes) (f : FrameId) : Option FrameId := s.frames[f]?.bind Frame.parent

/-- A new cell. -/
def cell (s : Scopes) (v : Option Value) : CellId × Scopes :=
  (s.cells.size, { s with cells := s.cells.push v })

/-- What a cell holds. -/
def read (s : Scopes) (c : CellId) : Option Value := (s.cells[c]?).join

/-- Put a value into a cell. -/
def write (s : Scopes) (c : CellId) (v : Value) : Scopes :=
  { s with cells := s.cells.setIfInBounds c (some v) }

/-- Make an existing cell known under `name` in frame `f`. -/
def share (s : Scopes) (f : FrameId) (name : String) (c : CellId) : Scopes :=
  { s with frames := s.frames.modify f fun frame => frame.put (Text.fold name) c }

/-- Bind `name` in frame `f` to a new cell. -/
def declare (s : Scopes) (f : FrameId) (name : String) (v : Option Value) : CellId × Scopes :=
  let (c, s) := s.cell v
  (c, s.share f name c)

/-- Bind `name` in frame `f` to a new cell that holds `v`. -/
def bind (s : Scopes) (f : FrameId) (name : String) (v : Value) : Scopes :=
  (s.declare f name (some v)).2

/-- The cell of `name` in frame `f` itself. -/
def localCell? (s : Scopes) (f : FrameId) (name : String) : Option CellId :=
  s.frames[f]?.bind fun frame => frame.find? (Text.fold name)

/-- The cell of a folded name in `f` or else in the nearest frame outwards. A
parent is always older than its child. -/
def resolveKey? (s : Scopes) (f : FrameId) (key : String) : Option CellId :=
  match s.frames[f]? with
  | none => none
  | some frame =>
    match frame.find? key with
    | some c => some c
    | none =>
      match frame.parent with
      | none => none
      | some p => if p < f then s.resolveKey? p key else none
termination_by f

/-- The cell that `name` means in frame `f`. -/
def resolve? (s : Scopes) (f : FrameId) (name : String) : Option CellId :=
  s.resolveKey? f (Text.fold name)

/-- The value that `name` has in frame `f`. -/
def lookup? (s : Scopes) (f : FrameId) (name : String) : Option Value :=
  (s.resolve? f name).bind s.read

/-- Assign to the cell that `name` means in frame `f`, if it means one. -/
def assign? (s : Scopes) (f : FrameId) (name : String) (v : Value) : Option Scopes :=
  match s.resolve? f name with
  | some c => some (s.write c v)
  | none => none

/-! ### Seen from outside -/

/-- The names of a frame in order. -/
def sortedNames (s : Scopes) (f : FrameId) : List String :=
  match s.frames[f]? with
  | none => []
  | some frame => (frame.names.map Prod.fst).mergeSort fun a b => decide (a ≤ b)

def frameDetail (s : Scopes) (f : FrameId) : String :=
  "Scope \x7b names: [" ++ ", ".intercalate ((s.sortedNames f).map Text.quoted)
    ++ "], has_parent: " ++ (if (s.parent? f).isSome then "true" else "false") ++ " \x7d"

def cellDetail (s : Scopes) (c : CellId) : String :=
  match s.read c with
  | some v => "Binding(" ++ v.detail ++ ")"
  | none => "Binding(<no value>)"

end Scopes

end Logo
