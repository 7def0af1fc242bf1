import Logo.Decimal.Reader
import Logo.Source.Fault
import Logo.Source.Scan
import Logo.Text.Fold
import Logo.Value.Basic

/-!
# Reading a source into a program

A program is a list of words, numbers, truth values and further lists. Nothing
is grouped into calls here, since the number of inputs a procedure takes is
known only when it is called.

The reader goes through the source once, one item at a time. `State` holds the
lists that are open, innermost first, each with what will close it. A
definition `to name :a :b ... end` is a list of its own while it is read; when
it ends it leaves the call `( to "name "a "b [...] )`.
-/

namespace Logo.Source
set_option autoImplicit false
open Logo.Text

/-- What closes a list that is being read. `opened` is the source from where
the list began. -/
inductive Closer where
  /-- The end of the source. -/
  | program
  /-- A closing bracket. -/
  | bracket (opened : List Char)
  /-- The word `end`. While `heading` holds, a variable is a parameter; they
  are kept last first. -/
  | definition (opened : List Char) (name : String) (params : List String) (heading : Bool)

/-- Leave the heading of a definition. -/
def Closer.body : Closer → Closer
  | .definition opened name params _ => .definition opened name params false
  | c => c

/-- A list that is being read. -/
structure Level where
  closer : Closer
  /-- The members so far, last first. -/
  items : List Value := []
  /-- The source at each parenthesis still open in this list, innermost first. -/
  parens : List (List Char) := []
  /-- Would a `-` that follows at once be the operator? It would if what comes
  before it can be a left operand. -/
  tight : Bool := false

/-- The list that is being read and those around it. -/
structure State where
  level : Level
  outer : List Level := []

def State.initial : State := { level := { closer := .program } }

/-- Add a member. -/
def Level.push (l : Level) (v : Value) (tight : Bool) : Level :=
  { l with closer := l.closer.body, items := v :: l.items, tight }

/-- The members of a list that ends here, unless a parenthesis is open in it. -/
def Level.close (l : Level) : Except Refusal (List Value) :=
  match l.parens with
  | [] => .ok l.items.reverse
  | opened :: _ => .error ⟨.unterminatedParen, opened⟩

def State.push (s : State) (v : Value) (tight : Bool) : State :=
  { s with level := s.level.push v tight }

/-- A word whose last character is an escaped blank does not tie a `-` to it. -/
def tightAfter (word : List Char) : Bool :=
  match word.getLast? with
  | some c => !isBlank c
  | none => true

/-- The truth values are written as words, in any case. -/
def wordValue (word : String) : Value :=
  if sameName word "true" then .boolean true
  else if sameName word "false" then .boolean false
  else .text word

/-- The call that stands for a definition, last member first. -/
def definitionItems (name : String) (params : List String) (body : List Value) : List Value :=
  .text ")" :: .list body :: (params.map fun p => .text ("\"" ++ p))
    ++ [.text ("\"" ++ name), .text "to", .text "("]

/-- A quoted word: the source is behind the mark `"`. -/
def State.quotedWord (s : State) (here cs : List Char) : Except Refusal (State × List Char) :=
  match scanWord isDelimiter [] cs with
  | none => .error ⟨.unterminatedString, here⟩
  | some (word, rest) => .ok (s.push (.text (String.ofList ('"' :: word))) (tightAfter word), rest)

/-- A variable, or a parameter in the heading of a definition: the source is
behind the mark `:`. -/
def State.variableName (s : State) (here cs : List Char) : Except Refusal (State × List Char) :=
  match scanWord isTerminator [] cs with
  | none => .error ⟨.unterminatedString, here⟩
  | some ([], _) => .error ⟨.missingVariableName, here⟩
  | some (name, rest) =>
    match s.level.closer with
    | .definition opened defined params true =>
      .ok ({ s with level := { s.level with
        closer := .definition opened defined (String.ofList name :: params) true } }, rest)
    | _ => .ok (s.push (.text (String.ofList (':' :: name))) (tightAfter name), rest)

def State.number (s : State) (here : List Char) : Except Refusal (State × List Char) :=
  let numeral := scanNumber here
  match numeral.wellFormed, Decimal.read? numeral.text with
  | true, some n => .ok (s.push (.number n) true, numeral.rest)
  | _, _ => .error ⟨.malformedNumber (String.ofList numeral.text), here⟩

/-- A list ends at a closing bracket. -/
def State.closeBracket (s : State) (here cs : List Char) : Except Refusal (State × List Char) :=
  match s.level.closer, s.outer with
  | .bracket _, l :: outer => do
    let items ← s.level.close
    .ok ({ level := l.push (.list items) true, outer }, cs)
  | _, _ => .error ⟨.unexpectedClose ']', here⟩

def State.closeParen (s : State) (here cs : List Char) : Except Refusal (State × List Char) :=
  match s.level.parens with
  | [] => .error ⟨.unexpectedClose ')', here⟩
  | _ :: parens =>
    .ok ({ s with level := { s.level with parens }.push (.text ")") true }, cs)

/-- A bare word. In a definition `end` closes it; at the top `to` before a name
opens one. -/
def State.bareWord (s : State) (c : Char) (cs : List Char) : Except Refusal (State × List Char) :=
  match scanBareWord c cs with
  | none => .error ⟨.unterminatedString, c :: cs⟩
  | some (word, rest) =>
    let plain := s.push (wordValue (String.ofList word)) (tightAfter word)
    match s.level.closer, s.outer with
    | .definition _ name params _, l :: outer =>
      if sameName (String.ofList word) "end" then do
        let body ← s.level.close
        let items := definitionItems name params body ++ l.items
        .ok ({ level := { l with items, tight := true }, outer }, rest)
      else .ok (plain, rest)
    | .program, _ =>
      let ahead := rest.dropWhile isBlank
      if sameName (String.ofList word) "to" && startsName ahead then
        match scanWord isTerminator [] ahead with
        | none => .error ⟨.unterminatedString, ahead⟩
        | some (name, rest) =>
          .ok ({ level := { closer := .definition (c :: cs) (String.ofList name) [] true }
                 outer := s.level :: s.outer }, rest)
      else .ok (plain, rest)
    | _, _ => .ok (plain, rest)

/-- Read the item at the front of the source `c :: cs`, which begins with no
blank and no comment. `spaced` tells whether a blank or a comment precedes it. -/
def State.item (s : State) (spaced : Bool) (c : Char) (cs : List Char) :
    Except Refusal (State × List Char) :=
  let here := c :: cs
  if c = '[' then .ok ({ level := { closer := .bracket here }, outer := s.level :: s.outer }, cs)
  else if c = ']' then s.closeBracket here cs
  else if c = '(' then
    .ok ({ s with level := { s.level with parens := here :: s.level.parens }.push (.text "(") false }, cs)
  else if c = ')' then s.closeParen here cs
  else if c = '"' then s.quotedWord here cs
  else if c = ':' then s.variableName here cs
  else if c = '-' ∧ startsNumber cs = true ∧ (spaced || !s.level.tight) = true then s.number here
  else if Operator.isSymbol c then .ok (s.push (.text c.toString) false, cs)
  else if startsNumber here = true then s.number here
  else s.bareWord c cs

/-- The program, at the end of the source. -/
def State.finish (s : State) : Except Refusal (List Value) :=
  match s.level.closer with
  | .program => s.level.close
  | .bracket opened => .error ⟨.unterminatedList, opened⟩
  | .definition opened name _ _ => .error ⟨.unterminatedDefinition name, opened⟩

/-! ### An item takes at least one character -/

theorem State.length_quotedWord_le {s t : State} {here cs rest : List Char}
    (h : s.quotedWord here cs = .ok (t, rest)) : rest.length ≤ cs.length := by
  unfold State.quotedWord at h
  split at h
  · simp at h
  · rename_i scanned
    simp only [Except.ok.injEq, Prod.mk.injEq] at h
    exact h.2 ▸ length_scanWord_le scanned

theorem State.length_variableName_le {s t : State} {here cs rest : List Char}
    (h : s.variableName here cs = .ok (t, rest)) : rest.length ≤ cs.length := by
  unfold State.variableName at h
  split at h
  · simp at h
  · simp at h
  · rename_i scanned
    split at h <;> simp only [Except.ok.injEq, Prod.mk.injEq] at h <;>
      exact h.2 ▸ length_scanWord_le scanned

theorem State.number_rest {s t : State} {here rest : List Char}
    (h : s.number here = .ok (t, rest)) : rest = (scanNumber here).rest := by
  unfold State.number at h
  simp only at h
  split at h
  · simp only [Except.ok.injEq, Prod.mk.injEq] at h
    exact h.2.symm
  · simp at h

theorem State.closeBracket_rest {s t : State} {here cs rest : List Char}
    (h : s.closeBracket here cs = .ok (t, rest)) : rest = cs := by
  unfold State.closeBracket at h
  split at h
  · simp only [bind, Except.bind] at h
    split at h
    · simp at h
    · simp only [Except.ok.injEq, Prod.mk.injEq] at h
      exact h.2.symm
  · simp at h

theorem State.closeParen_rest {s t : State} {here cs rest : List Char}
    (h : s.closeParen here cs = .ok (t, rest)) : rest = cs := by
  unfold State.closeParen at h
  split at h
  · simp at h
  · simp only [Except.ok.injEq, Prod.mk.injEq] at h
    exact h.2.symm

theorem State.length_bareWord_le {s t : State} {c : Char} {cs rest : List Char}
    (h : s.bareWord c cs = .ok (t, rest)) : rest.length ≤ cs.length := by
  unfold State.bareWord at h
  split at h
  · simp at h
  · rename_i word behind scanned
    have bound := length_scanBareWord_le scanned
    simp only at h
    split at h
    · split at h
      · simp only [bind, Except.bind] at h
        split at h
        · simp at h
        · simp only [Except.ok.injEq, Prod.mk.injEq] at h
          exact h.2 ▸ bound
      · simp only [Except.ok.injEq, Prod.mk.injEq] at h
        exact h.2 ▸ bound
    · split at h
      · split at h
        · simp at h
        · rename_i named
          have := length_scanWord_le named
          have := length_dropWhile_le isBlank behind
          simp only [Except.ok.injEq, Prod.mk.injEq] at h
          have := h.2
          subst this
          omega
      · simp only [Except.ok.injEq, Prod.mk.injEq] at h
        exact h.2 ▸ bound
    · simp only [Except.ok.injEq, Prod.mk.injEq] at h
      exact h.2 ▸ bound

theorem State.length_item_le {s t : State} {spaced : Bool} {c : Char} {cs rest : List Char}
    (h : s.item spaced c cs = .ok (t, rest)) : rest.length ≤ cs.length := by
  unfold State.item at h
  simp only at h
  split at h
  · simp only [Except.ok.injEq, Prod.mk.injEq] at h
    exact h.2 ▸ Nat.le_refl _
  split at h
  · exact Nat.le_of_eq (congrArg _ (closeBracket_rest h))
  split at h
  · simp only [Except.ok.injEq, Prod.mk.injEq] at h
    exact h.2 ▸ Nat.le_refl _
  split at h
  · exact Nat.le_of_eq (congrArg _ (closeParen_rest h))
  split at h
  · exact length_quotedWord_le h
  split at h
  · exact length_variableName_le h
  split at h
  · rename_i minus
    rw [number_rest h]
    exact length_scanNumber_le (.inl minus.1)
  split at h
  · simp only [Except.ok.injEq, Prod.mk.injEq] at h
    exact h.2 ▸ Nat.le_refl _
  split at h
  · rename_i start
    rw [number_rest h]
    exact length_scanNumber_le (.inr start)
  · exact length_bareWord_le h

/-- Read the rest of a source. -/
def State.read (s : State) (source : List Char) : Except Refusal (List Value) :=
  match _skipped : skipTrivia false source with
  | [] => s.finish
  | c :: cs =>
    match _taken : s.item (startsTrivia source) c cs with
    | .error r => .error r
    | .ok (t, rest) => t.read rest
termination_by source.length
decreasing_by
  have := State.length_item_le _taken
  have := length_skipTrivia_le false source
  rw [_skipped] at this
  simp only [List.length_cons] at this
  omega

/-- Read a source into a program. -/
def readProgram (source : List Char) : Except Refusal (List Value) := State.initial.read source

end Logo.Source

namespace Logo

/-- Read a source text into a program, or say why it cannot be read and where. -/
def parse (source : String) : Except Source.Fault (List Value) :=
  (Source.readProgram source.toList).mapError (Source.Refusal.locate source.toList)

end Logo
