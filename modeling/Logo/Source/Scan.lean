import Logo.Operator
import Logo.Text.Blank

/-!
# The pieces of a source

Functions that take one piece off the front of a source: blanks and comments,
the characters of a word, the characters of a number. Each returns what is
left, and what is left is never longer than what there was.
-/

namespace Logo.Source
set_option autoImplicit false
open Logo.Text

/-- Ends a quoted word. -/
def isDelimiter (c : Char) : Bool :=
  isBlank c || c == '[' || c == ']' || c == '(' || c == ')'

/-- Ends a bare word, the name of a variable or a number. -/
def isTerminator (c : Char) : Bool :=
  isDelimiter c || c == ';' || Operator.isSymbol c

/-- The source behind blanks and comments. A comment runs from `;` to the end
of its line. -/
def skipTrivia (inComment : Bool) : List Char → List Char
  | [] => []
  | c :: cs =>
    if inComment then skipTrivia (c != '\n') cs
    else if isBlank c then skipTrivia false cs
    else if c = ';' then skipTrivia true cs
    else c :: cs

/-- Does the source begin with a blank or a comment? -/
def startsTrivia : List Char → Bool
  | [] => false
  | c :: _ => isBlank c || c == ';'

/-- The characters up to one that satisfies `stop`, and the source from there.
A backslash stands for the character behind it; there is no result if the
source ends at the backslash. `taken` holds the characters already read, last
first. -/
def scanWord (stop : Char → Bool) (taken : List Char) : List Char → Option (List Char × List Char)
  | [] => some (taken.reverse, [])
  | c :: cs =>
    if stop c then some (taken.reverse, c :: cs)
    else if c = '\\' then
      match cs with
      | [] => none
      | e :: es => scanWord stop (e :: taken) es
    else scanWord stop (c :: taken) cs

/-- A word that begins with `c`, whatever `c` is. -/
def scanBareWord (c : Char) (cs : List Char) : Option (List Char × List Char) :=
  if c = '\\' then
    match cs with
    | [] => none
    | e :: es => scanWord isTerminator [e] es
  else scanWord isTerminator [c] cs

/-- Does a number begin here: a digit, or a point and a digit? -/
def startsNumber : List Char → Bool
  | '.' :: d :: _ => d.isDigit
  | d :: _ => d.isDigit
  | [] => false

/-- Does a bare name begin here, which after `to` is the name to define? -/
def startsName : List Char → Bool
  | [] => false
  | c :: _ => !isTerminator c && c != '"' && c != ':' && !c.isDigit

/-- A number as it was written. -/
structure Numeral where
  text : List Char
  wellFormed : Bool
  rest : List Char
  deriving DecidableEq, Repr

/-- An optional minus sign. -/
def scanMinus : List Char → List Char × List Char
  | '-' :: cs => (['-'], cs)
  | cs => ([], cs)

/-- An optional point with the digits behind it. -/
def scanFraction : List Char → List Char × List Char
  | '.' :: cs => ('.' :: cs.takeWhile Char.isDigit, cs.dropWhile Char.isDigit)
  | cs => ([], cs)

/-- An optional sign of an exponent. -/
def scanSign : List Char → List Char × List Char
  | '+' :: cs => (['+'], cs)
  | '-' :: cs => (['-'], cs)
  | cs => ([], cs)

/-- An optional exponent. It is malformed if no digit follows the mark and sign. -/
def scanExponent : List Char → Numeral
  | [] => ⟨[], true, []⟩
  | e :: cs =>
    if e = 'e' ∨ e = 'E' then
      let (sign, ds) := scanSign cs
      ⟨e :: sign ++ ds.takeWhile Char.isDigit, !(ds.takeWhile Char.isDigit).isEmpty,
        ds.dropWhile Char.isDigit⟩
    else ⟨[], true, e :: cs⟩

/-- The number at the front of a source. Characters that run on into it make it
malformed, and belong to its text. -/
def scanNumber (cs : List Char) : Numeral :=
  let (minus, cs) := scanMinus cs
  let whole := cs.takeWhile Char.isDigit
  let (fraction, cs) := scanFraction (cs.dropWhile Char.isDigit)
  let exponent := scanExponent cs
  let junk := exponent.rest.takeWhile fun c => !isTerminator c
  ⟨minus ++ whole ++ fraction ++ exponent.text ++ junk, exponent.wellFormed && junk.isEmpty,
    exponent.rest.dropWhile fun c => !isTerminator c⟩

/-! ### What is left is not longer -/

theorem length_skipTrivia_le (inComment : Bool) (cs : List Char) :
    (skipTrivia inComment cs).length ≤ cs.length := by
  induction cs generalizing inComment with
  | nil => simp [skipTrivia]
  | cons c cs ih =>
    rw [skipTrivia]
    split
    · exact Nat.le_succ_of_le (ih _)
    · split
      · exact Nat.le_succ_of_le (ih _)
      · split
        · exact Nat.le_succ_of_le (ih _)
        · exact Nat.le_refl _

theorem length_scanWord_le {stop : Char → Bool} {taken cs word rest : List Char}
    (h : scanWord stop taken cs = some (word, rest)) : rest.length ≤ cs.length := by
  fun_induction scanWord stop taken cs with
  | case1 => simp_all
  | case2 => simp_all
  | case3 => simp_all
  | case4 taken e es _ ih => have := ih h; simp; omega
  | case5 taken c cs _ _ ih => have := ih h; simp; omega

theorem length_scanBareWord_le {c : Char} {cs word rest : List Char}
    (h : scanBareWord c cs = some (word, rest)) : rest.length ≤ cs.length := by
  unfold scanBareWord at h
  split at h
  · split at h
    · simp at h
    · have := length_scanWord_le h; simp; omega
  · exact length_scanWord_le h

theorem length_dropWhile_le {α : Type} (p : α → Bool) (l : List α) :
    (l.dropWhile p).length ≤ l.length :=
  (List.dropWhile_suffix p).length_le

theorem length_scanFraction_le (cs : List Char) : (scanFraction cs).2.length ≤ cs.length := by
  unfold scanFraction
  split
  · have := length_dropWhile_le Char.isDigit ‹List Char›; simp; omega
  · exact Nat.le_refl _

theorem length_scanSign_le (cs : List Char) : (scanSign cs).2.length ≤ cs.length := by
  unfold scanSign; split <;> simp

theorem length_scanExponent_le (cs : List Char) : (scanExponent cs).rest.length ≤ cs.length := by
  unfold scanExponent
  split
  · simp
  · rename_i e cs
    split
    · have := length_dropWhile_le Char.isDigit (scanSign cs).2
      have := length_scanSign_le cs
      simp; omega
    · simp

/-- A number takes at least the character it begins with. -/
theorem length_scanNumber_le {c : Char} {cs : List Char}
    (h : c = '-' ∨ startsNumber (c :: cs) = true) :
    (scanNumber (c :: cs)).rest.length ≤ cs.length := by
  have tail (ds : List Char) :
      ((scanExponent (scanFraction (ds.dropWhile Char.isDigit)).2).rest.dropWhile
        fun c => !isTerminator c).length ≤ (ds.dropWhile Char.isDigit).length := by
    have := length_scanFraction_le (ds.dropWhile Char.isDigit)
    have := length_scanExponent_le (scanFraction (ds.dropWhile Char.isDigit)).2
    have := length_dropWhile_le (fun c => !isTerminator c)
      (scanExponent (scanFraction (ds.dropWhile Char.isDigit)).2).rest
    omega
  by_cases minus : c = '-'
  · subst minus
    have := tail cs
    have := length_dropWhile_le Char.isDigit cs
    simp only [scanNumber, scanMinus]
    omega
  · have start : startsNumber (c :: cs) = true := h.resolve_left minus
    have split : scanMinus (c :: cs) = ([], c :: cs) := by
      unfold scanMinus; split <;> simp_all
    simp only [scanNumber, split]
    by_cases digit : c.isDigit = true
    · have := tail (c :: cs)
      have := length_dropWhile_le Char.isDigit cs
      simp only [List.dropWhile_cons, digit, if_true] at *
      omega
    · have point : c = '.' := by
        unfold startsNumber at start
        split at start <;> simp_all
      subst point
      have stay : ('.' :: cs).dropWhile Char.isDigit = '.' :: cs := by
        simp [show Char.isDigit '.' = false from rfl]
      have := length_scanExponent_le (cs.dropWhile Char.isDigit)
      have := length_dropWhile_le Char.isDigit cs
      have := length_dropWhile_le (fun c => !isTerminator c)
        (scanExponent (cs.dropWhile Char.isDigit)).rest
      simp only [stay, scanFraction]
      omega

end Logo.Source
