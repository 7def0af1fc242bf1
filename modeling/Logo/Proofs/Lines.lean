import Logo.Proofs.Stops
import Mathlib

/-!
# Reading line after line

A blank ends every piece of a source but a quoted character, so a source that can be read is
read the same way with a gap and more behind it (`Reads.read_extended`). What comes behind the gap
is read as it is by itself, whatever has been read before (`State.Over.read`). The one exception
is the word `to` at the end of the first source, which may find a name behind the gap
(`State.awaits`).
-/

namespace Logo.Source
set_option autoImplicit false
open Logo.Text

/-! ### Pieces end at a blank -/

theorem isDelimiter_of_isDigit {c : Char} (h : c.isDigit = true) : isDelimiter c = false := by
  have hrange : 48 ≤ c.toNat ∧ c.toNat ≤ 57 := by
    simp only [Char.isDigit, Bool.and_eq_true, decide_eq_true_eq] at h
    exact ⟨UInt32.le_iff_toNat_le.1 h.1, UInt32.le_iff_toNat_le.1 h.2⟩
  have hblank : isBlank c = false := by
    simp only [isBlank, Bool.or_eq_false_iff, Bool.and_eq_false_iff, decide_eq_false_iff_not,
      beq_eq_false_iff_ne]
    omega
  have hbracket : c ≠ '[' ∧ c ≠ ']' ∧ c ≠ '(' ∧ c ≠ ')' := by
    refine ⟨?_, ?_, ?_, ?_⟩
    all_goals
      rintro rfl
      cases h
  simp [isDelimiter, hblank, hbracket]

theorem blank_of_isDelimiter {c : Char} (h : isDelimiter c = false) : isBlank c = false := by
  simp only [isDelimiter, Bool.or_eq_false_iff] at h
  exact h.1.1.1.1

theorem isTerminator_of_isDelimiter {c : Char} (h : isDelimiter c = true) : isTerminator c = true := by
  simp [isTerminator, h]

section Blank

variable {br : Char} (hbr : isBlank br = true)
include hbr

theorem isDelimiter_of_isBlank : isDelimiter br = true := by
  simp [isDelimiter, hbr]

theorem isTerminator_of_isBlank : isTerminator br = true :=
  isTerminator_of_isDelimiter (isDelimiter_of_isBlank hbr)

theorem isDigit_of_isBlank : br.isDigit = false := by
  cases hd : br.isDigit with
  | false => rfl
  | true => exact (isDelimiter_of_isBlank hbr).symm.trans (isDelimiter_of_isDigit hd)

/-- A blank is none of the characters that belong to a number. -/
theorem blank_ne : br ≠ '-' ∧ br ≠ '+' ∧ br ≠ '.' ∧ br ≠ 'e' ∧ br ≠ 'E' := by
  refine ⟨?_, ?_, ?_, ?_, ?_⟩
  all_goals
    rintro rfl
    cases hbr

end Blank

section Pieces

variable {br : Char} (hbr : isBlank br = true) (more : List Char)

theorem takeWhile_gap {p : Char → Bool} (hp : p br = false) (cs : List Char) :
    (cs ++ br :: more).takeWhile p = cs.takeWhile p := by
  induction cs with
  | nil => simp [hp]
  | cons c cs ih =>
    rw [List.cons_append, List.takeWhile_cons, List.takeWhile_cons, ih]

theorem dropWhile_gap {p : Char → Bool} (hp : p br = false) (cs : List Char) :
    (cs ++ br :: more).dropWhile p = cs.dropWhile p ++ br :: more := by
  induction cs with
  | nil => simp [hp]
  | cons c cs ih =>
    rw [List.cons_append, List.dropWhile_cons, List.dropWhile_cons, ih]
    split <;> rfl

theorem scanWord_gap {stop : Char → Bool} (hstop : stop br = true) {taken cs word rest : List Char}
    (h : scanWord stop taken cs = some (word, rest)) :
    scanWord stop taken (cs ++ br :: more) = some (word, rest ++ br :: more) := by
  fun_induction scanWord stop taken cs with
  | case1 taken =>
    cases h
    exact scanWord_stop hstop
  | case2 taken c cs hc =>
    cases h
    exact scanWord_stop hc
  | case3 taken hc => cases h
  | case4 taken e es hc ih =>
    rw [List.cons_append, List.cons_append, scanWord_escape (by simpa using hc)]
    exact ih h
  | case5 taken c cs hc hb ih =>
    rw [List.cons_append, scanWord_take (by simpa using hc) hb]
    exact ih h

theorem startsName_gap {cs : List Char} (h : cs ≠ []) :
    startsName (cs ++ br :: more) = startsName cs := by
  cases cs with
  | nil => exact absurd rfl h
  | cons c cs => rfl

include hbr

theorem scanBareWord_gap {c : Char} {cs word rest : List Char}
    (h : scanBareWord c cs = some (word, rest)) :
    scanBareWord c (cs ++ br :: more) = some (word, rest ++ br :: more) := by
  have hstop := isTerminator_of_isBlank hbr
  unfold scanBareWord at h ⊢
  split
  · rename_i hc
    rw [if_pos hc] at h
    cases cs with
    | nil => cases h
    | cons e es => exact scanWord_gap more hstop h
  · rename_i hc
    rw [if_neg hc] at h
    exact scanWord_gap more hstop h

theorem startsNumber_gap (cs : List Char) : startsNumber (cs ++ br :: more) = startsNumber cs := by
  have hdigit := isDigit_of_isBlank hbr
  obtain ⟨-, -, hpoint, -, -⟩ := blank_ne hbr
  cases cs with
  | nil =>
    rw [List.nil_append, startsNumber_eq, hdigit]
    simp [hpoint, startsNumber]
  | cons c cs =>
    rw [List.cons_append, startsNumber_eq, startsNumber_eq]
    cases cs with
    | nil => simp [hdigit]
    | cons d ds => rfl

theorem startsWord_gap (c : Char) (cs : List Char) :
    startsWord c (cs ++ br :: more) = startsWord c cs := by
  unfold startsWord
  rw [← List.cons_append, startsNumber_gap hbr]

theorem scanMinus_gap (cs : List Char) :
    scanMinus (cs ++ br :: more) = ((scanMinus cs).1, (scanMinus cs).2 ++ br :: more) := by
  obtain ⟨hminus, -⟩ := blank_ne hbr
  cases cs with
  | nil =>
    unfold scanMinus
    split <;> simp_all
  | cons c cs =>
    rw [List.cons_append]
    unfold scanMinus
    split <;> split <;> simp_all

theorem scanFraction_gap (cs : List Char) :
    scanFraction (cs ++ br :: more) = ((scanFraction cs).1, (scanFraction cs).2 ++ br :: more) := by
  obtain ⟨-, -, hpoint, -, -⟩ := blank_ne hbr
  have hdigit := isDigit_of_isBlank hbr
  cases cs with
  | nil =>
    unfold scanFraction
    split <;> simp_all
  | cons c cs =>
    rw [List.cons_append]
    by_cases hc : c = '.'
    · subst hc
      simp only [scanFraction, takeWhile_gap more hdigit, dropWhile_gap more hdigit]
    · unfold scanFraction
      split <;> split <;> simp_all

theorem scanSign_gap (cs : List Char) :
    scanSign (cs ++ br :: more) = ((scanSign cs).1, (scanSign cs).2 ++ br :: more) := by
  obtain ⟨hminus, hplus, -⟩ := blank_ne hbr
  cases cs with
  | nil =>
    unfold scanSign
    split <;> simp_all
  | cons c cs =>
    rw [List.cons_append]
    unfold scanSign
    split <;> split <;> simp_all

/-- A numeral with more behind it. -/
def Numeral.followedBy (n : Numeral) (tail : List Char) : Numeral := { n with rest := n.rest ++ tail }

theorem scanExponent_gap (cs : List Char) :
    scanExponent (cs ++ br :: more) = (scanExponent cs).followedBy (br :: more) := by
  obtain ⟨-, -, -, hlower, hupper⟩ := blank_ne hbr
  have hdigit := isDigit_of_isBlank hbr
  cases cs with
  | nil => simp [scanExponent, hlower, hupper, Numeral.followedBy]
  | cons e cs =>
    rw [List.cons_append]
    simp only [scanExponent, scanSign_gap hbr, takeWhile_gap more hdigit, dropWhile_gap more hdigit]
    split <;> rfl

theorem scanNumber_gap (cs : List Char) :
    scanNumber (cs ++ br :: more) = (scanNumber cs).followedBy (br :: more) := by
  have hdigit := isDigit_of_isBlank hbr
  have hjunk : (!isTerminator br) = false := by rw [isTerminator_of_isBlank hbr]; rfl
  simp only [scanNumber, scanMinus_gap hbr, dropWhile_gap more hdigit, takeWhile_gap more hdigit,
    scanFraction_gap hbr, scanExponent_gap hbr, Numeral.followedBy,
    takeWhile_gap more (p := fun c => !isTerminator c) hjunk,
    dropWhile_gap more (p := fun c => !isTerminator c) hjunk]

end Pieces

/-! ### Gaps -/

/-- A blank, and more blanks and comments up to where `more` begins. -/
structure Gap (tail more : List Char) : Prop where
  blank : ∃ br rest, tail = br :: rest ∧ isBlank br = true
  skip : ∀ inComment, skipTrivia inComment tail = skipTrivia false more

theorem gap_line (more : List Char) : Gap ('\n' :: more) more :=
  ⟨⟨_, _, rfl, by decide⟩, fun inComment => by cases inComment <;> rfl⟩

/-- Behind blanks and comments the reader goes on in a comment or out of it. -/
theorem skipTrivia_append_of_nil {inComment : Bool} {cs : List Char} (h : skipTrivia inComment cs = []) :
    ∃ inComment', ∀ tail, skipTrivia inComment (cs ++ tail) = skipTrivia inComment' tail := by
  induction cs generalizing inComment with
  | nil => exact ⟨inComment, fun tail => rfl⟩
  | cons c cs ih =>
    rw [skipTrivia] at h
    simp only [List.cons_append, skipTrivia]
    split at h
    · rename_i hc
      simp only [if_pos hc]
      exact ih h
    · rename_i hc
      simp only [if_neg hc]
      split at h
      · rename_i hb
        simp only [if_pos hb]
        exact ih h
      · rename_i hb
        simp only [if_neg hb]
        split at h
        · rename_i hs
          simp only [if_pos hs]
          exact ih h
        · cases h

theorem skipTrivia_append_of_cons {inComment : Bool} {c : Char} {cs ds : List Char}
    (h : skipTrivia inComment cs = c :: ds) (tail : List Char) :
    skipTrivia inComment (cs ++ tail) = c :: (ds ++ tail) := by
  induction cs generalizing inComment with
  | nil => cases h
  | cons b cs ih =>
    rw [skipTrivia] at h
    rw [List.cons_append, skipTrivia]
    split at h
    · rename_i hc
      rw [if_pos hc]
      exact ih h
    · rename_i hc
      rw [if_neg hc]
      split at h
      · rename_i hb
        rw [if_pos hb]
        exact ih h
      · rename_i hb
        rw [if_neg hb]
        split at h
        · rename_i hs
          rw [if_pos hs]
          exact ih h
        · rename_i hs
          rw [if_neg hs]
          cases h
          rfl

theorem startsTrivia_of_skipTrivia_nil {cs : List Char} (h : skipTrivia false cs = []) (hne : cs ≠ []) :
    startsTrivia cs = true := by
  cases cs with
  | nil => exact absurd rfl hne
  | cons c cs =>
    rw [skipTrivia, if_neg Bool.false_ne_true] at h
    simp only [startsTrivia, Bool.or_eq_true, beq_iff_eq]
    split at h
    · exact .inl (by assumption)
    · split at h
      · exact .inr (by assumption)
      · cases h

theorem startsTrivia_append {cs : List Char} (h : cs ≠ []) (tail : List Char) :
    startsTrivia (cs ++ tail) = startsTrivia cs := by
  cases cs with
  | nil => exact absurd rfl h
  | cons b cs => rfl

theorem ne_nil_of_skipTrivia {inComment : Bool} {cs ds : List Char} {c : Char}
    (h : skipTrivia inComment cs = c :: ds) : cs ≠ [] := by
  rintro rfl
  cases h

section Gap

variable {tail more : List Char} (hgap : Gap tail more)
include hgap

theorem Gap.startsTrivia : startsTrivia tail = true := by
  obtain ⟨br, rest, rfl, hbr⟩ := hgap.blank
  simp [Source.startsTrivia, hbr]

/-- A gap behind blanks and comments is a gap. -/
theorem Gap.behind {cs : List Char} (h : skipTrivia false cs = []) :
    skipTrivia false (cs ++ tail) = skipTrivia false more ∧ Source.startsTrivia (cs ++ tail) = true := by
  obtain ⟨inComment, hskip⟩ := skipTrivia_append_of_nil h
  refine ⟨(hskip tail).trans (hgap.skip inComment), ?_⟩
  by_cases hcs : cs = []
  · subst hcs
    exact hgap.startsTrivia
  · rw [startsTrivia_append hcs]
    exact startsTrivia_of_skipTrivia_nil h hcs

end Gap

/-- Reading depends on what comes behind blanks and comments, and on whether there are any. -/
theorem State.read_congr {source source' : List Char} (s : State)
    (hskip : skipTrivia false source = skipTrivia false source')
    (hstart : startsTrivia source = startsTrivia source') : s.read source = s.read source' := by
  cases hs : skipTrivia false source' with
  | nil => rw [State.read_of_end hs, State.read_of_end (hskip.trans hs)]
  | cons c cs =>
    cases hi : s.item (startsTrivia source') c cs with
    | error r => rw [State.read_of_refused hs hi, State.read_of_refused (hskip.trans hs) (hstart ▸ hi)]
    | ok taken => rw [State.read_of_item hs hi, State.read_of_item (hskip.trans hs) (hstart ▸ hi)]

/-! ### Levels -/

/-- The program is the outermost level, and the only one. -/
inductive Nested : Level → List Level → Prop where
  | program {l : Level} : l.closer.isProgram = true → Nested l []
  | inside {l o : Level} {outer : List Level} : l.closer.isProgram = false → Nested o outer →
      Nested l (o :: outer)

theorem Nested.congr {l l' : Level} {outer : List Level} (h : Nested l outer)
    (hc : l'.closer.isProgram = l.closer.isProgram) : Nested l' outer := by
  cases h with
  | program hp => exact .program (hc.trans hp)
  | inside hp h => exact .inside (hc.trans hp) h

def State.Nested (s : State) : Prop := Source.Nested s.level s.outer

theorem State.Takes.nested {s t : State} {spaced : Bool} {c : Char} {cs rest : List Char}
    (h : s.Takes spaced c cs t rest) (hs : s.Nested) : t.Nested := by
  have inner {l : Level} {outer : List Level} (ho : s.outer = l :: outer) : Source.Nested l outer := by
    unfold State.Nested at hs
    rw [ho] at hs
    cases hs with
    | inside _ h => exact h
  cases h with
  | openList => exact .inside rfl hs
  | closeList _ _ ho _ => exact (inner ho).congr (Closer.body_isProgram _)
  | beginDefinition => exact .inside rfl hs
  | endDefinition _ _ _ ho _ _ => exact (inner ho).congr rfl
  | parameter _ _ hcloser =>
    refine Source.Nested.congr hs ?_
    rw [hcloser]
    rfl
  | _ => exact Source.Nested.congr hs (Closer.body_isProgram _)

theorem State.Reads.nested {s t : State} {source : List Char} (h : s.Reads source t) (hs : s.Nested) :
    t.Nested := by
  induction h with
  | done => exact hs
  | item _ ht _ ih => exact ih (ht.nested hs)

/-- Where a source can end, nothing but the program is open. -/
theorem State.Nested.of_finish {s : State} {program : List Value} (hs : s.Nested)
    (h : s.finish = .ok program) :
    s = ⟨{ closer := .program, items := program.reverse, parens := [], tight := s.level.tight }, []⟩ := by
  obtain ⟨⟨closer, items, parens, tight⟩, outer⟩ := s
  cases closer with
  | program =>
    cases parens with
    | nil =>
      cases hs with
      | inside hp _ => cases hp
      | program _ =>
        cases h
        simp
    | cons opened parens => cases h
  | bracket opened => cases h
  | definition opened name params heading => cases h

/-! ### A source with more behind it -/

/-- Is the last of the items, last first, the word `to`? -/
def endsInTo : List Value → Bool
  | .text w :: _ => sameName w "to"
  | _ => false

/-- A word with a name that is not a truth value is a text. -/
theorem wordValue_of_sameName {word name : String} (h : sameName word name = true)
    (htrue : sameName name "true" = false) (hfalse : sameName name "false" = false) :
    wordValue word = .text word := by
  have hword : fold word = fold name := by simpa [sameName] using h
  unfold sameName at htrue hfalse
  simp only [wordValue, sameName, hword, htrue, hfalse, Bool.false_eq_true, if_false]

theorem endsInTo_wordValue {w : String} (h : sameName w "to" = true) (items : List Value) :
    endsInTo (wordValue w :: items) = true := by
  rw [wordValue_of_sameName h (by cbv) (by cbv)]
  exact h

/-- Is the program being read, with `to` as its last word? -/
def State.atTo (s : State) : Bool := s.level.closer.isProgram && endsInTo s.level.items

/-- Does the source end with the word `to` of the program and at most blanks behind it, so that a
name which follows is the name of a definition? -/
def State.awaits (s : State) (source : List Char) : Bool :=
  match _skipped : skipTrivia false source with
  | [] => false
  | c :: cs =>
    match _taken : s.item (startsTrivia source) c cs with
    | .error _ => false
    | .ok (t, rest) => if rest.dropWhile isBlank = [] then t.atTo else t.awaits rest
termination_by source.length
decreasing_by
  have := State.length_item_le _taken
  have := length_skipTrivia_le false source
  rw [_skipped] at this
  simp only [List.length_cons] at this
  omega

theorem State.awaits_of_item {s t : State} {source cs rest : List Char} {c : Char}
    (hs : skipTrivia false source = c :: cs)
    (hi : s.item (startsTrivia source) c cs = .ok (t, rest)) :
    s.awaits source = if rest.dropWhile isBlank = [] then t.atTo else t.awaits rest := by
  rw [State.awaits]
  split
  · rename_i h
    rw [hs] at h
    cases h
  · rename_i h
    rw [hs] at h
    cases h
    split
    · rename_i h
      rw [hi] at h
      cases h
    · rename_i h
      rw [hi] at h
      cases h
      rfl

theorem State.awaits_of_end {s : State} {source : List Char} (hs : skipTrivia false source = []) :
    s.awaits source = false := by
  rw [State.awaits]
  split
  · rfl
  · rename_i h
    rw [hs] at h
    cases h

theorem skipTrivia_of_blank {cs : List Char} (h : cs.dropWhile isBlank = []) :
    skipTrivia false cs = [] := by
  induction cs with
  | nil => rfl
  | cons c cs ih =>
    rw [List.dropWhile_cons] at h
    split at h
    · rename_i hc
      rw [skipTrivia, if_neg Bool.false_ne_true, if_pos hc]
      exact ih h
    · cases h

/-- The word is then the last item of all. -/
theorem State.Reads.atTo {s u : State} {source : List Char} (h : s.Reads source u)
    (ha : s.awaits source = true) : u.atTo = true := by
  induction h with
  | done s hs =>
    rw [State.awaits_of_end hs] at ha
    cases ha
  | @item s t u c source cs rest hs ht hr ih =>
    rw [State.awaits_of_item hs ht.item_eq] at ha
    split at ha
    · rename_i hblank
      cases hr with
      | done => exact ha
      | item hs' _ _ =>
        rw [skipTrivia_of_blank hblank] at hs'
        cases hs'
    · exact ih ha

section Extended

/-- What was left when a list was opened, with more behind it. -/
def Closer.extended (tail : List Char) : Closer → Closer
  | .program => .program
  | .bracket opened => .bracket (opened ++ tail)
  | .definition opened name params heading => .definition (opened ++ tail) name params heading

def Level.extended (tail : List Char) (l : Level) : Level :=
  { l with closer := l.closer.extended tail, parens := l.parens.map (· ++ tail) }

def State.extended (tail : List Char) (s : State) : State :=
  ⟨s.level.extended tail, s.outer.map (Level.extended tail)⟩

variable {tail : List Char}

theorem Closer.extended_body (c : Closer) : (c.extended tail).body = c.body.extended tail := by
  cases c <;> rfl

theorem Level.extended_push (l : Level) (v : Value) (tight : Bool) :
    (l.push v tight).extended tail = (l.extended tail).push v tight := by
  simp only [Level.extended, Level.push, Closer.extended_body]

theorem State.extended_push (s : State) (v : Value) (tight : Bool) :
    (s.push v tight).extended tail = (s.extended tail).push v tight := by
  simp only [State.extended, State.push, Level.extended_push]

theorem Level.extended_close {l : Level} {items : List Value} (h : l.close = .ok items) :
    (l.extended tail).close = .ok items := by
  unfold Level.close at h
  split at h
  · rename_i hp
    simp only [Level.close, Level.extended, hp, List.map_nil]
    exact h
  · cases h

variable {s t : State} {spaced : Bool} {c : Char} {cs rest : List Char}

variable {br : Char} (hbr : isBlank br = true) (more : List Char)
include hbr

theorem State.signAhead_extended :
    (s.extended tail).signAhead spaced (cs ++ br :: more) = s.signAhead spaced cs := by
  simp only [State.signAhead, startsNumber_gap hbr]
  rfl

theorem State.numberAhead_extended :
    (c = '-' ∧ (s.extended tail).signAhead spaced (cs ++ br :: more) = true ∨
        startsNumber (c :: (cs ++ br :: more)) = true) ↔
      (c = '-' ∧ s.signAhead spaced cs = true ∨ startsNumber (c :: cs) = true) := by
  rw [State.signAhead_extended hbr, ← List.cons_append, startsNumber_gap hbr]

omit hbr in
theorem State.plainWord_extended {word : List Char}
    (hto : s.level.closer.isProgram = true → sameName (String.ofList word) "to" = true →
      rest.dropWhile isBlank = [] → startsName (tail.dropWhile isBlank) = false) :
    (s.extended tail).plainWord word (rest ++ tail) = s.plainWord word rest := by
  obtain ⟨⟨closer, items, parens, tight⟩, outer⟩ := s
  cases closer with
  | bracket opened => rfl
  | definition opened name params heading => cases outer <;> rfl
  | program =>
    simp only [State.plainWord, State.extended, Level.extended, Closer.extended]
    cases hw : sameName (String.ofList word) "to" with
    | false => rfl
    | true =>
      rw [List.dropWhile_append]
      by_cases hblank : rest.dropWhile isBlank = []
      · rw [if_pos (by simpa using hblank), hto rfl hw hblank, hblank]
        rfl
      · rw [if_neg (by simpa using hblank)]
        cases tail with
        | nil => rw [List.append_nil]
        | cons br more => rw [startsName_gap more hblank]

omit hbr in
theorem dropWhile_blank_append (tail : List Char) {behind : List Char} (h : startsName (behind.dropWhile isBlank) = true) :
    behind.dropWhile isBlank ≠ [] ∧
      (behind ++ tail).dropWhile isBlank = behind.dropWhile isBlank ++ tail := by
  have hne : behind.dropWhile isBlank ≠ [] := by
    intro hnil
    rw [hnil] at h
    cases h
  exact ⟨hne, by rw [List.dropWhile_append, if_neg (by simpa using hne)]⟩

/-- An item is taken the same way with more behind it, unless it is the word `to`, nothing follows
it, and a name comes then. -/
theorem State.Takes.extended (h : s.Takes spaced c cs t rest)
    (hto : t.atTo = true → rest.dropWhile isBlank = [] →
      startsName ((br :: more).dropWhile isBlank) = false) :
    (s.extended (br :: more)).Takes spaced c (cs ++ br :: more) (t.extended (br :: more))
      (rest ++ br :: more) := by
  have hdelimiter := isDelimiter_of_isBlank hbr
  have hterminator := isTerminator_of_isBlank hbr
  obtain ⟨⟨closer, items, parens, tight⟩, outer⟩ := s
  cases h with
  | openList => exact .openList _
  | closeList _ hcloser houter hclose =>
    cases hcloser
    cases houter
    simp only [State.extended, Level.extended_push]
    refine .closeList _ rfl rfl ?_
    exact Level.extended_close hclose
  | openGroup =>
    simp only [State.extended, Level.extended_push]
    exact .openGroup _
  | closeGroup _ hparens =>
    cases hparens
    simp only [State.extended, Level.extended_push]
    exact .closeGroup _ rfl
  | quoted hscan =>
    rw [State.extended_push]
    exact .quoted (scanWord_gap more hdelimiter hscan)
  | parameter hscan hname hcloser =>
    cases hcloser
    exact .parameter (scanWord_gap more hterminator hscan) hname rfl
  | variableName hscan hname hheading =>
    rw [State.extended_push]
    refine .variableName (scanWord_gap more hterminator hscan) hname ?_
    cases closer <;> exact hheading
  | number hstart hw hr =>
    have hnumber : scanNumber (c :: (cs ++ br :: more)) = (scanNumber (c :: cs)).followedBy (br :: more) :=
      scanNumber_gap hbr more (c :: cs)
    have hrest : (scanNumber (c :: cs)).rest ++ br :: more
        = (scanNumber (c :: (cs ++ br :: more))).rest := by
      rw [hnumber]
      rfl
    rw [State.extended_push, hrest]
    exact .number ((State.numberAhead_extended hbr more).2 hstart) (by rw [hnumber]; exact hw)
      (by rw [hnumber]; exact hr)
  | operator _ hsymbol hminus =>
    rw [State.extended_push]
    refine .operator _ hsymbol fun hc => ?_
    rw [State.signAhead_extended hbr]
    exact hminus hc
  | word hw hscan hplain =>
    rw [State.extended_push]
    refine .word (by rwa [startsWord_gap hbr]) (scanBareWord_gap hbr more hscan) ?_
    rw [State.plainWord_extended]
    · exact hplain
    · intro hprogram hword hnil
      refine hto ?_ hnil
      have hbody := (Closer.body_isProgram closer).trans hprogram
      simp only [State.atTo, State.push, Level.push, hbody, endsInTo_wordValue hword, Bool.and_self]
  | beginDefinition hw hscan hcloser hword hstart hname =>
    cases hcloser
    obtain ⟨hne, hdrop⟩ := dropWhile_blank_append (br :: more) hstart
    refine .beginDefinition (by rwa [startsWord_gap hbr]) (scanBareWord_gap hbr more hscan) rfl hword
      ?_ ?_
    · rwa [hdrop, startsName_gap more hne]
    · rw [hdrop]
      exact scanWord_gap more hterminator hname
  | @endDefinition _ _ _ _ _ name params _ l outer body hw hscan hcloser houter hend hclose =>
    cases hcloser
    cases houter
    show State.Takes _ _ _ _ ⟨{ l.extended (br :: more) with
      items := definitionItems name params body ++ l.items, tight := true }, _⟩ _
    refine .endDefinition (by rwa [startsWord_gap hbr]) (scanBareWord_gap hbr more hscan) rfl rfl hend ?_
    exact Level.extended_close hclose

end Extended

/-- A source is read the same way with a gap and more behind it, up to where they begin. -/
theorem State.Reads.read_extended {s u : State} {source tail more : List Char} (h : s.Reads source u)
    (hgap : Gap tail more)
    (hto : s.awaits source = true → startsName (tail.dropWhile isBlank) = false) :
    (s.extended tail).read (source ++ tail) = (u.extended tail).read tail := by
  induction h with
  | done s hskip =>
    obtain ⟨hbehind, hstarts⟩ := hgap.behind hskip
    exact State.read_congr _ (hbehind.trans (hgap.skip false).symm) (hstarts.trans hgap.startsTrivia.symm)
  | @item s t u c source cs rest hskip ht hr ih =>
    have hawaits := State.awaits_of_item hskip ht.item_eq
    obtain ⟨br, behind, rfl, hbr⟩ := hgap.blank
    have htakes := ht.extended hbr behind fun hat hblank => hto (by rw [hawaits, if_pos hblank, hat])
    rw [← startsTrivia_append (ne_nil_of_skipTrivia hskip) (br :: behind)] at htakes
    rw [State.read_of_item (skipTrivia_append_of_cons hskip _) htakes.item_eq]
    refine ih fun ha => hto ?_
    by_cases hblank : rest.dropWhile isBlank = []
    · rw [State.awaits_of_end (skipTrivia_of_blank hblank)] at ha
      cases ha
    · rw [hawaits, if_neg hblank, ha]

/-! ### A source behind items read before -/

section Over

/-- The same closer, opened at related places. -/
inductive Closer.Alike (R : List Char → List Char → Prop) : Closer → Closer → Prop where
  | program : Alike R .program .program
  | bracket {opened opened' : List Char} : R opened opened' → Alike R (.bracket opened) (.bracket opened')
  | definition {opened opened' : List Char} (name : String) (params : List String) (heading : Bool) :
      R opened opened' →
      Alike R (.definition opened name params heading) (.definition opened' name params heading)

variable {R : List Char → List Char → Prop} {base : List Value}

theorem Closer.Alike.body {c c' : Closer} (h : c.Alike R c') : c.body.Alike R c'.body := by
  cases h with
  | program => exact .program
  | bracket h => exact .bracket h
  | definition name params heading h => exact .definition name params false h

theorem Closer.Alike.inHeading {c c' : Closer} (h : c.Alike R c') : c'.inHeading = c.inHeading := by
  cases h <;> rfl

/-- The same level with items in front; whether a `-` is tied to the last of them is left open. -/
structure Level.Over (R : List Char → List Char → Prop) (base : List Value) (l l' : Level) : Prop where
  closer : l.closer.Alike R l'.closer
  items : l'.items = l.items ++ base
  parens : List.Forall₂ R l.parens l'.parens

theorem Level.Over.push {l l' : Level} (h : l.Over R base l') (v : Value) (tight : Bool) :
    (l.push v tight).Over R base (l'.push v tight) := by
  refine ⟨h.closer.body, ?_, h.parens⟩
  simp only [Level.push, h.items, List.cons_append]

theorem Level.Over.reopen {l l' : Level} (h : l.Over R base l') {parens parens' : List (List Char)}
    (hp : List.Forall₂ R parens parens') :
    Level.Over R base { l with parens } { l' with parens := parens' } :=
  ⟨h.closer, h.items, hp⟩

theorem Level.Over.close {l l' : Level} (h : l.Over R base l') {items : List Value}
    (hclose : l.close = .ok items) : l'.close = .ok (base.reverse ++ items) := by
  have hparens := h.parens
  unfold Level.close at hclose ⊢
  split at hclose
  · rename_i hp
    cases hclose
    rw [hp, List.forall₂_nil_left_iff] at hparens
    rw [hparens, h.items, List.reverse_append]
  · cases hclose

/-- The same levels with items in front in the outermost one, which is the program. -/
inductive Levels.Over (R : List Char → List Char → Prop) (base : List Value) :
    List Level → List Level → Prop where
  | outermost {l l' : Level} : l.closer.isProgram = true → l.Over R base l' → Over R base [l] [l']
  | inside {l l' : Level} {ls ls' : List Level} : l.closer.isProgram = false → l.Over R [] l' →
      l'.tight = l.tight → Over R base ls ls' → Over R base (l :: ls) (l' :: ls')

def State.Over (R : List Char → List Char → Prop) (base : List Value) (s s' : State) : Prop :=
  Levels.Over R base (s.level :: s.outer) (s'.level :: s'.outer)

namespace Levels.Over

variable {l l' o : Level} {ls ls' : List Level}

/-- The innermost levels are alike, with some items in front. -/
theorem head (h : Levels.Over R base (l :: ls) (l' :: ls')) : ∃ base', l.Over R base' l' := by
  cases h with
  | outermost _ h => exact ⟨_, h⟩
  | inside _ h _ _ => exact ⟨_, h⟩

/-- A change that both innermost levels undergo. -/
theorem relevel {k k' : Level} (h : Levels.Over R base (l :: ls) (l' :: ls'))
    (hk : ∀ base, l.Over R base l' → k.Over R base k')
    (hc : k.closer.isProgram = l.closer.isProgram) (ht : k'.tight = k.tight) :
    Levels.Over R base (k :: ls) (k' :: ls') := by
  cases h with
  | outermost hp h => exact .outermost (hc.trans hp) (hk _ h)
  | inside hp h _ hls => exact .inside (hc.trans hp) (hk _ h) ht hls

theorem push (h : Levels.Over R base (l :: ls) (l' :: ls')) (v : Value) (tight : Bool) :
    Levels.Over R base (l.push v tight :: ls) (l'.push v tight :: ls') :=
  h.relevel (fun _ hl => hl.push v tight) (Closer.body_isProgram _) rfl

/-- Going back to the level around the innermost one. -/
theorem leave (h : Levels.Over R base (l :: o :: ls) (l' :: ls')) :
    l.Over R [] l' ∧ ∃ o' outer', ls' = o' :: outer' ∧ Levels.Over R base (o :: ls) (o' :: outer') := by
  cases h with
  | inside _ h _ hls =>
    refine ⟨h, ?_⟩
    cases hls with
    | outermost hp ho => exact ⟨_, _, rfl, .outermost hp ho⟩
    | inside hp ho ht houter => exact ⟨_, _, rfl, .inside hp ho ht houter⟩

end Levels.Over

variable {s s' t : State} {spaced spaced' : Bool} {c : Char} {cs rest : List Char}

theorem State.Over.level (h : s.Over R base s') :
    s.level.closer.Alike R s'.level.closer ∧ List.Forall₂ R s.level.parens s'.level.parens := by
  obtain ⟨base', h⟩ := Levels.Over.head h
  exact ⟨h.closer, h.parens⟩

/-- There is a level around the current one on both sides or on none. -/
theorem State.Over.outer_nil (h : s.Over R base s') : s'.outer = [] ↔ s.outer = [] := by
  obtain ⟨l, outer⟩ := s
  obtain ⟨l', outer'⟩ := s'
  cases h with
  | outermost => exact Iff.rfl
  | inside _ _ _ hls => cases hls <;> simp

theorem State.Over.plainWord (h : s.Over R base s') (word rest : List Char) :
    s'.plainWord word rest = s.plainWord word rest := by
  have hlevel := h.level.1
  have houter := h.outer_nil
  obtain ⟨⟨closer, items, parens, tight⟩, outer⟩ := s
  obtain ⟨⟨closer', items', parens', tight'⟩, outer'⟩ := s'
  simp only at hlevel houter
  unfold State.plainWord
  cases hlevel <;> cases outer <;> cases outer' <;> simp_all

theorem State.Over.inList (h : s.Over R base s') : s'.inList = s.inList := by
  have hlevel := h.level.1
  have houter := h.outer_nil
  obtain ⟨⟨closer, items, parens, tight⟩, outer⟩ := s
  obtain ⟨⟨closer', items', parens', tight'⟩, outer'⟩ := s'
  simp only at hlevel houter
  unfold State.inList
  cases hlevel <;> cases outer <;> cases outer' <;> simp_all

theorem State.Over.inDefinition (h : s.Over R base s') : s'.inDefinition = s.inDefinition := by
  have hlevel := h.level.1
  have houter := h.outer_nil
  obtain ⟨⟨closer, items, parens, tight⟩, outer⟩ := s
  obtain ⟨⟨closer', items', parens', tight'⟩, outer'⟩ := s'
  simp only at hlevel houter
  unfold State.inDefinition
  cases hlevel <;> cases outer <;> cases outer' <;> simp_all

section Item

variable (hR : ∀ cs, R cs cs) (ho : s.Over R base s')
  (hsign : s'.signAhead spaced' cs = s.signAhead spaced cs)
include hR ho hsign

/-- An item is taken the same way behind items read before. -/
theorem State.Takes.over (h : s.Takes spaced c cs t rest) :
    ∃ t', s'.Takes spaced' c cs t' rest ∧ t.Over R base t' ∧ t'.level.tight = t.level.tight := by
  have hplain := ho.plainWord
  obtain ⟨hcloser', hparens'⟩ := ho.level
  obtain ⟨⟨closer, items, parens, tight⟩, outer⟩ := s
  obtain ⟨⟨closer', items', parens', tight'⟩, outer'⟩ := s'
  unfold State.Over at ho
  cases h with
  | openList =>
    exact ⟨_, .openList cs, .inside rfl ⟨.bracket (hR _), rfl, .nil⟩ rfl ho, rfl⟩
  | @closeList _ opened l outer items hcloser houter hclose =>
    cases hcloser
    cases houter
    obtain ⟨hl, l', outer', rfl, hover⟩ := ho.leave
    cases hcloser' with
    | bracket _ =>
      have hclose' := hl.close hclose
      exact ⟨_, .closeList cs rfl rfl hclose', hover.push _ _, rfl⟩
  | openGroup =>
    refine ⟨_, .openGroup cs, ?_, rfl⟩
    exact ho.relevel (fun _ h => (h.reopen (.cons (hR _) h.parens)).push _ _) (Closer.body_isProgram _) rfl
  | closeGroup _ hparens =>
    cases hparens
    cases hparens' with
    | cons hopened hrest =>
      refine ⟨_, .closeGroup cs rfl, ?_, rfl⟩
      exact ho.relevel (fun _ h => (h.reopen hrest).push _ _) (Closer.body_isProgram _) rfl
  | quoted hscan => exact ⟨_, .quoted hscan, ho.push _ _, rfl⟩
  | parameter hscan hname hcloser =>
    cases hcloser
    cases ho with
    | outermost hp _ => cases hp
    | inside _ h htight hls =>
      cases hcloser' with
      | definition name params heading hopened =>
        refine ⟨_, .parameter hscan hname rfl, .inside rfl ?_ htight hls, htight⟩
        exact ⟨.definition _ _ _ hopened, h.items, h.parens⟩
  | variableName hscan hname hheading =>
    exact ⟨_, .variableName hscan hname (hcloser'.inHeading.trans hheading), ho.push _ _, rfl⟩
  | number hstart hw hr => exact ⟨_, .number (hsign ▸ hstart) hw hr, ho.push _ _, rfl⟩
  | operator _ hsymbol hminus =>
    exact ⟨_, .operator cs hsymbol (hsign ▸ hminus), ho.push _ _, rfl⟩
  | word hw hscan hplainly =>
    exact ⟨_, .word hw hscan ((hplain _ _).trans hplainly), ho.push _ _, rfl⟩
  | beginDefinition hw hscan hcloser hword hstart hname =>
    cases hcloser
    cases hcloser' with
    | program =>
      exact ⟨_, .beginDefinition hw hscan rfl hword hstart hname,
        .inside rfl ⟨.definition _ _ _ (hR _), rfl, .nil⟩ rfl ho, rfl⟩
  | @endDefinition _ _ _ _ _ name params _ l outer body hw hscan hcloser houter hend hclose =>
    cases hcloser
    cases houter
    obtain ⟨hl, l', outer', rfl, hover⟩ := ho.leave
    cases hcloser' with
    | definition _ _ _ _ =>
      refine ⟨_, .endDefinition hw hscan rfl rfl hend (hl.close hclose), ?_, rfl⟩
      exact hover.relevel
        (fun _ h => ⟨h.closer, by simp only [h.items, List.append_assoc]; rfl, h.parens⟩) rfl rfl

/-- An item is refused the same way behind items read before. -/
theorem State.Refuses.over {r : Refusal} (h : s.Refuses spaced c cs r) :
    ∃ r', s'.Refuses spaced' c cs r' ∧ r'.cause = r.cause ∧ R r.rest r'.rest := by
  obtain ⟨hcloser, hparens⟩ := ho.level
  have first {opened : List Char} {parens : List (List Char)} (hp : s.level.parens = opened :: parens) :
      ∃ opened' parens', s'.level.parens = opened' :: parens' ∧ R opened opened' := by
    rw [hp] at hparens
    cases hparens' : s'.level.parens with
    | nil =>
      rw [hparens'] at hparens
      cases hparens
    | cons opened' parens' =>
      rw [hparens', List.forall₂_cons] at hparens
      exact ⟨opened', parens', rfl, hparens.1⟩
  cases h with
  | strayBracket _ hin => exact ⟨_, .strayBracket cs (ho.inList.trans hin), rfl, hR _⟩
  | unclosedInList _ hin hp =>
    obtain ⟨opened', parens', hp', hopened⟩ := first hp
    exact ⟨_, .unclosedInList cs (ho.inList.trans hin) hp', rfl, hopened⟩
  | strayParen _ hp =>
    rw [hp, List.forall₂_nil_left_iff] at hparens
    exact ⟨_, .strayParen cs hparens, rfl, hR _⟩
  | quoted hscan => exact ⟨_, .quoted hscan, rfl, hR _⟩
  | variableName hscan => exact ⟨_, .variableName hscan, rfl, hR _⟩
  | nameless hscan => exact ⟨_, .nameless hscan, rfl, hR _⟩
  | number hstart hbad => exact ⟨_, .number (hsign ▸ hstart) hbad, rfl, hR _⟩
  | word hw hscan => exact ⟨_, .word hw hscan, rfl, hR _⟩
  | definitionName hw hscan hprogram hword hstart hname =>
    rw [hprogram] at hcloser
    cases hprogram' : s'.level.closer with
    | program => exact ⟨_, .definitionName hw hscan hprogram' hword hstart hname, rfl, hR _⟩
    | _ =>
      rw [hprogram'] at hcloser
      cases hcloser
  | unclosedInDefinition hw hscan hin hend hp =>
    obtain ⟨opened', parens', hp', hopened⟩ := first hp
    exact ⟨_, .unclosedInDefinition hw hscan (ho.inDefinition.trans hin) hend hp', rfl, hopened⟩

end Item

/-- The same answer with items in front, refused at related places. -/
inductive Answer.Over (R : List Char → List Char → Prop) (base : List Value) :
    Except Refusal (List Value) → Except Refusal (List Value) → Prop where
  | program (items : List Value) : Over R base (.ok items) (.ok (base.reverse ++ items))
  | refused {r r' : Refusal} : r'.cause = r.cause → R r.rest r'.rest → Over R base (.error r) (.error r')

theorem State.Over.finish (h : s.Over R base s') : Answer.Over R base s.finish s'.finish := by
  obtain ⟨⟨closer, items, parens, tight⟩, outer⟩ := s
  obtain ⟨⟨closer', items', parens', tight'⟩, outer'⟩ := s'
  cases h with
  | outermost hp h =>
    obtain ⟨hcloser, hitems, hparens⟩ := h
    simp only at hitems
    subst hitems
    cases hcloser with
    | program =>
      cases hparens with
      | nil =>
        simp only [State.finish, Level.close, List.reverse_append]
        exact .program _
      | cons hopened _ => exact .refused rfl hopened
    | _ => cases hp
  | inside hp h _ _ =>
    cases h.closer with
    | program => cases hp
    | bracket hopened => exact .refused rfl hopened
    | definition name params heading hopened => exact .refused rfl hopened

/-- A source is read the same way behind items read before. -/
theorem State.Over.read (hR : ∀ cs, R cs cs) (h : s.Over R base s')
    (ht : s'.level.tight = s.level.tight) (source : List Char) :
    Answer.Over R base (s.read source) (s'.read source) := by
  have hsign {s s' : State} (ht : s'.level.tight = s.level.tight) (spaced : Bool) (cs : List Char) :
      s'.signAhead spaced cs = s.signAhead spaced cs := by simp only [State.signAhead, ht]
  fun_induction State.read s source generalizing s' with
  | case1 s source hs =>
    rw [State.read_of_end hs]
    exact h.finish
  | case2 s source c cs hs r hi =>
    obtain ⟨r', hr', hcause, hrest⟩ := (refuses_of_item hi).over hR h (hsign ht _ cs)
    rw [State.read_of_refused hs hr'.item_eq]
    exact .refused hcause hrest
  | case3 s source c cs hs t rest hi ih =>
    obtain ⟨t', ht', hover, htight⟩ := (takes_of_item hi).over hR h (hsign ht _ cs)
    rw [State.read_of_item hs ht'.item_eq]
    exact ih hover htight

/-- The same behind a gap, where no `-` is tied to what stands before it. -/
theorem State.Over.read_gap (hR : ∀ cs, R cs cs) (h : s.Over R base s') (ht : s.level.tight = false)
    {source tail : List Char} (hgap : Gap tail source) :
    Answer.Over R base (s.read source) (s'.read tail) := by
  have hsign (cs : List Char) : s'.signAhead true cs = s.signAhead (startsTrivia source) cs := by
    simp only [State.signAhead, ht, Bool.not_false, Bool.or_true, Bool.true_or]
  have hskip := hgap.skip false
  cases hs : skipTrivia false source with
  | nil =>
    rw [State.read_of_end hs, State.read_of_end (hskip.trans hs)]
    exact h.finish
  | cons c cs =>
    cases hi : s.item (startsTrivia source) c cs with
    | error r =>
      obtain ⟨r', hr', hcause, hrest⟩ := (refuses_of_item hi).over hR h (hsign cs)
      rw [State.read_of_refused hs hi,
        State.read_of_refused (hskip.trans hs) (hgap.startsTrivia ▸ hr'.item_eq)]
      exact .refused hcause hrest
    | ok taken =>
      obtain ⟨t', ht', hover, htight⟩ := (takes_of_item hi).over hR h (hsign cs)
      rw [State.read_of_item hs hi,
        State.read_of_item (hskip.trans hs) (hgap.startsTrivia ▸ ht'.item_eq)]
      exact hover.read hR htight taken.2

end Over

/-- Two sources with a line break between them are read one after the other, unless the first
one ends with the word `to`: what the second one adds, or is refused for, is what it is by itself. -/
theorem readProgram_lines {first second : List Char} {program : List Value}
    (h : readProgram first = .ok program) (hlast : endsInTo program.reverse = false) :
    readProgram (first ++ '\n' :: second) = (readProgram second).map (program ++ ·) := by
  obtain ⟨u, hu, hfinish⟩ := State.read_ok_iff.1 h
  have hend := (hu.nested (.program rfl)).of_finish hfinish
  have hto : State.initial.awaits first = true → startsName (('\n' :: second).dropWhile isBlank) = false := by
    intro ha
    have hat := hu.atTo ha
    rw [hend] at hat
    exact absurd (hat.symm.trans hlast) (by decide)
  have hread := hu.read_extended (gap_line second) hto
  have hover : State.initial.Over Eq program.reverse (u.extended ('\n' :: second)) := by
    rw [hend]
    exact .outermost rfl ⟨.program, rfl, .nil⟩
  have hanswer := hover.read_gap (fun _ => rfl) rfl (gap_line second)
  rw [← hread] at hanswer
  show (State.initial.extended ('\n' :: second)).read (first ++ '\n' :: second)
    = (State.initial.read second).map (program ++ ·)
  generalize State.initial.read second = answer at hanswer
  generalize (State.initial.extended ('\n' :: second)).read (first ++ '\n' :: second) = answer' at hanswer
  cases hanswer with
  | program items => rw [List.reverse_reverse]; rfl
  | @refused r r' hcause hrest =>
    obtain ⟨cause, rest⟩ := r
    obtain ⟨cause', rest'⟩ := r'
    cases hcause
    cases hrest
    rfl

end Logo.Source

namespace Logo

theorem parse_ok_iff {source : String} {program : List Value} :
    parse source = .ok program ↔ Source.readProgram source.toList = .ok program := by
  unfold parse
  cases Source.readProgram source.toList with
  | ok p => simp [Except.mapError]
  | error r => simp [Except.mapError]

theorem toList_lines (first second : String) :
    (first ++ "\n" ++ second).toList = first.toList ++ '\n' :: second.toList := by
  simp [String.toList_append]

/-- A program in two sources is the program in both, line after line. -/
theorem parse_lines {first second : String} {program program' : List Value}
    (h : parse first = .ok program) (hlast : Source.endsInTo program.reverse = false)
    (h' : parse second = .ok program') :
    parse (first ++ "\n" ++ second) = .ok (program ++ program') := by
  rw [parse_ok_iff, toList_lines, Source.readProgram_lines (parse_ok_iff.1 h) hlast, parse_ok_iff.1 h']
  rfl

end Logo
