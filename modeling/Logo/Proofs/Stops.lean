import Logo.Proofs.Items
import Mathlib.Data.List.Infix

/-!
# Where reading stops

`State.Refuses` says case by case why the reader does not take the item at the front of a
source, as `State.Takes` says how it does; the two are all that `State.item` can do. `State.Halts`
follows a source to an item that is refused. What a refusal points to is a rest of the source that
is read (`read_error_suffix`).
-/

namespace Logo.Source
set_option autoImplicit false
open Logo.Text

/-! ### What is left is an end of what there was -/

/-- A word without a backslash in it. -/
theorem scanWord_clean {stop : Char → Bool} {taken cs : List Char}
    (h : '\\' ∉ cs.takeWhile fun c => !stop c) :
    scanWord stop taken cs
      = some (taken.reverse ++ cs.takeWhile (fun c => !stop c), cs.dropWhile fun c => !stop c) := by
  induction cs generalizing taken with
  | nil => simp [scanWord_nil]
  | cons c cs ih =>
    cases hc : stop c with
    | true => simp [scanWord_stop hc, hc]
    | false =>
      have htake : (c :: cs).takeWhile (fun c => !stop c) = c :: cs.takeWhile fun c => !stop c := by
        simp [hc]
      rw [htake, List.mem_cons, not_or] at h
      rw [scanWord_take hc (Ne.symm h.1), ih h.2, htake]
      simp [hc]

theorem skipTrivia_suffix (inComment : Bool) (cs : List Char) : skipTrivia inComment cs <:+ cs := by
  induction cs generalizing inComment with
  | nil => exact List.suffix_rfl
  | cons c cs ih =>
    rw [skipTrivia]
    split
    · exact (ih _).trans (List.suffix_cons _ _)
    · split
      · exact (ih _).trans (List.suffix_cons _ _)
      · split
        · exact (ih _).trans (List.suffix_cons _ _)
        · exact List.suffix_rfl

theorem scanWord_suffix {stop : Char → Bool} {taken cs word rest : List Char}
    (h : scanWord stop taken cs = some (word, rest)) : rest <:+ cs := by
  fun_induction scanWord stop taken cs with
  | case1 | case2 =>
    cases h
    exact List.suffix_rfl
  | case3 => cases h
  | case4 taken e es _ ih =>
    exact ((ih h).trans (List.suffix_cons _ _)).trans (List.suffix_cons _ _)
  | case5 taken c cs _ _ ih => exact (ih h).trans (List.suffix_cons _ _)

theorem scanBareWord_suffix {c : Char} {cs word rest : List Char}
    (h : scanBareWord c cs = some (word, rest)) : rest <:+ cs := by
  unfold scanBareWord at h
  split at h
  · split at h
    · cases h
    · exact (scanWord_suffix h).trans (List.suffix_cons _ _)
  · exact scanWord_suffix h

theorem scanFraction_suffix (cs : List Char) : (scanFraction cs).2 <:+ cs := by
  unfold scanFraction
  split
  · exact (List.dropWhile_suffix _).trans (List.suffix_cons _ _)
  · exact List.suffix_rfl

theorem scanSign_suffix (cs : List Char) : (scanSign cs).2 <:+ cs := by
  unfold scanSign
  split
  · exact List.suffix_cons _ _
  · exact List.suffix_cons _ _
  · exact List.suffix_rfl

theorem scanExponent_suffix (cs : List Char) : (scanExponent cs).rest <:+ cs := by
  unfold scanExponent
  split
  · exact List.suffix_rfl
  · split
    · exact ((List.dropWhile_suffix _).trans (scanSign_suffix _)).trans (List.suffix_cons _ _)
    · exact List.suffix_rfl

theorem scanMinus_suffix (cs : List Char) : (scanMinus cs).2 <:+ cs := by
  unfold scanMinus
  split
  · exact List.suffix_cons _ _
  · exact List.suffix_rfl

theorem scanNumber_suffix (cs : List Char) : (scanNumber cs).rest <:+ cs :=
  calc (scanNumber cs).rest
    _ <:+ (scanExponent (scanFraction ((scanMinus cs).2.dropWhile Char.isDigit)).2).rest :=
      List.dropWhile_suffix _
    _ <:+ (scanFraction ((scanMinus cs).2.dropWhile Char.isDigit)).2 := scanExponent_suffix _
    _ <:+ (scanMinus cs).2.dropWhile Char.isDigit := scanFraction_suffix _
    _ <:+ (scanMinus cs).2 := List.dropWhile_suffix _
    _ <:+ cs := scanMinus_suffix _

theorem State.Takes.suffix {s t : State} {spaced : Bool} {c : Char} {cs rest : List Char}
    (h : s.Takes spaced c cs t rest) : rest <:+ c :: cs := by
  cases h with
  | openList | closeList | openGroup | closeGroup | operator => exact List.suffix_cons _ _
  | quoted hscan => exact (scanWord_suffix hscan).trans (List.suffix_cons _ _)
  | parameter hscan => exact (scanWord_suffix hscan).trans (List.suffix_cons _ _)
  | variableName hscan => exact (scanWord_suffix hscan).trans (List.suffix_cons _ _)
  | number => exact scanNumber_suffix _
  | word _ hscan => exact (scanBareWord_suffix hscan).trans (List.suffix_cons _ _)
  | beginDefinition _ hscan _ _ _ hname =>
    exact (((scanWord_suffix hname).trans (List.dropWhile_suffix _)).trans
      (scanBareWord_suffix hscan)).trans (List.suffix_cons _ _)
  | endDefinition _ hscan => exact (scanBareWord_suffix hscan).trans (List.suffix_cons _ _)

/-! ### The refusals of an item -/

/-- Would a closing bracket end the current list? -/
def State.inList (s : State) : Bool :=
  match s.level.closer, s.outer with
  | .bracket _, _ :: _ => true
  | _, _ => false

/-- Would the word `end` end the current list? -/
def State.inDefinition (s : State) : Bool :=
  match s.level.closer, s.outer with
  | .definition _ _ _ _, _ :: _ => true
  | _, _ => false

/-- The reader does not take the item at the front of `c :: cs` in state `s`. -/
inductive State.Refuses (s : State) (spaced : Bool) : Char → List Char → Refusal → Prop where
  | strayBracket (cs : List Char) : s.inList = false →
      Refuses s spaced ']' cs ⟨.unexpectedClose ']', ']' :: cs⟩
  | unclosedInList (cs : List Char) {opened : List Char} {parens : List (List Char)} :
      s.inList = true → s.level.parens = opened :: parens →
      Refuses s spaced ']' cs ⟨.unterminatedParen, opened⟩
  | strayParen (cs : List Char) : s.level.parens = [] →
      Refuses s spaced ')' cs ⟨.unexpectedClose ')', ')' :: cs⟩
  | quoted {cs : List Char} : scanWord isDelimiter [] cs = none →
      Refuses s spaced '"' cs ⟨.unterminatedString, '"' :: cs⟩
  | variableName {cs : List Char} : scanWord isTerminator [] cs = none →
      Refuses s spaced ':' cs ⟨.unterminatedString, ':' :: cs⟩
  | nameless {cs rest : List Char} : scanWord isTerminator [] cs = some ([], rest) →
      Refuses s spaced ':' cs ⟨.missingVariableName, ':' :: cs⟩
  | number {c : Char} {cs : List Char} :
      (c = '-' ∧ s.signAhead spaced cs = true ∨ startsNumber (c :: cs) = true) →
      ((scanNumber (c :: cs)).wellFormed = true → Decimal.read? (scanNumber (c :: cs)).text = none) →
      Refuses s spaced c cs ⟨.malformedNumber (String.ofList (scanNumber (c :: cs)).text), c :: cs⟩
  | word {c : Char} {cs : List Char} : startsWord c cs = true → scanBareWord c cs = none →
      Refuses s spaced c cs ⟨.unterminatedString, c :: cs⟩
  | definitionName {c : Char} {cs word behind : List Char} : startsWord c cs = true →
      scanBareWord c cs = some (word, behind) → s.level.closer = .program →
      sameName (String.ofList word) "to" = true → startsName (behind.dropWhile isBlank) = true →
      scanWord isTerminator [] (behind.dropWhile isBlank) = none →
      Refuses s spaced c cs ⟨.unterminatedString, behind.dropWhile isBlank⟩
  | unclosedInDefinition {c : Char} {cs word rest opened : List Char} {parens : List (List Char)} :
      startsWord c cs = true → scanBareWord c cs = some (word, rest) → s.inDefinition = true →
      sameName (String.ofList word) "end" = true → s.level.parens = opened :: parens →
      Refuses s spaced c cs ⟨.unterminatedParen, opened⟩

section Item

variable {s : State} {spaced : Bool} {c : Char} {cs : List Char} {r : Refusal}

theorem Level.close_error {l : Level} (h : l.close = .error r) :
    ∃ opened parens, l.parens = opened :: parens ∧ r = ⟨.unterminatedParen, opened⟩ := by
  unfold Level.close at h
  split at h
  · cases h
  · rename_i opened parens hparens
    cases h
    exact ⟨opened, parens, hparens, rfl⟩

theorem State.inList_iff : s.inList = true ↔ ∃ opened l outer,
    s.level.closer = .bracket opened ∧ s.outer = l :: outer := by
  unfold State.inList
  split
  · rename_i hcloser houter
    exact iff_of_true rfl ⟨_, _, _, hcloser, houter⟩
  · rename_i hno
    refine iff_of_false Bool.false_ne_true ?_
    rintro ⟨opened, l, outer, hcloser, houter⟩
    exact hno _ _ _ hcloser houter

theorem State.inDefinition_iff : s.inDefinition = true ↔ ∃ opened name params heading l outer,
    s.level.closer = .definition opened name params heading ∧ s.outer = l :: outer := by
  unfold State.inDefinition
  split
  · rename_i hcloser houter
    exact iff_of_true rfl ⟨_, _, _, _, _, _, hcloser, houter⟩
  · rename_i hno
    refine iff_of_false Bool.false_ne_true ?_
    rintro ⟨opened, name, params, heading, l, outer, hcloser, houter⟩
    exact hno _ _ _ _ _ _ hcloser houter

theorem refuses_of_closeBracket (h : s.closeBracket (']' :: cs) cs = .error r) :
    s.Refuses spaced ']' cs r := by
  unfold State.closeBracket at h
  split at h
  · rename_i hcloser houter
    simp only [bind, Except.bind] at h
    split at h
    · rename_i hclose
      cases h
      obtain ⟨opened, parens, hparens, rfl⟩ := Level.close_error hclose
      exact .unclosedInList cs (State.inList_iff.2 ⟨_, _, _, hcloser, houter⟩) hparens
    · cases h
  · rename_i hno
    cases h
    refine .strayBracket cs (Bool.eq_false_iff.2 fun hin => ?_)
    obtain ⟨opened, l, outer, hcloser, houter⟩ := State.inList_iff.1 hin
    exact hno _ _ _ hcloser houter

theorem refuses_of_variableName (h : s.variableName (':' :: cs) cs = .error r) :
    s.Refuses spaced ':' cs r := by
  unfold State.variableName at h
  split at h
  · rename_i hscan
    cases h
    exact .variableName hscan
  · rename_i hscan
    cases h
    exact .nameless hscan
  · split at h
    · cases h
    · cases h

theorem refuses_of_number (hstart : c = '-' ∧ s.signAhead spaced cs = true ∨ startsNumber (c :: cs) = true)
    (h : s.number (c :: cs) = .error r) : s.Refuses spaced c cs r := by
  unfold State.number at h
  simp only at h
  split at h
  · cases h
  · rename_i hno
    cases h
    refine .number hstart fun hw => ?_
    cases hread : Decimal.read? (scanNumber (c :: cs)).text with
    | none => rfl
    | some n => exact absurd hread (hno n hw)

theorem refuses_of_bareWord (hw : startsWord c cs = true) (h : s.bareWord c cs = .error r) :
    s.Refuses spaced c cs r := by
  unfold State.bareWord at h
  split at h
  · rename_i hscan
    cases h
    exact .word hw hscan
  · rename_i word behind hscan
    simp only at h
    split at h
    · rename_i hcloser houter
      split at h
      · rename_i hend
        simp only [bind, Except.bind] at h
        split at h
        · rename_i hclose
          cases h
          obtain ⟨opened, parens, hparens, rfl⟩ := Level.close_error hclose
          exact .unclosedInDefinition hw hscan
            (State.inDefinition_iff.2 ⟨_, _, _, _, _, _, hcloser, houter⟩) hend hparens
        · cases h
      · cases h
    · rename_i hcloser
      split at h
      · rename_i hto
        rw [Bool.and_eq_true] at hto
        split at h
        · rename_i hname
          cases h
          exact .definitionName hw hscan hcloser hto.1 hto.2 hname
        · cases h
      · cases h
    · cases h

/-- Whatever an item is refused for is one of the cases. -/
theorem refuses_of_item (h : s.item spaced c cs = .error r) : s.Refuses spaced c cs r := by
  unfold State.item at h
  simp only at h
  split at h
  · cases h
  split at h
  · rename_i hc
    subst hc
    exact refuses_of_closeBracket h
  split at h
  · cases h
  split at h
  · rename_i hc
    subst hc
    unfold State.closeParen at h
    split at h
    · rename_i hparens
      cases h
      exact .strayParen cs hparens
    · cases h
  split at h
  · rename_i hc
    subst hc
    unfold State.quotedWord at h
    split at h
    · rename_i hscan
      cases h
      exact .quoted hscan
    · cases h
  split at h
  · rename_i hc
    subst hc
    exact refuses_of_variableName h
  split at h
  · rename_i hminus
    refine refuses_of_number (.inl ⟨hminus.1, ?_⟩) h
    simp only [State.signAhead, hminus.2.1, hminus.2.2, Bool.and_self]
  split at h
  · cases h
  split at h
  · rename_i hstart
    exact refuses_of_number (.inr hstart) h
  · refine refuses_of_bareWord ?_ h
    simp_all [startsWord]

/-- In each of the cases the item is refused so. -/
theorem State.Refuses.item_eq (h : s.Refuses spaced c cs r) : s.item spaced c cs = .error r := by
  cases h with
  | strayBracket _ hin =>
    have hno : ∀ opened l outer, s.level.closer = .bracket opened → s.outer = l :: outer → False :=
      fun opened l outer hcloser houter =>
        Bool.eq_false_iff.1 hin (State.inList_iff.2 ⟨opened, l, outer, hcloser, houter⟩)
    show s.closeBracket (']' :: cs) cs = _
    unfold State.closeBracket
    split
    · rename_i hcloser houter
      exact (hno _ _ _ hcloser houter).elim
    · rfl
  | unclosedInList _ hin hparens =>
    obtain ⟨opened, l, outer, hcloser, houter⟩ := State.inList_iff.1 hin
    show s.closeBracket (']' :: cs) cs = _
    simp only [State.closeBracket, hcloser, houter, Level.close, hparens, bind, Except.bind]
  | strayParen _ hparens =>
    show s.closeParen (')' :: cs) cs = _
    simp only [State.closeParen, hparens]
  | quoted hscan =>
    show s.quotedWord ('"' :: cs) cs = _
    simp only [State.quotedWord, hscan]
  | variableName hscan =>
    show s.variableName (':' :: cs) cs = _
    simp only [State.variableName, hscan]
  | nameless hscan =>
    show s.variableName (':' :: cs) cs = _
    simp only [State.variableName, hscan]
  | number hstart hbad =>
    have hnumber : s.number (c :: cs)
        = .error ⟨.malformedNumber (String.ofList (scanNumber (c :: cs)).text), c :: cs⟩ := by
      unfold State.number
      simp only
      split
      · rename_i hw hr
        rw [hbad hw] at hr
        cases hr
      · rfl
    obtain ⟨rfl, hsign⟩ | hstart := hstart
    · simp only [State.signAhead, Bool.and_eq_true] at hsign
      simp only [State.item, hsign, and_self, if_true]
      exact hnumber
    · obtain ⟨h1, h2, h3, h4, h5, h6, h7, h8⟩ := not_special_of_startsNumber hstart
      simp only [State.item, h1, h2, h3, h4, h5, h6, h7, h8, hstart, false_and, if_false, if_true]
      exact hnumber
  | word hw hscan =>
    rw [item_of_startsWord hw]
    simp only [State.bareWord, hscan]
  | definitionName hw hscan hcloser hto hstart hname =>
    rw [item_of_startsWord hw]
    simp [State.bareWord, hscan, hcloser, hto, hstart, hname]
  | unclosedInDefinition hw hscan hin hend hparens =>
    obtain ⟨opened, name, params, heading, l, outer, hcloser, houter⟩ := State.inDefinition_iff.1 hin
    rw [item_of_startsWord hw]
    simp [State.bareWord, hscan, hcloser, houter, hend, Level.close, hparens, bind, Except.bind]

end Item

/-! ### Item by item -/

/-- From state `s` the reader comes to an item that it refuses. -/
inductive State.Halts : State → List Char → Refusal → Prop where
  | here {s : State} {c : Char} {source cs : List Char} {r : Refusal} :
      skipTrivia false source = c :: cs → s.Refuses (startsTrivia source) c cs r → Halts s source r
  | later {s t : State} {c : Char} {source cs rest : List Char} {r : Refusal} :
      skipTrivia false source = c :: cs → s.Takes (startsTrivia source) c cs t rest →
      Halts t rest r → Halts s source r

/-- Reading stops at an item that is refused. -/
theorem State.read_of_refused {s : State} {source cs : List Char} {c : Char} {r : Refusal}
    (hs : skipTrivia false source = c :: cs) (hi : s.item (startsTrivia source) c cs = .error r) :
    s.read source = .error r := by
  rw [State.read]
  split
  · rename_i h
    rw [hs] at h
    cases h
  · rename_i h
    rw [hs] at h
    cases h
    split
    · rename_i h
      rw [hi] at h
      cases h
      rfl
    · rename_i h
      rw [hi] at h
      cases h

/-- The reader comes to the end of a source or to an item that it refuses. -/
theorem State.reads_or_halts (s : State) (source : List Char) :
    (∃ t, s.Reads source t) ∨ ∃ r, s.Halts source r := by
  fun_induction State.read s source with
  | case1 s source hs => exact .inl ⟨s, .done s hs⟩
  | case2 s source c cs hs r hi => exact .inr ⟨r, .here hs (refuses_of_item hi)⟩
  | case3 s source c cs hs t rest hi ih =>
    obtain ⟨u, hu⟩ | ⟨r, hr⟩ := ih
    · exact .inl ⟨u, .item hs (takes_of_item hi) hu⟩
    · exact .inr ⟨r, .later hs (takes_of_item hi) hr⟩

/-! ### What a refusal points to -/

/-- What was left of the source when the list was opened, if that is kept. -/
def Closer.opened? : Closer → Option (List Char)
  | .program => none
  | .bracket opened | .definition opened _ _ _ => some opened

theorem Closer.opened?_body (c : Closer) : c.body.opened? = c.opened? := by
  cases c <;> rfl

/-- All that is kept of the source is an end of it. -/
structure Level.Keeps (source : List Char) (l : Level) : Prop where
  opened : ∀ opened, l.closer.opened? = some opened → opened <:+ source
  parens : ∀ opened ∈ l.parens, opened <:+ source

structure State.Keeps (source : List Char) (s : State) : Prop where
  level : s.level.Keeps source
  outer : ∀ l ∈ s.outer, l.Keeps source

section Keeping

variable {source : List Char} {s t : State} {spaced : Bool} {c : Char} {cs rest : List Char}
  {r : Refusal}

theorem Level.Keeps.push {l : Level} (h : l.Keeps source) (v : Value) (tight : Bool) :
    (l.push v tight).Keeps source :=
  ⟨fun opened ho => h.opened opened ((Closer.opened?_body _).symm.trans ho), h.parens⟩

theorem Level.Keeps.reopen {l : Level} (h : l.Keeps source) {parens : List (List Char)}
    (hp : ∀ opened ∈ parens, opened <:+ source) : Level.Keeps source { l with parens } :=
  ⟨h.opened, hp⟩

theorem State.Takes.keeps (h : s.Takes spaced c cs t rest) (hs : s.Keeps source)
    (hc : c :: cs <:+ source) : t.Keeps source := by
  obtain ⟨hlevel, houter⟩ := hs
  have hall : ∀ l ∈ s.level :: s.outer, l.Keeps source := List.forall_mem_cons.2 ⟨hlevel, houter⟩
  have fresh (closer : Closer) (hcloser : closer.opened? = some (c :: cs)) :
      Level.Keeps source { closer } := by
    refine ⟨fun opened ho => ?_, fun opened ho => by cases ho⟩
    cases hcloser.symm.trans ho
    exact hc
  have inner {l : Level} {outer : List Level} (ho : s.outer = l :: outer) :
      l.Keeps source ∧ ∀ l ∈ outer, l.Keeps source := by
    rw [ho] at houter
    exact List.forall_mem_cons.1 houter
  cases h with
  | openList => exact ⟨fresh _ rfl, hall⟩
  | closeList _ _ ho _ => exact ⟨(inner ho).1.push _ _, (inner ho).2⟩
  | openGroup =>
    exact ⟨(hlevel.reopen (List.forall_mem_cons.2 ⟨hc, hlevel.parens⟩)).push _ _, houter⟩
  | closeGroup _ hparens =>
    have hrest := hlevel.parens
    rw [hparens] at hrest
    exact ⟨(hlevel.reopen (List.forall_mem_cons.1 hrest).2).push _ _, houter⟩
  | parameter _ _ hcloser =>
    refine ⟨⟨fun opened ho => hlevel.opened opened ?_, hlevel.parens⟩, houter⟩
    rw [hcloser]
    exact ho
  | beginDefinition => exact ⟨fresh _ rfl, hall⟩
  | endDefinition _ _ _ ho => exact ⟨⟨(inner ho).1.opened, (inner ho).1.parens⟩, (inner ho).2⟩
  | _ => exact ⟨hlevel.push _ _, houter⟩

theorem State.Refuses.suffix (h : s.Refuses spaced c cs r) (hs : s.Keeps source)
    (hc : c :: cs <:+ source) : r.rest <:+ source := by
  have first {opened : List Char} {parens : List (List Char)} (hp : s.level.parens = opened :: parens) :
      opened <:+ source := hs.level.parens opened (hp ▸ List.mem_cons_self)
  cases h with
  | unclosedInList _ _ hparens => exact first hparens
  | unclosedInDefinition _ _ _ _ hparens => exact first hparens
  | definitionName _ hscan =>
    exact (((List.dropWhile_suffix _).trans (scanBareWord_suffix hscan)).trans
      (List.suffix_cons _ _)).trans hc
  | _ => exact hc

theorem State.finish_suffix (h : s.finish = .error r) (hs : s.Keeps source) : r.rest <:+ source := by
  unfold State.finish at h
  split at h
  · obtain ⟨opened, parens, hparens, rfl⟩ := Level.close_error h
    exact hs.level.parens opened (hparens ▸ List.mem_cons_self)
  · rename_i hcloser
    cases h
    exact hs.level.opened _ (by rw [hcloser]; rfl)
  · rename_i hcloser
    cases h
    exact hs.level.opened _ (by rw [hcloser]; rfl)

/-- A refusal points to an end of the source. -/
theorem State.read_error_suffix {whole : List Char} (h : s.read source = .error r)
    (hs : s.Keeps whole) (hsource : source <:+ whole) : r.rest <:+ whole := by
  fun_induction State.read s source with
  | case1 s source hskip => exact State.finish_suffix h hs
  | case2 s source c cs hskip r' hi =>
    cases h
    exact (refuses_of_item hi).suffix hs (hskip ▸ (skipTrivia_suffix false source).trans hsource)
  | case3 s source c cs hskip t rest hi ih =>
    have hitem : c :: cs <:+ whole := hskip ▸ (skipTrivia_suffix false source).trans hsource
    have ht := takes_of_item hi
    exact ih h (ht.keeps hs hitem) (ht.suffix.trans hitem)

end Keeping

theorem readProgram_error_suffix {source : List Char} {r : Refusal} (h : readProgram source = .error r) :
    r.rest <:+ source := by
  refine State.read_error_suffix h ⟨⟨fun opened ho => ?_, fun opened ho => ?_⟩, fun l hl => ?_⟩
    List.suffix_rfl
  · cases ho
  · cases ho
  · cases hl

end Logo.Source
