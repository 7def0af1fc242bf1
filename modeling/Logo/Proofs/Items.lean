import Logo.Source.Reader

/-!
# What reading one item does

`State.Takes` says case by case what the reader can do with the item at the front of a
source: open or close a list, a group or a definition, or add a member. It holds exactly
where `State.item` succeeds, so nothing else needs to look into that function.
`State.Reads` follows a source item by item to its end.
-/

namespace Logo.Source
set_option autoImplicit false
open Logo.Text

/-- Is a variable a parameter here? -/
def Closer.inHeading : Closer → Bool
  | .definition _ _ _ heading => heading
  | _ => false

def Closer.isProgram : Closer → Bool
  | .program => true
  | _ => false

def Closer.isDefinition : Closer → Bool
  | .definition _ _ _ _ => true
  | _ => false

@[simp] theorem Closer.body_isProgram (c : Closer) : c.body.isProgram = c.isProgram := by
  cases c <;> rfl

/-- Does a bare word begin with `c`, with `cs` behind it? -/
def startsWord (c : Char) (cs : List Char) : Bool :=
  c != '[' && c != ']' && c != '(' && c != ')' && c != '"' && c != ':' && !Operator.isSymbol c
    && !startsNumber (c :: cs)

/-- Is `-` here the sign of a number? -/
def State.signAhead (s : State) (spaced : Bool) (cs : List Char) : Bool :=
  startsNumber cs && (spaced || !s.level.tight)

/-- Does a bare word only add a member? It does unless it ends a definition or begins one;
`rest` is the source behind it. -/
def State.plainWord (s : State) (word rest : List Char) : Bool :=
  match s.level.closer, s.outer with
  | .definition _ _ _ _, _ :: _ => !sameName (String.ofList word) "end"
  | .program, _ => !(sameName (String.ofList word) "to" && startsName (rest.dropWhile isBlank))
  | _, _ => true

/-- The reader takes the item at the front of `c :: cs` in state `s`, and goes on in another
state with what is left. -/
inductive State.Takes (s : State) (spaced : Bool) : Char → List Char → State → List Char → Prop where
  | openList (cs : List Char) :
      Takes s spaced '[' cs { level := { closer := .bracket ('[' :: cs) }, outer := s.level :: s.outer }
        cs
  | closeList (cs : List Char) {opened : List Char} {l : Level} {outer : List Level}
      {items : List Value} : s.level.closer = .bracket opened → s.outer = l :: outer →
      s.level.close = .ok items →
      Takes s spaced ']' cs { level := l.push (.list items) true, outer } cs
  | openGroup (cs : List Char) :
      Takes s spaced '(' cs { s with level :=
        { s.level with parens := ('(' :: cs) :: s.level.parens }.push (.text "(") false } cs
  | closeGroup (cs : List Char) {opened : List Char} {parens : List (List Char)} :
      s.level.parens = opened :: parens →
      Takes s spaced ')' cs { s with level := { s.level with parens }.push (.text ")") true } cs
  | quoted {cs word rest : List Char} : scanWord isDelimiter [] cs = some (word, rest) →
      Takes s spaced '"' cs (s.push (.text (String.ofList ('"' :: word))) (tightAfter word)) rest
  | parameter {cs name rest opened : List Char} {defined : String} {params : List String} :
      scanWord isTerminator [] cs = some (name, rest) → name ≠ [] →
      s.level.closer = .definition opened defined params true →
      Takes s spaced ':' cs { s with level := { s.level with
        closer := .definition opened defined (String.ofList name :: params) true } } rest
  | variableName {cs name rest : List Char} :
      scanWord isTerminator [] cs = some (name, rest) → name ≠ [] → s.level.closer.inHeading = false →
      Takes s spaced ':' cs (s.push (.text (String.ofList (':' :: name))) (tightAfter name)) rest
  | number {c : Char} {cs : List Char} {n : Float} :
      (c = '-' ∧ s.signAhead spaced cs = true ∨ startsNumber (c :: cs) = true) →
      (scanNumber (c :: cs)).wellFormed = true →
      Decimal.read? (scanNumber (c :: cs)).text = some n →
      Takes s spaced c cs (s.push (.number n) true) (scanNumber (c :: cs)).rest
  | operator {c : Char} (cs : List Char) : Operator.isSymbol c = true →
      (c = '-' → s.signAhead spaced cs = false) →
      Takes s spaced c cs (s.push (.text c.toString) false) cs
  | word {c : Char} {cs word rest : List Char} : startsWord c cs = true →
      scanBareWord c cs = some (word, rest) → s.plainWord word rest = true →
      Takes s spaced c cs (s.push (wordValue (String.ofList word)) (tightAfter word)) rest
  | beginDefinition {c : Char} {cs word behind name rest : List Char} : startsWord c cs = true →
      scanBareWord c cs = some (word, behind) → s.level.closer = .program →
      sameName (String.ofList word) "to" = true → startsName (behind.dropWhile isBlank) = true →
      scanWord isTerminator [] (behind.dropWhile isBlank) = some (name, rest) →
      Takes s spaced c cs { level := { closer := .definition (c :: cs) (String.ofList name) [] true }
                            outer := s.level :: s.outer } rest
  | endDefinition {c : Char} {cs word rest opened : List Char} {name : String} {params : List String}
      {heading : Bool} {l : Level} {outer : List Level} {body : List Value} :
      startsWord c cs = true → scanBareWord c cs = some (word, rest) →
      s.level.closer = .definition opened name params heading → s.outer = l :: outer →
      sameName (String.ofList word) "end" = true → s.level.close = .ok body →
      Takes s spaced c cs
        { level := { l with items := definitionItems name params body ++ l.items, tight := true }
          outer } rest

/-! ### Pieces -/

section Pieces

variable {stop : Char → Bool} {taken cs : List Char} {c e : Char}

theorem scanWord_nil : scanWord stop taken [] = some (taken.reverse, []) := by
  rw [scanWord.eq_def]

theorem scanWord_stop (h : stop c = true) :
    scanWord stop taken (c :: cs) = some (taken.reverse, c :: cs) := by
  rw [scanWord.eq_def]
  simp only [h, if_true]

theorem scanWord_escape (h : stop '\\' = false) :
    scanWord stop taken ('\\' :: e :: cs) = scanWord stop (e :: taken) cs := by
  rw [scanWord.eq_def]
  simp [h]

theorem scanWord_take (h : stop c = false) (hc : c ≠ '\\') :
    scanWord stop taken (c :: cs) = scanWord stop (c :: taken) cs := by
  rw [scanWord.eq_def]
  simp [h, hc]

/-- A number begins with a digit, or with a point that a digit follows. -/
theorem startsNumber_eq (c : Char) (cs : List Char) : startsNumber (c :: cs)
    = (c.isDigit || (c == '.' && (cs.head?.map Char.isDigit).getD false)) := by
  by_cases hc : c = '.'
  · subst hc
    cases cs <;> rfl
  · unfold startsNumber
    split
    · rename_i he
      cases he
      exact absurd rfl hc
    · rename_i he
      cases he
      simp [hc]
    · rename_i he
      cases he

end Pieces

/-! ### The cases of an item -/

section Item

variable {s t : State} {spaced : Bool} {c : Char} {cs rest : List Char}

theorem startsNumber_cons (h : startsNumber (c :: cs) = true) : c = '.' ∨ c.isDigit = true := by
  rw [startsNumber_eq, Bool.or_eq_true, Bool.and_eq_true, beq_iff_eq] at h
  obtain h | ⟨h, -⟩ := h
  · exact .inr h
  · exact .inl h

/-- A digit or a point is none of the characters that mean something by themselves. -/
theorem not_special_of_startsNumber (h : startsNumber (c :: cs) = true) :
    c ≠ '[' ∧ c ≠ ']' ∧ c ≠ '(' ∧ c ≠ ')' ∧ c ≠ '"' ∧ c ≠ ':' ∧ c ≠ '-' ∧
      Operator.isSymbol c = false := by
  obtain rfl | h := startsNumber_cons h
  · decide
  · refine ⟨?_, ?_, ?_, ?_, ?_, ?_, ?_, ?_⟩
    case refine_8 =>
      unfold Operator.isSymbol Operator.ofChar?
      split <;> first | rfl | exact absurd h (by decide)
    all_goals
      rintro rfl
      revert h
      decide

theorem State.quotedWord_iff {here : List Char} : s.quotedWord here cs = .ok (t, rest) ↔
    ∃ word, scanWord isDelimiter [] cs = some (word, rest) ∧
      t = s.push (.text (String.ofList ('"' :: word))) (tightAfter word) := by
  unfold State.quotedWord
  cases scanWord isDelimiter [] cs with
  | none => simp
  | some found =>
    obtain ⟨word, rest'⟩ := found
    simp only [Except.ok.injEq, Prod.mk.injEq, Option.some.injEq]
    constructor
    · rintro ⟨rfl, rfl⟩
      exact ⟨word, ⟨rfl, rfl⟩, rfl⟩
    · rintro ⟨w, ⟨rfl, rfl⟩, rfl⟩
      exact ⟨rfl, rfl⟩

theorem State.number_iff {here : List Char} : s.number here = .ok (t, rest) ↔
    ∃ n, (scanNumber here).wellFormed = true ∧ Decimal.read? (scanNumber here).text = some n ∧
      t = s.push (.number n) true ∧ rest = (scanNumber here).rest := by
  unfold State.number
  simp only
  split
  · rename_i n hw hr
    simp only [Except.ok.injEq, Prod.mk.injEq, hw, hr, Option.some.injEq, true_and]
    constructor
    · rintro ⟨rfl, rfl⟩
      exact ⟨n, rfl, rfl, rfl⟩
    · rintro ⟨n, rfl, rfl, rfl⟩
      exact ⟨rfl, rfl⟩
  · rename_i hne
    constructor
    · intro h
      cases h
    · rintro ⟨n, hw, hr, -⟩
      exact absurd hr (hne n hw)

theorem takes_of_variableName (h : s.variableName (':' :: cs) cs = .ok (t, rest)) :
    s.Takes spaced ':' cs t rest := by
  unfold State.variableName at h
  split at h
  · cases h
  · cases h
  · rename_i name rest' hne hscan
    have hname : name ≠ [] := hne
    split at h
    · rename_i opened defined params hcloser
      cases h
      exact .parameter hscan hname hcloser
    · rename_i hno
      cases h
      refine .variableName hscan hname ?_
      cases hcloser : s.level.closer with
      | definition opened defined params heading =>
        cases heading with
        | true => exact absurd hcloser (hno opened defined params)
        | false => rfl
      | _ => rfl

theorem takes_of_bareWord (hw : startsWord c cs = true) (h : s.bareWord c cs = .ok (t, rest)) :
    s.Takes spaced c cs t rest := by
  unfold State.bareWord at h
  split at h
  · cases h
  · rename_i word behind hscan
    simp only at h
    split at h
    · rename_i opened name params heading l outer hcloser houter
      split at h
      · rename_i hend
        simp only [bind, Except.bind] at h
        split at h
        · cases h
        · rename_i body hbody
          cases h
          exact .endDefinition hw hscan hcloser houter hend hbody
      · rename_i hend
        cases h
        refine .word hw hscan ?_
        simp only [State.plainWord, hcloser, houter]
        simpa using hend
    · rename_i hcloser
      split at h
      · rename_i hto
        simp only [Bool.and_eq_true] at hto
        split at h
        · cases h
        · rename_i name rest' hname
          cases h
          exact .beginDefinition hw hscan hcloser hto.1 hto.2 hname
      · rename_i hto
        cases h
        refine .word hw hscan ?_
        simp only [State.plainWord, hcloser]
        exact Bool.not_eq_true' _ ▸ Bool.eq_false_iff.2 hto
    · rename_i hprogram hdefinition
      cases h
      refine .word hw hscan ?_
      unfold State.plainWord
      split
      · rename_i hcloser houter
        exact (hdefinition _ _ _ _ _ _ hcloser houter).elim
      · rename_i hcloser
        exact (hprogram hcloser).elim
      · rfl

/-- Whatever reading an item does is one of the cases. -/
theorem takes_of_item (h : s.item spaced c cs = .ok (t, rest)) : s.Takes spaced c cs t rest := by
  unfold State.item at h
  simp only at h
  split at h
  · rename_i hc
    subst hc
    cases h
    exact .openList cs
  split at h
  · rename_i hc
    subst hc
    unfold State.closeBracket at h
    split at h
    · rename_i hcloser houter
      simp only [bind, Except.bind] at h
      split at h
      · cases h
      · rename_i hclose
        cases h
        exact .closeList cs hcloser houter hclose
    · cases h
  split at h
  · rename_i hc
    subst hc
    cases h
    exact .openGroup cs
  split at h
  · rename_i hc
    subst hc
    unfold State.closeParen at h
    split at h
    · cases h
    · rename_i hparens
      cases h
      exact .closeGroup cs hparens
  split at h
  · rename_i hc
    subst hc
    obtain ⟨word, hscan, rfl⟩ := State.quotedWord_iff.1 h
    exact .quoted hscan
  split at h
  · rename_i hc
    subst hc
    exact takes_of_variableName h
  split at h
  · rename_i hminus
    obtain ⟨n, hw, hr, rfl, rfl⟩ := State.number_iff.1 h
    refine .number (.inl ⟨hminus.1, ?_⟩) hw hr
    simp only [State.signAhead, hminus.2.1, hminus.2.2, Bool.and_self]
  split at h
  · rename_i hminus hsymbol
    cases h
    refine .operator cs hsymbol fun hc => ?_
    cases hsign : s.signAhead spaced cs with
    | false => rfl
    | true =>
      simp only [State.signAhead, Bool.and_eq_true] at hsign
      exact absurd ⟨hc, hsign.1, hsign.2⟩ hminus
  split at h
  · rename_i hstart
    obtain ⟨n, hw, hr, rfl, rfl⟩ := State.number_iff.1 h
    exact .number (.inr hstart) hw hr
  · refine takes_of_bareWord ?_ h
    simp_all [startsWord]

theorem startsWord_ne (h : startsWord c cs = true) :
    c ≠ '[' ∧ c ≠ ']' ∧ c ≠ '(' ∧ c ≠ ')' ∧ c ≠ '"' ∧ c ≠ ':' ∧ Operator.isSymbol c = false ∧
      startsNumber (c :: cs) = false := by
  simpa [startsWord, and_assoc] using h

theorem item_of_startsWord (h : startsWord c cs = true) : s.item spaced c cs = s.bareWord c cs := by
  obtain ⟨h1, h2, h3, h4, h5, h6, h7, h8⟩ := startsWord_ne h
  have hminus : c ≠ '-' := by
    rintro rfl
    cases h7
  simp [State.item, h1, h2, h3, h4, h5, h6, h7, h8, hminus]

/-- In each of the cases the item is read so. -/
theorem State.Takes.item_eq (h : s.Takes spaced c cs t rest) : s.item spaced c cs = .ok (t, rest) := by
  cases h with
  | openList => rfl
  | closeList _ hcloser houter hclose =>
    simp [State.item, State.closeBracket, hcloser, houter, hclose, bind, Except.bind]
  | openGroup => rfl
  | closeGroup _ hparens => simp [State.item, State.closeParen, hparens]
  | quoted hscan => exact State.quotedWord_iff.2 ⟨_, hscan, rfl⟩
  | @parameter _ name _ _ _ _ hscan hname hcloser =>
    obtain ⟨d, ds, rfl⟩ := List.exists_cons_of_ne_nil hname
    simp [State.item, State.variableName, hscan, hcloser]
  | @variableName _ name _ hscan hname hheading =>
    obtain ⟨d, ds, rfl⟩ := List.exists_cons_of_ne_nil hname
    show s.variableName (':' :: cs) cs = _
    simp only [State.variableName, hscan]
    split
    · rename_i hcloser
      rw [hcloser] at hheading
      cases hheading
    · rfl
  | number hstart hw hr =>
    have hnumber := (State.number_iff (s := s)).2 ⟨_, hw, hr, rfl, rfl⟩
    obtain ⟨rfl, hsign⟩ | hstart := hstart
    · simp only [State.signAhead, Bool.and_eq_true] at hsign
      simp only [State.item, hsign, and_self, if_true]
      exact hnumber
    · obtain ⟨h1, h2, h3, h4, h5, h6, h7, h8⟩ := not_special_of_startsNumber hstart
      simp only [State.item, h1, h2, h3, h4, h5, h6, h7, h8, hstart, false_and, if_false, if_true]
      exact hnumber
  | operator _ hsymbol hminus =>
    have hspecial : c ≠ '[' ∧ c ≠ ']' ∧ c ≠ '(' ∧ c ≠ ')' ∧ c ≠ '"' ∧ c ≠ ':' := by
      refine ⟨?_, ?_, ?_, ?_, ?_, ?_⟩
      all_goals
        rintro rfl
        cases hsymbol
    obtain ⟨h1, h2, h3, h4, h5, h6⟩ := hspecial
    have hsign : ¬ (c = '-' ∧ startsNumber cs = true ∧ (spaced || !s.level.tight) = true) := by
      rintro ⟨hc, hd, htight⟩
      have hno := hminus hc
      simp only [State.signAhead, hd, htight, Bool.and_self] at hno
      cases hno
    simp only [State.item, h1, h2, h3, h4, h5, h6, hsign, hsymbol, if_false, if_true]
  | word hw hscan hplain =>
    rw [item_of_startsWord hw]
    simp only [State.bareWord, hscan]
    unfold State.plainWord at hplain
    split
    · rename_i hcloser houter
      simp only [hcloser, houter, Bool.not_eq_true'] at hplain
      rw [hplain]
      rfl
    · rename_i hcloser
      simp only [hcloser, Bool.not_eq_true'] at hplain
      rw [hplain]
      rfl
    · rfl
  | beginDefinition hw hscan hcloser hto hstart hname =>
    rw [item_of_startsWord hw]
    simp [State.bareWord, hscan, hcloser, hto, hstart, hname]
  | endDefinition hw hscan hcloser houter hend hclose =>
    rw [item_of_startsWord hw]
    simp [State.bareWord, hscan, hcloser, houter, hend, hclose, bind, Except.bind]

theorem item_iff : s.item spaced c cs = .ok (t, rest) ↔ s.Takes spaced c cs t rest :=
  ⟨takes_of_item, fun h => h.item_eq⟩

end Item

/-! ### Item by item -/

/-- Reading goes on behind an item. -/
theorem State.read_of_item {s t : State} {source cs rest : List Char} {c : Char}
    (hs : skipTrivia false source = c :: cs)
    (hi : s.item (startsTrivia source) c cs = .ok (t, rest)) : s.read source = t.read rest := by
  rw [State.read]
  split
  · rename_i h
    rw [hs] at h
    cases h
  · rename_i h
    rw [hs] at h
    cases h
    split
    · rename_i h
      rw [hi] at h
      cases h
    · rename_i h
      rw [hi] at h
      cases h
      rfl

/-- Reading ends where no item is left. -/
theorem State.read_of_end {s : State} {source : List Char} (hs : skipTrivia false source = []) :
    s.read source = s.finish := by
  rw [State.read]
  split
  · rfl
  · rename_i h
    rw [hs] at h
    cases h

/-- From state `s` the reader comes to the end of the source in another state. -/
inductive State.Reads : State → List Char → State → Prop where
  | done (s : State) {source : List Char} : skipTrivia false source = [] → Reads s source s
  | item {s t u : State} {c : Char} {source cs rest : List Char} :
      skipTrivia false source = c :: cs → s.Takes (startsTrivia source) c cs t rest →
      Reads t rest u → Reads s source u

theorem State.read_ok_iff {s : State} {source : List Char} {program : List Value} :
    s.read source = .ok program ↔ ∃ t, s.Reads source t ∧ t.finish = .ok program := by
  constructor
  · intro h
    fun_induction State.read s source with
    | case1 s source hs => exact ⟨s, .done s hs, h⟩
    | case2 s source c cs hs r hi => cases h
    | case3 s source c cs hs t rest hi ih =>
      obtain ⟨u, hu, hf⟩ := ih h
      exact ⟨u, .item hs (takes_of_item hi) hu, hf⟩
  · rintro ⟨t, h, hf⟩
    induction h with
    | done s hs => rw [State.read_of_end hs, hf]
    | item hs ht _ ih => rw [State.read_of_item hs ht.item_eq, ih hf]

end Logo.Source
