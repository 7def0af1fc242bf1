import Logo.Proofs.NumberGrammar
import Logo.Proofs.Plain

/-!
# Reading back what was printed

The text of a plain program is read as that program again. Between two members stands
one blank and nothing else, so every member begins at its own first character and
ends before a blank, a closing bracket or the end of the source (`Ended`).
-/

namespace Logo.Value
set_option autoImplicit false
open Logo.Text Logo.Source

/-! ### The text of a value -/

mutual

theorem renderAfter_eq (before : String) : ∀ v : Value, v.renderAfter before = before ++ v.render
  | .number n => by simp [render, renderAfter]
  | .text s => by simp [render, renderAfter]
  | .boolean b => by simp [render, renderAfter]
  | .list items => by
    rw [render, renderAfter, renderAfter, membersAfter_eq _ items, membersAfter_eq ("" ++ "[") items]
    simp only [String.append_assoc, String.empty_append]
  | .procedure p => by simp [render, renderAfter, String.append_assoc]

theorem membersAfter_eq (before : String) : ∀ items : List Value,
    membersAfter before items = before ++ membersAfter "" items
  | [] => by simp [membersAfter]
  | v :: vs => by
    rw [membersAfter, membersAfter, moreAfter_eq _ vs, moreAfter_eq (renderAfter "" v) vs,
      renderAfter_eq before v, render, String.append_assoc]

theorem moreAfter_eq (before : String) : ∀ items : List Value,
    moreAfter before items = before ++ moreAfter "" items
  | [] => by simp [moreAfter]
  | v :: vs => by
    rw [moreAfter, moreAfter, moreAfter_eq _ vs, moreAfter_eq (renderAfter ("" ++ " ") v) vs,
      renderAfter_eq (before ++ " ") v, renderAfter_eq ("" ++ " ") v]
    simp only [String.append_assoc, String.empty_append]

end

theorem render_list (items : List Value) :
    (Value.list items).render.toList = '[' :: ((membersAfter "" items).toList ++ [']']) := by
  rw [render, renderAfter, membersAfter_eq]
  simp

theorem members_cons (v : Value) (vs : List Value) :
    (membersAfter "" (v :: vs)).toList = v.render.toList ++ (moreAfter "" vs).toList := by
  rw [membersAfter, moreAfter_eq, String.toList_append, render]

theorem more_cons (v : Value) (vs : List Value) :
    (moreAfter "" (v :: vs)).toList = ' ' :: (v.render.toList ++ (moreAfter "" vs).toList) := by
  rw [moreAfter, moreAfter_eq, renderAfter_eq]
  simp

end Logo.Value

namespace Logo.Source
set_option autoImplicit false
open Logo.Text

/-! ### Where a piece ends -/

/-- Behind a member: the source ends, or a character follows that ends any word. -/
def Ended (tail : List Char) : Prop := ∀ c, tail.head? = some c → isDelimiter c = true

theorem Ended.terminated {tail : List Char} (h : Ended tail) :
    ∀ c, tail.head? = some c → isTerminator c = true := fun c hc =>
  isTerminator_of_isDelimiter (h c hc)

theorem Ended.no_digit {tail : List Char} (h : Ended tail) :
    ∀ c, tail.head? = some c → c.isDigit = false := by
  intro c hc
  cases hd : c.isDigit with
  | false => rfl
  | true => exact (h c hc).symm.trans (isDelimiter_of_isDigit hd)

theorem scanWord_ended {stop : Char → Bool} {taken cs tail : List Char}
    (hcs : ∀ c ∈ cs, stop c = false ∧ c ≠ '\\') (htail : ∀ c, tail.head? = some c → stop c = true) :
    scanWord stop taken (cs ++ tail) = some (taken.reverse ++ cs, tail) := by
  obtain ⟨htake, hdrop⟩ := @Decimal.takeWhile_ends (fun c => !stop c) cs
    (fun c hc => by simp [(hcs c hc).1]) tail (fun c hc => by simp [htail c hc])
  rw [scanWord_clean, htake, hdrop]
  rw [htake]
  exact fun hmem => (hcs _ hmem).2 rfl

/-- What ends a member does not make a number of it. -/
theorem startsNumber_append {c : Char} {cs tail : List Char} (h : Ended tail) :
    startsNumber (c :: (cs ++ tail)) = startsNumber (c :: cs) := by
  rw [startsNumber_eq, startsNumber_eq]
  cases cs with
  | cons d ds => rfl
  | nil =>
    cases tail with
    | nil => rfl
    | cons d tail => simp [h.no_digit d rfl]

theorem startsNumber_ended {tail : List Char} (h : Ended tail) : startsNumber tail = false := by
  cases tail with
  | nil => rfl
  | cons c cs =>
    have hpoint : c ≠ '.' := by
      rintro rfl
      cases h '.' rfl
    simp [startsNumber_eq, h.no_digit c rfl, hpoint]

/-- A number that is written out is taken as a whole. -/
theorem scanNumber_written {cs tail : List Char} {n : Nat} {p : Int} (hw : Decimal.Written cs n p)
    (htail : Ended tail) (negative : Bool) :
    scanNumber ((if negative then '-' :: cs else cs) ++ tail)
      = ⟨if negative then '-' :: cs else cs, true, tail⟩ := by
  generalize hminus : (if negative then ['-'] else []) = minus
  have hsign : minus = [] ∨ minus = ['-'] := by
    subst hminus
    cases negative with
    | false => exact .inl rfl
    | true => exact .inr rfl
  have htext : (if negative then '-' :: cs else cs) = minus ++ cs := by
    subst hminus
    cases negative <;> rfl
  rw [htext]
  cases hw with
  | whole hne hd =>
    have hparts : Parts minus cs [] [] := ⟨hsign, hd, .inl rfl, .inl hne, .inl rfl⟩
    simpa using hparts.scanNumber htail.terminated
  | @point ds fs hne hne' hd hf =>
    have hparts : Parts minus ds ('.' :: fs) [] := ⟨hsign, hd, .inr ⟨fs, rfl, hf⟩, .inl hne, .inl rfl⟩
    simpa using hparts.scanNumber htail.terminated

/-! ### One member -/

/-- The reader has come from `s` to `t` over members equal to `vs`, in the same list. -/
structure State.Gains (s : State) (vs : List Value) (t : State) : Prop where
  items : ∃ ws, t.level.items = ws.reverse ++ s.level.items ∧ Value.equalAll ws vs = true
  closer : t.level.closer = s.level.closer
  outer : t.outer = s.outer
  depth : vs.foldlM Value.depthAfter s.level.parens.length = some t.level.parens.length

/-- A member with this text can be read here, if `tail` is behind it. -/
structure State.Admits (s : State) (v : Value) (tail : List Char) : Prop where
  closer : s.level.closer.isDefinition = false
  depth : (v.depthAfter s.level.parens.length).isSome = true
  ended : Ended tail
  name : s.level.closer.isProgram = true → v.isTo = true →
    startsName (tail.dropWhile isBlank) = false

/-- What stands before a member: one blank, or nothing where a `-` is not tied to what
precedes it. -/
def State.Gap (s : State) (gap : List Char) : Prop := gap = [' '] ∨ gap = [] ∧ s.level.tight = false

/-- The text of `v` is read as a value equal to it, wherever it can stand. -/
def ReadsBack (v : Value) : Prop :=
  ∀ (s : State) (gap tail : List Char), s.Admits v tail → s.Gap gap →
    ∃ t, s.Gains [v] t ∧ ∀ u, t.Reads tail u → s.Reads (gap ++ (v.render.toList ++ tail)) u

theorem Closer.body_eq {c : Closer} (h : c.isDefinition = false) : c.body = c := by
  cases c with
  | definition opened name params heading => cases h
  | _ => rfl

theorem equalAll_append {as bs cs ds : List Value} (h : Value.equalAll as bs = true)
    (h' : Value.equalAll cs ds = true) : Value.equalAll (as ++ cs) (bs ++ ds) = true := by
  induction as generalizing bs with
  | nil =>
    cases bs with
    | nil => exact h'
    | cons b bs => cases h
  | cons a as ih =>
    cases bs with
    | nil => cases h
    | cons b bs =>
      simp only [Value.equalAll, Bool.and_eq_true, List.cons_append] at h ⊢
      exact ⟨h.1, ih h.2⟩

theorem State.Gains.trans {s t u : State} {vs ws : List Value} (h : s.Gains vs t)
    (h' : t.Gains ws u) : s.Gains (vs ++ ws) u := by
  obtain ⟨as, has, heq⟩ := h.items
  obtain ⟨bs, hbs, heq'⟩ := h'.items
  refine ⟨⟨as ++ bs, ?_, equalAll_append heq heq'⟩, h'.closer.trans h.closer, h'.outer.trans h.outer, ?_⟩
  · rw [hbs, has, List.reverse_append, List.append_assoc]
  · rw [List.foldlM_append, h.depth]
    exact h'.depth

/-- One member added, with `parens` open behind it. -/
theorem State.gains_push {s : State} {v w : Value} {parens : List (List Char)}
    (hcloser : s.level.closer.isDefinition = false) (heq : w.equal v = true)
    (hdepth : v.depthAfter s.level.parens.length = some parens.length) (tight : Bool) :
    s.Gains [v] { s with level := { s.level with parens }.push w tight } := by
  refine ⟨⟨[w], rfl, ?_⟩, Closer.body_eq hcloser, rfl, ?_⟩
  · simp [Value.equalAll, heq]
  · simp [List.foldlM, hdepth, Level.push]

theorem skipTrivia_gap {s : State} {gap cs : List Char} {c : Char} (hgap : s.Gap gap)
    (hblank : isBlank c = false) (hcomment : c ≠ ';') : skipTrivia false (gap ++ c :: cs) = c :: cs := by
  have hstart : skipTrivia false (c :: cs) = c :: cs := by
    simp [skipTrivia, hblank, hcomment]
  obtain rfl | ⟨rfl, -⟩ := hgap
  · exact hstart
  · exact hstart

/-- A member whose text is taken as one item. -/
theorem readsBack_of_takes {v : Value} {c : Char} {cs : List Char} (hv : v.render.toList = c :: cs)
    (hblank : isBlank c = false) (hcomment : c ≠ ';')
    (h : ∀ (s : State) (spaced : Bool) (tail : List Char), s.Admits v tail →
      (spaced || !s.level.tight) = true → ∃ t, s.Takes spaced c (cs ++ tail) t tail ∧ s.Gains [v] t) :
    ReadsBack v := by
  intro s gap tail hs hgap
  have hspaced : (startsTrivia (gap ++ c :: (cs ++ tail)) || !s.level.tight) = true := by
    obtain rfl | ⟨rfl, htight⟩ := hgap
    · rfl
    · simp [htight]
  obtain ⟨t, ht, hgains⟩ := h s _ tail hs hspaced
  refine ⟨t, hgains, fun u hu => ?_⟩
  rw [hv, List.cons_append]
  exact .item (skipTrivia_gap hgap hblank hcomment) ht hu

/-- A number that is scanned whole. -/
theorem takes_written {s : State} {spaced : Bool} {c : Char} {cs tail : List Char} {n : Float}
    (hscan : scanNumber (c :: (cs ++ tail)) = ⟨c :: cs, true, tail⟩)
    (hread : Decimal.read? (c :: cs) = some n)
    (hstart : c = '-' ∧ s.signAhead spaced (cs ++ tail) = true ∨
      startsNumber (c :: (cs ++ tail)) = true) :
    s.Takes spaced c (cs ++ tail) (s.push (.number n) true) tail := by
  have ht : s.Takes spaced c (cs ++ tail) (s.push (.number n) true)
      (scanNumber (c :: (cs ++ tail))).rest :=
    .number hstart (by rw [hscan]) (by rw [hscan]; exact hread)
  rwa [hscan] at ht

theorem readsBack_number {n : Float} (h : Decimal.isFinite n = true) : ReadsBack (.number n) := by
  obtain ⟨negative, cs, k, p, hw, htext, -⟩ := Decimal.numberText_written h
  obtain ⟨m, hread, heq⟩ := Decimal.read_numberText h
  rw [htext] at hread
  obtain ⟨d, ds, rfl, hd⟩ := hw.head
  have hrender : (Value.number n).render.toList = if negative then '-' :: d :: ds else d :: ds := by
    rw [← htext]
    simp [Value.render, Value.renderAfter]
  have hstart : ∀ tail, startsNumber (d :: (ds ++ tail)) = true := fun tail => by
    rw [startsNumber_eq, hd, Bool.true_or]
  have hgains : ∀ s : State, ∀ tail, s.Admits (.number n) tail →
      s.Gains [.number n] (s.push (.number m) true) := fun s tail hs =>
    @State.gains_push s (.number n) (.number m) _ hs.closer heq rfl true
  cases negative with
  | true =>
    refine readsBack_of_takes hrender rfl (by decide) fun s spaced tail hs hspaced => ?_
    have hsign : s.signAhead spaced (d :: ds ++ tail) = true := by
      rw [State.signAhead, hspaced, Bool.and_true]
      exact hstart tail
    exact ⟨_, takes_written (scanNumber_written hw hs.ended true) hread (.inl ⟨rfl, hsign⟩),
      hgains s tail hs⟩
  | false =>
    have hcomment : d ≠ ';' := by
      rintro rfl
      cases hd
    refine readsBack_of_takes hrender (blank_of_isDelimiter (isDelimiter_of_isDigit hd)) hcomment
      fun s spaced tail hs _ => ?_
    exact ⟨_, takes_written (scanNumber_written hw hs.ended false) hread (.inr (hstart tail)),
      hgains s tail hs⟩

theorem depthAfter_text {cs : List Char} (h : cs ≠ ['(']) (h' : cs ≠ [')']) (depth : Nat) :
    (Value.text (String.ofList cs)).depthAfter depth = some depth := by
  have hopen : String.ofList cs ≠ "(" := fun he => h (String.ofList_injective he)
  have hclose : String.ofList cs ≠ ")" := fun he => h' (String.ofList_injective he)
  simp [Value.depthAfter, hopen, hclose]

theorem render_text (cs : List Char) : (Value.text (String.ofList cs)).render.toList = cs := by
  simp [Value.render, Value.renderAfter]

theorem State.gains_text {s : State} {cs : List Char} (hcloser : s.level.closer.isDefinition = false)
    (h : cs ≠ ['(']) (h' : cs ≠ [')']) (tight : Bool) :
    s.Gains [.text (String.ofList cs)] (s.push (.text (String.ofList cs)) tight) := by
  refine State.gains_push hcloser ?_ (depthAfter_text h h' _) tight
  simp [Value.equal]

theorem isNameable_iff {c : Char} : isNameable c = true ↔ isTerminator c = false ∧ c ≠ '\\' := by
  simp [isNameable]

/-- A word does not begin where a blank or a comment is. -/
theorem blank_of_isNameable {c : Char} (h : isNameable c = true) : isBlank c = false ∧ c ≠ ';' := by
  have hc := (isNameable_iff.1 h).1
  simp only [isTerminator, Bool.or_eq_false_iff, beq_eq_false_iff_ne] at hc
  exact ⟨blank_of_isDelimiter hc.1.1, hc.1.2⟩

theorem isQuotable_iff {c : Char} : isQuotable c = true ↔ isDelimiter c = false ∧ c ≠ '\\' := by
  simp [isQuotable]

theorem isMark_cases {c : Char} (h : isMark [c] = true) :
    Operator.isSymbol c = true ∨ c = '(' ∨ c = ')' := by
  simpa [isMark, or_assoc] using h

/-- An operator or a parenthesis ends a word, but is no blank, begins no comment and is no
letter of `to`. -/
theorem mark_ends {c : Char} (h : isMark [c] = true) :
    isBlank c = false ∧ c ≠ ';' ∧ isTerminator c = true ∧ c.toLower ≠ 't' := by
  obtain hsymbol | rfl | rfl := isMark_cases h
  · unfold Operator.isSymbol Operator.ofChar? at hsymbol
    split at hsymbol
    case h_8 => cases hsymbol
    all_goals decide
  · decide
  · decide

theorem readsBack_mark {c : Char} (h : isMark [c] = true) : ReadsBack (.text (String.ofList [c])) := by
  obtain ⟨hblank, hcomment, -⟩ := mark_ends h
  refine readsBack_of_takes (render_text [c]) hblank hcomment fun s spaced tail hs _ => ?_
  obtain hsymbol | rfl | rfl := isMark_cases h
  · refine ⟨_, .operator tail hsymbol fun _ => ?_, State.gains_text hs.closer ?_ ?_ false⟩
    · rw [State.signAhead, startsNumber_ended hs.ended, Bool.false_and]
    · intro he
      cases he
      cases hsymbol
    · intro he
      cases he
      cases hsymbol
  · exact ⟨_, .openGroup tail, State.gains_push hs.closer rfl rfl false⟩
  · obtain ⟨d, hd⟩ := Option.isSome_iff_exists.1 hs.depth
    cases hparens : s.level.parens with
    | nil =>
      rw [hparens] at hd
      cases hd
    | cons opened parens =>
      refine ⟨_, .closeGroup tail hparens, State.gains_push hs.closer rfl ?_ true⟩
      rw [hparens]
      rfl

theorem readsBack_quoted {cs : List Char} (h : ∀ c ∈ cs, isQuotable c = true) :
    ReadsBack (.text (String.ofList ('"' :: cs))) := by
  refine readsBack_of_takes (render_text _) rfl (by decide) fun s spaced tail hs _ => ?_
  have hscan : scanWord isDelimiter [] (cs ++ tail) = some (cs, tail) :=
    scanWord_ended (fun c hc => isQuotable_iff.1 (h c hc)) hs.ended
  exact ⟨_, .quoted hscan, State.gains_text hs.closer (by simp) (by simp) _⟩

theorem readsBack_variable {cs : List Char} (hne : cs ≠ []) (h : ∀ c ∈ cs, isNameable c = true) :
    ReadsBack (.text (String.ofList (':' :: cs))) := by
  refine readsBack_of_takes (render_text _) rfl (by decide) fun s spaced tail hs _ => ?_
  have hscan : scanWord isTerminator [] (cs ++ tail) = some (cs, tail) :=
    scanWord_ended (fun c hc => isNameable_iff.1 (h c hc)) hs.ended.terminated
  have hheading : s.level.closer.inHeading = false := by
    have hcloser := hs.closer
    cases hc : s.level.closer with
    | definition opened name params heading =>
      rw [hc] at hcloser
      cases hcloser
    | _ => rfl
  exact ⟨_, .variableName hscan hne hheading, State.gains_text hs.closer (by simp) (by simp) _⟩

/-- A bare word is taken whole. -/
theorem takes_bare {s : State} {v : Value} {spaced : Bool} {c : Char} {cs tail : List Char}
    (h : ∀ d ∈ c :: cs, isNameable d = true) (hquote : c ≠ '"') (hcolon : c ≠ ':')
    (hnumber : startsNumber (c :: cs) = false) (hs : s.Admits v tail)
    (hto : sameName (String.ofList (c :: cs)) "to" = true → v.isTo = true) :
    s.Takes spaced c (cs ++ tail)
      (s.push (wordValue (String.ofList (c :: cs))) (tightAfter (c :: cs))) tail := by
  obtain ⟨hc, hbackslash⟩ := isNameable_iff.1 (h c List.mem_cons_self)
  have hword : startsWord c (cs ++ tail) = true := by
    simp only [isTerminator, isDelimiter, Bool.or_eq_false_iff, beq_eq_false_iff_ne] at hc
    obtain ⟨⟨⟨⟨⟨⟨-, h1⟩, h2⟩, h3⟩, h4⟩, -⟩, h5⟩ := hc
    simp [startsWord, h1, h2, h3, h4, h5, hquote, hcolon, startsNumber_append hs.ended, hnumber]
  have hscan : scanBareWord c (cs ++ tail) = some (c :: cs, tail) := by
    unfold scanBareWord
    rw [if_neg hbackslash]
    exact scanWord_ended (fun d hd => isNameable_iff.1 (h d (List.mem_cons_of_mem c hd)))
      hs.ended.terminated
  refine .word hword hscan ?_
  have hcloser := hs.closer
  have hname := hs.name
  unfold State.plainWord
  split
  · rename_i he _
    rw [he] at hcloser
    cases hcloser
  · rename_i he
    cases hsame : sameName (String.ofList (c :: cs)) "to" with
    | false => rfl
    | true =>
      rw [hname (by rw [he]; rfl) (hto hsame)]
      rfl
  · rfl

/-- A truth value is read from its name. -/
theorem readsBack_truth {b : Bool} {c : Char} {cs : List Char}
    (hb : booleanText b = String.ofList (c :: cs))
    (hword : wordValue (String.ofList (c :: cs)) = .boolean b)
    (hto : sameName (String.ofList (c :: cs)) "to" = false) (hall : (c :: cs).all isNameable = true)
    (hquote : c ≠ '"') (hcolon : c ≠ ':') (hnumber : startsNumber (c :: cs) = false) :
    ReadsBack (.boolean b) := by
  have hrender : (Value.boolean b).render.toList = c :: cs := by
    simp [Value.render, Value.renderAfter, hb]
  rw [List.all_eq_true] at hall
  obtain ⟨hblank, hcomment⟩ := blank_of_isNameable (hall c List.mem_cons_self)
  refine readsBack_of_takes hrender hblank hcomment fun s spaced tail hs _ => ?_
  have ht := @takes_bare s _ spaced c cs tail hall hquote hcolon hnumber hs
    (fun h => absurd (hto.symm.trans h) (by decide))
  rw [hword] at ht
  exact ⟨_, ht, State.gains_push hs.closer (by simp [Value.equal]) rfl _⟩

theorem readsBack_boolean (b : Bool) : ReadsBack (.boolean b) := by
  cases b with
  | true =>
    have hword : wordValue (String.ofList ['t', 'r', 'u', 'e']) = .boolean true := by cbv
    exact readsBack_truth rfl hword (by cbv) rfl (by decide) (by decide) rfl
  | false =>
    have hword : wordValue (String.ofList ['f', 'a', 'l', 's', 'e']) = .boolean false := by cbv
    exact readsBack_truth rfl hword (by cbv) rfl (by decide) (by decide) rfl

theorem readsBack_bare {cs : List Char} (h : isBare cs = true) :
    ReadsBack (.text (String.ofList cs)) := by
  cases cs with
  | nil => cases h
  | cons c cs =>
    simp only [isBare, Bool.and_eq_true, List.all_eq_true, bne_iff_ne, ne_eq, Bool.not_eq_true'] at h
    obtain ⟨⟨⟨⟨⟨hall, hquote⟩, hcolon⟩, hnumber⟩, htrue⟩, hfalse⟩ := h
    have hc := hall c List.mem_cons_self
    obtain ⟨hblank, hcomment⟩ := blank_of_isNameable hc
    refine readsBack_of_takes (render_text _) hblank hcomment fun s spaced tail hs _ => ?_
    have ht := @takes_bare s _ spaced c cs tail hall hquote hcolon hnumber hs id
    rw [wordValue, htrue, hfalse] at ht
    refine ⟨_, ht, State.gains_text hs.closer ?_ ?_ _⟩
    · intro he
      cases he
      cases hc
    · intro he
      cases he
      cases hc

/-! ### Member after member -/

theorem readsBack_text {cs : List Char} (h : isPlainText cs = true) :
    ReadsBack (.text (String.ofList cs)) := by
  simp only [isPlainText, Bool.or_eq_true] at h
  obtain ((h | h) | h) | h := h
  · unfold isMark at h
    split at h
    · exact readsBack_mark h
    · cases h
  · unfold isQuoted at h
    split at h
    · exact readsBack_quoted (List.all_eq_true.1 h)
    · cases h
  · unfold isVariable at h
    split at h
    · simp only [Bool.and_eq_true, Bool.not_eq_true', List.isEmpty_eq_false_iff, List.all_eq_true] at h
      exact readsBack_variable h.1 h.2
    · cases h
  · exact readsBack_bare h

/-- The text of a plain value that cannot be the name of a definition does not begin like
one. -/
theorem head_of_plain {v : Value} (h : v.plain = true) (hname : v.isName = false) :
    ∃ c cs, v.render.toList = c :: cs ∧ isBlank c = false ∧ ∀ ds, startsName (c :: ds) = false := by
  cases v with
  | number n =>
    obtain ⟨negative, cs, k, p, hw, htext, -⟩ :=
      Decimal.numberText_written (Value.plain_number_iff.1 h)
    obtain ⟨d, ds, rfl, hd⟩ := hw.head
    have hrender : (Value.number n).render.toList = (numberText n).toList := by
      simp [Value.render, Value.renderAfter]
    rw [hrender, htext]
    cases negative with
    | true => exact ⟨'-', d :: ds, rfl, rfl, fun _ => rfl⟩
    | false =>
      refine ⟨d, ds, rfl, blank_of_isDelimiter (isDelimiter_of_isDigit hd), fun _ => ?_⟩
      simp [startsName, hd]
  | text s =>
    rw [Value.plain, isPlainText, show isBare s.toList = false from hname, Bool.or_false] at h
    have hrender : (Value.text s).render.toList = s.toList := by
      simp [Value.render, Value.renderAfter]
    rw [hrender]
    simp only [Bool.or_eq_true] at h
    obtain (h | h) | h := h
    · unfold isMark at h
      split at h
      · rename_i c hc
        obtain ⟨hblank, -, hterminator, -⟩ := mark_ends h
        exact ⟨c, [], hc, hblank, fun _ => by simp [startsName, hterminator]⟩
      · cases h
    · unfold isQuoted at h
      split at h
      · rename_i cs hc
        exact ⟨'"', cs, hc, rfl, fun _ => rfl⟩
      · cases h
    · unfold isVariable at h
      split at h
      · rename_i cs hc
        exact ⟨':', cs, hc, rfl, fun _ => rfl⟩
      · cases h
  | boolean b => cases hname
  | list items => exact ⟨'[', _, Value.render_list items, rfl, fun _ => rfl⟩
  | procedure p =>
    rw [Value.plain] at h
    cases h

/-- The end of a list or of the source. -/
def Closed (tail : List Char) : Prop := ∀ c, tail.head? = some c → c = ']'

theorem Closed.ended {tail : List Char} (h : Closed tail) : Ended tail := by
  intro c hc
  rw [h c hc]
  rfl

theorem Closed.startsName {tail : List Char} (h : Closed tail) :
    startsName (tail.dropWhile isBlank) = false := by
  cases tail with
  | nil => rfl
  | cons c tail =>
    obtain rfl := h c rfl
    rfl

/-- A member can be read in front of further ones, which a blank separates from it. -/
theorem admits_more {s : State} {v w : Value} {ws : List Value}
    (hcloser : s.level.closer.isDefinition = false)
    (hdepth : (v.depthAfter s.level.parens.length).isSome = true) (hw : w.plain = true)
    (hto : s.level.closer.isProgram = true → Value.beginsDefinition (v :: w :: ws) = false)
    (tail : List Char) : s.Admits v ((Value.moreAfter "" (w :: ws)).toList ++ tail) := by
  refine ⟨hcloser, hdepth, ?_, fun hprogram hv => ?_⟩
  · rw [Value.more_cons]
    intro c hc
    cases hc
    rfl
  · have hname : w.isName = false := by
      have hno := hto hprogram
      simp only [Value.beginsDefinition, hv, Bool.true_and, Bool.or_eq_false_iff] at hno
      exact hno.1
    obtain ⟨c, cs, hc, hblank, hstart⟩ := head_of_plain hw hname
    have hdrop : ((Value.moreAfter "" (w :: ws)).toList ++ tail).dropWhile isBlank
        = c :: (cs ++ (Value.moreAfter "" ws).toList ++ tail) := by
      rw [Value.more_cons, hc]
      simp [show isBlank ' ' = true from rfl, hblank]
    rw [hdrop]
    exact hstart _

/-- Members with one blank between any two are read one after the other. -/
theorem reads_more {tail : List Char} (htail : Closed tail) {v : Value} {vs : List Value} {s : State}
    {gap : List Char} (hplain : ∀ w ∈ v :: vs, w.plain = true) (hback : ∀ w ∈ v :: vs, ReadsBack w)
    (hcloser : s.level.closer.isDefinition = false)
    (hdepth : ((v :: vs).foldlM Value.depthAfter s.level.parens.length).isSome = true)
    (hto : s.level.closer.isProgram = true → Value.beginsDefinition (v :: vs) = false)
    (hgap : s.Gap gap) :
    ∃ t, s.Gains (v :: vs) t ∧ ∀ u, t.Reads tail u →
      s.Reads (gap ++ (v.render.toList ++ ((Value.moreAfter "" vs).toList ++ tail))) u := by
  induction vs generalizing v s gap with
  | nil =>
    have hadmits : s.Admits v tail :=
      ⟨hcloser, by simpa using hdepth, htail.ended, fun _ _ => htail.startsName⟩
    exact hback v List.mem_cons_self s gap tail hadmits hgap
  | cons w ws ih =>
    rw [List.foldlM_cons] at hdepth
    cases hv : v.depthAfter s.level.parens.length with
    | none =>
      rw [hv] at hdepth
      cases hdepth
    | some d =>
      have hadmits := admits_more hcloser (by rw [hv]; rfl) (hplain w (by simp)) hto tail
      obtain ⟨t, hst, ht⟩ := hback v List.mem_cons_self s gap _ hadmits hgap
      have hcloser' : t.level.closer.isDefinition = false := by rwa [hst.closer]
      have hlength : t.level.parens.length = d := by
        have hd := hst.depth
        simp only [List.foldlM, hv, Option.bind_eq_bind, Option.bind_some, pure] at hd
        exact (Option.some.inj hd).symm
      have hdepth' : ((w :: ws).foldlM Value.depthAfter t.level.parens.length).isSome = true := by
        rw [hlength]
        rwa [hv] at hdepth
      have hto' : t.level.closer.isProgram = true → Value.beginsDefinition (w :: ws) = false := by
        intro hprogram
        rw [hst.closer] at hprogram
        have hno := hto hprogram
        simp only [Value.beginsDefinition, Bool.or_eq_false_iff] at hno
        exact hno.2
      have hgap' : t.Gap [' '] := .inl rfl
      obtain ⟨u, htu, hu⟩ := ih (List.forall_mem_cons.1 hplain).2 (List.forall_mem_cons.1 hback).2
        hcloser' hdepth' hto' hgap'
      refine ⟨u, hst.trans htu, fun x hx => ht x ?_⟩
      rw [Value.more_cons]
      simpa using hu x hx

/-- The members of a list are read one after the other. -/
theorem reads_members {tail : List Char} (htail : Closed tail) {vs : List Value} {s : State}
    (hplain : ∀ w ∈ vs, w.plain = true) (hback : ∀ w ∈ vs, ReadsBack w)
    (hcloser : s.level.closer.isDefinition = false)
    (hdepth : (vs.foldlM Value.depthAfter s.level.parens.length).isSome = true)
    (hto : s.level.closer.isProgram = true → Value.beginsDefinition vs = false)
    (htight : s.level.tight = false) :
    ∃ t, s.Gains vs t ∧ ∀ u, t.Reads tail u → s.Reads ((Value.membersAfter "" vs).toList ++ tail) u := by
  cases vs with
  | nil => exact ⟨s, ⟨⟨[], rfl, rfl⟩, rfl, rfl, rfl⟩, fun u hu => hu⟩
  | cons v vs =>
    obtain ⟨t, hst, ht⟩ := reads_more htail hplain hback hcloser hdepth hto (.inr ⟨rfl, htight⟩)
    refine ⟨t, hst, fun u hu => ?_⟩
    rw [Value.members_cons, List.append_assoc]
    exact ht u hu

theorem State.Gains.close {s t : State} {vs : List Value} (h : s.Gains vs t)
    (hitems : s.level.items = []) (hbalanced : vs.foldlM Value.depthAfter 0 = some 0)
    (hparens : s.level.parens = []) :
    ∃ ws, t.level.close = .ok ws ∧ Value.equalAll ws vs = true := by
  obtain ⟨ws, hws, heq⟩ := h.items
  have hdepth := h.depth
  rw [hparens, List.length_nil, hbalanced] at hdepth
  have hnil : t.level.parens = [] := List.length_eq_zero_iff.1 (Option.some.inj hdepth).symm
  refine ⟨ws, ?_, heq⟩
  rw [Level.close, hnil, hws, hitems]
  simp

theorem readsBack_list {items : List Value} (h : (Value.list items).plain = true)
    (hback : ∀ v ∈ items, ReadsBack v) : ReadsBack (.list items) := by
  obtain ⟨hplain, hbalanced⟩ := Value.plain_list_iff.1 h
  intro s gap tail hs hgap
  obtain ⟨t, hst, ht⟩ := @reads_members (']' :: tail) (fun c hc => by cases hc; rfl) items
    ⟨{ closer := .bracket ('[' :: ((Value.membersAfter "" items).toList ++ ']' :: tail)) },
      s.level :: s.outer⟩ hplain hback rfl (by rw [List.length_nil, hbalanced]; rfl)
    (fun hprogram => by cases hprogram) rfl
  obtain ⟨ws, hclose, heq⟩ := hst.close rfl hbalanced rfl
  refine ⟨_, @State.gains_push s (.list items) (.list ws) _ hs.closer ?_ rfl true, fun u hu => ?_⟩
  · simpa [Value.equal] using heq
  · have hsource : (Value.list items).render.toList ++ tail
        = '[' :: ((Value.membersAfter "" items).toList ++ ']' :: tail) := by
      simp [Value.render_list]
    rw [hsource]
    refine .item (skipTrivia_gap hgap rfl (by decide)) (.openList _) (ht u ?_)
    exact .item rfl (.closeList tail hst.closer hst.outer hclose) hu

theorem readsBack_of_plain : ∀ v : Value, v.plain = true → ReadsBack v
  | .number n, h => readsBack_number (Value.plain_number_iff.1 h)
  | .text s, h => by
    rw [Value.plain] at h
    have htext := readsBack_text h
    rwa [String.ofList_toList] at htext
  | .boolean b, _ => readsBack_boolean b
  | .list items, h => readsBack_list h fun v hv =>
    readsBack_of_plain v ((Value.plain_list_iff.1 h).1 v hv)
  | .procedure p, h => by
    rw [Value.plain] at h
    cases h
termination_by v => sizeOf v
decreasing_by
  have := List.sizeOf_lt_of_mem hv
  simp
  omega

theorem readProgram_printed {program : List Value} (h : Value.plainProgram program = true) :
    ∃ program', readProgram (Value.printed (.list program)).toList = .ok program' ∧
      Value.equalAll program' program = true := by
  obtain ⟨hplain, hbalanced, hto⟩ := Value.plainProgram_iff.1 h
  obtain ⟨t, hst, ht⟩ := @reads_members [] (fun c hc => by cases hc) program State.initial hplain
    (fun v hv => readsBack_of_plain v (hplain v hv)) rfl
    (by rw [show State.initial.level.parens.length = 0 from rfl, hbalanced]; rfl) (fun _ => hto) rfl
  obtain ⟨ws, hclose, heq⟩ := hst.close rfl hbalanced rfl
  refine ⟨ws, State.read_ok_iff.2 ⟨t, ?_, ?_⟩, heq⟩
  · have hreads := ht t (.done t rfl)
    rwa [List.append_nil] at hreads
  · rw [State.finish, hst.closer]
    exact hclose

end Logo.Source
