import Logo.Proofs.Lines

/-!
# Comments and blanks

A comment stands for the end of its line. Whatever is read before it is read the same way with
the comment behind it and without, and so is whatever comes after it; where the source is refused
before the comment, it is refused for the same cause (`Halts.read_extended`). The word `to` makes
an exception: it looks for a name behind blanks, but not behind a comment.
-/

namespace Logo.Source
set_option autoImplicit false
open Logo.Text

/-! ### The two gaps -/

theorem skipTrivia_comment {comment : List Char} (h : '\n' ∉ comment) (more : List Char) :
    skipTrivia true (comment ++ '\n' :: more) = skipTrivia false more := by
  induction comment with
  | nil => rfl
  | cons c comment ih =>
    rw [List.mem_cons, not_or] at h
    have hc : (c != '\n') = true := bne_iff_ne.2 (Ne.symm h.1)
    rw [List.cons_append, skipTrivia, if_pos rfl, hc, ih h.2]

theorem gap_comment {comment : List Char} (h : '\n' ∉ comment) (more : List Char) :
    Gap (' ' :: ';' :: (comment ++ '\n' :: more)) more :=
  ⟨⟨_, _, rfl, by decide⟩, fun inComment => by
    rw [← skipTrivia_comment h more]
    cases inComment <;> rfl⟩

theorem gap_break (more : List Char) : Gap (' ' :: '\n' :: more) more :=
  ⟨⟨_, _, rfl, by decide⟩, fun inComment => by cases inComment <;> rfl⟩

/-! ### A source that is refused, with more behind it -/

section Refused

variable {s : State} {spaced : Bool} {c : Char} {cs : List Char} {r : Refusal} {tail : List Char}

theorem State.inList_extended : (s.extended tail).inList = s.inList := by
  obtain ⟨⟨closer, items, parens, tight⟩, outer⟩ := s
  cases closer <;> cases outer <;> rfl

theorem State.inDefinition_extended : (s.extended tail).inDefinition = s.inDefinition := by
  obtain ⟨⟨closer, items, parens, tight⟩, outer⟩ := s
  cases closer <;> cases outer <;> rfl

theorem Level.extended_parens {l : Level} {opened : List Char} {parens : List (List Char)}
    (h : l.parens = opened :: parens) :
    (l.extended tail).parens = (opened ++ tail) :: parens.map (· ++ tail) := by
  simp only [Level.extended, h, List.map_cons]

theorem not_mem_of_skipTrivia {x : Char} {source : List Char} (h : skipTrivia false source = c :: cs)
    (hx : x ∉ source) : x ∉ c :: cs :=
  fun hmem => hx ((skipTrivia_suffix false source).subset (h ▸ hmem))

/-- Without a backslash, a word ends. -/
theorem scanWord_ne_none {stop : Char → Bool} {taken cs : List Char} (h : '\\' ∉ cs) :
    scanWord stop taken cs ≠ none := by
  rw [scanWord_clean fun hc => h ((List.takeWhile_prefix _).subset hc)]
  exact Option.some_ne_none _

theorem scanBareWord_ne_none {c : Char} {cs : List Char} (h : '\\' ∉ c :: cs) :
    scanBareWord c cs ≠ none := by
  rw [List.mem_cons, not_or] at h
  unfold scanBareWord
  rw [if_neg (Ne.symm h.1)]
  exact scanWord_ne_none h.2

/-- An item without a backslash is refused for the same cause with more behind it. -/
theorem State.Refuses.extended {br : Char} (hbr : isBlank br = true) (more : List Char)
    (hcs : '\\' ∉ c :: cs) (h : s.Refuses spaced c cs r) :
    (s.extended (br :: more)).Refuses spaced c (cs ++ br :: more) ⟨r.cause, r.rest ++ br :: more⟩ := by
  have hbehind : '\\' ∉ cs := fun hmem => hcs (List.mem_cons_of_mem _ hmem)
  cases h with
  | strayBracket _ hin => exact .strayBracket _ (State.inList_extended.trans hin)
  | unclosedInList _ hin hparens =>
    exact .unclosedInList _ (State.inList_extended.trans hin) (Level.extended_parens hparens)
  | strayParen _ hparens =>
    refine .strayParen _ ?_
    simp only [State.extended, Level.extended, hparens, List.map_nil]
  | quoted hscan => exact absurd hscan (scanWord_ne_none hbehind)
  | variableName hscan => exact absurd hscan (scanWord_ne_none hbehind)
  | nameless hscan => exact .nameless (scanWord_gap more (isTerminator_of_isBlank hbr) hscan)
  | number hstart hbad =>
    have hnumber : scanNumber (c :: (cs ++ br :: more)) = (scanNumber (c :: cs)).followedBy (br :: more) :=
      scanNumber_gap hbr more (c :: cs)
    have htext : (scanNumber (c :: cs)).text = (scanNumber (c :: (cs ++ br :: more))).text := by
      rw [hnumber]
      rfl
    rw [htext]
    refine .number ((State.numberAhead_extended hbr more).2 hstart) fun hw => ?_
    rw [hnumber] at hw
    rw [← htext]
    exact hbad hw
  | word hw hscan => exact absurd hscan (scanBareWord_ne_none hcs)
  | definitionName hw hscan _ _ _ hname =>
    have hahead := (List.dropWhile_suffix isBlank).trans (scanBareWord_suffix hscan)
    exact absurd hname (scanWord_ne_none fun hmem => hbehind (hahead.subset hmem))
  | unclosedInDefinition hw hscan hin hend hparens =>
    exact .unclosedInDefinition (by rwa [startsWord_gap hbr]) (scanBareWord_gap hbr more hscan)
      (State.inDefinition_extended.trans hin) hend (Level.extended_parens hparens)

/-- A source without a backslash is refused for the same cause with a gap and more behind it. -/
theorem State.Halts.read_extended {source more : List Char} (h : s.Halts source r)
    (hsource : '\\' ∉ source) (hgap : Gap tail more) :
    (s.extended tail).read (source ++ tail) = .error ⟨r.cause, r.rest ++ tail⟩ := by
  obtain ⟨br, behind, rfl, hbr⟩ := hgap.blank
  induction h with
  | @here s c source cs r hskip hr =>
    have hrefuses := hr.extended hbr behind (not_mem_of_skipTrivia hskip hsource)
    rw [← startsTrivia_append (ne_nil_of_skipTrivia hskip) (br :: behind)] at hrefuses
    exact State.read_of_refused (skipTrivia_append_of_cons hskip _) hrefuses.item_eq
  | @later s t c source cs rest r hskip ht hlater ih =>
    have htakes := ht.extended hbr behind fun _ hblank => by
      -- an item follows, so there are not only blanks
      cases hlater with
      | here hs _ =>
        rw [skipTrivia_of_blank hblank] at hs
        cases hs
      | later hs _ _ =>
        rw [skipTrivia_of_blank hblank] at hs
        cases hs
    rw [← startsTrivia_append (ne_nil_of_skipTrivia hskip) (br :: behind)] at htakes
    rw [State.read_of_item (skipTrivia_append_of_cons hskip _) htakes.item_eq]
    exact ih fun hmem => not_mem_of_skipTrivia hskip hsource (ht.suffix.subset hmem)

end Refused

/-! ### The same source with two gaps -/

theorem Level.over_extended (l : Level) (tail tail' : List Char) :
    (l.extended tail).Over (fun _ _ => True) [] (l.extended tail') := by
  refine ⟨?_, (List.append_nil _).symm, ?_⟩
  · cases hc : l.closer with
    | program =>
      simp only [Level.extended, hc]
      exact .program
    | bracket opened =>
      simp only [Level.extended, hc]
      exact .bracket trivial
    | definition opened name params heading =>
      simp only [Level.extended, hc]
      exact .definition name params heading trivial
  · simp only [Level.extended, List.forall₂_map_left_iff, List.forall₂_map_right_iff]
    exact List.forall₂_same.2 fun _ _ => trivial

theorem Level.extended_isProgram (l : Level) (tail : List Char) :
    (l.extended tail).closer.isProgram = l.closer.isProgram := by
  cases hc : l.closer <;> simp only [Level.extended, hc] <;> rfl

/-- The levels are the same but for the places at which they were opened. -/
theorem Nested.over_extended {l : Level} {outer : List Level} (h : Nested l outer)
    (tail tail' : List Char) :
    Levels.Over (fun _ _ => True) [] (l.extended tail :: outer.map (Level.extended tail))
      (l.extended tail' :: outer.map (Level.extended tail')) := by
  induction h with
  | program hp => exact .outermost ((Level.extended_isProgram _ _).trans hp) (Level.over_extended _ _ _)
  | inside hp _ ih =>
    exact .inside ((Level.extended_isProgram _ _).trans hp) (Level.over_extended _ _ _) rfl ih

theorem Answer.Over.mapError_cause {R : List Char → List Char → Prop}
    {answer answer' : Except Refusal (List Value)} (h : Answer.Over R [] answer answer') :
    answer.mapError Refusal.cause = answer'.mapError Refusal.cause := by
  cases h with
  | program items => rfl
  | refused hcause _ => exact congrArg Except.error hcause.symm

/-- Which gap there is between two sources makes no difference, unless a name comes into view of
the word `to`. -/
theorem readProgram_gaps {source tail tail' more : List Char} (hsource : '\\' ∉ source)
    (hgap : Gap tail more) (hgap' : Gap tail' more)
    (hto : State.initial.awaits source = true → startsName (tail.dropWhile isBlank) = false ∧
      startsName (tail'.dropWhile isBlank) = false) :
    (readProgram (source ++ tail)).mapError Refusal.cause
      = (readProgram (source ++ tail')).mapError Refusal.cause := by
  obtain ⟨u, hu⟩ | ⟨r, hr⟩ := State.initial.reads_or_halts source
  · have hread := hu.read_extended hgap fun ha => (hto ha).1
    have hread' := hu.read_extended hgap' fun ha => (hto ha).2
    have hskip : skipTrivia false tail' = skipTrivia false tail :=
      (hgap'.skip false).trans (hgap.skip false).symm
    have hcongr := State.read_congr (u.extended tail') hskip
      (hgap'.startsTrivia.trans hgap.startsTrivia.symm)
    have hover : (u.extended tail).Over (fun _ _ => True) [] (u.extended tail') :=
      (hu.nested (.program rfl)).over_extended tail tail'
    have hanswer := (hover.read (fun _ => trivial) rfl tail).mapError_cause
    show ((State.initial.extended tail).read (source ++ tail)).mapError _
      = ((State.initial.extended tail').read (source ++ tail')).mapError _
    rw [hread, hread', hcongr, hanswer]
  · show ((State.initial.extended tail).read (source ++ tail)).mapError _
      = ((State.initial.extended tail').read (source ++ tail')).mapError _
    rw [hr.read_extended hsource hgap, hr.read_extended hsource hgap']
    rfl

end Logo.Source

namespace Logo
open Source Text

/-- Does a source end with the word `to` of the program and at most blanks behind it? -/
def awaitsName (source : String) : Bool := State.initial.awaits source.toList

theorem parse_mapError_cause (source : String) :
    (parse source).mapError Source.Fault.cause
      = (readProgram source.toList).mapError Refusal.cause := by
  unfold parse
  cases readProgram source.toList <;> rfl

/-- **Comments are blanks.** With a comment at the end of a line a source is read as the same
program, or refused for the same cause, as without it, unless the line ends with the word `to` and
the name to define comes on the next one. -/
theorem comments_are_blanks {before comment after : String} (hbefore : '\\' ∉ before.toList)
    (hcomment : '\n' ∉ comment.toList)
    (hto : ¬ (awaitsName before = true ∧ startsName (after.toList.dropWhile isBlank) = true)) :
    (parse (before ++ " ;" ++ comment ++ "\n" ++ after)).mapError Source.Fault.cause
      = (parse (before ++ " " ++ "\n" ++ after)).mapError Source.Fault.cause := by
  have hsource : (before ++ " ;" ++ comment ++ "\n" ++ after).toList
      = before.toList ++ ' ' :: ';' :: (comment.toList ++ '\n' :: after.toList) := by
    simp [String.toList_append]
  have hsource' : (before ++ " " ++ "\n" ++ after).toList
      = before.toList ++ ' ' :: '\n' :: after.toList := by
    simp [String.toList_append]
  rw [parse_mapError_cause, parse_mapError_cause, hsource, hsource']
  refine readProgram_gaps hbefore (gap_comment hcomment _) (gap_break _) fun hawaits => ⟨rfl, ?_⟩
  exact Bool.eq_false_iff.2 fun hname => hto ⟨hawaits, hname⟩

/-- The word `to` is followed by no name, so the comment changes nothing. -/
theorem comments_are_blanks_trial :
    '\\' ∉ "to".toList ∧ '\n' ∉ "f".toList ∧ startsName (":x".toList.dropWhile isBlank) = false ∧
    (parse ("to" ++ " ;" ++ "f" ++ "\n" ++ ":x")).mapError Source.Fault.cause
      = (parse ("to" ++ " " ++ "\n" ++ ":x")).mapError Source.Fault.cause := by
  have hbefore : '\\' ∉ "to".toList := by decide
  have hcomment : '\n' ∉ "f".toList := by decide
  have hname : startsName (":x".toList.dropWhile isBlank) = false := by decide
  refine ⟨hbefore, hcomment, hname, comments_are_blanks hbefore hcomment fun h => ?_⟩
  exact absurd (hname.symm.trans h.2) (by decide)

/-- With a comment between `to` and the name, nothing is defined. -/
theorem comment_hides_name :
    parse ("to" ++ " ;" ++ "" ++ "\n" ++ "f\nend") = .ok [.text "to", .text "f", .text "end"] ∧
    parse ("to" ++ " " ++ "\n" ++ "f\nend")
      = .ok [.text "(", .text "to", .text "\"f", .list [], .text ")"] ∧
    (parse ("to" ++ " ;" ++ "" ++ "\n" ++ "f\nend")).mapError Source.Fault.cause
      ≠ (parse ("to" ++ " " ++ "\n" ++ "f\nend")).mapError Source.Fault.cause := by
  have hcommented : parse ("to" ++ " ;" ++ "" ++ "\n" ++ "f\nend")
      = .ok [.text "to", .text "f", .text "end"] := by
    have hto : State.initial.item false 't' "o ;\nf\nend".toList
        = .ok (State.initial.push (.text "to") true, " ;\nf\nend".toList) := by cbv
    have hf : (State.initial.push (.text "to") true).item true 'f' "\nend".toList
        = .ok ((State.initial.push (.text "to") true).push (.text "f") true, "\nend".toList) := by cbv
    have hend : ((State.initial.push (.text "to") true).push (.text "f") true).item true 'e' "nd".toList
        = .ok (((State.initial.push (.text "to") true).push (.text "f") true).push (.text "end") true,
          []) := by cbv
    rw [parse_ok_iff]
    show State.initial.read "to ;\nf\nend".toList = _
    rw [State.read_of_item rfl hto, State.read_of_item rfl hf, State.read_of_item rfl hend,
      State.read_of_end rfl]
    rfl
  have hblank : parse ("to" ++ " " ++ "\n" ++ "f\nend")
      = .ok [.text "(", .text "to", .text "\"f", .list [], .text ")"] := by
    let heading : State :=
      ⟨{ closer := .definition "to \nf\nend".toList "f" [] true }, [{ closer := .program }]⟩
    let defined : State := ⟨{ closer := .program, items := definitionItems "f" [] [], tight := true }, []⟩
    have hto : State.initial.item false 't' "o \nf\nend".toList = .ok (heading, "\nend".toList) := by cbv
    have hend : heading.item true 'e' "nd".toList = .ok (defined, []) := by cbv
    rw [parse_ok_iff]
    show State.initial.read "to \nf\nend".toList = _
    rw [State.read_of_item rfl hto, State.read_of_item rfl hend, State.read_of_end rfl]
    rfl
  refine ⟨hcommented, hblank, ?_⟩
  rw [hcommented, hblank]
  intro h
  have hlength := congrArg List.length (Except.ok.inj h)
  simp at hlength

end Logo
