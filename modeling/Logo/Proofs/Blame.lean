import Logo.Proofs.NumberGrammar
import Logo.Proofs.Positions

/-!
# What a refusal points to

Each place that a refusal can name was noted when the reader came by: where a list, a group or a
definition began, or where the item stands that is refused. `Cause.Blames` says for each cause what
stands in the place that is blamed for it. For a list that is not closed this is a matter of all the
items of the source (`State.places`): the bracket that is blamed has no partner, and every bracket
behind it has one.
-/

namespace Logo.Source
set_option autoImplicit false
open Logo.Text

/-! ### Items and their places -/

/-- The source from each item on, in the order of the items; one that is refused is the last. -/
def State.places (s : State) (source : List Char) : List (List Char) :=
  match _skipped : skipTrivia false source with
  | [] => []
  | c :: cs =>
    match _taken : s.item (startsTrivia source) c cs with
    | .error _ => [c :: cs]
    | .ok (t, rest) => (c :: cs) :: t.places rest
termination_by source.length
decreasing_by
  have := State.length_item_le _taken
  have := length_skipTrivia_le false source
  rw [_skipped] at this
  simp only [List.length_cons] at this
  omega

section Places

variable {s t : State} {source cs rest : List Char} {c : Char}

theorem State.places_of_end (hs : skipTrivia false source = []) : s.places source = [] := by
  rw [State.places]
  split
  · rfl
  · rename_i h
    rw [hs] at h
    cases h

theorem State.places_of_item (hs : skipTrivia false source = c :: cs)
    (hi : s.item (startsTrivia source) c cs = .ok (t, rest)) :
    s.places source = (c :: cs) :: t.places rest := by
  rw [State.places]
  split
  · rename_i h
    rw [hs] at h
    cases h
  · rename_i h
    rw [hs] at h
    cases h
    split
    · rename_i h
      rw [hi] at h
      cases h
    · rename_i h
      rw [hi] at h
      cases h
      rfl

end Places

/-- Among items in these places, each bracket has its partner. -/
inductive Paired : List (List Char) → Prop where
  | nil : Paired []
  | other {place : List Char} {more : List (List Char)} : place.head? ≠ some '[' →
      place.head? ≠ some ']' → Paired more → Paired (place :: more)
  | list {opening closing : List Char} {inside more : List (List Char)} : opening.head? = some '[' →
      closing.head? = some ']' → Paired inside → Paired more →
      Paired (opening :: (inside ++ closing :: more))

theorem Paired.append {places more : List (List Char)} (h : Paired places) (h' : Paired more) :
    Paired (places ++ more) := by
  induction h with
  | nil => exact h'
  | other ho hc _ ih => exact .other ho hc ih
  | list ho hc hinside _ _ ih =>
    rw [List.cons_append, List.append_assoc, List.cons_append]
    exact .list ho hc hinside ih

/-! ### What stands in a place -/

/-- The word `to` stands here and the next word spells `name`. -/
def Heads (place : List Char) (name : String) : Prop :=
  ∃ first word blanks written rest, place = first ++ (blanks ++ (written ++ rest)) ∧
    Spells isTerminator first word ∧ sameName (String.ofList word) "to" = true ∧
    blanks ≠ [] ∧ (∀ b ∈ blanks, isBlank b = true) ∧
    Spells isTerminator written name.toList ∧ written ≠ [] ∧ Stopped isTerminator rest

/-- A quoted word, the name of a variable or a bare word, up to the backslash that ends the
source. -/
inductive CutOff : List Char → Prop where
  | quoted {written word : List Char} : Spells isDelimiter written word →
      CutOff ('"' :: (written ++ ['\\']))
  | variableName {written word : List Char} : Spells isTerminator written word →
      CutOff (':' :: (written ++ ['\\']))
  | bare {written word : List Char} : (written ++ ['\\']).head? ≠ some '"' →
      (written ++ ['\\']).head? ≠ some ':' → Spells isTerminator written word →
      CutOff (written ++ ['\\'])

/-- What stands in the place that is blamed, where `places` are those of all items. -/
def Cause.Blames (places : List (List Char)) (place : List Char) : Cause → Prop
  | unterminatedList => place.head? = some '[' ∧
      ∃ before after, places = before ++ place :: after ∧ Paired after
  | unterminatedParen => place.head? = some '('
  | unterminatedString => CutOff place
  | unexpectedClose c => place.head? = some c
  | malformedNumber text => text.toList ≠ [] ∧
      ∃ more, place = text.toList ++ more ∧ Stopped isTerminator more
  | missingVariableName => place.head? = some ':'
  | unterminatedDefinition name => Heads place name

section Fronts

variable {c : Char} {cs word behind : List Char}

/-- A bare word is spelled by what the reader takes for it. -/
theorem scanBareWord_spells (hw : startsWord c cs = true) (hc : isBlank c = false ∧ c ≠ ';')
    (h : scanBareWord c cs = some (word, behind)) :
    ∃ written, c :: cs = written ++ behind ∧ Spells isTerminator written word ∧
      Stopped isTerminator behind := by
  rw [scanBareWord_eq (isTerminator_of_startsWord hw hc)] at h
  exact (scanWord_iff isTerminator_backslash).1 h

/-- Where a definition is opened its heading stands. -/
theorem heads_of_scan {name rest : List Char} (hw : startsWord c cs = true)
    (hc : isBlank c = false ∧ c ≠ ';') (hscan : scanBareWord c cs = some (word, behind))
    (hto : sameName (String.ofList word) "to" = true)
    (hstart : startsName (behind.dropWhile isBlank) = true)
    (hname : scanWord isTerminator [] (behind.dropWhile isBlank) = some (name, rest)) :
    Heads (c :: cs) (String.ofList name) := by
  obtain ⟨first, hfirst, hspells, hstopped⟩ := scanBareWord_spells hw hc hscan
  obtain ⟨written, hwritten, hspelled, hrest⟩ := (scanWord_iff isTerminator_backslash).1 hname
  obtain ⟨d, ds, hahead⟩ : ∃ d ds, behind.dropWhile isBlank = d :: ds := by
    cases hb : behind.dropWhile isBlank with
    | nil =>
      rw [hb] at hstart
      cases hstart
    | cons d ds => exact ⟨d, ds, rfl⟩
  have hd : isTerminator d = false := by
    rw [hahead] at hstart
    simp only [startsName, Bool.and_eq_true, Bool.not_eq_true'] at hstart
    exact hstart.1.1.1
  refine ⟨first, word, behind.takeWhile isBlank, written, rest, ?_, hspells, hto, ?_, ?_, ?_, ?_, hrest⟩
  · rw [hfirst, ← hwritten, List.takeWhile_append_dropWhile]
  · -- without a blank the name would go on where the word before it stopped
    intro hnone
    have hbehind : behind = d :: ds := by
      calc behind = behind.takeWhile isBlank ++ behind.dropWhile isBlank :=
            List.takeWhile_append_dropWhile.symm
        _ = d :: ds := by rw [hnone, hahead, List.nil_append]
    have hstop := hstopped d (by rw [hbehind]; rfl)
    rw [hd] at hstop
    cases hstop
  · exact fun b hb => List.all_eq_true.1 List.all_takeWhile b hb
  · rw [String.toList_ofList]
    exact hspelled
  · rintro rfl
    have hstop := hrest d (by rw [← List.nil_append rest, ← hwritten, hahead]; rfl)
    rw [hd] at hstop
    cases hstop

/-- A word that is cut off begins with none of the marks if it does not. -/
theorem cutOff_bare (hscan : scanWord isTerminator [] cs = none) (hquote : cs.head? ≠ some '"')
    (hcolon : cs.head? ≠ some ':') : CutOff cs := by
  obtain ⟨written, word, rfl, hspells⟩ := (scanWord_eq_none_iff isTerminator_backslash).1 hscan
  exact .bare hquote hcolon hspells

end Fronts

/-! ### What the open lists are marked with -/

def Closer.heading? : Closer → Option (List Char × String)
  | .definition opened name _ _ => some (opened, name)
  | _ => none

theorem Closer.heading?_body (c : Closer) : c.body.heading? = c.heading? := by
  cases c <;> rfl

/-- The places that a list keeps are those of parentheses and of the heading of a definition. -/
structure Level.Marked (l : Level) : Prop where
  parens : ∀ place ∈ l.parens, place.head? = some '('
  heading : ∀ place name, l.closer.heading? = some (place, name) → Heads place name

def State.Marked (s : State) : Prop := ∀ l ∈ s.level :: s.outer, l.Marked

section Marks

variable {s t : State} {spaced : Bool} {c : Char} {cs rest : List Char} {r : Refusal}

theorem Level.Marked.push {l : Level} (h : l.Marked) (v : Value) (tight : Bool) :
    (l.push v tight).Marked :=
  ⟨h.parens, fun place name hp => h.heading place name ((Closer.heading?_body _).symm.trans hp)⟩

theorem Level.Marked.reopen {l : Level} (h : l.Marked) {parens : List (List Char)}
    (hp : ∀ place ∈ parens, place.head? = some '(') : Level.Marked { l with parens } :=
  ⟨hp, h.heading⟩

theorem State.initial_marked : State.initial.Marked := by
  intro l hl
  rw [List.mem_singleton.1 hl]
  exact ⟨fun place hp => (by cases hp), fun place name hp => (by cases hp)⟩

theorem State.Takes.marked (h : s.Takes spaced c cs t rest) (hc : isBlank c = false ∧ c ≠ ';')
    (hs : s.Marked) : t.Marked := by
  obtain ⟨hlevel, houter⟩ := List.forall_mem_cons.1 hs
  have inner {l : Level} {outer : List Level} (ho : s.outer = l :: outer) :
      l.Marked ∧ ∀ l ∈ outer, l.Marked := by
    rw [ho] at houter
    exact List.forall_mem_cons.1 houter
  have hparens := hlevel.parens
  cases h with
  | openList =>
    exact List.forall_mem_cons.2
      ⟨⟨fun place hp => (by cases hp), fun place name hp => (by cases hp)⟩, hs⟩
  | closeList _ _ ho _ => exact List.forall_mem_cons.2 ⟨(inner ho).1.push _ _, (inner ho).2⟩
  | openGroup =>
    have hnew := hlevel.reopen (List.forall_mem_cons.2 ⟨(rfl : ('(' :: cs).head? = some '('), hparens⟩)
    exact List.forall_mem_cons.2 ⟨hnew.push _ _, houter⟩
  | closeGroup _ hp =>
    rw [hp] at hparens
    have hrest := hlevel.reopen (List.forall_mem_cons.1 hparens).2
    exact List.forall_mem_cons.2 ⟨hrest.push _ _, houter⟩
  | parameter _ _ hcloser =>
    refine List.forall_mem_cons.2 ⟨⟨hparens, fun place name hp => hlevel.heading place name ?_⟩, houter⟩
    rw [hcloser]
    exact hp
  | beginDefinition hw hscan _ hto hstart hname =>
    refine List.forall_mem_cons.2 ⟨⟨fun place hp => (by cases hp), fun place name hp => ?_⟩, hs⟩
    cases hp
    exact heads_of_scan hw hc hscan hto hstart hname
  | endDefinition _ _ _ ho =>
    exact List.forall_mem_cons.2 ⟨⟨(inner ho).1.parens, (inner ho).1.heading⟩, (inner ho).2⟩
  | _ => exact List.forall_mem_cons.2 ⟨hlevel.push _ _, houter⟩

end Marks

/-! ### Which brackets are open -/

def Closer.bracket? : Closer → Option (List Char)
  | .bracket opened => some opened
  | _ => none

theorem Closer.bracket?_body (c : Closer) : c.body.bracket? = c.bracket? := by
  cases c <;> rfl

/-- The places of the brackets that are open, innermost first. -/
def State.brackets (s : State) : List (List Char) :=
  (s.level :: s.outer).filterMap fun l => l.closer.bracket?

/-- Behind items in these places the brackets `opened` are open. -/
inductive Opened : List (List Char) → List (List Char) → Prop where
  | none (places : List (List Char)) : Opened places []
  | inside {place : List Char} {before after opened : List (List Char)} : Opened before opened →
      place.head? = some '[' → Paired after → Opened (before ++ place :: after) (place :: opened)

theorem Opened.append {places more opened : List (List Char)} (h : Opened places opened)
    (hmore : Paired more) : Opened (places ++ more) opened := by
  cases h with
  | none => exact .none _
  | inside hbefore hplace hafter =>
    rw [List.append_assoc, List.cons_append]
    exact .inside hbefore hplace (hafter.append hmore)

/-- A closing bracket is the partner of the innermost one that is open. -/
theorem Opened.close {places opened : List (List Char)} {place closing : List Char}
    (h : Opened places (place :: opened)) (hc : closing.head? = some ']') :
    Opened (places ++ [closing]) opened := by
  cases h with
  | @inside _ before after _ hbefore hplace hafter =>
    rw [List.append_assoc, List.cons_append]
    exact hbefore.append (.list hplace hc hafter .nil)

section Brackets

variable {s t : State} {spaced : Bool} {c : Char} {cs rest : List Char}

theorem State.brackets_relevel {l : Level} (h : l.closer.bracket? = s.level.closer.bracket?) :
    State.brackets { s with level := l } = s.brackets := by
  simp only [State.brackets, List.filterMap_cons, h]

theorem State.brackets_push (s : State) (v : Value) (tight : Bool) :
    (s.push v tight).brackets = s.brackets := State.brackets_relevel (Closer.bracket?_body _)

/-- Going back to the list around the current one. -/
theorem State.brackets_leave {l k : Level} {outer : List Level} (houter : s.outer = l :: outer)
    (hk : k.closer.bracket? = l.closer.bracket?) :
    s.brackets = s.level.closer.bracket?.toList ++ State.brackets { level := k, outer } := by
  simp only [State.brackets, houter, List.filterMap_cons, hk]
  cases s.level.closer.bracket? with
  | none => rfl
  | some opened => rfl

/-- An item opens a bracket, closes the innermost one or is no bracket. -/
theorem State.Takes.brackets (h : s.Takes spaced c cs t rest) :
    c = '[' ∧ t.brackets = (c :: cs) :: s.brackets ∨
    c = ']' ∧ (∃ opened, s.brackets = opened :: t.brackets) ∨
    c ≠ '[' ∧ c ≠ ']' ∧ t.brackets = s.brackets := by
  cases h with
  | openList => exact .inl ⟨rfl, rfl⟩
  | @closeList _ opened l outer items hcloser houter _ =>
    refine .inr (.inl ⟨rfl, opened, ?_⟩)
    rw [State.brackets_leave (k := l.push (.list items) true) houter (Closer.bracket?_body _), hcloser]
    rfl
  | openGroup | closeGroup =>
    exact .inr (.inr ⟨by decide, by decide, State.brackets_relevel (Closer.bracket?_body _)⟩)
  | quoted | variableName => exact .inr (.inr ⟨by decide, by decide, State.brackets_push _ _ _⟩)
  | parameter _ _ hcloser =>
    exact .inr (.inr ⟨by decide, by decide, State.brackets_relevel (by rw [hcloser]; rfl)⟩)
  | number hstart =>
    refine .inr (.inr ?_)
    rcases hstart with ⟨rfl, -⟩ | hstart
    · exact ⟨by decide, by decide, State.brackets_push _ _ _⟩
    · obtain ⟨h1, h2, -⟩ := not_special_of_startsNumber hstart
      exact ⟨h1, h2, State.brackets_push _ _ _⟩
  | operator _ hsymbol =>
    refine .inr (.inr ⟨?_, ?_, State.brackets_push _ _ _⟩)
    all_goals
      rintro rfl
      cases hsymbol
  | word hw =>
    obtain ⟨h1, h2, -⟩ := startsWord_ne hw
    exact .inr (.inr ⟨h1, h2, State.brackets_push _ _ _⟩)
  | beginDefinition hw =>
    obtain ⟨h1, h2, -⟩ := startsWord_ne hw
    exact .inr (.inr ⟨h1, h2, rfl⟩)
  | endDefinition hw _ hcloser houter =>
    obtain ⟨h1, h2, -⟩ := startsWord_ne hw
    refine .inr (.inr ⟨h1, h2, ?_⟩)
    rw [State.brackets_leave houter rfl, hcloser]
    rfl

theorem State.Takes.opened {places : List (List Char)} (h : s.Takes spaced c cs t rest)
    (ho : Opened places s.brackets) : Opened (places ++ [c :: cs]) t.brackets := by
  rcases h.brackets with ⟨rfl, ht⟩ | ⟨rfl, opened, hs⟩ | ⟨h1, h2, ht⟩
  · rw [ht]
    exact .inside ho rfl .nil
  · rw [hs] at ho
    exact ho.close rfl
  · rw [ht]
    exact ho.append (.other (by simpa using h1) (by simpa using h2) .nil)

end Brackets

/-! ### Where the blame falls -/

section Blame

variable {s : State} {spaced : Bool} {c : Char} {source cs : List Char} {r : Refusal}
  {places : List (List Char)}

theorem State.Refuses.blames (h : s.Refuses spaced c cs r) (hc : isBlank c = false ∧ c ≠ ';')
    (hs : s.Marked) : r.cause.Blames places r.rest := by
  have hparens := (hs _ List.mem_cons_self).parens
  cases h with
  | strayBracket | strayParen | nameless => rfl
  | unclosedInList _ _ hp => exact hparens _ (hp ▸ List.mem_cons_self)
  | unclosedInDefinition _ _ _ _ hp => exact hparens _ (hp ▸ List.mem_cons_self)
  | quoted hscan =>
    obtain ⟨written, word, rfl, hspells⟩ := (scanWord_eq_none_iff isDelimiter_backslash).1 hscan
    exact .quoted hspells
  | variableName hscan =>
    obtain ⟨written, word, rfl, hspells⟩ := (scanWord_eq_none_iff isTerminator_backslash).1 hscan
    exact .variableName hspells
  | number hstart =>
    have hsplit := scanNumber_split (c :: cs)
    have hshort := length_scanNumber_le (hstart.imp_left And.left)
    simp only [Cause.Blames, String.toList_ofList]
    refine ⟨fun hempty => ?_, _, hsplit.symm, scanNumber_stopped _⟩
    rw [hempty, List.nil_append] at hsplit
    rw [hsplit, List.length_cons] at hshort
    omega
  | word hw hscan =>
    rw [scanBareWord_eq (isTerminator_of_startsWord hw hc)] at hscan
    obtain ⟨-, -, -, -, hquote, hcolon, -⟩ := startsWord_ne hw
    exact cutOff_bare hscan (by simpa using hquote) (by simpa using hcolon)
  | @definitionName _ _ _ behind _ _ _ _ hstart hname =>
    refine cutOff_bare hname ?_ ?_
    all_goals
      intro hhead
      cases hb : behind.dropWhile isBlank with
      | nil =>
        rw [hb] at hstart
        cases hstart
      | cons d ds =>
        rw [hb] at hstart hhead
        cases hhead
        cases hstart

theorem State.finish_blames (h : s.finish = .error r) (hs : s.Marked)
    (ho : Opened places s.brackets) : r.cause.Blames places r.rest := by
  have hlevel := hs _ List.mem_cons_self
  unfold State.finish at h
  split at h
  · obtain ⟨opened, parens, hp, rfl⟩ := Level.close_error h
    exact hlevel.parens opened (hp ▸ List.mem_cons_self)
  · rename_i opened hcloser
    cases h
    have hinnermost : s.brackets = opened :: s.outer.filterMap fun l => l.closer.bracket? := by
      simp only [State.brackets, hcloser, List.filterMap_cons, Closer.bracket?]
    rw [hinnermost] at ho
    cases ho with
    | @inside _ before after _ _ hplace hafter => exact ⟨hplace, before, after, rfl, hafter⟩
  · rename_i opened name params heading hcloser
    cases h
    exact hlevel.heading opened name (by rw [hcloser]; rfl)

/-- Whatever a source is refused for stands in the place that is blamed for it. -/
theorem State.read_blames (h : s.read source = .error r) (hs : s.Marked)
    (ho : Opened places s.brackets) : r.cause.Blames (places ++ s.places source) r.rest := by
  fun_induction State.read s source generalizing places with
  | case1 s source hskip =>
    rw [State.places_of_end hskip, List.append_nil]
    exact State.finish_blames h hs ho
  | case2 s source c cs hskip r' hi =>
    cases h
    exact (refuses_of_item hi).blames (not_blank_of_skipTrivia hskip) hs
  | case3 s source c cs hskip t rest hi ih =>
    have ht := takes_of_item hi
    rw [State.places_of_item hskip hi, List.append_cons]
    exact ih h (ht.marked (not_blank_of_skipTrivia hskip) hs) (ht.opened ho)

end Blame

/-! ### Counting out the place -/

/-- A column counts the characters since the last line break. -/
theorem Position.column_behind (cs : List Char) :
    (behind cs).column = 1 + (cs.reverse.takeWhile (· != '\n')).length := by
  induction cs using List.reverseRecOn with
  | nil => rfl
  | append_singleton cs c ih =>
    rw [behind, List.foldl_append, List.foldl_cons, List.foldl_nil, List.reverse_append]
    have hcolumn : (cs.foldl advance start).column = 1 + (cs.reverse.takeWhile (· != '\n')).length := ih
    by_cases hc : c = '\n'
    · simp [advance, hc]
    · rw [advance, if_neg hc, hcolumn]
      simp only [List.reverse_singleton, List.singleton_append, List.takeWhile_cons, bne_iff_ne,
        ne_eq, hc, not_false_eq_true, if_true, List.length_cons]
      omega

theorem CutOff.ne_nil {place : List Char} (h : CutOff place) : place ≠ [] := by
  cases h <;> simp

/-- There is something in a place that is blamed. -/
theorem Cause.Blames.ne_nil {places : List (List Char)} {place : List Char} {cause : Cause}
    (h : cause.Blames places place) : place ≠ [] := by
  rintro rfl
  cases cause with
  | unterminatedList => cases h.1
  | unterminatedParen | unexpectedClose | missingVariableName => cases h
  | unterminatedString => exact CutOff.ne_nil h rfl
  | malformedNumber text =>
    obtain ⟨hsome, more, htext, -⟩ := h
    exact hsome (List.append_eq_nil_iff.1 htext.symm).1
  | unterminatedDefinition name =>
    obtain ⟨first, word, blanks, written, rest, hplace, -, -, hblanks, -⟩ := h
    have hrest := (List.append_eq_nil_iff.1 hplace.symm).2
    exact hblanks (List.append_eq_nil_iff.1 hrest).1

/-- What stands before the place of a refusal, and what stands there. -/
theorem Refusal.locate_append (before : List Char) (r : Refusal) :
    r.locate (before ++ r.rest) = ⟨r.cause, Position.behind before⟩ := by
  have htake : (before ++ r.rest).take ((before ++ r.rest).length - r.rest.length) = before := by
    rw [List.length_append, Nat.add_sub_cancel, List.take_left]
  rw [locate, htake]

end Logo.Source

namespace Logo
open Source

/-- **Refusals point at what they are about.** A source that cannot be read is divided at the
place that is reported, before its end: the offset counts the bytes of what stands before the
place, the line its line breaks, the column the characters since the last of them. Behind the
place stands what the cause says. -/
theorem faults_point_at_cause {source : String} {cause : Cause} {offset line column : Nat}
    (h : parse source = .error ⟨cause, ⟨offset, line, column⟩⟩) :
    ∃ before place : String, source = before ++ place ∧ place ≠ "" ∧
      offset = before.utf8ByteSize ∧ line = 1 + before.toList.count '\n' ∧
      column = 1 + (before.toList.reverse.takeWhile (· != '\n')).length ∧
      cause.Blames (State.initial.places source.toList) place.toList := by
  obtain ⟨r, hr, hfault⟩ := parse_error_iff.1 h
  obtain ⟨before, hbefore⟩ := readProgram_error_suffix hr
  rw [← hbefore, Refusal.locate_append] at hfault
  obtain ⟨rfl, hposition⟩ := Fault.mk.inj hfault
  obtain ⟨hoffset, hline⟩ := Position.foldl_advance before Position.start
  have hcolumn := Position.column_behind before
  rw [Position.behind] at hposition hcolumn
  rw [← hposition] at hoffset hline hcolumn
  have hblames : r.cause.Blames (State.initial.places source.toList) r.rest :=
    State.read_blames hr State.initial_marked (.none [])
  refine ⟨String.ofList before, String.ofList r.rest, ?_, ?_, ?_, ?_, ?_, ?_⟩
  · rw [← String.ofList_append, hbefore, String.ofList_toList]
  · rw [ne_eq, String.ofList_eq_empty_iff]
    exact hblames.ne_nil
  · rw [String.utf8ByteSize_ofList]
    exact hoffset.trans (Nat.zero_add _)
  · rw [String.toList_ofList]
    exact hline
  · rw [String.toList_ofList]
    exact hcolumn
  · rw [String.toList_ofList]
    exact hblames

/-- `é` takes two bytes, and of three brackets that open a list the last one is blamed. -/
theorem faults_point_at_cause_trial :
    parse "é[\n[] [" = .error ⟨.unterminatedList, ⟨7, 2, 4⟩⟩ ∧
    ∃ before place : String, "é[\n[] [" = before ++ place ∧ place ≠ "" ∧
      7 = before.utf8ByteSize ∧ 2 = 1 + before.toList.count '\n' ∧
      4 = 1 + (before.toList.reverse.takeWhile (· != '\n')).length ∧
      Cause.unterminatedList.Blames (State.initial.places "é[\n[] [".toList) place.toList := by
  have hword : State.initial.item false 'é' ['[', '\n', '[', ']', ' ', '[']
      = .ok (State.initial.push (.text "é") true, ['[', '\n', '[', ']', ' ', '[']) := by cbv
  have hread : readProgram "é[\n[] [".toList = .error ⟨.unterminatedList, ['[']⟩ := by
    show State.initial.read ['é', '[', '\n', '[', ']', ' ', '['] = _
    rw [State.read_of_item rfl hword, State.read_of_item rfl rfl, State.read_of_item rfl rfl,
      State.read_of_item rfl rfl, State.read_of_item rfl rfl, State.read_of_end rfl]
    rfl
  have hparse : parse "é[\n[] [" = .error ⟨.unterminatedList, ⟨7, 2, 4⟩⟩ :=
    parse_error_iff.2 ⟨_, hread, rfl⟩
  exact ⟨hparse, faults_point_at_cause hparse⟩

end Logo
