import Logo.Proofs.ReadBack

/-!
# What a source without quoting is read as

A source in which no character is quoted and that has no comments is read as a plain
program, if its numbers are finite. `Members` is what holds of the members of each list
that is being read; `State.Takes.sound` carries it over one item. With `ReadBack` it
follows that printing such a program and reading it again changes nothing.
-/

namespace Logo.Source
set_option autoImplicit false
open Logo.Text Logo.Value

/-! ### Sources without quoting and comments -/

/-- No backslash and no comment. -/
def Clean (source : List Char) : Prop := '\\' ∉ source ∧ ';' ∉ source

theorem Clean.suffix {source rest : List Char} (h : Clean source) (hrest : rest <:+ source) :
    Clean rest :=
  ⟨fun hc => h.1 (hrest.subset hc), fun hc => h.2 (hrest.subset hc)⟩

theorem skipTrivia_clean {source : List Char} (h : ';' ∉ source) :
    skipTrivia false source = source.dropWhile isBlank := by
  induction source with
  | nil => rfl
  | cons c cs ih =>
    rw [List.mem_cons, not_or] at h
    rw [skipTrivia, if_neg Bool.false_ne_true, List.dropWhile_cons, if_neg (Ne.symm h.1), ih h.2]

/-- A word of a clean source: its characters all stand for themselves. -/
theorem scanWord_of_clean {stop : Char → Bool} {taken cs word rest : List Char} (h : Clean cs)
    (hscan : scanWord stop taken cs = some (word, rest)) :
    ∃ name, word = taken.reverse ++ name ∧ name <+: cs ∧ (∀ c ∈ name, stop c = false ∧ c ≠ '\\') ∧
      rest <:+ cs := by
  have hpre : cs.takeWhile (fun c => !stop c) <+: cs := List.takeWhile_prefix _
  have hno : '\\' ∉ cs.takeWhile fun c => !stop c := fun hc => h.1 (hpre.subset hc)
  rw [scanWord_clean hno] at hscan
  cases hscan
  refine ⟨_, rfl, hpre, fun c hc => ⟨?_, ?_⟩, List.dropWhile_suffix _⟩
  · simpa using List.all_eq_true.1 List.all_takeWhile c hc
  · rintro rfl
    exact hno hc

/-! ### Members -/

/-- Of the members of a list so far, last first: those with finite numbers are plain, `depth`
parentheses are open, and at the top no `to` begins a definition. -/
structure Members (top : Bool) (items : List Value) (depth : Nat) : Prop where
  plain : ∀ v ∈ items, v.finite = true → v.plain = true
  depth : items.reverse.foldlM depthAfter 0 = some depth
  names : top = true → beginsDefinition items.reverse = false

theorem beginsDefinition_snoc (vs : List Value) (w v : Value) :
    beginsDefinition (vs ++ [w, v]) = (beginsDefinition (vs ++ [w]) || w.isTo && v.isName) := by
  induction vs with
  | nil => simp [beginsDefinition]
  | cons a vs ih =>
    cases vs with
    | nil => simp [beginsDefinition]
    | cons b vs =>
      simp only [List.cons_append, beginsDefinition] at ih ⊢
      rw [ih, Bool.or_assoc]

theorem endsInTo_cons (v : Value) (items : List Value) : endsInTo (v :: items) = v.isTo := by
  cases v <;> rfl

theorem Members.nil (top : Bool) : Members top [] 0 := by
  refine ⟨fun v hv => ?_, rfl, fun _ => rfl⟩
  cases hv

theorem Members.push {top : Bool} {items : List Value} {depth depth' : Nat} {v : Value}
    (h : Members top items depth) (hplain : v.finite = true → v.plain = true)
    (hdepth : v.depthAfter depth = some depth')
    (hname : top = true → endsInTo items = true → v.isName = false) :
    Members top (v :: items) depth' := by
  refine ⟨fun w hw => ?_, ?_, fun htop => ?_⟩
  · obtain rfl | hw := List.mem_cons.1 hw
    · exact hplain
    · exact h.plain w hw
  · rw [List.reverse_cons, List.foldlM_append, h.depth]
    simpa using hdepth
  · have hno := h.names htop
    cases items with
    | nil => rfl
    | cons w items =>
      have hlast := hname htop
      rw [endsInTo_cons] at hlast
      have hlist : (v :: w :: items).reverse = items.reverse ++ [w, v] := by simp
      rw [List.reverse_cons] at hno
      rw [hlist, beginsDefinition_snoc, hno, Bool.false_or]
      cases hw : w.isTo with
      | false => rfl
      | true => rw [hlast hw, Bool.and_false]

/-! ### What an item adds -/

theorem isQuotable_of_isNameable {c : Char} (h : isNameable c = true) : isQuotable c = true := by
  obtain ⟨hterminator, hbackslash⟩ := isNameable_iff.1 h
  simp only [isTerminator, Bool.or_eq_false_iff] at hterminator
  exact isQuotable_iff.2 ⟨hterminator.1.1, hbackslash⟩

/-- A text that begins like none of the letters of `to` is not that word. -/
theorem isTo_text {c : Char} {cs : List Char} (h : c.toLower ≠ 't') :
    (Value.text (String.ofList (c :: cs))).isTo = false := by
  simp only [isTo, sameName, beq_eq_false_iff_ne, ne_eq]
  intro he
  have hlist := congrArg String.toList he
  simp only [fold, String.toList_map, String.toList_ofList, List.map_cons] at hlist
  exact h (List.cons.inj hlist).1

/-- A text added in the list that is being read. -/
theorem Members.text {top : Bool} {items : List Value} {depth : Nat} {cs : List Char}
    (h : Members top items depth) (hplain : isPlainText cs = true) (hbare : isBare cs = false)
    (hopen : cs ≠ ['(']) (hclose : cs ≠ [')']) :
    Members top (.text (String.ofList cs) :: items) depth := by
  refine h.push (fun _ => ?_) (depthAfter_text hopen hclose depth) fun _ _ => ?_
  · rw [Value.plain, String.toList_ofList]
    exact hplain
  · rw [Value.isName, String.toList_ofList]
    exact hbare

theorem Members.quoted {top : Bool} {items : List Value} {depth : Nat} {cs : List Char}
    (h : Members top items depth) (hcs : ∀ c ∈ cs, isQuotable c = true) :
    Members top (.text (String.ofList ('"' :: cs)) :: items) depth := by
  refine h.text ?_ ?_ (by simp) (by simp)
  · simp [isPlainText, isQuoted, List.all_eq_true.2 hcs]
  · simp [isBare]

theorem Members.variableName {top : Bool} {items : List Value} {depth : Nat} {cs : List Char}
    (h : Members top items depth) (hne : cs ≠ []) (hcs : ∀ c ∈ cs, isNameable c = true) :
    Members top (.text (String.ofList (':' :: cs)) :: items) depth := by
  refine h.text ?_ ?_ (by simp) (by simp)
  · simp [isPlainText, isVariable, List.all_eq_true.2 hcs, hne]
  · simp [isBare]

theorem isBare_mark {c : Char} (h : isMark [c] = true) : isBare [c] = false := by
  have hc := (mark_ends h).2.2.1
  simp [isBare, isNameable, hc]

theorem Members.list {top : Bool} {items members : List Value} {depth : Nat}
    (h : Members top items depth) (hm : Members false members 0) :
    Members top (.list members.reverse :: items) depth := by
  refine h.push (fun hfinite => plain_list_iff.2 ⟨fun v hv => ?_, hm.depth⟩) rfl fun _ _ => rfl
  rw [Value.finite, allFinite_iff] at hfinite
  exact hm.plain v (List.mem_reverse.1 hv) (hfinite v hv)

theorem quote_append (name : String) : "\"" ++ name = String.ofList ('"' :: name.toList) := by
  apply String.toList_injective
  simp

/-- The call that stands for a definition. -/
theorem Members.definition {top : Bool} {items body : List Value} {depth : Nat} {name : String}
    {params : List String} (h : Members top items depth) (hm : Members false body 0)
    (hname : ∀ c ∈ name.toList, isNameable c = true)
    (hparams : ∀ p ∈ params, ∀ c ∈ p.toList, isNameable c = true) :
    Members top (definitionItems name params body.reverse ++ items) depth := by
  have hquoted : ∀ {items : List Value} {p : String}, Members top items (depth + 1) →
      (∀ c ∈ p.toList, isNameable c = true) →
      Members top (.text ("\"" ++ p) :: items) (depth + 1) := by
    intro items p h hp
    rw [quote_append]
    exact h.quoted fun c hc => isQuotable_of_isNameable (hp c hc)
  have hgroup : Members top (.text "(" :: items) (depth + 1) :=
    h.push (fun _ => rfl) rfl fun _ _ => by cbv
  -- `to` is a name itself, but no `to` is before it
  have hto : Members top (.text "to" :: .text "(" :: items) (depth + 1) := by
    refine hgroup.push (fun _ => by cbv) rfl fun _ hlast => ?_
    have hno : endsInTo (.text "(" :: items) = false := by cbv
    rw [hno] at hlast
    cases hlast
  have hheading : ∀ ps : List String, (∀ p ∈ ps, ∀ c ∈ p.toList, isNameable c = true) →
      Members top ((ps.map fun p => .text ("\"" ++ p)) ++
        .text ("\"" ++ name) :: .text "to" :: .text "(" :: items) (depth + 1) := by
    intro ps hps
    induction ps with
    | nil => exact hquoted hto hname
    | cons p ps ih =>
      exact hquoted (ih fun q hq => hps q (List.mem_cons_of_mem p hq)) (hps p List.mem_cons_self)
  have hcall : Members top (.text ")" :: .list body.reverse ::
      ((params.map fun p => .text ("\"" ++ p)) ++
        .text ("\"" ++ name) :: .text "to" :: .text "(" :: items)) depth :=
    ((hheading params hparams).list hm).push (fun _ => rfl) rfl fun _ _ => by cbv
  simpa [definitionItems] using hcall

/-! ### Levels that are being read -/

/-- The name and the parameters of a definition can be quoted words. -/
def Closer.Named : Closer → Prop
  | .definition _ name params _ => (∀ c ∈ name.toList, isNameable c = true) ∧
      ∀ p ∈ params, ∀ c ∈ p.toList, isNameable c = true
  | _ => True

theorem Closer.Named.body {c : Closer} (h : c.Named) : c.body.Named := by
  cases c with
  | definition opened name params heading => exact h
  | _ => trivial

structure Level.Sound (l : Level) : Prop where
  members : Members l.closer.isProgram l.items l.parens.length
  named : l.closer.Named

/-- Every list that is open is sound, and a `to` at the end of the program so far has no
name behind it. -/
structure State.Sound (s : State) (source : List Char) : Prop where
  level : s.level.Sound
  outer : ∀ l ∈ s.outer, l.Sound
  ahead : s.level.closer.isProgram = true → endsInTo s.level.items = true →
    startsName (source.dropWhile isBlank) = false

/-- A list closes where no parenthesis is open in it. -/
theorem Level.Sound.close {l : Level} {items : List Value} (h : l.Sound) (hclose : l.close = .ok items) :
    ∃ members, items = members.reverse ∧ Members false members 0 := by
  unfold Level.close at hclose
  split at hclose
  · rename_i hparens
    cases hclose
    have hm := h.members
    rw [hparens] at hm
    exact ⟨l.items, rfl, hm.plain, hm.depth, fun hfalse => by cases hfalse⟩
  · cases hclose

theorem Level.Sound.push {l : Level} {v : Value} {parens : List (List Char)} (h : l.Sound)
    (hm : Members l.closer.isProgram (v :: l.items) parens.length) (tight : Bool) :
    (Level.push { l with parens } v tight).Sound := by
  refine ⟨?_, h.named.body⟩
  rw [Level.push, Closer.body_isProgram]
  exact hm

theorem State.Sound.push {s : State} {source rest : List Char} {v : Value} {parens : List (List Char)}
    (h : s.Sound source) (hm : Members s.level.closer.isProgram (v :: s.level.items) parens.length)
    (hto : s.level.closer.isProgram = true → v.isTo = true →
      startsName (rest.dropWhile isBlank) = false) (tight : Bool) :
    State.Sound { s with level := Level.push { s.level with parens } v tight } rest := by
  refine ⟨h.level.push hm tight, h.outer, fun hprogram hlast => ?_⟩
  rw [Level.push, Closer.body_isProgram] at hprogram
  rw [Level.push, endsInTo_cons] at hlast
  exact hto hprogram hlast

/-- Adding anything but the word `to`. -/
theorem State.Sound.push_other {s : State} {source rest : List Char} {v : Value}
    {parens : List (List Char)} (h : s.Sound source)
    (hm : Members s.level.closer.isProgram (v :: s.level.items) parens.length) (hto : v.isTo = false)
    (tight : Bool) : State.Sound { s with level := Level.push { s.level with parens } v tight } rest :=
  h.push hm (fun _ hlast => absurd (hto.symm.trans hlast) Bool.false_ne_true) tight

/-! ### Bare words -/

theorem startsNumber_front {c : Char} {name cs : List Char} (h : name <+: cs)
    (hnumber : startsNumber (c :: cs) = false) : startsNumber (c :: name) = false := by
  obtain ⟨tail, rfl⟩ := h
  rw [startsNumber_eq] at hnumber ⊢
  cases name with
  | nil =>
    rw [Bool.or_eq_false_iff] at hnumber
    simp [hnumber.1]
  | cons d ds => exact hnumber

/-- What a bare word of a clean source begins with is the beginning of a name. -/
theorem startsName_of_startsWord {c : Char} {cs : List Char} (hclean : Clean (c :: cs))
    (hblank : isBlank c = false) (h : startsWord c cs = true) :
    isNameable c = true ∧ startsName (c :: cs) = true := by
  obtain ⟨h1, h2, h3, h4, h5, h6, h7, h8⟩ := startsWord_ne h
  have hbackslash : c ≠ '\\' := fun hc => hclean.1 (hc ▸ List.mem_cons_self)
  have hcomment : c ≠ ';' := fun hc => hclean.2 (hc ▸ List.mem_cons_self)
  have hterminator : isTerminator c = false := by
    simp [isTerminator, isDelimiter, hblank, h1, h2, h3, h4, h7, hcomment]
  have hdigit : c.isDigit = false := by
    rw [startsNumber_eq, Bool.or_eq_false_iff] at h8
    exact h8.1
  exact ⟨isNameable_iff.2 ⟨hterminator, hbackslash⟩, by simp [startsName, hterminator, h5, h6, hdigit]⟩

theorem scanBareWord_of_clean {c : Char} {cs word rest : List Char} (hclean : Clean (c :: cs))
    (hscan : scanBareWord c cs = some (word, rest)) :
    ∃ name, word = c :: name ∧ name <+: cs ∧ (∀ d ∈ name, isNameable d = true) ∧ rest <:+ cs := by
  have hbackslash : c ≠ '\\' := fun hc => hclean.1 (hc ▸ List.mem_cons_self)
  unfold scanBareWord at hscan
  rw [if_neg hbackslash] at hscan
  obtain ⟨name, hword, hpre, hname, hrest⟩ :=
    scanWord_of_clean (hclean.suffix (List.suffix_cons c cs)) hscan
  exact ⟨name, hword, hpre, fun d hd => isNameable_iff.2 (hname d hd), hrest⟩

theorem wordValue_plain {c : Char} {cs : List Char} (h : ∀ d ∈ c :: cs, isNameable d = true)
    (hquote : c ≠ '"') (hcolon : c ≠ ':') (hnumber : startsNumber (c :: cs) = false) :
    (wordValue (String.ofList (c :: cs))).plain = true := by
  unfold wordValue
  split
  · rfl
  · rename_i htrue
    split
    · rfl
    · rename_i hfalse
      have hbare : isBare (c :: cs) = true := by
        simp only [isBare, List.all_eq_true.2 h, hnumber, htrue, hfalse]
        simp [hquote, hcolon]
      rw [Value.plain, String.toList_ofList, isPlainText, hbare, Bool.or_true]

theorem wordValue_depthAfter {cs : List Char} (hopen : cs ≠ ['(']) (hclose : cs ≠ [')']) (depth : Nat) :
    (wordValue (String.ofList cs)).depthAfter depth = some depth := by
  unfold wordValue
  split
  · rfl
  · split
    · rfl
    · exact depthAfter_text hopen hclose depth

theorem isTo_wordValue {word : String} (h : (wordValue word).isTo = true) :
    sameName word "to" = true := by
  unfold wordValue at h
  split at h
  · cases h
  · split at h
    · cases h
    · exact h

/-! ### Item by item -/

variable {s t : State} {source cs rest : List Char} {c : Char} {spaced : Bool}

theorem State.Sound.word {word : List Char} (hs : s.Sound source)
    (hsource : source.dropWhile isBlank = c :: cs) (hclean : Clean (c :: cs)) (hblank : isBlank c = false)
    (hw : startsWord c cs = true) (hscan : scanBareWord c cs = some (word, rest))
    (hplain : s.plainWord word rest = true) (tight : Bool) :
    (s.push (wordValue (String.ofList word)) tight).Sound rest := by
  obtain ⟨hnameable, hstart⟩ := startsName_of_startsWord hclean hblank hw
  obtain ⟨name, rfl, hpre, hname, -⟩ := scanBareWord_of_clean hclean hscan
  have hall : ∀ d ∈ c :: name, isNameable d = true := List.forall_mem_cons.2 ⟨hnameable, hname⟩
  obtain ⟨-, -, hopen, hclose, hquote, hcolon, -, hnumber⟩ := startsWord_ne hw
  refine hs.push (hs.level.members.push (fun _ => ?_) (wordValue_depthAfter ?_ ?_ _) ?_) ?_ tight
  · exact wordValue_plain hall hquote hcolon (startsNumber_front hpre hnumber)
  · exact fun he => hopen (List.cons.inj he).1
  · exact fun he => hclose (List.cons.inj he).1
  · -- a `to` before this word would have begun a definition with it
    intro hprogram hlast
    have hno := hs.ahead hprogram hlast
    rw [hsource, hstart] at hno
    cases hno
  · intro hprogram hto
    have hsame := isTo_wordValue hto
    cases hcloser : s.level.closer with
    | program =>
      simp only [State.plainWord, hcloser, hsame, Bool.true_and, Bool.not_eq_true'] at hplain
      exact hplain
    | bracket opened =>
      rw [hcloser] at hprogram
      cases hprogram
    | definition opened name params heading =>
      rw [hcloser] at hprogram
      cases hprogram

/-- **What one item does** keeps every open list sound. -/
theorem State.Takes.sound (h : s.Takes spaced c cs t rest) (hs : s.Sound source)
    (hsource : source.dropWhile isBlank = c :: cs) (hclean : Clean (c :: cs)) :
    t.Sound rest ∧ rest <:+ c :: cs := by
  have hblank : isBlank c = false := by
    have hhead := List.head?_dropWhile_not isBlank source
    rw [hsource] at hhead
    simpa using hhead
  have htail : cs <:+ c :: cs := List.suffix_cons c cs
  have hcs : Clean cs := hclean.suffix htail
  have hclosed : ∀ {l : Level} {outer : List Level}, s.outer = l :: outer →
      l.Sound ∧ ∀ l ∈ outer, l.Sound := by
    intro l outer ho
    have hall := hs.outer
    rw [ho] at hall
    exact List.forall_mem_cons.1 hall
  have hopened : ∀ l ∈ s.level :: s.outer, l.Sound := List.forall_mem_cons.2 ⟨hs.level, hs.outer⟩
  cases h with
  | openList =>
    refine ⟨⟨⟨Members.nil _, trivial⟩, hopened, fun hprogram => ?_⟩, htail⟩
    cases hprogram
  | closeList _ hcloser ho hclose =>
    obtain ⟨hl, houter⟩ := hclosed ho
    obtain ⟨members, rfl, hm⟩ := hs.level.close hclose
    refine ⟨⟨hl.push (hl.members.list hm) true, houter, fun _ hlast => ?_⟩, htail⟩
    cases hlast
  | openGroup =>
    have hm := hs.level.members.push (v := .text "(") (fun _ => rfl) rfl fun _ _ => by cbv
    exact ⟨hs.push_other hm (by cbv) false, htail⟩
  | @closeGroup _ opened parens hparens =>
    have hdepth : (Value.text ")").depthAfter s.level.parens.length = some parens.length := by
      rw [hparens]
      rfl
    have hm := hs.level.members.push (fun _ => rfl) hdepth fun _ _ => by cbv
    exact ⟨hs.push_other hm (by cbv) true, htail⟩
  | quoted hscan =>
    obtain ⟨name, rfl, -, hname, hrest⟩ := scanWord_of_clean hcs hscan
    have hm := hs.level.members.quoted fun d hd => isQuotable_iff.2 (hname d hd)
    exact ⟨hs.push_other hm (isTo_text (by decide)) _, hrest.trans htail⟩
  | @parameter _ name _ opened defined params hscan hne hcloser =>
    obtain ⟨name, rfl, -, hname, hrest⟩ := scanWord_of_clean hcs hscan
    obtain ⟨hm, hnamed⟩ := hs.level
    rw [hcloser] at hm hnamed
    have hnew : ∀ d ∈ (String.ofList name).toList, isNameable d = true := by
      rw [String.toList_ofList]
      exact fun d hd => isNameable_iff.2 (hname d hd)
    refine ⟨⟨⟨hm, hnamed.1, List.forall_mem_cons.2 ⟨hnew, hnamed.2⟩⟩, hs.outer, fun hprogram => ?_⟩,
      hrest.trans htail⟩
    cases hprogram
  | variableName hscan hne hheading =>
    obtain ⟨name, rfl, -, hname, hrest⟩ := scanWord_of_clean hcs hscan
    have hm := hs.level.members.variableName hne fun d hd => isNameable_iff.2 (hname d hd)
    exact ⟨hs.push_other hm (isTo_text (by decide)) _, hrest.trans htail⟩
  | @number _ _ n hstart hw hr =>
    have hm := hs.level.members.push (v := .number n) plain_number_iff.2 rfl fun _ _ => rfl
    exact ⟨hs.push_other hm rfl true, scanNumber_suffix _⟩
  | operator _ hsymbol hminus =>
    have hmark : isMark [c] = true := by simp [isMark, hsymbol]
    have hopen : [c] ≠ ['('] := fun he => by
      cases he
      cases hsymbol
    have hclose : [c] ≠ [')'] := fun he => by
      cases he
      cases hsymbol
    have hm := hs.level.members.text (by simp [isPlainText, hmark]) (isBare_mark hmark) hopen hclose
    exact ⟨hs.push_other hm (isTo_text (mark_ends hmark).2.2.2) false, htail⟩
  | word hw hscan hplain =>
    obtain ⟨-, -, -, -, hrest⟩ := scanBareWord_of_clean hclean hscan
    exact ⟨hs.word hsource hclean hblank hw hscan hplain _, hrest.trans htail⟩
  | @beginDefinition _ _ word behind name _ hw hscan hcloser hword hstart hname =>
    obtain ⟨-, -, -, -, hrest⟩ := scanBareWord_of_clean hclean hscan
    have hbehind : behind.dropWhile isBlank <:+ cs := (List.dropWhile_suffix _).trans hrest
    obtain ⟨name, rfl, -, hname, hrest⟩ := scanWord_of_clean (hcs.suffix hbehind) hname
    refine ⟨⟨⟨Members.nil _, fun d hd => ?_, fun p hp => ?_⟩, hopened, fun hprogram => ?_⟩,
      (hrest.trans hbehind).trans htail⟩
    · rw [String.toList_ofList] at hd
      exact isNameable_iff.2 (hname d hd)
    · cases hp
    · cases hprogram
  | @endDefinition _ _ _ _ _ name params _ l outer body hw hscan hcloser ho hend hclose =>
    obtain ⟨-, -, -, -, hrest⟩ := scanBareWord_of_clean hclean hscan
    obtain ⟨hl, houter⟩ := hclosed ho
    obtain ⟨members, rfl, hm⟩ := hs.level.close hclose
    have hnamed := hs.level.named
    rw [hcloser] at hnamed
    refine ⟨⟨⟨hl.members.definition hm hnamed.1 hnamed.2, hl.named⟩, houter, fun _ hlast => ?_⟩,
      hrest.trans htail⟩
    have hno : (Value.text ")").isTo = false := by cbv
    rw [definitionItems, List.cons_append, List.cons_append, endsInTo_cons, hno] at hlast
    cases hlast

theorem State.Reads.sound (h : s.Reads source t) (hclean : Clean source) (hs : s.Sound source) :
    ∃ rest, t.Sound rest := by
  induction h with
  | @done s source _ => exact ⟨source, hs⟩
  | item hskip ht _ ih =>
    rw [skipTrivia_clean hclean.2] at hskip
    have hcs := hclean.suffix (hskip ▸ List.dropWhile_suffix _)
    obtain ⟨hsound, hrest⟩ := ht.sound hs hskip hcs
    exact ih (hcs.suffix hrest) hsound

theorem plainProgram_of_readProgram {source : List Char} {program : List Value} (hclean : Clean source)
    (h : readProgram source = .ok program) (hfinite : allFinite program = true) :
    plainProgram program = true := by
  obtain ⟨t, ht, hfinish⟩ := State.read_ok_iff.1 h
  have hinitial : State.initial.Sound source := by
    refine ⟨⟨Members.nil _, trivial⟩, fun l hl => ?_, fun _ hlast => ?_⟩
    · cases hl
    · cases hlast
  obtain ⟨rest, hsound⟩ := ht.sound hclean hinitial
  have hend := (ht.nested (.program rfl)).of_finish hfinish
  have hm : Members true program.reverse 0 := by
    have hm := hsound.level.members
    rw [hend] at hm
    exact hm
  refine plainProgram_iff.2 ⟨fun v hv => ?_, ?_, ?_⟩
  · exact hm.plain v (List.mem_reverse.2 hv) (allFinite_iff.1 hfinite v hv)
  · simpa using hm.depth
  · simpa using hm.names rfl

end Logo.Source

namespace Logo
open Source Value

/-- **Reading undoes printing.** The printed text of a plain program is read, and as a program
equal to it; and plain is what every source without backslash and comment is read as, as
long as its numbers are finite. -/
theorem parse_undoes_print :
    (∀ program : List Value, plainProgram program = true →
      ∃ program', parse (Value.printed (.list program)) = .ok program' ∧
        equalAll program' program = true) ∧
    ∀ (source : String) (program : List Value), '\\' ∉ source.toList → ';' ∉ source.toList →
      parse source = .ok program → allFinite program = true → plainProgram program = true := by
  constructor
  · intro program h
    obtain ⟨program', hread, heq⟩ := readProgram_printed h
    exact ⟨program', parse_ok_iff.2 hread, heq⟩
  · intro source program hbackslash hcomment h hfinite
    exact plainProgram_of_readProgram ⟨hbackslash, hcomment⟩ (parse_ok_iff.1 h) hfinite

namespace Trial

/-- Members of several kinds, with `to` before a name inside a list only. -/
def members : List Value :=
  [.text "print", .number (-2.5), .list [.text "to", .text "f", .boolean true], .text "-",
    .text "\"a;b"]

/-- What a definition is read as. -/
def definition : List Value :=
  [.text "(", .text "to", .text "\"f", .text "\"n", .list [.text "fd", .number (-1)], .text ")"]

theorem parse_definition : parse "to f :n fd -1 end" = .ok definition := by
  -- inside the definition, with what is known of it so far
  let inside (params : List String) (heading : Bool) (items : List Value) : State :=
    ⟨{ closer := .definition "to f :n fd -1 end".toList "f" params heading, items,
       tight := !items.isEmpty }, [State.initial.level]⟩
  have hto : State.initial.item false 't' "o f :n fd -1 end".toList
      = .ok (inside [] true [], " :n fd -1 end".toList) := by cbv
  have hparameter : (inside [] true []).item true ':' "n fd -1 end".toList
      = .ok (inside ["n"] true [], " fd -1 end".toList) := by cbv
  have hword : (inside ["n"] true []).item true 'f' "d -1 end".toList
      = .ok (inside ["n"] false [.text "fd"], " -1 end".toList) := by cbv
  have hnumber : (inside ["n"] false [.text "fd"]).item true '-' "1 end".toList
      = .ok (inside ["n"] false [.number (-1), .text "fd"], " end".toList) := by
    have hread : Decimal.read? (scanNumber "-1 end".toList).text = some (-1) := by decide +kernel
    have htakes : (inside ["n"] false [.text "fd"]).Takes true '-' "1 end".toList
        (inside ["n"] false [.number (-1), .text "fd"]) (scanNumber "-1 end".toList).rest :=
      .number (.inl ⟨rfl, rfl⟩) rfl hread
    exact htakes.item_eq
  have hend : (inside ["n"] false [.number (-1), .text "fd"]).item true 'e' "nd".toList
      = .ok (⟨{ closer := .program, tight := true
                items := [.text ")", .list [.text "fd", .number (-1)], .text "\"n", .text "\"f",
                  .text "to", .text "("] }, []⟩, []) := by cbv
  rw [parse_ok_iff]
  show State.initial.read "to f :n fd -1 end".toList = _
  rw [State.read_of_item rfl hto, State.read_of_item rfl hparameter, State.read_of_item rfl hword,
    State.read_of_item rfl hnumber, State.read_of_item rfl hend, State.read_of_end rfl]
  rfl

end Trial

theorem parse_undoes_print_trial :
    (plainProgram Trial.members = true ∧ ∃ program,
      parse "print -2.5 [to f true] - \"a;b" = .ok program ∧ equalAll program Trial.members = true) ∧
    parse "to f :n fd -1 end" = .ok Trial.definition ∧ plainProgram Trial.definition = true := by
  have htext : Value.printed (.list Trial.members) = "print -2.5 [to f true] - \"a;b" := by
    decide +kernel
  have hplain : plainProgram Trial.members = true := by decide +kernel
  have hfinite : allFinite Trial.definition = true := by decide +kernel
  obtain ⟨hback, hforth⟩ := parse_undoes_print
  refine ⟨⟨hplain, ?_⟩, Trial.parse_definition, ?_⟩
  · rw [← htext]
    exact hback _ hplain
  · exact hforth _ _ (by decide +kernel) (by decide +kernel) Trial.parse_definition hfinite

end Logo
