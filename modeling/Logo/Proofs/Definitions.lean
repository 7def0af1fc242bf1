import Logo.Proofs.Comments
import Logo.Proofs.Parentheses
import Logo.Proofs.Words

/-!
# Definitions and the calls that they stand for

The body of a definition is read in a list of its own, closed by the word `end`. The same text
between brackets is read in a list closed by a bracket. `State.Beside` ties the two together: as
long as neither list is closed they gain the same members, whatever lists and groups are opened and
closed inside (`State.Reads.beside`). That neither is closed follows from what is read in the end,
since members are never taken back (`State.Reads.within`).
-/

namespace Logo.Source
set_option autoImplicit false
open Logo.Text

/-! ### Members are never taken back -/

/-- The program has no members, and the list inside it only some that are last in `members`. -/
inductive Levels.Within (members : List Value) : List Level → Prop where
  | program {p : Level} : p.items = [] → Within members [p]
  | body {b p : Level} : b.items <:+ members → p.items = [] → Within members [b, p]
  | inner (l : Level) {k o : Level} {ls : List Level} : Within members (k :: o :: ls) →
      Within members (l :: k :: o :: ls)

def State.Within (members : List Value) (s : State) : Prop :=
  Levels.Within members (s.level :: s.outer)

section Within

variable {members : List Value} {s t u : State} {spaced : Bool} {c : Char} {cs rest source : List Char}

/-- With fewer members in the innermost list. -/
theorem Levels.Within.of_suffix {l k : Level} {outer : List Level}
    (h : Levels.Within members (k :: outer)) (hitems : l.items <:+ k.items) :
    Levels.Within members (l :: outer) := by
  cases h with
  | program hp =>
    rw [hp] at hitems
    exact .program (List.suffix_nil.1 hitems)
  | body hb hp => exact .body (hitems.trans hb) hp
  | inner _ h => exact .inner l h

theorem State.Grows.within {lone : List Char} (h : s.Grows lone t) (ht : t.Within members) :
    s.Within members := by
  obtain ⟨level, outer⟩ := s
  unfold State.Within at ht ⊢
  cases h with
  | opened _ _ ho =>
    rw [ho] at ht
    cases ht with
    | body _ hp => exact .program hp
    | inner _ h => exact h
  | kept hitems _ ho =>
    rw [ho] at ht
    refine ht.of_suffix ?_
    rw [hitems]
  | added _ hitems ho =>
    rw [ho] at ht
    refine ht.of_suffix ?_
    rw [hitems]
    exact List.suffix_cons _ _
  | escaped _ hitems _ ho =>
    rw [ho] at ht
    refine ht.of_suffix ?_
    rw [hitems]
    exact List.suffix_cons _ _
  | @closed _ l outer body added _ ho hadded hitems _ ho' =>
    rw [ho'] at ht
    simp only at ho
    rw [ho]
    have hne : added ≠ [] := by
      rcases hadded with rfl | ⟨name, params, rfl⟩
      · exact List.cons_ne_nil _ _
      · exact List.cons_ne_nil _ _
    cases ht with
    | program hp =>
      rw [hitems] at hp
      exact absurd (List.append_eq_nil_iff.1 hp).1 hne
    | body hb hp =>
      rw [hitems] at hb
      exact .inner _ (.body ((List.suffix_append _ _).trans hb) hp)
    | inner _ h => exact .inner _ (.inner _ h)

theorem State.Reads.within (h : s.Reads source u) (hu : u.Within members) : s.Within members := by
  induction h with
  | done => exact hu
  | item _ ht _ ih => exact ht.grows.within (ih hu)

end Within

/-! ### A list in another's place -/

/-- A list closed by a bracket inside the program `p`, and one closed by `closer` inside `below`
that has the same members; and the same lists inside both. -/
inductive Levels.Beside (p : Level) (closer : Closer) (below : List Level) :
    List Level → List Level → Prop where
  | body {b d : Level} {opened : List Char} : b.closer = .bracket opened → d.closer.body = closer →
      d.items = b.items → d.parens = b.parens → d.tight = b.tight →
      Beside p closer below [b, p] (d :: below)
  | inner {l : Level} {opened : List Char} {ls ls' : List Level} : l.closer = .bracket opened →
      Beside p closer below ls ls' → Beside p closer below (l :: ls) (l :: ls')

def State.Beside (p : Level) (closer : Closer) (below : List Level) (s s' : State) : Prop :=
  Levels.Beside p closer below (s.level :: s.outer) (s'.level :: s'.outer)

theorem Closer.body_body (c : Closer) : c.body.body = c.body := by
  cases c <;> rfl

theorem Closer.body_inHeading (c : Closer) : c.body.inHeading = false := by
  cases c <;> rfl

section Beside

variable {p : Level} {closer : Closer} {below : List Level}

/-- Both lists are the current ones, or neither is. -/
theorem Levels.Beside.head {l l' : Level} {ls ls' : List Level}
    (h : Levels.Beside p closer below (l :: ls) (l' :: ls')) :
    (∃ opened, l.closer = .bracket opened) ∧ (l'.closer = l.closer ∨ l'.closer.body = closer) ∧
      l'.items = l.items ∧ l'.parens = l.parens ∧ l'.tight = l.tight := by
  cases h with
  | body hb hd hitems hparens htight => exact ⟨⟨_, hb⟩, .inr hd, hitems, hparens, htight⟩
  | inner hl _ => exact ⟨⟨_, hl⟩, .inl rfl, rfl, rfl, rfl⟩

/-- The same member is added on both sides, in a group that is the same on both sides. -/
theorem Levels.Beside.push {l l' : Level} {ls ls' : List Level}
    (h : Levels.Beside p closer below (l :: ls) (l' :: ls')) (parens : List (List Char)) (v : Value)
    (tight : Bool) : Levels.Beside p closer below ({ l with parens }.push v tight :: ls)
      ({ l' with parens }.push v tight :: ls') := by
  cases h with
  | @body _ _ opened hb hd hitems _ _ =>
    have hcloser : ({ l with parens }.push v tight).closer = .bracket opened := by
      simp only [Level.push, hb, Closer.body]
    refine .body hcloser ?_ ?_ rfl rfl
    · show l'.closer.body.body = closer
      rw [Closer.body_body, hd]
    · simp only [Level.push, hitems]
  | @inner _ opened _ _ hl hls =>
    have hcloser : ({ l with parens }.push v tight).closer = .bracket opened := by
      simp only [Level.push, hl, Closer.body]
    exact .inner hcloser hls

variable {members : List Value} {s s' t u : State} {spaced : Bool} {c : Char}
  {cs rest source : List Char}

theorem State.Beside.push (h : s.Beside p closer below s') (v : Value) (tight : Bool) :
    (s.push v tight).Beside p closer below (s'.push v tight) := by
  obtain ⟨-, -, -, hparens, -⟩ := Levels.Beside.head h
  have hpush := Levels.Beside.push h s.level.parens v tight
  nth_rewrite 2 [← hparens] at hpush
  exact hpush

theorem Levels.Beside.isProgram {l l' : Level} {ls ls' : List Level}
    (hcloser : closer.isProgram = false) (h : Levels.Beside p closer below (l :: ls) (l' :: ls')) :
    l'.closer.isProgram = false := by
  obtain ⟨⟨opened, hl⟩, hl', -⟩ := h.head
  rcases hl' with hl' | hl'
  · rw [hl', hl]
    rfl
  · rw [← Closer.body_isProgram, hl', hcloser]

/-- There is a list around both or around neither. -/
theorem Levels.Beside.cons {ls ls' : List Level} (h : Levels.Beside p closer below ls ls') :
    ∃ l' outer', ls' = l' :: outer' := by
  cases h with
  | body => exact ⟨_, _, rfl⟩
  | inner => exact ⟨_, _, rfl⟩

/-- Where a word may end a definition, one that is not `end` only adds a member. -/
theorem State.plainWord_of_ne_end {word : List Char} (hprogram : s.level.closer.isProgram = false)
    (h : s.inDefinition = true → sameName (String.ofList word) "end" = false) :
    s.plainWord word rest = true := by
  unfold State.plainWord
  split
  · rename_i hcloser houter
    rw [h (State.inDefinition_iff.2 ⟨_, _, _, _, _, _, hcloser, houter⟩)]
    rfl
  · rename_i hcloser
    rw [hcloser] at hprogram
    cases hprogram
  · rfl

/-- An item of one list is an item of the other, as long as the list is not closed: no bracket
closes the one, and no `end` the other. -/
theorem State.Takes.beside (hcloser : closer.isProgram = false)
    (hend : ∀ word, .text word ∈ members → sameName word "end" = false)
    (h : s.Takes spaced c cs t rest) (hs : s.Beside p closer below s') (ht : t.Within members)
    (hcolon : s'.level.closer.inHeading = true → c ≠ ':') :
    ∃ t', s'.Takes spaced c cs t' rest ∧ t.Beside p closer below t' ∧
      t'.level.closer.inHeading = false := by
  obtain ⟨⟨opened, hbracket⟩, -, -, hparens, htight⟩ := Levels.Beside.head hs
  have hprogram := Levels.Beside.isProgram hcloser hs
  have hsign : s'.signAhead spaced cs = s.signAhead spaced cs := by
    simp only [State.signAhead, htight]
  have hbody (l : Level) (v : Value) (tight : Bool) : (l.push v tight).closer.inHeading = false :=
    Closer.body_inHeading _
  cases h with
  | openList => exact ⟨_, .openList cs, .inner rfl hs, rfl⟩
  | @closeList _ _ l outer items hc houter hclose =>
    obtain ⟨level, outer⟩ := s
    obtain ⟨level', outer'⟩ := s'
    cases houter
    cases hs with
    | body =>
      -- the list would become a member of the program
      cases ht with
      | program hp => cases hp
    | inner hl hls =>
      obtain ⟨l', outer', rfl⟩ := hls.cons
      obtain ⟨-, -, -, hparens', -⟩ := hls.head
      have hpush := hls.push l.parens (.list items) true
      nth_rewrite 2 [← hparens'] at hpush
      exact ⟨_, .closeList cs hc rfl hclose, hpush, hbody _ _ _⟩
  | openGroup =>
    refine ⟨_, .openGroup cs, ?_, hbody _ _ _⟩
    rw [hparens]
    exact Levels.Beside.push hs _ _ _
  | closeGroup _ hp =>
    exact ⟨_, .closeGroup cs (hparens.trans hp), Levels.Beside.push hs _ _ _, hbody _ _ _⟩
  | quoted hscan => exact ⟨_, .quoted hscan, hs.push _ _, hbody _ _ _⟩
  | parameter _ _ hc =>
    rw [hbracket] at hc
    cases hc
  | variableName hscan hname _ =>
    refine ⟨_, .variableName hscan hname ?_, hs.push _ _, hbody _ _ _⟩
    exact Bool.eq_false_iff.2 fun hheading => hcolon hheading rfl
  | number hstart hw hr => exact ⟨_, .number (hsign ▸ hstart) hw hr, hs.push _ _, hbody _ _ _⟩
  | operator _ hsymbol hminus =>
    exact ⟨_, .operator cs hsymbol (hsign ▸ hminus), hs.push _ _, hbody _ _ _⟩
  | @word _ _ word _ hw hscan _ =>
    refine ⟨_, .word hw hscan (State.plainWord_of_ne_end hprogram fun hin => ?_), hs.push _ _,
      hbody _ _ _⟩
    refine Bool.eq_false_iff.2 fun hword => ?_
    have hvalue := wordValue_of_sameName hword (by cbv) (by cbv)
    obtain ⟨level, outer⟩ := s
    obtain ⟨level', outer'⟩ := s'
    cases hs with
    | body =>
      -- the word would be a member of the list
      cases ht with
      | body hb _ =>
        have hmem : .text (String.ofList word) ∈ members :=
          hb.subset (hvalue ▸ List.mem_cons_self)
        exact absurd ((hend _ hmem).symm.trans hword) (by decide)
    | inner hl _ =>
      obtain ⟨_, _, _, _, _, _, hc, -⟩ := State.inDefinition_iff.1 hin
      cases hl.symm.trans hc
  | beginDefinition _ _ hc =>
    rw [hbracket] at hc
    cases hc
  | endDefinition _ _ hc =>
    rw [hbracket] at hc
    cases hc

/-- A source that leaves the one list open is read into the other in the same way. -/
theorem State.Reads.beside (hcloser : closer.isProgram = false)
    (hend : ∀ word, .text word ∈ members → sameName word "end" = false)
    (h : s.Reads source u) (hs : s.Beside p closer below s') (hu : u.Within members)
    (hcolon : s'.level.closer.inHeading = true → (skipTrivia false source).head? ≠ some ':') :
    ∃ u', s'.Reads source u' ∧ u.Beside p closer below u' := by
  induction h generalizing s' with
  | done s hskip => exact ⟨s', .done s' hskip, hs⟩
  | @item s t u c source cs rest hskip ht hr ih =>
    have hfirst : s'.level.closer.inHeading = true → c ≠ ':' := by
      intro hheading
      simpa [hskip] using hcolon hheading
    obtain ⟨t', ht', hbeside, hheading⟩ := ht.beside hcloser hend hs (hr.within hu) hfirst
    obtain ⟨u', hu', hlast⟩ := ih hbeside hu fun h => by
      rw [hheading] at h
      cases h
    exact ⟨u', .item hskip ht' hu', hlast⟩

end Beside

/-! ### The body of a list -/

section Body

variable {body : List Char} {items : List Value} {u : State}

/-- All that a closing bracket can do. -/
theorem State.Takes.closeBracket_inv {s t : State} {spaced : Bool} {cs rest : List Char}
    (h : s.Takes spaced ']' cs t rest) : ∃ l outer members, s.outer = l :: outer ∧
      s.level.close = .ok members ∧ rest = cs ∧ t = ⟨l.push (.list members) true, outer⟩ := by
  cases h with
  | closeList _ _ houter hclose => exact ⟨_, _, _, houter, hclose, rfl, rfl⟩
  | number hstart =>
    rcases hstart with ⟨hc, -⟩ | hstart
    · cases hc
    · cases hstart
  | operator _ hsymbol => cases hsymbol
  | word hw => cases hw
  | beginDefinition hw => cases hw
  | endDefinition hw => cases hw

theorem State.finish_ok {program : List Value} (h : u.finish = .ok program) :
    u.level.closer.isProgram = true ∧ u.level.close = .ok program := by
  unfold State.finish at h
  split at h
  · rename_i hcloser
    exact ⟨by rw [hcloser]; rfl, h⟩
  · cases h
  · cases h

/-- If one list is the whole program behind its closing bracket, then before it all members are
there and nothing else is open. -/
theorem State.Nested.of_closed {tail : List Char} (hnested : u.Nested)
    (h : (u.extended tail).read ['\n', ']'] = .ok [.list items]) :
    u.level.items = items.reverse ∧ u.level.parens = [] ∧ ∃ p, u.outer = [p] ∧ p.items = [] := by
  obtain ⟨v, hv, hfinish⟩ := State.read_ok_iff.1 h
  cases hv with
  | done _ hskip => cases hskip
  | item hskip ht hr =>
    cases hskip
    obtain ⟨l, outer, members, houter, hclose, rfl, rfl⟩ := ht.closeBracket_inv
    cases hr with
    | item hskip => cases hskip
    | done =>
      obtain ⟨hparens, hmembers⟩ := Level.close_ok hclose
      obtain ⟨hprogram, hlast⟩ := State.finish_ok hfinish
      obtain ⟨level, outer'⟩ := u
      cases hnested with
      | program => cases houter
      | @inside _ p _ _ hp =>
        cases houter
        have hpush : Value.list members :: p.items = [.list items] :=
          List.reverse_eq_iff.1 (Level.close_ok hlast).2.symm
        obtain ⟨hlist, hempty⟩ := List.cons.inj hpush
        cases hlist
        rw [show ((p.extended tail).push (.list items) true).closer.isProgram = p.closer.isProgram from
          (Closer.body_isProgram _).trans (Level.extended_isProgram p tail)] at hprogram
        have hparens' : level.parens = [] := List.map_eq_nil_iff.1 hparens
        have hmembers' : level.items = items.reverse := by
          rw [hmembers, List.reverse_reverse]
          rfl
        cases hp with
        | program => exact ⟨hmembers', hparens', p, rfl, hempty⟩
        | inside hno _ => exact absurd (hprogram.symm.trans hno) (by decide)

/-- The text between the brackets of a single list leaves that list open, with all its members. -/
theorem reads_body (hbody : '\\' ∉ body)
    (h : readProgram ('[' :: '\n' :: (body ++ ['\n', ']'])) = .ok [.list items]) :
    ∃ u, State.Reads ⟨{ closer := .bracket ('[' :: '\n' :: body) }, [State.initial.level]⟩
        ('\n' :: body) u ∧
      u.level.items = items.reverse ∧ u.level.parens = [] ∧ ∃ p, u.outer = [p] ∧ p.items = [] := by
  generalize hs : (⟨{ closer := .bracket ('[' :: '\n' :: body) }, [State.initial.level]⟩ : State) = s
  have hnested : s.Nested := by
    subst hs
    exact .inside rfl (.program rfl)
  have hread : (s.extended ['\n', ']']).read ('\n' :: body ++ ['\n', ']']) = .ok [.list items] := by
    subst hs
    have hopen : State.initial.read ('[' :: '\n' :: (body ++ ['\n', ']'])) = .ok [.list items] := h
    rwa [State.read_of_item rfl rfl] at hopen
  have hgap := gap_line [']']
  have hclean : '\\' ∉ '\n' :: body := by simpa using hbody
  rcases s.reads_or_halts ('\n' :: body) with ⟨u, hu⟩ | ⟨r, hr⟩
  · rw [hu.read_extended hgap fun _ => rfl] at hread
    exact ⟨u, hu, (hu.nested hnested).of_closed hread⟩
  · rw [hr.read_extended hclean hgap] at hread
    cases hread

/-- The same text leaves any other list open with the same members, unless it begins with a
parameter or `end` closes that list. -/
theorem reads_body_beside {closer : Closer} {below : List Level} (hbody : '\\' ∉ body)
    (h : readProgram ('[' :: '\n' :: (body ++ ['\n', ']'])) = .ok [.list items])
    (hend : ∀ word, .text word ∈ items → sameName word "end" = false)
    (hcloser : closer.isProgram = false)
    (hcolon : closer.inHeading = true → (skipTrivia false body).head? ≠ some ':') :
    ∃ level, State.Reads ⟨{ closer }, below⟩ ('\n' :: body) ⟨level, below⟩ ∧
      level.closer.body = closer.body ∧ level.items = items.reverse ∧ level.parens = [] := by
  obtain ⟨⟨level, outer⟩, hu, hitems, hparens, p, houter, hp⟩ := reads_body hbody h
  cases houter
  have hwithin : State.Within items.reverse ⟨level, [p]⟩ := .body (hitems ▸ List.suffix_rfl) hp
  have hstart : State.Beside State.initial.level closer.body below
      ⟨{ closer := .bracket ('[' :: '\n' :: body) }, [State.initial.level]⟩ ⟨{ closer }, below⟩ :=
    .body rfl rfl rfl rfl rfl
  obtain ⟨⟨level', outer'⟩, hu', hbeside⟩ := hu.beside ((Closer.body_isProgram closer).trans hcloser)
    (fun word hword => hend word (List.mem_reverse.1 hword)) hstart hwithin hcolon
  cases hbeside with
  | body _ hbody' hitems' hparens' _ =>
    exact ⟨level', hu', hbody', hitems'.trans hitems, hparens'.trans hparens⟩
  | inner _ hls =>
    cases hls with
    | inner _ hnone => cases hnone

/-- Reading goes on behind the text. -/
theorem read_body_beside {closer : Closer} {below : List Level} {tail more : List Char}
    (hbody : '\\' ∉ body)
    (h : readProgram ('[' :: '\n' :: (body ++ ['\n', ']'])) = .ok [.list items])
    (hend : ∀ word, .text word ∈ items → sameName word "end" = false)
    (hcloser : closer.isProgram = false)
    (hcolon : closer.inHeading = true → (skipTrivia false body).head? ≠ some ':')
    (hgap : Gap tail more) :
    ∃ level, level.closer.body = closer.body ∧ level.items = items.reverse ∧ level.parens = [] ∧
      (State.extended tail ⟨{ closer }, below⟩).read ('\n' :: (body ++ tail))
        = (State.extended tail ⟨level, below⟩).read tail := by
  obtain ⟨level, hu, hbody', hitems, hparens⟩ := reads_body_beside hbody h hend hcloser hcolon
  refine ⟨level, hbody', hitems, hparens, hu.read_extended hgap fun ha => ?_⟩
  -- nothing can be defined inside a list
  have hat := hu.atTo ha
  rw [State.atTo, ← Closer.body_isProgram, hbody', Closer.body_isProgram, hcloser] at hat
  cases hat

end Body

/-! ### The two headings -/

section Heading

variable {rest : List Char}

/-- A name is a word as it stands, quoted or not. -/
theorem scanWord_nameable {word : List Char} (h : word.all isNameable = true) :
    (Stopped isTerminator rest → scanWord isTerminator [] (word ++ rest) = some (word, rest)) ∧
      (Stopped isDelimiter rest → scanWord isDelimiter [] (word ++ rest) = some (word, rest)) := by
  have hword (c : Char) (hc : c ∈ word) : isTerminator c = false ∧ c ≠ '\\' :=
    isNameable_iff.1 (List.all_eq_true.1 h c hc)
  constructor
  · exact fun hrest => scanWord_ended hword hrest
  · refine fun hrest => scanWord_ended (fun c hc => ⟨?_, (hword c hc).2⟩) hrest
    refine Bool.eq_false_iff.2 fun hd => ?_
    exact absurd ((hword c hc).1.symm.trans (isTerminator_of_isDelimiter hd)) (by decide)

/-- Words with a blank and a mark before each. -/
def marked (mark : Char) (words : List String) : List Char :=
  words.flatMap fun w => ' ' :: mark :: w.toList

theorem marked_cons (mark : Char) (w : String) (words : List String) (rest : List Char) :
    marked mark (w :: words) ++ rest = ' ' :: mark :: (w.toList ++ (marked mark words ++ rest)) := by
  simp [marked]

theorem stopped_marked {stop : Char → Bool} (hblank : stop ' ' = true) (mark : Char)
    (words : List String) (hrest : Stopped stop rest) : Stopped stop (marked mark words ++ rest) := by
  cases words with
  | nil => exact hrest
  | cons w words =>
    rw [marked_cons]
    exact stopped_cons hblank _

/-- The parameters of a definition are taken one by one. -/
theorem read_parameters {opened : List Char} {name : String} {outer : List Level}
    {params : List String} (hparams : ∀ p ∈ params, p.toList ≠ [] ∧ p.toList.all isNameable = true)
    (hrest : Stopped isTerminator rest) (before : List String) :
    State.read ⟨{ closer := .definition opened name before true }, outer⟩
        (marked ':' params ++ rest)
      = State.read ⟨{ closer := .definition opened name (params.reverse ++ before) true }, outer⟩
        rest := by
  induction params generalizing before with
  | nil => rfl
  | cons p params ih =>
    obtain ⟨⟨hne, hall⟩, hparams⟩ := List.forall_mem_cons.1 hparams
    have hscan := (scanWord_nameable hall).1 (stopped_marked rfl ':' params hrest)
    have htakes : State.Takes ⟨{ closer := .definition opened name before true }, outer⟩ true ':'
        _ _ _ := .parameter hscan hne rfl
    rw [marked_cons, State.read_of_item rfl htakes.item_eq, String.ofList_toList]
    simpa using ih hparams (p :: before)

/-- Quoted words are members one after the other. -/
theorem read_quoted_words {items : List Value} {parens : List (List Char)} {words : List String}
    (hwords : ∀ w ∈ words, w.toList.all isNameable = true)
    (hrest : Stopped isDelimiter rest) (tight : Bool) :
    ∃ tight', State.read ⟨⟨.program, items, parens, tight⟩, []⟩
        (marked '"' words ++ rest)
      = State.read ⟨⟨.program, (words.map fun w => .text ("\"" ++ w)).reverse ++ items, parens,
          tight'⟩, []⟩ rest := by
  induction words generalizing items tight with
  | nil => exact ⟨tight, rfl⟩
  | cons w words ih =>
    obtain ⟨hall, hwords⟩ := List.forall_mem_cons.1 hwords
    have hscan := (scanWord_nameable hall).2 (stopped_marked rfl '"' words hrest)
    have htakes : State.Takes ⟨⟨.program, items, parens, tight⟩, []⟩ true '"' _ _ _ := .quoted hscan
    have hquoted : String.ofList ('"' :: w.toList) = "\"" ++ w := by
      rw [← String.toList_inj]
      simp [String.toList_append]
    obtain ⟨tight', hread⟩ := @ih (.text ("\"" ++ w) :: items) hwords (tightAfter w.toList)
    refine ⟨tight', ?_⟩
    rw [marked_cons, State.read_of_item rfl htakes.item_eq, hquoted, List.map_cons,
      List.reverse_cons, List.append_assoc]
    exact hread

/-- The heading of a definition leaves its body to be read. -/
theorem read_heading {name : String} {params : List String} (hstart : startsName name.toList = true)
    (hname : name.toList.all isNameable = true)
    (hparams : ∀ p ∈ params, p.toList ≠ [] ∧ p.toList.all isNameable = true)
    (hrest : Stopped isTerminator rest) {source : List Char}
    (hsource : source = 't' :: 'o' :: ' ' :: (name.toList ++ (marked ':' params ++ rest))) :
    State.initial.read source = State.read
      ⟨{ closer := .definition source name params.reverse true }, [State.initial.level]⟩ rest := by
  have hstopped := stopped_marked rfl ':' params hrest
  generalize hbehind : marked ':' params ++ rest = behind at hsource hstopped
  have hscan := (scanWord_nameable hname).1 hstopped
  have hfirst : scanBareWord 't' ('o' :: ' ' :: (name.toList ++ behind))
      = some (['t', 'o'], ' ' :: (name.toList ++ behind)) := by
    rw [scanBareWord_eq rfl]
    exact (scanWord_nameable (show ['t', 'o'].all isNameable = true from rfl)).1 (stopped_cons rfl _)
  obtain ⟨c, cs, hcs⟩ : ∃ c cs, name.toList = c :: cs := by
    cases hcs : name.toList with
    | nil =>
      rw [hcs] at hstart
      cases hstart
    | cons c cs => exact ⟨c, cs, rfl⟩
  have hblank : isBlank c = false :=
    (blank_of_isNameable (List.all_eq_true.1 hname c (hcs ▸ List.mem_cons_self))).1
  have hahead : (' ' :: (name.toList ++ behind)).dropWhile isBlank = name.toList ++ behind := by
    rw [List.dropWhile_cons_of_pos rfl, hcs, List.cons_append,
      List.dropWhile_cons_of_neg (by rw [hblank]; decide)]
  have hnamed : startsName (name.toList ++ behind) = true := by
    rw [hcs] at hstart ⊢
    exact hstart
  rw [← hahead] at hscan hnamed
  have htakes : State.initial.Takes false 't' _ _ _ :=
    .beginDefinition rfl hfirst rfl (by cbv) hnamed hscan
  subst hsource
  rw [State.read_of_item rfl htakes.item_eq, String.ofList_toList, ← hbehind,
    read_parameters hparams hrest, List.append_nil]
  rfl

/-- The call that stands for the heading leaves the same body to be read. -/
theorem read_call {name : String} {params : List String} (hname : name.toList.all isNameable = true)
    (hparams : ∀ p ∈ params, p.toList ≠ [] ∧ p.toList.all isNameable = true) {source : List Char}
    (hsource : source = '(' :: ' ' :: 't' :: 'o' ::
      (marked '"' (name :: params) ++ ' ' :: '[' :: rest)) :
    ∃ tight, State.initial.read source
      = State.read ⟨{ closer := .bracket ('[' :: rest) },
          [⟨.program, ((name :: params).map fun p => .text ("\"" ++ p)).reverse ++
            [.text "to", .text "("], [source], tight⟩]⟩ rest := by
  have hwords : ∀ w ∈ name :: params, w.toList.all isNameable = true :=
    List.forall_mem_cons.2 ⟨hname, fun p hp => (hparams p hp).2⟩
  obtain ⟨tight, hread⟩ := @read_quoted_words (' ' :: '[' :: rest) [.text "to", .text "("] [source]
    _ hwords (stopped_cons rfl _) true
  refine ⟨tight, ?_⟩
  generalize hbehind : marked '"' (name :: params) ++ ' ' :: '[' :: rest
    = behind at hsource hread
  obtain ⟨more, hmore⟩ : ∃ more, behind = ' ' :: '"' :: more := ⟨_, hbehind.symm⟩
  have hscan : scanBareWord 't' ('o' :: behind) = some (['t', 'o'], behind) := by
    rw [scanBareWord_eq rfl, hmore]
    exact (scanWord_nameable (show ['t', 'o'].all isNameable = true from rfl)).1 (stopped_cons rfl _)
  have hplain : State.plainWord ⟨⟨.program, [.text "("], [source], false⟩, []⟩ ['t', 'o'] behind
      = true := by
    have hahead : startsName (behind.dropWhile isBlank) = false := by
      rw [hmore]
      rfl
    simp [State.plainWord, hahead]
  have htakes : State.Takes ⟨⟨.program, [.text "("], [source], false⟩, []⟩ true 't' ('o' :: behind)
      _ _ := .word rfl hscan hplain
  have hvalue : wordValue (String.ofList ['t', 'o']) = .text "to" := by cbv
  rw [hvalue] at htakes
  calc State.initial.read source
    _ = State.read ⟨⟨.program, [.text "("], [source], false⟩, []⟩ (' ' :: 't' :: 'o' :: behind) := by
      subst hsource
      exact State.read_of_item rfl rfl
    _ = State.read ⟨⟨.program, [.text "to", .text "("], [source], true⟩, []⟩ behind :=
      State.read_of_item rfl htakes.item_eq
    _ = State.read ⟨⟨.program, _, [source], tight⟩, []⟩ (' ' :: '[' :: rest) := hread
    _ = _ := State.read_of_item rfl rfl

end Heading

/-! ### The whole definition -/

section Whole

variable {level : Level} {opened : List Char}

theorem Closer.definition_of_body {c : Closer} {name : String} {params : List String} {heading : Bool}
    (h : c.body = .definition opened name params heading) :
    ∃ heading', c = .definition opened name params heading' := by
  cases c <;> cases h
  exact ⟨_, rfl⟩

theorem Closer.bracket_of_body {c : Closer} (h : c.body = .bracket opened) : c = .bracket opened := by
  cases c <;> cases h
  rfl

/-- A definition that `end` closes is the whole program. -/
theorem read_end {name : String} {params : List String} {heading tight : Bool}
    (hcloser : level.closer = .definition opened name params heading) (hparens : level.parens = []) :
    State.read ⟨level, [⟨.program, [], [], tight⟩]⟩ ['\n', 'e', 'n', 'd']
      = .ok (definitionItems name params level.items.reverse).reverse := by
  have hscan : scanBareWord 'e' ['n', 'd'] = some (['e', 'n', 'd'], []) := by
    rw [scanBareWord_eq rfl]
    exact (scanWord_nameable (show ['e', 'n', 'd'].all isNameable = true from rfl)).1 (stopped_nil _)
  have hclose : level.close = .ok level.items.reverse := by
    simp only [Level.close, hparens]
  have htakes : State.Takes ⟨level, [⟨.program, [], [], tight⟩]⟩ true 'e' ['n', 'd'] _ _ :=
    .endDefinition rfl hscan hcloser rfl (by cbv) hclose
  rw [State.read_of_item rfl htakes.item_eq, State.read_of_end rfl, List.append_nil]
  rfl

/-- So is a call that a bracket and a parenthesis close. -/
theorem read_closed {items : List Value} {place : List Char} {tight : Bool}
    (hcloser : level.closer = .bracket opened) (hparens : level.parens = []) :
    State.read ⟨level, [⟨.program, items, [place], tight⟩]⟩ ['\n', ']', ' ', ')']
      = .ok (.text ")" :: .list level.items.reverse :: items).reverse := by
  have hclose : level.close = .ok level.items.reverse := by
    simp only [Level.close, hparens]
  have htakes : State.Takes ⟨level, [⟨.program, items, [place], tight⟩]⟩ true ']' [' ', ')'] _ _ :=
    .closeList _ hcloser rfl hclose
  rw [State.read_of_item rfl htakes.item_eq, State.read_of_item rfl rfl, State.read_of_end rfl]
  rfl

variable {name : String} {params : List String} {body : List Char} {items : List Value}
  (hstart : startsName name.toList = true) (hname : name.toList.all isNameable = true)
  (hparams : ∀ p ∈ params, p.toList ≠ [] ∧ p.toList.all isNameable = true) (hbody : '\\' ∉ body)
  (hcolon : (skipTrivia false body).head? ≠ some ':')
  (hlist : readProgram ('[' :: '\n' :: (body ++ ['\n', ']'])) = .ok [.list items])
  (hend : ∀ word, .text word ∈ items → sameName word "end" = false)
include hname hparams hbody hlist hend

include hstart hcolon in
theorem readProgram_definition : readProgram ('t' :: 'o' :: ' ' :: (name.toList ++
      (marked ':' params ++ '\n' :: (body ++ ['\n', 'e', 'n', 'd']))))
    = .ok (definitionItems name params.reverse items).reverse := by
  generalize hfront : 't' :: 'o' :: ' ' :: (name.toList ++
    (marked ':' params ++ '\n' :: body)) = front
  have hsource : front ++ ['\n', 'e', 'n', 'd'] = 't' :: 'o' :: ' ' :: (name.toList ++
      (marked ':' params ++ '\n' :: (body ++ ['\n', 'e', 'n', 'd']))) := by
    rw [← hfront]
    simp
  obtain ⟨level, hcloser, hitems, hparens, hread⟩ := @read_body_beside body items
    (.definition front name params.reverse true) [State.initial.level] _ _ hbody hlist hend rfl
    (fun _ => hcolon) (gap_line ['e', 'n', 'd'])
  obtain ⟨heading, hopened⟩ := Closer.definition_of_body hcloser
  rw [← hsource]
  calc State.initial.read (front ++ ['\n', 'e', 'n', 'd'])
    _ = State.read ⟨{ closer := .definition (front ++ ['\n', 'e', 'n', 'd']) name params.reverse true },
          [State.initial.level]⟩ ('\n' :: (body ++ ['\n', 'e', 'n', 'd'])) :=
      read_heading hstart hname hparams (stopped_cons rfl _) hsource
    _ = (State.extended ['\n', 'e', 'n', 'd'] ⟨level, [State.initial.level]⟩).read
          ['\n', 'e', 'n', 'd'] := hread
    _ = .ok (definitionItems name params.reverse level.items.reverse).reverse :=
      @read_end (level.extended _) _ _ _ _ _ (by rw [Level.extended, hopened]; rfl)
        (by rw [Level.extended, hparens]; rfl)
    _ = .ok (definitionItems name params.reverse items).reverse := by rw [hitems, List.reverse_reverse]

theorem readProgram_call : readProgram ('(' :: ' ' :: 't' :: 'o' ::
      (marked '"' (name :: params) ++
        ' ' :: '[' :: '\n' :: (body ++ ['\n', ']', ' ', ')'])))
    = .ok (definitionItems name params.reverse items).reverse := by
  generalize hfront : '(' :: ' ' :: 't' :: 'o' ::
    (marked '"' (name :: params) ++ ' ' :: '[' :: '\n' :: body) = front
  have hsource : front ++ ['\n', ']', ' ', ')'] = '(' :: ' ' :: 't' :: 'o' ::
      (marked '"' (name :: params) ++
        ' ' :: '[' :: '\n' :: (body ++ ['\n', ']', ' ', ')'])) := by
    rw [← hfront]
    simp
  generalize hwords : ((name :: params).map fun p => Value.text ("\"" ++ p)).reverse ++
    [.text "to", .text "("] = words
  obtain ⟨tight, hcall⟩ := read_call hname hparams hsource
  rw [hwords] at hcall
  obtain ⟨level, hcloser, hitems, hparens, hread⟩ := @read_body_beside body items
    (.bracket ('[' :: '\n' :: body)) [⟨.program, words, [front], tight⟩] _ _ hbody hlist hend rfl
    (fun h => by cases h) (gap_line [']', ' ', ')'])
  have hopened := Closer.bracket_of_body hcloser
  rw [← hsource]
  calc State.initial.read (front ++ ['\n', ']', ' ', ')'])
    _ = State.read ⟨{ closer := .bracket ('[' :: '\n' :: (body ++ ['\n', ']', ' ', ')'])) },
          [⟨.program, words, [front ++ ['\n', ']', ' ', ')']], tight⟩]⟩
          ('\n' :: (body ++ ['\n', ']', ' ', ')'])) := hcall
    _ = (State.extended ['\n', ']', ' ', ')'] ⟨level, [⟨.program, words, [front], tight⟩]⟩).read
          ['\n', ']', ' ', ')'] := hread
    _ = .ok (.text ")" :: .list level.items.reverse :: words).reverse :=
      @read_closed (level.extended _) _ _ _ _ (by rw [Level.extended, hopened]; rfl)
        (by rw [Level.extended, hparens]; rfl)
    _ = .ok (definitionItems name params.reverse items).reverse := by
      rw [hitems, List.reverse_reverse, ← hwords]
      simp [definitionItems]

end Whole

end Logo.Source

namespace Logo
open Source Text

/-- **A definition is the call that it stands for.** A heading and a body that reads as one list,
in which `end` is not a member, are read as the call of `to` with the quoted names and that list;
and so is the call as it is written out. -/
theorem definition_is_call {name body : String} {params : List String} {items : List Value}
    (hstart : startsName name.toList = true) (hname : name.toList.all isNameable = true)
    (hparams : ∀ p ∈ params, p ≠ "" ∧ p.toList.all isNameable = true) (hbody : '\\' ∉ body.toList)
    (hcolon : (skipTrivia false body.toList).head? ≠ some ':')
    (hlist : parse ("[\n" ++ body ++ "\n]") = .ok [.list items])
    (hend : ∀ word, .text word ∈ items → sameName word "end" = false) :
    parse ("to " ++ name ++ String.join (params.map (" :" ++ ·)) ++ "\n" ++ body ++ "\nend")
      = .ok (.text "(" :: .text "to" :: .text ("\"" ++ name) ::
          (params.map fun p => .text ("\"" ++ p)) ++ [.list items, .text ")"]) ∧
    parse ("to " ++ name ++ String.join (params.map (" :" ++ ·)) ++ "\n" ++ body ++ "\nend")
      = parse ("( to \"" ++ name ++ String.join (params.map (" \"" ++ ·)) ++ " [\n" ++ body
          ++ "\n] )") := by
  have hparams' : ∀ p ∈ params, p.toList ≠ [] ∧ p.toList.all isNameable = true := fun p hp =>
    ⟨fun hempty => (hparams p hp).1 (String.toList_eq_nil_iff.1 hempty), (hparams p hp).2⟩
  have hread : readProgram ('[' :: '\n' :: (body.toList ++ ['\n', ']'])) = .ok [.list items] := by
    have h := parse_ok_iff.1 hlist
    simpa [String.toList_append] using h
  have hfirst : parse ("to " ++ name ++ String.join (params.map (" :" ++ ·)) ++ "\n" ++ body ++ "\nend")
      = .ok (definitionItems name params.reverse items).reverse := by
    rw [parse_ok_iff, ← readProgram_definition hstart hname hparams' hbody hcolon hread hend]
    simp [marked, String.toList_append, List.flatMap_map]
  have hsecond : parse ("( to \"" ++ name ++ String.join (params.map (" \"" ++ ·)) ++ " [\n" ++ body
        ++ "\n] )") = .ok (definitionItems name params.reverse items).reverse := by
    rw [parse_ok_iff, ← readProgram_call hname hparams' hbody hread hend]
    simp [marked, String.toList_append, List.flatMap_map]
  refine ⟨?_, hfirst.trans hsecond.symm⟩
  rw [hfirst]
  simp [definitionItems]

/-- The word `end` in a list inside the body, and a group around the parameter. -/
theorem definition_is_call_trial :
    parse ("[\n" ++ "[end] (:n)" ++ "\n]")
      = .ok [.list [.list [.text "end"], .text "(", .text ":n", .text ")"]] ∧
    parse ("to " ++ "f" ++ String.join (["n"].map (" :" ++ ·)) ++ "\n" ++ "[end] (:n)" ++ "\nend")
      = .ok (.text "(" :: .text "to" :: .text ("\"" ++ "f") :: (["n"].map fun p => .text ("\"" ++ p)) ++
          [.list [.list [.text "end"], .text "(", .text ":n", .text ")"], .text ")"]) ∧
    parse ("to " ++ "f" ++ String.join (["n"].map (" :" ++ ·)) ++ "\n" ++ "[end] (:n)" ++ "\nend")
      = parse ("( to \"" ++ "f" ++ String.join (["n"].map (" \"" ++ ·)) ++ " [\n" ++ "[end] (:n)"
          ++ "\n] )") := by
  have hlist : parse ("[\n" ++ "[end] (:n)" ++ "\n]")
      = .ok [.list [.list [.text "end"], .text "(", .text ":n", .text ")"]] := by
    have hword (s : State) (opened : List Char) (hs : s.level.closer = .bracket opened) :
        s.item false 'e' ['n', 'd', ']', ' ', '(', ':', 'n', ')', '\n', ']']
          = .ok (s.push (.text "end") true, [']', ' ', '(', ':', 'n', ')', '\n', ']']) := by
      have hscan : scanBareWord 'e' ['n', 'd', ']', ' ', '(', ':', 'n', ')', '\n', ']']
          = some (['e', 'n', 'd'], [']', ' ', '(', ':', 'n', ')', '\n', ']']) := by cbv
      have hvalue : wordValue (String.ofList ['e', 'n', 'd']) = .text "end" := by cbv
      rw [← hvalue]
      exact (State.Takes.word rfl hscan (by simp [State.plainWord, hs])).item_eq
    have hvariable (s : State) (opened : List Char) (hs : s.level.closer = .bracket opened) :
        s.item false ':' ['n', ')', '\n', ']'] = .ok (s.push (.text ":n") true, [')', '\n', ']']) := by
      have hscan : scanWord isTerminator [] ['n', ')', '\n', ']']
          = some (['n'], [')', '\n', ']']) := by cbv
      exact (State.Takes.variableName hscan (List.cons_ne_nil _ _) (by rw [hs]; rfl)).item_eq
    rw [parse_ok_iff]
    show State.initial.read ['[', '\n', '[', 'e', 'n', 'd', ']', ' ', '(', ':', 'n', ')', '\n', ']'] = _
    rw [State.read_of_item rfl rfl, State.read_of_item rfl rfl, State.read_of_item rfl (hword _ _ rfl),
      State.read_of_item rfl rfl, State.read_of_item rfl rfl, State.read_of_item rfl (hvariable _ _ rfl),
      State.read_of_item rfl rfl, State.read_of_item rfl rfl, State.read_of_end rfl]
    rfl
  refine ⟨hlist, definition_is_call (by decide) (by decide) ?_ (by decide) ?_ hlist ?_⟩
  · intro p hp
    rw [List.mem_singleton.1 hp]
    decide
  · decide
  · intro word hword
    simp only [List.mem_cons, Value.text.injEq, reduceCtorEq, List.not_mem_nil, or_false,
      false_or] at hword
    rcases hword with rfl | rfl | rfl
    all_goals cbv

end Logo
