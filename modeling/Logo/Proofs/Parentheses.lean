import Logo.Proofs.PlainSources
import Logo.Role

/-!
# Parentheses in what is read

The reader counts parentheses by their characters, list by list, while a run goes by what
each member is for. The two agree on every list of every program, except on a parenthesis
that a backslash makes a bare word of its own: it is a member like any other to the reader
and groups in a run. `escapedParens` are these parentheses of a source. Without them every
list is `Matched`; with them the surplus of a program is the surplus among them.
-/

namespace Logo.Role
set_option autoImplicit false

def isOpen : Role → Bool
  | .openParen => true
  | _ => false

def isClose : Role → Bool
  | .closeParen => true
  | _ => false

end Logo.Role

namespace Logo.Value
set_option autoImplicit false
open Logo.Source

/-- How many members open a group? -/
def opens (items : List Value) : Nat := items.countP fun v => (Role.of v).isOpen

/-- How many members close a group? -/
def closes (items : List Value) : Nat := items.countP fun v => (Role.of v).isClose

/-- Each group that is closed was opened before, and each that is opened is closed. -/
structure Matched (items : List Value) : Prop where
  fronts : ∀ front, front <+: items → closes front ≤ opens front
  total : opens items = closes items

/-- The lists of a program: its members themselves, and those of the lists among them. -/
inductive Contains : List Value → List Value → Prop where
  | whole (items : List Value) : Contains items items
  | inside {items inner found : List Value} : .list inner ∈ items → Contains inner found →
      Contains items found

mutual

/-- Parentheses that open less those that close, in the lists inside as well. -/
def surplus : Value → Int
  | .list items => surplusAll items
  | v => opens [v] - closes [v]

def surplusAll : List Value → Int
  | [] => 0
  | v :: vs => v.surplus + surplusAll vs

end

/-! ### Counting -/

theorem isOpen_ofText (s : String) : (Role.ofText s).isOpen = (s == "(") := by
  unfold Role.ofText
  by_cases hopen : s = "("
  · simp [hopen, Role.isOpen]
  · simp only [hopen, if_false, beq_eq_false_iff_ne.2 hopen]
    repeat' split
    all_goals rfl

theorem isClose_ofText (s : String) : (Role.ofText s).isClose = (s == ")") := by
  unfold Role.ofText
  by_cases hopen : s = "("
  · subst hopen
    rfl
  · by_cases hclose : s = ")"
    · simp [hclose, Role.isClose]
    · simp only [hopen, hclose, if_false, beq_eq_false_iff_ne.2 hclose]
      repeat' split
      all_goals rfl

theorem opens_cons (v : Value) (items : List Value) :
    opens (v :: items) = opens [v] + opens items := by
  simp only [opens, List.countP_cons, List.countP_nil, Nat.zero_add, Nat.add_comm]

theorem closes_cons (v : Value) (items : List Value) :
    closes (v :: items) = closes [v] + closes items := by
  simp only [closes, List.countP_cons, List.countP_nil, Nat.zero_add, Nat.add_comm]

/-- Following the depth over one member is keeping count. -/
theorem depthAfter_eq_some_iff {v : Value} {depth depth' : Nat} :
    v.depthAfter depth = some depth' ↔ depth + opens [v] = depth' + closes [v] := by
  simp only [opens, closes, List.countP_singleton]
  cases v with
  | text s =>
    simp only [Role.of, isOpen_ofText, isClose_ofText, beq_iff_eq, Value.depthAfter]
    by_cases hopen : s = "("
    · simp [hopen]
    · by_cases hclose : s = ")"
      · cases depth <;> simp [hclose]
      · simp [hopen, hclose]
  | _ => simp [Value.depthAfter, Role.of, Role.isOpen, Role.isClose]

theorem foldlM_depthAfter_iff {items : List Value} {depth depth' : Nat} :
    items.foldlM depthAfter depth = some depth' ↔
      (∀ front, front <+: items → closes front ≤ depth + opens front) ∧
        depth + opens items = depth' + closes items := by
  induction items generalizing depth with
  | nil => simp [opens, closes]
  | cons v vs ih =>
    rw [List.foldlM_cons, Option.bind_eq_bind, Option.bind_eq_some_iff, opens_cons, closes_cons]
    constructor
    · rintro ⟨between, hv, hvs⟩
      have hone := depthAfter_eq_some_iff.1 hv
      obtain ⟨hfronts, htotal⟩ := ih.1 hvs
      refine ⟨fun front hfront => ?_, by omega⟩
      obtain rfl | ⟨tail, rfl, htail⟩ := List.prefix_cons_iff.1 hfront
      · exact Nat.zero_le _
      · have hle := hfronts tail htail
        rw [opens_cons, closes_cons]
        omega
    · rintro ⟨hfronts, htotal⟩
      -- the member alone is a front, so the depth behind it is a number
      have hv := hfronts [v] (List.prefix_cons_iff.2 (.inr ⟨[], rfl, List.nil_prefix⟩))
      refine ⟨depth + opens [v] - closes [v], depthAfter_eq_some_iff.2 (by omega), ih.2 ⟨?_, by omega⟩⟩
      intro front hfront
      have hle := hfronts (v :: front) (List.prefix_cons_iff.2 (.inr ⟨front, rfl, hfront⟩))
      rw [opens_cons, closes_cons] at hle
      omega

theorem matched_iff {items : List Value} : Matched items ↔ items.foldlM depthAfter 0 = some 0 := by
  rw [foldlM_depthAfter_iff, Nat.zero_add, Nat.zero_add]
  constructor
  · exact fun h => ⟨fun front hfront => Nat.zero_add _ ▸ h.fronts front hfront, h.total⟩
  · exact fun h => ⟨fun front hfront => Nat.zero_add (opens front) ▸ h.1 front hfront, h.2⟩

instance (items : List Value) : Decidable (Matched items) := decidable_of_iff _ matched_iff.symm

theorem surplusAll_append (vs ws : List Value) :
    surplusAll (vs ++ ws) = surplusAll vs + surplusAll ws := by
  induction vs with
  | nil => simp [surplusAll]
  | cons v vs ih => rw [List.cons_append, surplusAll, surplusAll, ih, add_assoc]

theorem surplusAll_reverse (vs : List Value) : surplusAll vs.reverse = surplusAll vs := by
  induction vs with
  | nil => rfl
  | cons v vs ih =>
    rw [List.reverse_cons, surplusAll_append, ih, surplusAll, surplusAll, surplusAll]
    omega

mutual

theorem surplus_of_matched : ∀ v : Value,
    (∀ inner, v = .list inner → ∀ found, Contains inner found → Matched found) →
      v.surplus = opens [v] - closes [v]
  | .list items, h => by
    have hmatched := h items rfl
    have hall := surplusAll_of_matched items fun inner hmem found hfound =>
      hmatched found (.inside hmem hfound)
    have htotal := (hmatched items (.whole items)).total
    have hno : opens [.list items] = 0 ∧ closes [.list items] = 0 := ⟨rfl, rfl⟩
    rw [Value.surplus]
    omega
  | .number _, _ => rfl
  | .text _, _ => rfl
  | .boolean _, _ => rfl
  | .procedure _, _ => rfl

/-- Where the lists inside match, only the members themselves count. -/
theorem surplusAll_of_matched : ∀ items : List Value,
    (∀ inner, .list inner ∈ items → ∀ found, Contains inner found → Matched found) →
      surplusAll items = opens items - closes items
  | [], _ => rfl
  | v :: vs, h => by
    have hv := surplus_of_matched v fun inner hv => h inner (hv ▸ List.mem_cons_self)
    have hvs := surplusAll_of_matched vs fun inner hmem => h inner (List.mem_cons_of_mem v hmem)
    rw [surplusAll, opens_cons, closes_cons]
    omega

end

end Logo.Value

namespace Logo.Source
set_option autoImplicit false
open Logo.Text Logo.Value

/-! ### Escaped parentheses -/

/-- The bare word at the front of `c :: cs`, if it is a parenthesis. Only a backslash makes it
a word. -/
def loneParen (c : Char) (cs : List Char) : List Char :=
  match startsWord c cs, scanBareWord c cs with
  | true, some (word, _) => if word = ['('] ∨ word = [')'] then word else []
  | _, _ => []

/-- The parentheses that are bare words in the rest of a source, in order. -/
def State.escapedParens (s : State) (source : List Char) : List Char :=
  match _skipped : skipTrivia false source with
  | [] => []
  | c :: cs =>
    match _taken : s.item (startsTrivia source) c cs with
    | .error _ => []
    | .ok (t, rest) => loneParen c cs ++ t.escapedParens rest
termination_by source.length
decreasing_by
  have := State.length_item_le _taken
  have := length_skipTrivia_le false source
  rw [_skipped] at this
  simp only [List.length_cons] at this
  omega

theorem State.escapedParens_of_item {s t : State} {source cs rest : List Char} {c : Char}
    (hs : skipTrivia false source = c :: cs)
    (hi : s.item (startsTrivia source) c cs = .ok (t, rest)) :
    s.escapedParens source = loneParen c cs ++ t.escapedParens rest := by
  rw [State.escapedParens]
  split
  · rename_i h
    rw [hs] at h
    cases h
  · rename_i h
    rw [hs] at h
    cases h
    split
    · rename_i h
      rw [hi] at h
      cases h
    · rename_i h
      rw [hi] at h
      cases h
      rfl

theorem State.escapedParens_of_end {s : State} {source : List Char}
    (hs : skipTrivia false source = []) : s.escapedParens source = [] := by
  rw [State.escapedParens]
  split
  · rfl
  · rename_i h
    rw [hs] at h
    cases h

section Lone

variable {c : Char} {cs word rest : List Char}

theorem loneParen_of_not_word (h : startsWord c cs = false) : loneParen c cs = [] := by
  unfold loneParen
  rw [h]

theorem loneParen_of_word (h : startsWord c cs = true) (hscan : scanBareWord c cs = some (word, rest)) :
    loneParen c cs = if word = ['('] ∨ word = [')'] then word else [] := by
  unfold loneParen
  rw [h, hscan]

theorem loneParen_of_sameName {name : String} (h : startsWord c cs = true)
    (hscan : scanBareWord c cs = some (word, rest)) (hname : sameName (String.ofList word) name = true)
    (hopen : sameName "(" name = false) (hclose : sameName ")" name = false) :
    loneParen c cs = [] := by
  rw [loneParen_of_word h hscan, if_neg]
  rintro (rfl | rfl)
  · exact absurd (hopen.symm.trans hname) Bool.false_ne_true
  · exact absurd (hclose.symm.trans hname) Bool.false_ne_true

end Lone

/-! ### What an item does to the lists -/

/-- What any item does to the lists that are being read: begin one, leave their members as they
are, add a member, or end one and add it to the list around it, by itself or in the call
that stands for a definition. `lone` is the escaped parenthesis that the item is, if any. -/
inductive State.Grows (s : State) : List Char → State → Prop where
  | opened {t : State} : t.level.items = [] → t.level.parens = [] → t.outer = s.level :: s.outer →
      Grows s [] t
  | kept {t : State} : t.level.items = s.level.items → t.level.parens = s.level.parens →
      t.outer = s.outer → Grows s [] t
  | added {t : State} {v : Value} : v.isWord = true → t.level.items = v :: s.level.items →
      t.outer = s.outer → v.depthAfter s.level.parens.length = some t.level.parens.length →
      Grows s [] t
  | escaped {t : State} {lone : List Char} : lone = ['('] ∨ lone = [')'] →
      t.level.items = .text (String.ofList lone) :: s.level.items →
      t.level.parens = s.level.parens → t.outer = s.outer → Grows s lone t
  | closed {t : State} {l : Level} {outer : List Level} {members added : List Value} :
      s.level.close = .ok members → s.outer = l :: outer →
      (added = [.list members] ∨ ∃ name params, added = definitionItems name params members) →
      t.level.items = added ++ l.items → t.level.parens = l.parens → t.outer = outer → Grows s [] t

section Item

variable {s t u : State} {spaced : Bool} {c : Char} {cs rest source : List Char}

/-- A text that is no parenthesis is added. -/
theorem State.Grows.text {word : List Char} {tight : Bool} (hopen : word ≠ ['(']) (hclose : word ≠ [')']) :
    s.Grows [] (s.push (.text (String.ofList word)) tight) :=
  .added rfl rfl rfl (depthAfter_text hopen hclose _)

theorem isWord_wordValue (word : String) : (wordValue word).isWord = true := by
  unfold wordValue
  split
  · rfl
  · split <;> rfl

/-- A bare word that is added counts for nothing if it is no parenthesis, and is an escaped one
otherwise. -/
theorem State.Grows.word {word : List Char} {tight : Bool} (hw : startsWord c cs = true)
    (hscan : scanBareWord c cs = some (word, rest)) :
    s.Grows (loneParen c cs) (s.push (wordValue (String.ofList word)) tight) := by
  rw [loneParen_of_word hw hscan]
  split
  · rename_i hparen
    refine .escaped hparen ?_ rfl rfl
    obtain rfl | rfl := hparen <;> cbv
  · rename_i hparen
    rw [not_or] at hparen
    exact .added (isWord_wordValue _) rfl rfl (wordValue_depthAfter hparen.1 hparen.2 _)

theorem State.Takes.grows (h : s.Takes spaced c cs t rest) : s.Grows (loneParen c cs) t := by
  cases h with
  | openList => exact .opened rfl rfl rfl
  | closeList _ hcloser ho hclose => exact .closed hclose ho (.inl rfl) rfl rfl rfl
  | openGroup => exact .added (v := .text "(") rfl rfl rfl rfl
  | @closeGroup _ opened parens hparens =>
    refine .added (v := .text ")") rfl rfl rfl ?_
    rw [hparens]
    rfl
  | quoted hscan => exact .text (by simp) (by simp)
  | parameter hscan hname hcloser => exact .kept rfl rfl rfl
  | variableName hscan hname hheading => exact .text (by simp) (by simp)
  | number hstart hw hr =>
    rw [loneParen_of_not_word]
    · exact .added rfl rfl rfl rfl
    · obtain ⟨rfl, -⟩ | hstart := hstart
      · rfl
      · simp [startsWord, hstart]
  | operator _ hsymbol hminus =>
    rw [loneParen_of_not_word (by simp [startsWord, hsymbol])]
    refine .text ?_ ?_
    all_goals
      rintro ⟨rfl⟩
      cases hsymbol
  | word hw hscan hplain => exact .word hw hscan
  | beginDefinition hw hscan hcloser hword hstart hname =>
    rw [loneParen_of_sameName hw hscan hword (by cbv) (by cbv)]
    exact .opened rfl rfl rfl
  | @endDefinition _ _ _ _ _ name params _ _ _ _ hw hscan hcloser ho hend hclose =>
    rw [loneParen_of_sameName hw hscan hend (by cbv) (by cbv)]
    exact .closed hclose ho (.inr ⟨name, params, rfl⟩) rfl rfl rfl

/-! ### Lists in which groups match -/

/-- As many parentheses are open as the reader has counted, and in the lists that are complete
all of them match. -/
structure Level.Tallied (l : Level) : Prop where
  depth : l.items.reverse.foldlM depthAfter 0 = some l.parens.length
  lists : ∀ inner, .list inner ∈ l.items → ∀ found, Contains inner found → Matched found

def State.Tallied (s : State) : Prop := ∀ l ∈ s.level :: s.outer, l.Tallied

theorem Level.close_ok {l : Level} {items : List Value} (h : l.close = .ok items) :
    l.parens = [] ∧ items = l.items.reverse := by
  unfold Level.close at h
  split at h
  · rename_i hparens
    cases h
    exact ⟨hparens, rfl⟩
  · cases h

/-- Every list inside a list that closes has its groups matched, and so has the list itself. -/
theorem Level.Tallied.close {l : Level} {items : List Value} (h : l.Tallied) (hclose : l.close = .ok items)
    (found : List Value) (hfound : Contains items found) : Matched found := by
  obtain ⟨hparens, rfl⟩ := l.close_ok hclose
  cases hfound with
  | whole =>
    have hdepth := h.depth
    rw [hparens] at hdepth
    exact matched_iff.2 hdepth
  | inside hmem hin => exact h.lists _ (List.mem_reverse.1 hmem) found hin

/-- Members that leave the depth as it is. -/
theorem Level.Tallied.append {l l' : Level} {added : List Value} (h : l.Tallied)
    (hitems : l'.items = added ++ l.items)
    (hdepth : added.reverse.foldlM depthAfter l.parens.length = some l'.parens.length)
    (hlists : ∀ inner, .list inner ∈ added → ∀ found, Contains inner found → Matched found) :
    l'.Tallied := by
  constructor
  · rw [hitems, List.reverse_append, List.foldlM_append, h.depth]
    exact hdepth
  · rw [hitems]
    intro inner hmem
    obtain hmem | hmem := List.mem_append.1 hmem
    · exact hlists inner hmem
    · exact h.lists inner hmem

theorem depthAfter_quote (name : String) (depth : Nat) :
    (Value.text ("\"" ++ name)).depthAfter depth = some depth := by
  rw [quote_append]
  exact depthAfter_text (by simp) (by simp) depth

/-- The call that stands for a definition is one group. -/
theorem definitionItems_depth (name : String) (params : List String) (body : List Value) (depth : Nat) :
    (definitionItems name params body).reverse.foldlM depthAfter depth = some depth := by
  have hparams : ∀ ps : List String,
      (ps.map fun p => Value.text ("\"" ++ p)).foldrM (fun v d => v.depthAfter d) (depth + 1)
        = some (depth + 1) := by
    intro ps
    induction ps with
    | nil => rfl
    | cons p ps ih =>
      rw [List.map_cons, List.foldrM_cons, ih]
      exact depthAfter_quote p _
  have hopen : (Value.text "(").depthAfter depth = some (depth + 1) := rfl
  have hto : (Value.text "to").depthAfter (depth + 1) = some (depth + 1) := rfl
  have hclose : (Value.text ")").depthAfter (depth + 1) = some depth := rfl
  have hbody : (Value.list body).depthAfter (depth + 1) = some (depth + 1) := rfl
  simp [definitionItems, List.foldlM_append, hparams, hopen, hto, hclose, hbody, depthAfter_quote]

theorem list_of_mem_definitionItems {name : String} {params : List String} {body inner : List Value}
    (h : .list inner ∈ definitionItems name params body) : inner = body := by
  simpa [definitionItems] using h

/-- **One item** that is no escaped parenthesis keeps the tally. -/
theorem State.Grows.tallied (h : s.Grows [] t) (hs : s.Tallied) : t.Tallied := by
  obtain ⟨hlevel, houter⟩ := List.forall_mem_cons.1 hs
  unfold State.Tallied
  cases h with
  | opened hitems hparens ho =>
    rw [ho]
    refine List.forall_mem_cons.2 ⟨⟨?_, ?_⟩, hs⟩
    · rw [hitems, hparens]
      rfl
    · rw [hitems]
      intro inner hmem
      cases hmem
  | kept hitems hparens ho =>
    rw [ho]
    exact List.forall_mem_cons.2 ⟨⟨by rw [hitems, hparens]; exact hlevel.depth, hitems ▸ hlevel.lists⟩, houter⟩
  | @added _ v hword hitems ho hdepth =>
    rw [ho]
    have happend : t.level.items = [v] ++ s.level.items := hitems
    refine List.forall_mem_cons.2 ⟨hlevel.append happend (by simpa using hdepth) ?_, houter⟩
    intro inner hmem
    obtain rfl := List.mem_singleton.1 hmem
    cases hword
  | escaped hlone => simp at hlone
  | @closed _ l outer members added hclose ho hadded hitems hparens ho' =>
    rw [ho] at houter
    obtain ⟨hl, houter⟩ := List.forall_mem_cons.1 houter
    rw [ho']
    have hmembers := hlevel.close hclose
    refine List.forall_mem_cons.2 ⟨hl.append hitems ?_ ?_, houter⟩
    · rw [hparens]
      obtain rfl | ⟨name, params, rfl⟩ := hadded
      · rfl
      · exact definitionItems_depth name params members _
    · intro inner hmem
      obtain rfl | ⟨name, params, rfl⟩ := hadded
      · obtain ⟨rfl⟩ := List.mem_singleton.1 hmem
        exact hmembers
      · rw [list_of_mem_definitionItems hmem]
        exact hmembers

theorem State.Reads.tallied (h : s.Reads source u) (hnone : s.escapedParens source = [])
    (hs : s.Tallied) : u.Tallied := by
  induction h with
  | done => exact hs
  | item hskip ht _ ih =>
    rw [State.escapedParens_of_item hskip ht.item_eq, List.append_eq_nil_iff] at hnone
    exact ih hnone.2 ((hnone.1 ▸ ht.grows).tallied hs)

/-! ### The surplus -/

/-- Parentheses of a list that open less those that close and those the reader has counted
as open. -/
def Level.uncounted (l : Level) : Int := surplusAll l.items - l.parens.length

def State.uncounted (s : State) : Int := ((s.level :: s.outer).map Level.uncounted).sum

/-- Opening parentheses less closing ones among characters. -/
def parenSurplus (cs : List Char) : Int := cs.count '(' - cs.count ')'

theorem surplus_of_depthAfter {v : Value} {depth depth' : Nat} (hword : v.isWord = true)
    (h : v.depthAfter depth = some depth') : v.surplus = depth' - depth := by
  have hcount := depthAfter_eq_some_iff.1 h
  cases v with
  | list items => cases hword
  | _ =>
    simp only [Value.surplus]
    omega

theorem definitionItems_surplus (name : String) (params : List String) (body : List Value) :
    surplusAll (definitionItems name params body) = surplusAll body := by
  have hquote : ∀ p : String, (Value.text ("\"" ++ p)).surplus = 0 := fun p => by
    simpa using surplus_of_depthAfter rfl (depthAfter_quote p 0)
  have hparams : surplusAll (params.map fun p => Value.text ("\"" ++ p)) = 0 := by
    induction params with
    | nil => rfl
    | cons p ps ih => rw [List.map_cons, surplusAll, hquote, ih, add_zero]
  have hto : (Value.text "to").surplus = 0 := rfl
  have hopen : (Value.text "(").surplus = 1 := rfl
  have hclose : (Value.text ")").surplus = -1 := rfl
  have hbody : (Value.list body).surplus = surplusAll body := rfl
  simp only [definitionItems, surplusAll_append, surplusAll, hparams, hquote, hto, hopen, hclose, hbody]
  omega

theorem State.Grows.uncounted {lone : List Char} (h : s.Grows lone t) :
    t.uncounted = s.uncounted + parenSurplus lone := by
  have hnone : parenSurplus [] = 0 := rfl
  simp only [State.uncounted, List.map_cons, List.sum_cons, Level.uncounted]
  cases h with
  | opened hitems hparens ho => simp [hitems, hparens, ho, hnone, surplusAll, Level.uncounted]
  | kept hitems hparens ho => simp [hitems, hparens, ho, hnone]
  | added hword hitems ho hdepth =>
    rw [hitems, ho, surplusAll, surplus_of_depthAfter hword hdepth, hnone]
    omega
  | escaped hlone hitems hparens ho =>
    have hvalue : (Value.text (String.ofList lone)).surplus = parenSurplus lone := by
      obtain rfl | rfl := hlone <;> rfl
    rw [hitems, hparens, ho, surplusAll, hvalue]
    omega
  | @closed _ l outer members added hclose ho hadded hitems hparens ho' =>
    obtain ⟨hnothing, rfl⟩ := Level.close_ok hclose
    have hvalue : surplusAll added = surplusAll s.level.items := by
      obtain rfl | ⟨name, params, rfl⟩ := hadded
      · simp [surplusAll, Value.surplus, surplusAll_reverse]
      · rw [definitionItems_surplus, surplusAll_reverse]
    rw [hitems, hparens, ho', surplusAll_append, hvalue, ho, hnothing, hnone]
    simp only [List.map_cons, List.sum_cons, Level.uncounted, List.length_nil]
    omega

theorem State.Reads.uncounted (h : s.Reads source u) :
    u.uncounted = s.uncounted + parenSurplus (s.escapedParens source) := by
  induction h with
  | done s hskip =>
    rw [State.escapedParens_of_end hskip]
    exact (add_zero _).symm
  | item hskip ht _ ih =>
    have happend : ∀ cs ds : List Char,
        parenSurplus (cs ++ ds) = parenSurplus cs + parenSurplus ds := by
      intro cs ds
      simp only [parenSurplus, List.count_append]
      omega
    rw [ih, ht.grows.uncounted, State.escapedParens_of_item hskip ht.item_eq, happend, add_assoc]

end Item

end Logo.Source

namespace Logo
open Source Value

/-- The parentheses that are bare words of their own in a source, in order. -/
def escapedParens (source : String) : List Char := State.initial.escapedParens source.toList

/-- **Groups match.** In a program and in each list inside it as many members open a group as
close one, and no front of it closes more, unless its source escapes a parenthesis that stands
alone; and if they match, then such a source escapes as many of either kind. -/
theorem groups_match {source : String} {program : List Value} (h : parse source = .ok program) :
    (escapedParens source = [] → ∀ found, Contains program found → Matched found) ∧
    ((∀ found, Contains program found → Matched found) →
      (escapedParens source).count '(' = (escapedParens source).count ')') := by
  obtain ⟨u, hu, hfinish⟩ := State.read_ok_iff.1 (parse_ok_iff.1 h)
  have hend := (hu.nested (.program rfl)).of_finish hfinish
  constructor
  · intro hnone
    have hinitial : State.initial.Tallied := by
      intro l hl
      obtain rfl := List.mem_singleton.1 hl
      exact ⟨rfl, fun inner hmem => by cases hmem⟩
    have htallied := hu.tallied hnone hinitial u.level List.mem_cons_self
    refine htallied.close ?_
    rw [hend]
    simp [Level.close]
  · intro hmatched
    have htotal := (hmatched program (.whole program)).total
    have hsurplus := surplusAll_of_matched program fun inner hmem found hfound =>
      hmatched found (.inside hmem hfound)
    have hcount : surplusAll program = parenSurplus (escapedParens source) := by
      have hread := hu.uncounted
      rw [hend] at hread
      simpa [State.uncounted, Level.uncounted, State.initial, surplusAll, surplusAll_reverse,
        escapedParens] using hread
    rw [parenSurplus] at hcount
    omega

/-- A parenthesis that is a word of its own opens a group that nothing closes. -/
theorem escaped_paren_unmatched : parse "\\(" = .ok [.text "("] ∧ escapedParens "\\(" = ['('] ∧
    Contains [.text "("] [.text "("] ∧ ¬ Matched [.text "("] := by
  have hword : State.initial.item false '\\' ['(']
      = .ok (⟨{ closer := .program, items := [.text "("], tight := true }, []⟩, []) := by cbv
  refine ⟨?_, ?_, .whole _, by decide +kernel⟩
  · rw [parse_ok_iff]
    show State.initial.read ['\\', '('] = _
    rw [State.read_of_item rfl hword, State.read_of_end rfl]
    rfl
  · show State.initial.escapedParens ['\\', '('] = _
    rw [State.escapedParens_of_item rfl hword, State.escapedParens_of_end rfl]
    rfl

namespace Trial

/-- A group, with escaped parentheses inside of words only. -/
def grouped : List Value := [.text "(", .list [.text ")x"], .text "\"(", .text ")"]

theorem parse_grouped : parse "([\\)x] \"\\()" = .ok grouped ∧ escapedParens "([\\)x] \"\\()" = [] := by
  let source : List Char := "([\\)x] \"\\()".toList
  -- inside the group, with the members so far
  let inside (items : List Value) (tight : Bool) : Level :=
    { closer := .program, items, parens := [source], tight }
  let list (items : List Value) (tight : Bool) : State :=
    ⟨{ closer := .bracket "[\\)x] \"\\()".toList, items, tight }, [inside [.text "("] false]⟩
  have hopen : State.initial.item false '(' "[\\)x] \"\\()".toList
      = .ok (⟨inside [.text "("] false, []⟩, "[\\)x] \"\\()".toList) := by cbv
  have hlist : State.item ⟨inside [.text "("] false, []⟩ false '[' "\\)x] \"\\()".toList
      = .ok (list [] false, "\\)x] \"\\()".toList) := by cbv
  have hword : (list [] false).item false '\\' ")x] \"\\()".toList
      = .ok (list [.text ")x"] true, "] \"\\()".toList) := by cbv
  have hend : (list [.text ")x"] true).item false ']' " \"\\()".toList
      = .ok (⟨inside [.list [.text ")x"], .text "("] true, []⟩, " \"\\()".toList) := by cbv
  have hquoted : State.item ⟨inside [.list [.text ")x"], .text "("] true, []⟩ true '"' "\\()".toList
      = .ok (⟨inside [.text "\"(", .list [.text ")x"], .text "("] true, []⟩, ")".toList) := by cbv
  have hclose : State.item ⟨inside [.text "\"(", .list [.text ")x"], .text "("] true, []⟩ false ')' []
      = .ok (⟨{ closer := .program, items := grouped.reverse, tight := true }, []⟩, []) := by cbv
  constructor
  · rw [parse_ok_iff]
    show State.initial.read source = _
    rw [State.read_of_item rfl hopen, State.read_of_item rfl hlist, State.read_of_item rfl hword,
      State.read_of_item rfl hend, State.read_of_item rfl hquoted, State.read_of_item rfl hclose,
      State.read_of_end rfl]
    rfl
  · show State.initial.escapedParens source = _
    rw [State.escapedParens_of_item rfl hopen, State.escapedParens_of_item rfl hlist,
      State.escapedParens_of_item rfl hword, State.escapedParens_of_item rfl hend,
      State.escapedParens_of_item rfl hquoted, State.escapedParens_of_item rfl hclose,
      State.escapedParens_of_end rfl]
    decide +kernel

end Trial

theorem groups_match_trial : parse "([\\)x] \"\\()" = .ok Trial.grouped ∧
    Contains Trial.grouped Trial.grouped ∧ Matched Trial.grouped ∧
    Contains Trial.grouped [.text ")x"] ∧ Matched [.text ")x"] := by
  obtain ⟨hparse, hnone⟩ := Trial.parse_grouped
  have hmatched := (groups_match hparse).1 hnone
  have hmember : .list [.text ")x"] ∈ Trial.grouped := by simp [Trial.grouped]
  have hinside : Contains Trial.grouped [.text ")x"] := .inside hmember (.whole _)
  exact ⟨hparse, .whole _, hmatched _ (.whole _), hinside, hmatched _ hinside⟩

end Logo
