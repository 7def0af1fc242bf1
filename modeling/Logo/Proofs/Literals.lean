import Logo.Proofs.ReadBack
import Logo.Proofs.Undisturbed
import Logo.Proofs.Words

/-!
# Literals

Every value but a procedure can be written down. With a backslash before each of its characters a
text is one word to the reader, whatever the characters are, and it is not taken for a number, a
variable, an operator or a parenthesis. `Value.literal` writes a value in this way. The source is
read as one member of a program (`parse_literal`), and the run of that program replies with a value
equal to the one that was written.
-/

namespace Logo.Value
set_option autoImplicit false
open Logo.Text Logo.Source

/-! ### How values are written -/

/-- A text with a backslash before each character. -/
def escaped (s : String) : String := String.ofList (s.toList.flatMap fun c => ['\\', c])

mutual

/-- How a value is written inside a list. -/
def enclosed : Value → String
  | .number n => numberText n
  | .text s => escaped s
  | .boolean b => booleanText b
  | .list items => "[" ++ joined " " (allEnclosed items) ++ "]"
  | .procedure _ => ""

def allEnclosed : List Value → List String
  | [] => []
  | v :: vs => v.enclosed :: allEnclosed vs

end

/-- How a value is written by itself: a text is quoted. -/
def literal : Value → String
  | .text s => "\"" ++ escaped s
  | v => v.enclosed

mutual

/-- Can a value be written inside a list? A text must not be empty there and not name a truth
value. -/
def enclosable : Value → Bool
  | .number n => Decimal.isFinite n
  | .text s => s != "" && !sameName s "true" && !sameName s "false"
  | .boolean _ => true
  | .list items => allEnclosable items
  | .procedure _ => false

def allEnclosable : List Value → Bool
  | [] => true
  | v :: vs => v.enclosable && allEnclosable vs

end

/-- Can a value be written by itself? Any text can. -/
def hasLiteral : Value → Bool
  | .text _ => true
  | v => v.enclosable

theorem allEnclosable_iff {items : List Value} :
    allEnclosable items = true ↔ ∀ v ∈ items, v.enclosable = true := by
  induction items with
  | nil => simp [allEnclosable]
  | cons v vs ih => simp [allEnclosable, ih]

/-- A blank and a member, for each further member of a list. -/
def further (items : List Value) : List Char := items.flatMap fun v => ' ' :: v.enclosed.toList

theorem toList_allEnclosed (v : Value) (vs : List Value) :
    (joined " " (allEnclosed (v :: vs))).toList = v.enclosed.toList ++ further vs := by
  induction vs generalizing v with
  | nil => simp [joined, allEnclosed, further]
  | cons w vs ih =>
    have hcons : joined " " (allEnclosed (v :: w :: vs))
        = v.enclosed ++ " " ++ joined " " (allEnclosed (w :: vs)) := by
      simp only [joined, allEnclosed, String.intercalate_cons_cons]
    rw [hcons, String.toList_append, String.toList_append, ih]
    simp [further]

end Logo.Value

namespace Logo.Source
set_option autoImplicit false
open Logo.Text

/-! ### One member -/

/-- The reader has come from `s` to `t` over members equal to `vs`, in the same list, with as many
groups open. -/
structure State.Adds (s : State) (vs : List Value) (t : State) : Prop where
  items : ∃ ws, t.level.items = ws.reverse ++ s.level.items ∧ Value.equalAll ws vs = true
  closer : t.level.closer = s.level.closer
  outer : t.outer = s.outer
  depth : t.level.parens.length = s.level.parens.length

section Adding

variable {s t u : State} {v w : Value} {vs ws : List Value}

theorem State.Adds.trans (h : s.Adds vs t) (h' : t.Adds ws u) : s.Adds (vs ++ ws) u := by
  obtain ⟨as, has, heq⟩ := h.items
  obtain ⟨bs, hbs, heq'⟩ := h'.items
  refine ⟨⟨as ++ bs, ?_, equalAll_append heq heq'⟩, h'.closer.trans h.closer, h'.outer.trans h.outer,
    h'.depth.trans h.depth⟩
  rw [hbs, has, List.reverse_append, List.append_assoc]

theorem State.adds_push (hcloser : s.level.closer.isDefinition = false) (heq : w.equal v = true)
    (tight : Bool) : s.Adds [v] (s.push w tight) := by
  refine ⟨⟨[w], rfl, ?_⟩, Closer.body_eq hcloser, rfl, rfl⟩
  simp [Value.equalAll, heq]

/-- A member that is no parenthesis is added to the open group. -/
theorem State.Gains.adds (h : s.Gains [v] t) (hv : ∀ depth, v.depthAfter depth = some depth) :
    s.Adds [v] t := by
  refine ⟨h.items, h.closer, h.outer, ?_⟩
  have hdepth := h.depth
  simp only [List.foldlM, hv, Option.bind_eq_bind, Option.bind_some, pure] at hdepth
  exact (Option.some.inj hdepth).symm

theorem State.Adds.close (h : s.Adds vs t) (hitems : s.level.items = [])
    (hparens : s.level.parens = []) : ∃ ws, t.level.close = .ok ws ∧ Value.equalAll ws vs = true := by
  obtain ⟨ws, hws, heq⟩ := h.items
  have hdepth := h.depth
  rw [hparens] at hdepth
  have hnil : t.level.parens = [] := List.length_eq_zero_iff.1 hdepth
  refine ⟨ws, ?_, heq⟩
  rw [Level.close, hnil, hws, hitems]
  simp

end Adding

/-- What is written for `v` is read as a value equal to it, wherever it can stand: a text only
inside a list. -/
def ReadsEnclosed (v : Value) : Prop :=
  ∀ (s : State) (gap tail : List Char), s.level.closer.isDefinition = false →
    (s.level.closer.isProgram = true → v.asText? = none) → Ended tail → s.Gap gap →
    ∃ t, s.Adds [v] t ∧ ∀ u, t.Reads tail u → s.Reads (gap ++ (v.enclosed.toList ++ tail)) u

/-- What is written for a number or a truth value is its text. -/
theorem ReadsBack.enclosed {v : Value} (h : ReadsBack v)
    (hv : ∀ depth, v.depthAfter depth = some depth) (hto : v.isTo = false)
    (htext : v.enclosed = v.render) : ReadsEnclosed v := by
  intro s gap tail hcloser _ htail hgap
  have hadmits : s.Admits v tail := by
    refine ⟨hcloser, ?_, htail, fun _ h => absurd (hto.symm.trans h) (by decide)⟩
    rw [hv]
    rfl
  obtain ⟨t, hgains, hreads⟩ := h s gap tail hadmits hgap
  rw [htext]
  exact ⟨t, hgains.adds hv, hreads⟩

theorem startsWord_backslash (cs : List Char) : startsWord '\\' cs = true := by
  have hnumber : startsNumber ('\\' :: cs) = false := by
    rw [startsNumber_eq]
    rfl
  rw [startsWord, hnumber]
  rfl

/-- A word with a backslash before each character is a text, whatever it looks like. -/
theorem readsEnclosed_text {word : String} (hne : word ≠ "") (htrue : sameName word "true" = false)
    (hfalse : sameName word "false" = false) : ReadsEnclosed (.text word) := by
  intro s gap tail hcloser hprogram htail hgap
  obtain ⟨c, cs, hcs⟩ : ∃ c cs, (Value.text word).enclosed.toList = '\\' :: c :: cs := by
    have hchars : word.toList ≠ [] := fun hempty => hne (String.toList_eq_nil_iff.1 hempty)
    obtain ⟨c, cs, hcs⟩ := List.exists_cons_of_ne_nil hchars
    refine ⟨c, cs.flatMap fun c => ['\\', c], ?_⟩
    simp [Value.enclosed, Value.escaped, hcs]
  have hspells : Spells isTerminator ('\\' :: c :: cs) word.toList := by
    rw [← hcs, Value.enclosed, Value.escaped, String.toList_ofList]
    exact spells_escaped isTerminator word.toList
  have hscan : scanBareWord '\\' (c :: (cs ++ tail)) = some (word.toList, tail) := by
    rw [scanBareWord_eq isTerminator_backslash]
    exact hspells.scanWord isTerminator_backslash htail.terminated []
  have hplain : s.plainWord word.toList tail = true := by
    unfold State.plainWord
    split
    · rename_i hc _
      rw [hc] at hcloser
      cases hcloser
    · rename_i hc
      cases hprogram (by rw [hc]; rfl)
    · rfl
  have hvalue : wordValue (String.ofList word.toList) = .text word := by
    rw [String.ofList_toList, wordValue, htrue, hfalse]
    rfl
  have htakes (spaced : Bool) : s.Takes spaced '\\' (c :: (cs ++ tail))
      (s.push (.text word) (tightAfter word.toList)) tail := by
    rw [← hvalue]
    exact .word (startsWord_backslash _) hscan hplain
  have heq : (Value.text word).equal (.text word) = true := by simp [Value.equal]
  refine ⟨_, State.adds_push hcloser heq (tightAfter word.toList), fun u hu => ?_⟩
  rw [hcs]
  exact .item (skipTrivia_gap hgap rfl (by decide)) (htakes _) hu

/-! ### Member after member -/

/-- Members with one blank between any two are read one after the other. -/
theorem reads_further {tail : List Char} (htail : Ended tail) {v : Value} {vs : List Value} {s : State}
    {gap : List Char} (hmembers : ∀ w ∈ v :: vs, ReadsEnclosed w)
    (hcloser : s.level.closer.isDefinition = false ∧ s.level.closer.isProgram = false)
    (hgap : s.Gap gap) : ∃ t, s.Adds (v :: vs) t ∧ ∀ u, t.Reads tail u →
      s.Reads (gap ++ (v.enclosed.toList ++ (Value.further vs ++ tail))) u := by
  have hinside {v : Value} (h : s.level.closer.isProgram = true) : v.asText? = none :=
    absurd (hcloser.2.symm.trans h) (by decide)
  induction vs generalizing v s gap with
  | nil => exact hmembers v List.mem_cons_self s gap tail hcloser.1 hinside htail hgap
  | cons w ws ih =>
    obtain ⟨hv, hrest⟩ := List.forall_mem_cons.1 hmembers
    have hended : Ended (Value.further (w :: ws) ++ tail) := by
      intro c hc
      cases hc
      rfl
    obtain ⟨t, hst, ht⟩ := hv s gap _ hcloser.1 hinside hended hgap
    have hcloser' : t.level.closer.isDefinition = false ∧ t.level.closer.isProgram = false := by
      rwa [hst.closer]
    obtain ⟨u, htu, hu⟩ := ih hrest hcloser' (.inl rfl) fun h =>
      absurd (hcloser'.2.symm.trans h) (by decide)
    refine ⟨u, hst.trans htu, fun x hx => ht x ?_⟩
    have hfurther : Value.further (w :: ws) ++ tail
        = [' '] ++ (w.enclosed.toList ++ (Value.further ws ++ tail)) := by
      simp [Value.further]
    rw [hfurther]
    exact hu x hx

theorem readsEnclosed_list {items : List Value} (h : ∀ v ∈ items, ReadsEnclosed v) :
    ReadsEnclosed (.list items) := by
  intro s gap tail hcloser _ htail hgap
  generalize hinside : (joined " " (Value.allEnclosed items)).toList = inside
  have hsource : (Value.list items).enclosed.toList ++ tail = '[' :: (inside ++ ']' :: tail) := by
    rw [Value.enclosed, String.toList_append, String.toList_append, hinside]
    simp
  obtain ⟨t, hst, ht⟩ : ∃ t, State.Adds ⟨{ closer := .bracket ('[' :: (inside ++ ']' :: tail)) },
      s.level :: s.outer⟩ items t ∧ ∀ u, t.Reads (']' :: tail) u →
        State.Reads ⟨{ closer := .bracket ('[' :: (inside ++ ']' :: tail)) }, s.level :: s.outer⟩
          (inside ++ ']' :: tail) u := by
    cases items with
    | nil =>
      subst hinside
      exact ⟨_, ⟨⟨[], rfl, rfl⟩, rfl, rfl, rfl⟩, fun u hu => hu⟩
    | cons v vs =>
      rw [Value.toList_allEnclosed] at hinside
      subst hinside
      have hended : Ended (']' :: tail) := fun c hc => by
        cases hc
        rfl
      rw [List.append_assoc]
      exact reads_further hended h ⟨rfl, rfl⟩ (.inr ⟨rfl, rfl⟩)
  obtain ⟨ws, hclose, heq⟩ := hst.close rfl rfl
  have heq' : (Value.list ws).equal (.list items) = true := by simpa [Value.equal] using heq
  refine ⟨_, State.adds_push hcloser heq' true, fun u hu => ?_⟩
  rw [hsource]
  refine .item (skipTrivia_gap hgap rfl (by decide)) (.openList _) (ht u ?_)
  exact .item rfl (.closeList tail hst.closer hst.outer hclose) hu

theorem readsEnclosed_of_enclosable : ∀ v : Value, v.enclosable = true → ReadsEnclosed v
  | .number n, h => (readsBack_number h).enclosed (fun _ => rfl) rfl (by
    simp [Value.enclosed, Value.render, Value.renderAfter])
  | .text s, h => by
    simp only [Value.enclosable, Bool.and_eq_true, bne_iff_ne, Bool.not_eq_true'] at h
    exact readsEnclosed_text h.1.1 h.1.2 h.2
  | .boolean b, _ => (readsBack_boolean b).enclosed (fun _ => rfl) rfl (by
    simp [Value.enclosed, Value.render, Value.renderAfter])
  | .list items, h => by
    rw [Value.enclosable, Value.allEnclosable_iff] at h
    exact readsEnclosed_list fun v hv => readsEnclosed_of_enclosable v (h v hv)
  | .procedure p, h => by
    rw [Value.enclosable] at h
    cases h
termination_by v => sizeOf v
decreasing_by
  have := List.sizeOf_lt_of_mem hv
  simp
  omega

end Logo.Source

namespace Logo
set_option autoImplicit false
open Source

/-! ### A literal as a program -/

/-- The value of a member that stands for one. -/
def Role.value? : Role → Option Value
  | .literal v => some v
  | .quoted w => some (.text w)
  | _ => none

theorem Operator.symbol_of_ofSymbol? {s : String} {op : Operator}
    (h : Operator.ofSymbol? s = some op) : op.symbol = s := by
  unfold Operator.ofSymbol? at h
  split at h
  all_goals
    cases h
    try rfl

/-- A mark of quotation before a text makes a quoted word of it, whatever the text is. -/
theorem Role.of_quoted (cs : List Char) :
    Role.of (.text (String.ofList ('"' :: cs))) = .quoted (String.ofList cs) := by
  have hlist : (String.ofList ('"' :: cs)).toList = '"' :: cs := String.toList_ofList
  generalize String.ofList ('"' :: cs) = s at hlist
  have hsymbol : Operator.ofSymbol? s = none := by
    cases ho : Operator.ofSymbol? s with
    | none => rfl
    | some op =>
      rw [← Operator.symbol_of_ofSymbol? ho] at hlist
      cases op <;> cases hlist
  have hopen : s ≠ "(" := by
    rintro rfl
    cases hlist
  have hclose : s ≠ ")" := by
    rintro rfl
    cases hlist
  simp only [Role.of, Role.ofText, hopen, hclose, if_false, hsymbol, hlist]

/-- A value that is no text stands for itself. -/
theorem Role.of_equal {v w : Value} (h : w.equal v = true) (hv : v.asText? = none) :
    Role.of w = .literal w := by
  cases w with
  | text s =>
    cases v with
    | text s' => cases hv
    | _ => simp [Value.equal] at h
  | _ => rfl

theorem parse_text (s : String) :
    parse (Value.text s).literal = .ok [.text (String.ofList ('"' :: s.toList))] := by
  have hspells := spells_escaped isDelimiter s.toList
  have hscan := hspells.scanWord isDelimiter_backslash (stopped_nil _) []
  rw [List.append_nil] at hscan
  have htakes : State.initial.Takes false '"' _ _ _ := .quoted hscan
  have hlist : (Value.text s).literal.toList = '"' :: s.toList.flatMap fun c => ['\\', c] := by
    simp [Value.literal, Value.escaped]
  rw [parse_ok_iff, hlist]
  show State.initial.read _ = _
  rw [State.read_of_item rfl htakes.item_eq, State.read_of_end rfl]
  rfl

theorem parse_enclosed {v : Value} (h : v.enclosable = true) (hv : v.asText? = none) :
    ∃ w, parse v.enclosed = .ok [w] ∧ w.equal v = true := by
  have hgap : State.initial.Gap [] := .inr ⟨rfl, rfl⟩
  have hended : Ended [] := fun c hc => by cases hc
  obtain ⟨t, hst, ht⟩ :=
    readsEnclosed_of_enclosable v h State.initial [] [] rfl (fun _ => hv) hended hgap
  obtain ⟨ws, hclose, heq⟩ := hst.close rfl rfl
  have hreads := ht t (.done t rfl)
  rw [List.nil_append, List.append_nil] at hreads
  have hfinish : t.finish = .ok ws := by
    rw [State.finish, hst.closer]
    exact hclose
  have hparse : parse v.enclosed = .ok ws := parse_ok_iff.2 (State.read_ok_iff.2 ⟨t, hreads, hfinish⟩)
  obtain ⟨w, rfl⟩ : ∃ w, ws = [w] := by
    cases ws with
    | nil => cases heq
    | cons w ws =>
      cases ws with
      | nil => exact ⟨w, rfl⟩
      | cons w' ws => simp [Value.equalAll] at heq
  exact ⟨w, hparse, by simpa [Value.equalAll] using heq⟩

/-- What is written for a value is a program of one member, which stands for an equal value. -/
theorem parse_literal {v : Value} (h : v.hasLiteral = true) : ∃ token w,
    parse v.literal = .ok [token] ∧ (Role.of token).value? = some w ∧ w.equal v = true := by
  cases hv : v.asText? with
  | some s =>
    cases v with
    | text s' =>
      refine ⟨_, .text s', parse_text s', ?_, by simp [Value.equal]⟩
      rw [Role.of_quoted, String.ofList_toList]
      rfl
    | _ => cases hv
  | none =>
    have hkind : v.literal = v.enclosed ∧ v.enclosable = true := by
      cases v with
      | text s => cases hv
      | _ => exact ⟨rfl, h⟩
    obtain ⟨w, hparse, heq⟩ := parse_enclosed hkind.2 hv
    refine ⟨w, w, hkind.1 ▸ hparse, ?_, heq⟩
    rw [Role.of_equal heq hv]
    rfl

/-! ### Its run -/

section Run

variable {σ : Type} {token w : Value}

theorem readOperand_of_value (h : (Role.of token).value? = some w) (m : Machine σ) (rest : List Value)
    (pending : List Pending) :
    readOperand m (token :: rest) pending = ⟨m, .checkpoint (.literal w), rest, pending⟩ := by
  cases hrole : Role.of token with
  | literal v =>
    rw [hrole] at h
    cases h
    simp only [readOperand, hrole]
  | quoted word =>
    rw [hrole] at h
    cases h
    simp only [readOperand, hrole]
  | _ =>
    rw [hrole] at h
    cases h

/-- Within `fuel` steps the run comes to this end, and in none of them host code issues a pause or
a cancel. -/
structure Config.Concludes (fuel : Nat) (c : Config σ) (outcome : Outcome) (m : Machine σ) : Prop where
  advance : advance fuel c = .resolved outcome m
  handsOff : ∀ d ∈ c.moments fuel, d.HandsOff

/-- One more step ahead of a run that comes to its end, with no signal in it. -/
theorem Config.Concludes.of_go {c d : Config σ} {fuel : Nat} {outcome : Outcome} {m : Machine σ}
    (h : d.Concludes fuel outcome m) (hs : step c = .go d) (hsilent : c.hostWork.signals = []) :
    c.Concludes (fuel + 1) outcome m := by
  have hc : c.HandsOff := by
    intro s hs
    rw [hsilent] at hs
    cases hs
  refine ⟨?_, ?_⟩
  · rw [Logo.advance, hs]
    exact h.advance
  · rw [Config.moments, hs]
    exact List.forall_mem_cons.2 ⟨hc, h.handsOff⟩

theorem Config.concludes_of_resolved {c : Config σ} {outcome : Outcome} {m : Machine σ}
    (hs : step c = .resolved outcome m) (fuel : Nat) : c.Concludes (fuel + 1) outcome m := by
  refine ⟨?_, ?_⟩
  · rw [Logo.advance, hs]
  · rw [Config.moments, hs]
    exact List.forall_mem_singleton.2 (handsOff_of_resolved hs)

/-- Such an end is the end of the run's course. -/
theorem Config.Concludes.course {c : Config σ} {fuel : Nat} {outcome : Outcome} {m : Machine σ}
    (h : c.Concludes fuel outcome m) (hr : c.machine.engine.state = .running) :
    Course c.calm outcome m.calm := by
  induction fuel generalizing c with
  | zero => cases h.advance
  | succ fuel ih =>
    obtain ⟨hadvance, hmoments⟩ := h
    rw [Logo.advance] at hadvance
    rw [Config.moments] at hmoments
    obtain ⟨hc, hlater⟩ := List.forall_mem_cons.1 hmoments
    cases hs : step c with
    | go d =>
      rw [hs] at hadvance hlater
      have hstep : (step c).config? = some d := by
        rw [hs]
        rfl
      have hcourse := ih ⟨hadvance, hlater⟩ (step_running hc hr hstep)
      exact (step_course hc hr hstep).1 hcourse
    | suspend why d =>
      rw [hs] at hadvance
      cases hadvance
    | resolved outcome' m' =>
      rw [hs] at hadvance
      cases hadvance
      exact resolved_course hr hs

/-- A member that stands for a value is its own reply, after six steps. -/
theorem concludes_value (h : (Role.of token).value? = some w) {e : Engine σ} (he : e.state = .running)
    (fuel : Nat) :
    ((Thread.start [token]).config e).Concludes (fuel + 6) (.ok (some w)) ⟨e, {}⟩ := by
  have hoperand (pending : List Pending) : step (⟨⟨e, {}⟩, .operand, [token], pending⟩ : Config σ)
      = .go ⟨⟨e, {}⟩, .checkpoint (.literal w), [], pending⟩ :=
    congrArg Next.go (readOperand_of_value h _ _ _)
  have hcheckpoint (pending : List Pending) :
      step (⟨⟨e, {}⟩, .checkpoint (.literal w), [], pending⟩ : Config σ)
        = .go ⟨⟨e, {}⟩, .reply (some w), [], pending⟩ := by
    simp only [step, he, act]
  have hend : Config.Concludes (fuel + 1) ⟨(⟨e, {}⟩ : Machine σ), .reply (some w), [], []⟩
      (.ok (some w)) ⟨e, {}⟩ := Config.concludes_of_resolved rfl fuel
  have hline : Config.Concludes (fuel + 2) ⟨(⟨e, {}⟩ : Machine σ), .reply (some w), [], [.sequence []]⟩
      (.ok (some w)) ⟨e, {}⟩ := hend.of_go rfl rfl
  have hreply : Config.Concludes (fuel + 3)
      ⟨(⟨e, {}⟩ : Machine σ), .reply (some w), [], [.firstOperand, .sequence []]⟩
      (.ok (some w)) ⟨e, {}⟩ := hline.of_go rfl rfl
  have hvalue := hreply.of_go (hcheckpoint _) rfl
  have hmember := hvalue.of_go (hoperand _) rfl
  exact hmember.of_go rfl rfl

end Run

/-- **Every value has a literal.** On an idle engine, a value that is no procedure is what
evaluating its literal gives: one poll of enough steps ends so and leaves the engine as it was, and
however the run is polled without a pause or a cancel, it can end only so. -/
theorem literals_evaluate {σ : Type} (e : Engine σ) (he : e.state = .idle) (v : Value)
    (hv : v.hasLiteral = true) : ∃ w, w.equal v = true ∧
      (∀ fuel, (Drive.start e v.literal).make (.poll (fuel + 6)) = ⟨e, .ended, some (.ok (some w))⟩) ∧
      ∀ moves outcome, (Drive.start e v.literal).Undisturbed moves →
        ((Drive.start e v.literal).follow moves).outcome? = some outcome → outcome = .ok (some w) := by
  obtain ⟨token, w, hparse, hvalue, heq⟩ := parse_literal hv
  have hconcludes := concludes_value hvalue (e := { e with state := .running }) rfl
  refine ⟨w, heq, fun fuel => ?_, fun moves outcome hmoves hend => ?_⟩
  · have hrelease : Engine.release { e with state := .running } = e := by
      obtain ⟨⟩ := e
      cases he
      rfl
    rw [Drive.start_make_poll he hparse, Drive.make_poll rfl]
    unfold Drive.begun
    simp only [(hconcludes fuel).advance, hrelease]
  · obtain ⟨m, hcourse, -⟩ := Drive.start_arrives he hparse hmoves hend
    exact (hcourse.unique ((hconcludes 0).course rfl)).1

/-- A list of words that would be a definition, a comment, a number and a group without the
backslashes. -/
theorem literals_evaluate_trial :
    let v : Value := .list [.text "to", .text "(x ;", .list [.boolean true, .text "-3"], .list []]
    Engine.state Trial.engine = .idle ∧ v.hasLiteral = true ∧
      v.literal = "[\\t\\o \\(\\x\\ \\; [true \\-\\3] []]" ∧ ∃ w, w.equal v = true ∧
        (Drive.start Trial.engine v.literal).make (.poll 6)
          = ⟨Trial.engine, .ended, some (.ok (some w))⟩ := by
  intro v
  have hv : v.hasLiteral = true := by cbv
  obtain ⟨w, heq, hpoll, -⟩ := literals_evaluate Trial.engine rfl v hv
  exact ⟨rfl, hv, by cbv, w, heq, hpoll 0⟩

end Logo
