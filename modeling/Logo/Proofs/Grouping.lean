import Logo.Proofs.Joining
import Logo.Proofs.Precedence

/-!
# Grouping

An expression in parentheses yields what it yields without them. The reader does not see the
parenthesis behind an expression (`expression_before`), and a call does not touch the tokens behind
it (`call_tokens`); so where a word stands behind the opening parenthesis, as many inputs are
gathered up to the closing one as the procedure wants. A procedure that wants none is the
exception: with parentheses, an operator behind its name is where its inputs begin, and not what
follows its output.
-/

namespace Logo
set_option autoImplicit false

variable {σ : Type}

/-! ### What stands behind an expression -/

/-- What waits, with `more` behind the tokens that are read from outside. -/
def extendBefore (more : List Value) : List Pending → List Pending
  | [] => []
  | p :: pending => p.extended more (pending ++ [.sequence []]) :: extendBefore more pending

/-- The same moment with `more` behind the tokens that are read from outside. -/
def Config.before (more : List Value) (c : Config σ) : Config σ :=
  ⟨c.machine, c.focus, c.tokens ++ reach more (c.pending ++ [.sequence []]), extendBefore more c.pending⟩

def Next.before (more : List Value) : Next σ → Next σ
  | .go c => .go (c.before more)
  | .suspend why c => .suspend why (c.before more)
  | .resolved outcome m => .resolved outcome m

section Before

variable {more : List Value}

theorem extend_snoc (pending : List Pending) :
    extend more (pending ++ [.sequence []]) = extendBefore more pending ++ [.sequence []] := by
  induction pending with
  | nil => rfl
  | cons p pending ih => rw [List.cons_append, extend, ih, extendBefore, List.cons_append]

/-- Tokens that are read from outside are those of a program that is nothing else. -/
theorem Config.joined_under (c : Config σ) :
    (c.under [.sequence []]).joined more = (c.before more).under [.sequence []] := by
  simp only [Config.joined, Config.lift, extend_snoc, Config.before]

theorem Config.under_injective {k : List Pending} {c d : Config σ} (h : c.under k = d.under k) :
    c = d := by
  obtain ⟨⟨e, live⟩, focus, tokens, pending⟩ := c
  obtain ⟨⟨e', live'⟩, focus', tokens', pending'⟩ := d
  simp only [Config.lift, Machine.mapEngine, id, Config.mk.injEq, Machine.mk.injEq,
    List.append_cancel_right_eq] at h
  obtain ⟨⟨rfl, rfl⟩, rfl, rfl, rfl⟩ := h
  rfl

theorem Config.Settled.of_before {c : Config σ} (h : (c.before more).Settled) : c.Settled := by
  obtain ⟨m, focus, tokens, pending⟩ := c
  obtain ⟨hp, hf⟩ := settled_iff.1 h
  cases pending with
  | nil => exact settled_iff.2 ⟨rfl, hf⟩
  | cons p pending => cases hp

theorem Next.lift_injective {k : List Pending} {n n' : Next σ} (h : n.lift id k = n'.lift id k) :
    n = n' := by
  cases n <;> cases n' <;> simp only [Next.lift, Next.go.injEq, Next.suspend.injEq,
    Next.resolved.injEq, reduceCtorEq] at h
  · rw [Config.under_injective h]
  · rw [h.1, Config.under_injective h.2]
  · obtain ⟨rfl, h⟩ := h
    exact congrArg (Next.resolved _) h

theorem Config.not_settled_of_step {c c' : Config σ} (hc : (step c).config? = some c') :
    ¬ c.Settled := by
  rintro ⟨outcome, m, hs⟩
  rw [hs] at hc
  cases hc

/-- A step is the same with `more` behind, if what it looks at is. -/
theorem Config.Follows.step_before {c : Config σ} (h : (c.under [.sequence []]).Follows more)
    (hsettled : ¬ c.Settled) : step (c.before more) = (step c).before more := by
  have hjoined : step ((c.under [.sequence []]).joined more)
      = (step (c.under [.sequence []])).joined more := by
    refine h.step_joined ?_ ?_
    · exact List.append_ne_nil_of_right_ne_nil _ (List.cons_ne_nil _ _)
    · intro v hv htail
      refine hsettled (settled_iff.2 ⟨?_, .inl ⟨v, hv⟩⟩)
      cases hp : c.pending with
      | nil => rfl
      | cons p pending => simp [hp, Config.lift] at htail
  rw [Config.joined_under, step_under (fun h => hsettled h.of_before),
    step_under hsettled [.sequence []]] at hjoined
  refine Next.lift_injective (hjoined.trans ?_)
  cases step c with
  | go d => exact congrArg Next.go d.joined_under
  | suspend why d => exact congrArg (Next.suspend why) d.joined_under
  | resolved outcome m => rfl

/-- A step that does not fail is the same with `more` behind. -/
theorem step_before (ho : operatorAhead? more = none) {c c' : Config σ}
    (hc : (step c).config? = some c') (hok : ¬ c'.Fails) :
    step (c.before more) = (step c).before more := by
  have hsettled := Config.not_settled_of_step hc
  refine Config.Follows.step_before (Config.follows ho ?_ ?_) hsettled
  · exact List.append_ne_nil_of_right_ne_nil _ (List.cons_ne_nil _ _)
  · intro d hd
    have hd' : d = c'.under [.sequence []] := by
      rw [step_under hsettled [.sequence []]] at hd
      cases hs : step c <;> simp_all [Next.lift, Next.config?]
    rw [hd']
    exact hok

/-- Who is about to give up does so. -/
theorem Path.fails {between : Engine σ → Engine σ → Prop} {n : Nat} {a b : Config σ}
    (h : Path between n a b) (ha : a.Fails) : b.Fails := by
  induction h with
  | refl => exact ha
  | @go n a b c hs _ ih =>
    obtain ⟨m, focus, tokens, pending⟩ := a
    obtain ⟨f, rfl⟩ := ha
    cases pending with
    | nil => cases hs
    | cons p pending =>
      cases hs
      exact ih ⟨f, rfl⟩
  | @wait n a b c why e hs _ _ ih =>
    obtain ⟨m, focus, tokens, pending⟩ := a
    obtain ⟨f, rfl⟩ := ha
    cases pending <;> cases hs

/-- **The way to a value** is the same with `more` behind. -/
theorem Path.before {between : Engine σ → Engine σ → Prop} (ho : operatorAhead? more = none) {n : Nat}
    {a b : Config σ} (h : Path between n a b) (hb : ¬ b.Fails) :
    Path between n (a.before more) (b.before more) := by
  induction h with
  | refl => exact .refl _
  | @go n a d b hs h ih =>
    have hstep := step_before ho (show (step a).config? = some d by rw [hs]; rfl)
      fun hd => hb (h.fails hd)
    rw [hs] at hstep
    exact .go hstep (ih hb)
  | @wait n a d b why e hs he h ih =>
    have hstep := step_before ho (show (step a).config? = some d by rw [hs]; rfl)
      fun hd => hb (h.fails hd)
    rw [hs] at hstep
    exact .wait hstep he (ih hb)

/-- An expression is read the same way with something behind it that is no operator. -/
theorem expression_before {between : Engine σ → Engine σ → Prop} (more : List Value)
    (ho : operatorAhead? more = none) {m m' : Machine σ} {tokens rest : List Value} {v : Option Value}
    (h : expressionReader between m tokens (.value v rest m')) :
    expressionReader between m (tokens ++ more) (.value v (rest ++ more) m') := by
  obtain ⟨n, j, d, hj, hpath, hp, hd⟩ := h
  obtain rfl := Config.eq_of_reading? hp hd
  have hfails : ¬ (⟨m', .reply v, rest, []⟩ : Config σ).Fails := by
    rintro ⟨f, hf⟩
    cases hf
  exact ⟨n, j, _, hj, hpath.before ho hfails, rfl, rfl⟩

end Before

/-! ### What stands behind a call -/

/-- Is this the place of a running body, rather than of something that reads on behind it? -/
def Pending.isBody : Pending → Bool
  | .activation | .template | .counter | .loop _ => true
  | _ => false

/-- Does the run read tokens here? -/
def Focus.reads : Focus → Bool
  | .expression | .operand | .chain _ | .gather _ => true
  | _ => false

/-- The run is in a call, and `tokens` stand behind that: they are either at hand and not read, or
saved while a body is read. -/
inductive Config.Beside (tokens : List Value) : Config σ → Prop where
  | outside {m : Machine σ} {focus : Focus} {outer : List Pending} : focus.reads = false →
      (∀ p ∈ outer, p.isBody = true) → Beside tokens ⟨m, focus, tokens, outer⟩
  | inside {d : Config σ} {outer : List Pending} : (∀ p ∈ outer, p.isBody = true) →
      Beside tokens (d.under (.sequence tokens :: outer))
  | fails {c : Config σ} : c.Fails → Beside tokens c

section Beside

variable {m : Machine σ} {tokens : List Value} {outer : List Pending}
  (hb : ∀ p ∈ outer, p.isBody = true)
include hb

theorem enter_beside (m : Machine σ) (items : List Value) :
    (enter m items tokens outer).Beside tokens := by
  cases items with
  | nil => exact .outside rfl hb
  | cons item items => exact .inside (d := ⟨m, .expression, item :: items, []⟩) hb

omit hb in
theorem forall_isBody_cons {p : Pending} (hp : p.isBody = true) (hb : ∀ p ∈ outer, p.isBody = true) :
    ∀ q ∈ p :: outer, q.isBody = true := List.forall_mem_cons.2 ⟨hp, hb⟩

theorem callWith_beside (p : Procedure) (inputs : List Value) :
    (callWith m p inputs tokens outer).Beside tokens := by
  unfold callWith
  split
  · exact .outside rfl hb
  · exact .outside rfl hb

theorem applyTemplate_beside (caller : String) (template : Value) (inputs : List Value) :
    (applyTemplate m caller template inputs tokens outer).Beside tokens := by
  unfold applyTemplate
  split
  · exact callWith_beside hb _ inputs
  · simp only
    split
    · exact callWith_beside hb _ inputs
    · exact .outside rfl hb
  · unfold applyList
    split
    · split
      · exact .outside rfl hb
      · split
        · exact .outside rfl hb
        · exact enter_beside (forall_isBody_cons rfl hb) _ _
    · exact .outside rfl hb
  · exact .outside rfl hb

theorem carryOut_beside (m : Machine σ) (e : Effect) : (carryOut m e tokens outer).Beside tokens := by
  cases e with
  | reply v => exact .outside rfl hb
  | block items => exact enter_beside hb m items
  | loop l =>
    cases l with
    | times block begun total => exact .outside rfl (forall_isBody_cons rfl hb)
    | _ => exact .outside rfl hb
  | template caller template inputs => exact applyTemplate_beside hb caller template inputs
  | sleep nanoseconds => exact .outside rfl hb

theorem callProcedure_beside (p : Procedure) (inputs : List Value) :
    (callProcedure m p inputs tokens outer).Beside tokens := by
  cases p with
  | primitive p =>
    simp only [callProcedure]
    split
    · exact carryOut_beside hb _ _
    · exact .outside rfl hb
  | host id name arity =>
    simp only [callProcedure, callHost]
    split
    · exact .outside rfl hb
    · exact .outside rfl hb
    · split
      · exact .outside rfl hb
      · exact .outside rfl hb
  | defined id name params body =>
    simp only [callProcedure, callDefined]
    split
    · exact .outside rfl hb
    · exact enter_beside (forall_isBody_cons rfl hb) _ _

theorem beginPass_beside (l : Loop) : (beginPass m l tokens outer).Beside tokens := by
  unfold beginPass
  split
  · exact enter_beside (forall_isBody_cons rfl hb) _ _
  · exact enter_beside (forall_isBody_cons rfl hb) _ _
  · exact applyTemplate_beside (forall_isBody_cons rfl hb) _ _ _
  · exact applyTemplate_beside (forall_isBody_cons rfl hb) _ _ _
  · exact .outside rfl hb
  · exact .outside rfl hb

theorem act_beside (a : Act) : (act m a tokens outer).Beside tokens := by
  cases a with
  | literal v => exact .outside rfl hb
  | read name =>
    simp only [act]
    split
    · exact .outside rfl hb
    · exact .outside rfl hb
  | call p inputs => exact callProcedure_beside hb p inputs
  | pass l => exact beginPass_beside hb l

theorem afterPass_beside (l : Loop) (v : Option Value) :
    (afterPass m l v tokens outer).Beside tokens := by
  cases l <;> cases v <;> simp only [afterPass] <;> try split
  all_goals exact .outside rfl hb

theorem resume_beside (v : Option Value) {p : Pending} (hp : p.isBody = true) :
    (resume m v tokens p outer).Beside tokens := by
  cases p with
  | activation => cases v <;> exact .outside rfl hb
  | template => exact .outside rfl hb
  | counter => exact .outside rfl hb
  | loop l => exact afterPass_beside hb l v
  | _ => cases hp

/-- Behind a body that has been read, the tokens are at hand again. -/
theorem resume_sequence_beside (v : Option Value) (left : List Value) :
    (resume m v left (.sequence tokens) outer).Beside tokens := by
  simp only [resume]
  split
  · exact .outside rfl hb
  · split
    · exact .outside rfl hb
    · exact .outside rfl hb
    · exact .inside (d := ⟨m, .expression, left, []⟩) hb

theorem askHost_beside (id : Nat) (inputs : List Value) (asked : Nat) {c : Config σ}
    (hc : (askHost m id inputs asked tokens outer).config? = some c) : c.Beside tokens := by
  unfold askHost at hc
  split at hc
  · simp only at hc
    split at hc <;> cases hc <;> exact .outside rfl hb
  · cases hc
    exact .outside rfl hb

theorem awaitClock_beside (deadline : Nat) {c : Config σ}
    (hc : (awaitClock m deadline tokens outer).config? = some c) : c.Beside tokens := by
  unfold awaitClock at hc
  split at hc <;> cases hc <;> exact .outside rfl hb

/-- One step from where the tokens are at hand. -/
theorem step_outside {focus : Focus} (hf : focus.reads = false) {c : Config σ}
    (hc : (step ⟨m, focus, tokens, outer⟩).config? = some c) : c.Beside tokens := by
  have hbreak : (⟨m, .raise .stopped, tokens, outer⟩ : Config σ).Beside tokens := .outside rfl hb
  cases focus with
  | turn l =>
    simp only [step] at hc
    split at hc <;> cases hc <;> exact .outside rfl hb
  | checkpoint a =>
    simp only [step] at hc
    split at hc <;> cases hc
    · exact hbreak
    · exact .outside rfl hb
    · exact act_beside hb a
    · exact act_beside hb a
  | ask id inputs asked =>
    exact race_leads hbreak (fun d hd => ⟨askHost_beside hb id inputs asked hd, .fails ⟨_, rfl⟩⟩) hc
  | sleep deadline =>
    exact race_leads hbreak (fun d hd => ⟨awaitClock_beside hb deadline hd, .fails ⟨_, rfl⟩⟩) hc
  | reply v =>
    cases outer with
    | nil => cases hc
    | cons p outer =>
      cases hc
      obtain ⟨hp, hb⟩ := List.forall_mem_cons.1 hb
      exact resume_beside hb v hp
  | raise f =>
    cases outer with
    | nil => cases hc
    | cons p outer =>
      cases hc
      exact .fails ⟨f, rfl⟩
  | _ => cases hf

end Beside

/-- **One step** of a call neither reads nor changes the tokens behind it. -/
theorem step_beside {tokens : List Value} {c c' : Config σ} (h : c.Beside tokens)
    (hc : (step c).config? = some c') : c'.Beside tokens := by
  cases h with
  | outside hf hb => exact step_outside hb hf hc
  | @inside d outer hb =>
    by_cases hd : d.Settled
    · obtain ⟨m, focus, left, pending⟩ := d
      obtain ⟨rfl, ⟨v, rfl⟩ | ⟨f, rfl⟩⟩ := settled_iff.1 hd
      · cases hc
        exact resume_sequence_beside hb v left
      · cases hc
        exact .fails ⟨f, rfl⟩
    · rw [step_under hd] at hc
      cases hs : step d with
      | go d' =>
        rw [hs] at hc
        cases hc
        exact .inside hb
      | suspend why d' =>
        rw [hs] at hc
        cases hc
        exact .inside hb
      | resolved outcome m =>
        rw [hs] at hc
        cases hc
  | fails hf =>
    obtain ⟨m, focus, left, pending⟩ := c
    obtain ⟨f, rfl⟩ := hf
    cases pending with
    | nil => cases hc
    | cons p pending =>
      cases hc
      exact .fails ⟨f, rfl⟩

theorem Config.Beside.on {tokens : List Value} {c : Config σ} (h : c.Beside tokens) (e : Engine σ) :
    (c.on e).Beside tokens := by
  cases h with
  | outside hf hb => exact .outside hf hb
  | @inside d outer hb => exact .inside (d := d.on e) hb
  | fails hf => exact .fails hf

/-- **A call leaves the tokens behind it** as they are. -/
theorem call_tokens {between : Engine σ → Engine σ → Prop} {n : Nat} {m m' : Machine σ}
    {a : Act} {tokens rest : List Value} {v : Option Value}
    (h : (⟨m, .checkpoint a, tokens, []⟩ : Config σ).YieldsBy between n (.value v rest m')) :
    rest = tokens := by
  obtain ⟨j, d, -, hpath, hp, hd⟩ := h
  have hbeside : d.Beside tokens := by
    refine hpath.invariant (fun a b ha hs => ?_) (fun a b why e ha hs _ => ?_)
      (.outside rfl fun p hp => by cases hp)
    · exact step_beside ha (by rw [hs]; rfl)
    · exact (step_beside ha (by rw [hs]; rfl)).on e
  cases hbeside with
  | @outside m focus outer hf hb =>
    cases focus with
    | reply v =>
      cases hd
      rfl
    | raise f => cases hd
    | _ => cases hd
  | @inside d outer hb =>
    exact absurd hp (List.append_ne_nil_of_right_ne_nil _ (List.cons_ne_nil _ _))
  | fails hf =>
    obtain ⟨f, hf⟩ := hf
    simp only [Config.reading?, hf] at hd
    cases hd

/-! ### Behind an expression there is no operator -/

theorem YieldsBy.chain_ahead {between : Engine σ → Engine σ → Prop} {n : Nat} {c : Chain}
    {m m' : Machine σ} {tokens rest : List Value} {v : Option Value}
    (h : (⟨m, .chain c, tokens, []⟩ : Config σ).YieldsBy between n (.value v rest m')) :
    operatorAhead? rest = none := by
  induction n using Nat.strongRecOn generalizing c m tokens with
  | ind n ih =>
    obtain ⟨k, rfl, hs⟩ := YieldsBy.of_chain h
    unfold Chain.settles at hs
    split at hs
    · unfold Chain.goesOn at hs
      split at hs
      · rename_i hahead
        cases hs
        exact hahead
      · split at hs
        · cases hs
        · obtain ⟨f, m₁, -, he⟩ | ⟨v₁, rest₁, m₁, -, b, rfl, hy⟩ := hs
          · cases he
          · exact ih k (Nat.lt_succ_self k) hy
    · cases hs

theorem expression_ahead {between : Engine σ → Engine σ → Prop} {m m' : Machine σ}
    {tokens rest : List Value} {v : Option Value}
    (h : expressionReader between m tokens (.value v rest m')) : operatorAhead? rest = none := by
  obtain ⟨n, h⟩ := h
  obtain ⟨i, -, h⟩ := h.of_go (b := (⟨m, .operand, tokens, []⟩ : Config σ).under [.firstOperand]) rfl
  obtain ⟨v₁, rest₁, m₁, -, h⟩ | ⟨f, m₁, -, he⟩ := h.split
  · obtain ⟨k, -, h⟩ := h.of_go rfl
    simp only [resume] at h
    cases hahead : operatorAhead? rest₁ with
    | none =>
      simp only [hahead] at h
      cases h.of_reply
      exact hahead
    | some op =>
      cases v₁ with
      | none =>
        simp only [hahead] at h
        cases h.of_raise
      | some v₁ =>
        simp only [hahead] at h
        exact YieldsBy.chain_ahead h
  · cases he

/-! ### Inputs up to a closing parenthesis -/

/-- The token that closes a group. -/
def closing : Value := .text ")"

/-- The token that opens a group. -/
def opening : Value := .text "("

theorem role_closing : Role.of closing = .closeParen := rfl

theorem role_opening : Role.of opening = .openParen := rfl

theorem role_of_atInputEnd {token : Value} {rest : List Value} (h : atInputEnd (token :: rest) = false) :
    Role.of token ≠ .closeParen := by
  intro hr
  simp [atInputEnd, hr] at h

/-- The call with its inputs up to a closing parenthesis. -/
def Gathering.grouped (g : Gathering) : Gathering := { g with parenthesised := true }

section Gathering

variable {between : Engine σ → Engine σ → Prop}

theorem readInputs_closing {m : Machine σ} {g : Gathering} (hg : g.missing = 0) (rest : List Value) :
    readInputs m g.grouped (closing :: rest) [] = ⟨m, g.call, rest, []⟩ := by
  simp only [readInputs, Gathering.grouped, if_true, role_closing, hg]
  rfl

theorem readInputs_input {m : Machine σ} {g : Gathering} {token : Value}
    (ht : Role.of token ≠ .closeParen) (rest : List Value) :
    readInputs m g.grouped (token :: rest) []
      = (⟨m, .expression, token :: rest, []⟩ : Config σ).under
        [.input g.grouped token] := by
  simp only [readInputs, Gathering.grouped, if_true]
  rfl

/-- A call that reads its inputs without parentheses comes to its value with parentheses too, if
nothing is left behind it. -/
theorem gather_grouped {n : Nat} {g : Gathering} (hg : g.parenthesised = false) {m m' : Machine σ}
    {tokens rest : List Value} {v : Option Value}
    (h : (⟨m, .gather g, tokens, []⟩ : Config σ).YieldsBy between n (.value v rest m'))
    (hahead : g.missing = 0 → operatorAhead? tokens = none) :
    operatorAhead? rest = none ∧ (rest = [] →
      (⟨m, .gather g.grouped, tokens ++ [closing], []⟩ : Config σ).Yields
        between (.value v [] m')) := by
  induction hk : g.missing generalizing g m tokens n with
  | zero =>
    obtain ⟨i, -, h⟩ := h.of_go rfl
    simp only [readInputs, hg, Bool.false_eq_true, if_false, hk, if_true] at h
    obtain rfl := call_tokens h
    refine ⟨hahead hk, ?_⟩
    rintro rfl
    refine (Config.yields_go_iff rfl).2 ?_
    rw [List.nil_append, readInputs_closing hk]
    exact ⟨i, h⟩
  | succ k ih =>
    obtain ⟨i, -, h⟩ := h.of_go rfl
    simp only [readInputs, hg, Bool.false_eq_true, if_false, hk, Nat.succ_ne_zero] at h
    cases tokens with
    | nil => cases h.of_raise
    | cons token tokens =>
      simp only at h
      split at h
      · cases h.of_raise
      · rename_i hend
        have hrole := role_of_atInputEnd (Bool.eq_false_iff.2 hend)
        have h : ((⟨m, .expression, token :: tokens, []⟩ : Config σ).under
          [.input g token]).YieldsBy between i (.value v rest m') := h
        obtain ⟨v₁, rest₁, m₁, hinput, h⟩ | ⟨f, m₁, -, he⟩ := h.split
        · obtain ⟨j, -, h⟩ := h.of_go rfl
          cases v₁ with
          | none => cases h.of_raise
          | some v₁ =>
            -- no operator stands behind an input, so the rest is as before
            obtain ⟨hrest, hgrouped⟩ := ih (g := { g with inputs := v₁ :: g.inputs, missing := g.missing - 1 })
              hg h (fun _ => expression_ahead ⟨i, hinput⟩) (by simp only [hk, Nat.add_sub_cancel])
            refine ⟨hrest, fun hnil => (Config.yields_go_iff rfl).2 ?_⟩
            rw [List.cons_append, readInputs_input hrole]
            refine Config.Yields.join (expression_before [closing] rfl ⟨i, hinput⟩) ?_
            exact (Config.yields_go_iff rfl).2 (hgrouped hnil)
        · cases he

end Gathering

/-! ### Groups -/

/-- Does a word that calls a procedure without inputs stand first, and an operator behind it? -/
def Machine.bareCallAhead (m : Machine σ) : List Value → Bool
  | [] => false
  | token :: rest =>
    match Role.of token with
    | .word name =>
      match m.procedure name with
      | .ok p => p.arity == 0 && (operatorAhead? rest).isSome
      | .error _ => false
    | _ => false

section Group

variable {between : Engine σ → Engine σ → Prop} {m m' : Machine σ} {v : Value}

/-- Behind the parenthesis a word begins a call. -/
theorem operand_call {token : Value} {tokens : List Value} {name : String}
    (hrole : Role.of token = .word name)
    (h : expressionReader between m (token :: tokens) (.value (some v) [] m'))
    (hbare : m.bareCallAhead (token :: tokens) = false) :
    operandReader between m (opening :: (token :: tokens ++ [closing])) (.value (some v) [] m') := by
  obtain ⟨n, h⟩ := h
  obtain ⟨i, -, h⟩ := h.of_go
    (b := (⟨m, .operand, token :: tokens, []⟩ : Config σ).under [.firstOperand]) rfl
  obtain ⟨v₁, rest, m₁, hoperand, h⟩ | ⟨f, m₁, -, he⟩ := h.split
  · obtain ⟨j, -, hoperand⟩ := hoperand.of_go rfl
    simp only [readOperand, hrole, callNamed] at hoperand
    simp only [Machine.bareCallAhead, hrole] at hbare
    cases hp : m.procedure name with
    | error f =>
      simp only [hp] at hoperand
      cases hoperand.of_raise
    | ok p =>
      simp only [hp] at hoperand hbare
      have hahead : (Gathering.start p false).missing = 0 → operatorAhead? tokens = none := by
        intro hzero
        have hzero' : p.arity = 0 := hzero
        simpa [hzero'] using hbare
      obtain ⟨hnone, hgrouped⟩ := gather_grouped rfl hoperand hahead
      -- no operator stands behind the call, so its output is all
      obtain ⟨k, -, h⟩ := h.of_go rfl
      simp only [resume, hnone] at h
      cases h.of_reply
      refine (Config.yields_go_iff rfl).2 ?_
      simp only [readOperand, role_opening, openParen, List.cons_append, hrole, callNamed, hp]
      exact hgrouped rfl
  · cases he

/-- Behind the parenthesis anything else begins a group. -/
theorem operand_group {token : Value} {tokens : List Value} (hword : ∀ name, Role.of token ≠ .word name)
    (h : expressionReader between m (token :: tokens) (.value (some v) [] m')) :
    operandReader between m (opening :: (token :: tokens ++ [closing])) (.value (some v) [] m') := by
  have hclose : Role.of token ≠ .closeParen := by
    intro hrole
    obtain ⟨n, h⟩ := h
    obtain ⟨i, -, h⟩ := h.of_go
      (b := (⟨m, .operand, token :: tokens, []⟩ : Config σ).under [.firstOperand]) rfl
    obtain ⟨v₁, rest, m₁, hoperand, -⟩ | ⟨f, m₁, -, he⟩ := h.split
    · obtain ⟨j, -, hoperand⟩ := hoperand.of_go rfl
      simp only [readOperand, hrole] at hoperand
      cases hoperand.of_raise
    · cases he
  have hopen : readOperand m (opening :: (token :: tokens ++ [closing])) []
      = (⟨m, .expression, token :: tokens ++ [closing], []⟩ : Config σ).under [.group] := by
    simp only [readOperand, role_opening, openParen, List.cons_append]
    rfl
  refine (Config.yields_go_iff rfl).2 ?_
  rw [hopen]
  refine Config.Yields.join (expression_before [closing] rfl h) ?_
  exact (Config.yields_go_iff rfl).2 (Config.yields_reply_iff.2 rfl)

/-- **Grouping changes nothing.** An expression that reads all of its tokens and yields a value
yields the same in parentheses, on the same machine as without, unless a procedure without inputs
is called first and an operator stands behind its name. -/
theorem group_transparent {tokens : List Value} {v : Value}
    (h : expressionReader between m tokens (.value (some v) [] m'))
    (hbare : m.bareCallAhead tokens = false) :
    expressionReader between m (opening :: (tokens ++ [closing])) (.value (some v) [] m') := by
  have hoperand : operandReader between m (opening :: (tokens ++ [closing])) (.value (some v) [] m') := by
    cases tokens with
    | nil =>
      obtain ⟨n, h⟩ := h
      obtain ⟨i, -, h⟩ := h.of_go (b := ⟨m, .operand, [], [.firstOperand]⟩) rfl
      obtain ⟨j, -, h⟩ := h.of_go rfl
      obtain ⟨k, -, h⟩ := h.of_go rfl
      cases h.of_raise
    | cons token tokens =>
      by_cases hword : ∃ name, Role.of token = .word name
      · obtain ⟨name, hrole⟩ := hword
        exact operand_call hrole h hbare
      · exact operand_group (fun name hrole => hword ⟨name, hrole⟩) h
  refine (Config.yields_go_iff (b := (⟨m, .operand, opening :: (tokens ++ [closing]), []⟩ :
    Config σ).under [.firstOperand]) rfl).2 ?_
  refine Config.Yields.join hoperand ?_
  exact (Config.yields_go_iff rfl).2 (Config.yields_reply_iff.2 rfl)

end Group

theorem Config.yields_advance_iff {between : Engine σ → Engine σ → Prop} {n : Nat} {c d : Config σ}
    (h : advance n c = .go d) (r : Reading σ) : c.Yields between r ↔ d.Yields between r := by
  induction n generalizing c with
  | zero =>
    cases h
    exact Iff.rfl
  | succ n ih =>
    rw [advance] at h
    cases hs : step c with
    | go c' =>
      rw [hs] at h
      exact (yields_go_iff hs).trans (ih h)
    | suspend why c' =>
      rw [hs] at h
      cases h
    | resolved outcome m =>
      rw [hs] at h
      cases h

/-- A poll that took all of its steps left the run where they led. -/
theorem Next.go_of_polled {n : Next σ} {t : Thread} (h : n.polled.1 = .exhausted)
    (ht : n.polled.2.1 = .inFlight t) : n = .go (t.config n.polled.2.2) := by
  cases n with
  | go c =>
    cases ht
    rfl
  | suspend why c => cases h
  | resolved outcome m => cases h

namespace Trial

/-- A machine on which `x` outputs a word and `y` outputs its input. -/
def naming : Machine Unit where
  engine := (((Engine.new () .silent 10 false).setGlobal "output" (.procedure (.primitive .output))).setGlobal
    "x" (.procedure (.defined 0 "x" [] [.text "output", .text "\"a"]))).setGlobal
    "y" (.procedure (.defined 1 "y" ["v"] [.text "output", .text ":v"]))
  live := {}

/-- Reading an expression for so many steps. -/
def reading (n : Nat) (tokens : List Value) : Next Unit :=
  advance n ⟨naming, .expression, tokens, []⟩

end Trial

/-- `y x` is a call with an input that is a call, and so is `( y x )`. -/
theorem group_transparent_trial : ∃ m',
    expressionReader Eq Trial.naming [.text "y", .text "x"] (.value (some (.text "a")) [] m') ∧
    Trial.naming.bareCallAhead [.text "y", .text "x"] = false ∧
    expressionReader Eq Trial.naming [opening, .text "y", .text "x", closing]
      (.value (some (.text "a")) [] m') := by
  have hread := Next.go_of_polled (n := Trial.reading 38 [.text "y", .text "x"])
    (t := ⟨{}, .reply (some (.text "a")), [], []⟩) (by cbv) (by cbv)
  have hplain : expressionReader Eq _ _ _ :=
    (Config.yields_advance_iff hread _).2 (Config.yields_reply_iff.2 rfl)
  have hbare : Trial.naming.bareCallAhead [.text "y", .text "x"] = false := by cbv
  exact ⟨_, hplain, hbare, group_transparent hplain hbare⟩

/-- `x = "a` compares what `x` outputs, but in `( x = "a )` the operator would begin an input. -/
theorem bare_call_not_grouped :
    (∃ m', expressionReader Eq Trial.naming [.text "x", .text "=", .text "\"a"]
      (.value (some (.boolean true)) [] m')) ∧
    ∃ m', ∀ r, expressionReader Eq Trial.naming
        [opening, .text "x", .text "=", .text "\"a", closing] r ↔ r = .failure (.unexpected "=") m' := by
  have hplain := Next.go_of_polled (n := Trial.reading 23 [.text "x", .text "=", .text "\"a"])
    (t := ⟨{}, .reply (some (.boolean true)), [], []⟩) (by cbv) (by cbv)
  have hgroup := Next.go_of_polled
    (n := Trial.reading 8 [opening, .text "x", .text "=", .text "\"a", closing])
    (t := ⟨{}, .raise (.unexpected "="), [.text "\"a", closing], []⟩) (by cbv) (by cbv)
  exact ⟨⟨_, (Config.yields_advance_iff hplain _).2 (Config.yields_reply_iff.2 rfl)⟩,
    ⟨_, fun r => (Config.yields_advance_iff hgroup r).trans Config.yields_raise_iff⟩⟩

end Logo
