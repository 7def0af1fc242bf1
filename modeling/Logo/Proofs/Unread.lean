import Logo.Proofs.Grouping

/-!
# What reading leaves unread

How much of its tokens an operand or an expression takes is known only as it is read. This
module says that reading makes progress and is local: some tokens are taken from the front, and
nothing that happens depends on those that are left.

`Config.unread` is what the run leaves at most of the tokens that it reads from outside. A step
takes from its front and never gives anything back (`step_unread`). So a run that leaves `rest`
in the end has not touched it before; every one of its steps would be the same without `rest`
(`step_follows`), and therefore with something else in its place (`Trail.replaced`).
-/

namespace Logo
set_option autoImplicit false

variable {σ : Type}

/-! ### Tokens from outside -/

/-- The tokens that are read from outside while `tokens` are at hand: these, or those that are
saved for the time after the outermost list. -/
def outerTokens (tokens : List Value) : List Pending → List Value
  | [] => tokens
  | .sequence saved :: pending => outerTokens saved pending
  | _ :: pending => outerTokens tokens pending

/-- Is the first of `tokens` as good as taken, if the run does not fail? -/
def Focus.takesNext (tokens : List Value) : Focus → Bool
  | .expression | .operand => true
  | .chain _ => (operatorAhead? tokens).isSome
  | _ => false

/-- The tokens from outside that have not been read and are not about to be. -/
def Config.unread (c : Config σ) : List Value :=
  outerTokens (if c.focus.takesNext c.tokens then c.tokens.tail else c.tokens) c.pending

theorem outerTokens_suffix {tokens tokens' : List Value} (h : tokens <:+ tokens')
    (pending : List Pending) : outerTokens tokens pending <:+ outerTokens tokens' pending := by
  induction pending with
  | nil => exact h
  | cons p pending ih =>
    cases p with
    | sequence saved => exact List.suffix_rfl
    | _ => exact ih

theorem Config.unread_suffix (c : Config σ) : c.unread <:+ outerTokens c.tokens c.pending := by
  refine outerTokens_suffix ?_ c.pending
  split
  · exact List.tail_suffix c.tokens
  · exact List.suffix_rfl

/-- Inside of a list, the tokens at hand are not those from outside. -/
theorem outerTokens_inside (tokens saved : List Value) (inner outer : List Pending) :
    outerTokens tokens (inner ++ .sequence saved :: outer) = outerTokens saved outer := by
  induction inner generalizing tokens with
  | nil => rfl
  | cons p inner ih =>
    cases p with
    | sequence saved' => exact ih saved'
    | _ => exact ih tokens

theorem outerTokens_bodies (tokens : List Value) {outer : List Pending}
    (hb : ∀ p ∈ outer, p.isBody = true) (pending : List Pending) :
    outerTokens tokens (outer ++ pending) = outerTokens tokens pending := by
  induction outer with
  | nil => rfl
  | cons p outer ih =>
    obtain ⟨hp, hrest⟩ := List.forall_mem_cons.1 hb
    cases p with
    | sequence saved => cases hp
    | _ => exact ih hrest

theorem Focus.takesNext_of_reads {focus : Focus} (h : focus.reads = false) (tokens : List Value) :
    focus.takesNext tokens = false := by
  cases focus with
  | expression | operand | chain | gather => cases h
  | _ => rfl

/-! ### Readers take from the front -/

section Readers

variable {m : Machine σ} {tokens : List Value} {pending : List Pending}

theorem callNamed_unread (name : String) (parenthesised : Bool) :
    (callNamed m name parenthesised tokens pending).unread = outerTokens tokens pending := by
  unfold callNamed
  split <;> rfl

theorem openParen_unread (h : ¬ (openParen m tokens pending).Fails) :
    (openParen m tokens pending).unread <:+ outerTokens tokens.tail pending := by
  cases tokens with
  | nil => exact absurd ⟨_, rfl⟩ h
  | cons token rest =>
    simp only [openParen, List.tail_cons] at h ⊢
    cases hr : Role.of token
    case word name => rw [callNamed_unread]
    case closeParen =>
      rw [hr] at h
      exact absurd ⟨_, rfl⟩ h
    all_goals exact List.suffix_rfl

theorem readOperand_unread (h : ¬ (readOperand m tokens pending).Fails) :
    (readOperand m tokens pending).unread <:+ outerTokens tokens.tail pending := by
  cases tokens with
  | nil => exact absurd ⟨_, rfl⟩ h
  | cons token rest =>
    have hrest := outerTokens_suffix (List.tail_suffix rest) pending
    simp only [readOperand, List.tail_cons] at h ⊢
    cases hr : Role.of token
    case openParen =>
      rw [hr] at h
      exact (openParen_unread h).trans hrest
    case word name =>
      simp only
      rw [callNamed_unread]
    case operator op =>
      rw [hr] at h
      cases op
      case subtract =>
        simp only at h ⊢
        split
        · exact List.suffix_rfl
        · exact hrest
      all_goals exact List.suffix_rfl
    all_goals exact List.suffix_rfl

/-- Where an operator stands ahead of a chain, it is as good as taken. -/
theorem unread_chain {op : Operator} (c : Chain) (hop : operatorAhead? tokens = some op) :
    (⟨m, .chain c, tokens, pending⟩ : Config σ).unread = outerTokens tokens.tail pending := by
  simp only [Config.unread, Focus.takesNext, hop, Option.isSome_some, if_true]

/-- An operator ahead is taken, and with it the first token of its right operand. -/
theorem readChain_unread (c : Chain) :
    (readChain m c tokens pending).unread <:+ (⟨m, .chain c, tokens, pending⟩ : Config σ).unread := by
  unfold readChain
  cases hop : operatorAhead? tokens with
  | none =>
    simp only [Config.unread, Focus.takesNext, hop]
    split <;> exact List.suffix_rfl
  | some op =>
    rw [unread_chain c hop]
    simp only
    split
    · exact List.suffix_rfl
    · split
      · rename_i hnil
        rw [hnil]
        exact List.suffix_rfl
      · rename_i producer rest hcons
        rw [hcons]
        split
        · exact List.suffix_rfl
        · exact Config.unread_suffix _

theorem readInputs_unread (g : Gathering) :
    (readInputs m g tokens pending).unread <:+ outerTokens tokens pending := by
  have htail := outerTokens_suffix (List.tail_suffix tokens) pending
  unfold readInputs
  split
  · cases tokens with
    | nil => exact List.suffix_rfl
    | cons token rest =>
      simp only
      cases Role.of token
      case closeParen =>
        simp only
        split <;> exact htail
      all_goals exact htail
  · split
    · exact List.suffix_rfl
    · cases tokens with
      | nil => exact List.suffix_rfl
      | cons token rest =>
        simp only
        split
        · exact List.suffix_rfl
        · exact htail

/-- Behind a part of a phrase, reading goes on where the part has ended. -/
theorem resume_unread (v : Option Value) {p : Pending} (hp : p.isBody = false) :
    (resume m v tokens p pending).unread <:+ outerTokens tokens (p :: pending) := by
  cases p with
  | sequence saved =>
    simp only [resume]
    split
    · exact List.suffix_rfl
    · split <;> exact List.suffix_rfl
  | firstOperand =>
    simp only [resume]
    split <;> exact Config.unread_suffix _
  | rightOperand c op producer => cases v <;> exact Config.unread_suffix _
  | negation =>
    cases v with
    | none => exact List.suffix_rfl
    | some v =>
      simp only [resume]
      split <;> exact List.suffix_rfl
  | group =>
    cases tokens with
    | nil => exact List.suffix_rfl
    | cons token rest =>
      simp only [resume]
      split
      · exact outerTokens_suffix (List.suffix_cons token rest) pending
      · exact List.suffix_rfl
  | input g producer => cases v <;> exact List.suffix_rfl
  | _ => cases hp

end Readers

/-! ### Calls take nothing -/

theorem Config.Beside.unread {c : Config σ} {tokens : List Value} (h : c.Beside tokens)
    (hok : ¬ c.Fails) (k : List Pending) : (c.under k).unread = outerTokens tokens k := by
  cases h with
  | @outside m focus outer hf hb =>
    have htakes := Focus.takesNext_of_reads hf tokens
    simp only [Config.unread, Config.lift, htakes, Bool.false_eq_true, if_false]
    exact outerTokens_bodies tokens hb k
  | @inside d outer hb =>
    simp only [Config.unread, Config.lift, List.append_assoc, List.cons_append, outerTokens_inside]
    exact outerTokens_bodies tokens hb k
  | fails hf => exact absurd hf hok

theorem Next.config?_lift {n : Next σ} {k : List Pending} {c : Config σ}
    (h : (n.lift id k).config? = some c) : ∃ d, n.config? = some d ∧ c = d.under k := by
  cases n with
  | go d =>
    cases h
    exact ⟨d, rfl, rfl⟩
  | suspend why d =>
    cases h
    exact ⟨d, rfl, rfl⟩
  | resolved outcome m => cases h

/-- In a call nothing is taken of the tokens behind it. -/
theorem unread_of_outside {m : Machine σ} {focus : Focus} {tokens : List Value}
    {outer pending : List Pending} (hf : focus.reads = false) (hb : ∀ p ∈ outer, p.isBody = true)
    (hsettled : ¬ (⟨m, focus, tokens, outer⟩ : Config σ).Settled) {c : Config σ}
    (hs : (step ⟨m, focus, tokens, outer ++ pending⟩).config? = some c) (hok : ¬ c.Fails) :
    c.unread = (⟨m, focus, tokens, outer ++ pending⟩ : Config σ).unread := by
  have hs' : (step ((⟨m, focus, tokens, outer⟩ : Config σ).under pending)).config? = some c := hs
  rw [step_under hsettled] at hs'
  obtain ⟨d, hd, rfl⟩ := Next.config?_lift hs'
  rw [(step_outside hb hf hd).unread hok pending, Config.unread, Focus.takesNext_of_reads hf,
    if_neg Bool.false_ne_true, outerTokens_bodies tokens hb]

/-- **One step** takes tokens from the front, if any, and gives none back. -/
theorem step_unread {c c' : Config σ} (hs : (step c).config? = some c') (hok : ¬ c'.Fails) :
    c'.unread <:+ c.unread := by
  obtain ⟨m, focus, tokens, pending⟩ := c
  -- what neither reads tokens nor hands on an outcome
  have hcall (hf : focus.reads = false) (ho : focus.isOutcome = false) :
      c'.unread <:+ (⟨m, focus, tokens, pending⟩ : Config σ).unread := by
    have hsettled : ¬ (⟨m, focus, tokens, []⟩ : Config σ).Settled := by
      intro h
      obtain ⟨-, ⟨v, rfl⟩ | ⟨f, rfl⟩⟩ := settled_iff.1 h <;> cases ho
    rw [unread_of_outside hf (fun p hp => by cases hp) hsettled hs hok]
    exact List.suffix_rfl
  cases focus with
  | expression =>
    cases hs
    exact List.suffix_rfl
  | operand =>
    cases hs
    exact readOperand_unread hok
  | chain c =>
    cases hs
    exact readChain_unread c
  | gather g =>
    cases hs
    exact readInputs_unread g
  | reply v =>
    cases pending with
    | nil => cases hs
    | cons p pending =>
      cases hp : p.isBody with
      | false =>
        cases hs
        exact resume_unread v hp
      | true =>
        have hsettled : ¬ (⟨m, .reply v, tokens, [p]⟩ : Config σ).Settled := fun h => by
          cases (settled_iff.1 h).1
        have hb : ∀ q ∈ [p], q.isBody = true := forall_isBody_cons hp fun q hq => by cases hq
        rw [unread_of_outside rfl hb hsettled hs hok]
        exact List.suffix_rfl
  | raise f =>
    cases pending with
    | nil => cases hs
    | cons p pending =>
      cases hs
      exact absurd ⟨f, rfl⟩ hok
  | _ => exact hcall rfl rfl

/-- A run on its way to a value only ever takes from the front. -/
theorem Path.unread {between : Engine σ → Engine σ → Prop} {n : Nat} {a b : Config σ}
    (h : Path between n a b) (hb : ¬ b.Fails) : b.unread <:+ a.unread := by
  induction h with
  | refl => exact List.suffix_rfl
  | @go n a d b hs h ih =>
    have hstep : d.unread <:+ a.unread := step_unread (by rw [hs]; rfl) fun hd => hb (h.fails hd)
    exact (ih hb).trans hstep
  | @wait n a d b why e hs he h ih =>
    have hstep : d.unread <:+ a.unread := step_unread (by rw [hs]; rfl) fun hd => hb (h.fails hd)
    exact (ih hb).trans hstep

/-! ### What is left was not looked at -/

/-- The run goes on from here, and of `left`, which stood behind the tokens at hand inside of
`pending`, nothing is taken. -/
structure Config.Spares (left : List Value) (pending : List Pending) (c : Config σ) : Prop where
  ok : ¬ c.Fails
  untaken : c.unread <:+ outerTokens left.tail pending → left = []

section Sparing

variable {m : Machine σ} {tokens left : List Value} {pending outer : List Pending}

theorem callNamed_fails (name : String) (parenthesised : Bool) (tokens' : List Value) :
    (callNamed m name parenthesised tokens pending).Fails ↔
      (callNamed m name parenthesised tokens' outer).Fails := by
  simp only [callNamed, Config.Fails]
  split <;> rfl

/-- Who takes a further token, and nothing of `left`, finds one that stands before. -/
theorem atInputEnd_of_spares (tokens : List Value) {f d : Config σ} (hf : f.Fails)
    (hd : d.unread <:+ outerTokens (tokens ++ left).tail outer)
    (h : (if atInputEnd (tokens ++ left) then f else d).Spares left outer) :
    atInputEnd tokens = false := by
  split at h
  · exact absurd hf h.ok
  · rename_i hend
    cases tokens with
    | nil =>
      obtain rfl := h.untaken hd
      exact absurd rfl hend
    | cons token tokens => exact Bool.eq_false_iff.2 hend

theorem openParen_spares (h : (openParen m (tokens ++ left) outer).Spares left outer) :
    ¬ (openParen m tokens pending).Fails := by
  cases tokens with
  | nil =>
    obtain rfl := h.untaken (openParen_unread h.ok)
    exact absurd ⟨_, rfl⟩ h.ok
  | cons token rest =>
    have hok := h.ok
    simp only [openParen, List.cons_append] at hok ⊢
    cases hr : Role.of token
    case word name =>
      rw [hr] at hok
      exact fun hf => hok ((callNamed_fails name true _).1 hf)
    case closeParen =>
      rw [hr] at hok
      exact absurd ⟨_, rfl⟩ hok
    all_goals
      rintro ⟨f, hf⟩
      cases hf

theorem readOperand_spares (h : (readOperand m (tokens ++ left) outer).Spares left outer) :
    ¬ (readOperand m tokens pending).Fails := by
  cases tokens with
  | nil =>
    obtain rfl := h.untaken (readOperand_unread h.ok)
    exact absurd ⟨_, rfl⟩ h.ok
  | cons token rest =>
    simp only [readOperand, List.cons_append] at h ⊢
    cases hr : Role.of token
    case openParen =>
      rw [hr] at h
      exact openParen_spares h
    case word name =>
      rw [hr] at h
      exact fun hf => h.ok ((callNamed_fails name false _).1 hf)
    case closeParen =>
      rw [hr] at h
      exact absurd ⟨_, rfl⟩ h.ok
    case operator op =>
      rw [hr] at h
      cases op
      case subtract =>
        have hend := atInputEnd_of_spares rest ⟨_, rfl⟩ List.suffix_rfl h
        simp only [hend]
        rintro ⟨f, hf⟩
        cases hf
      all_goals exact absurd ⟨_, rfl⟩ h.ok
    all_goals
      rintro ⟨f, hf⟩
      cases hf

/-- An operator at the front of `left` would be taken. -/
theorem readChain_ahead {c : Chain} (h : (readChain m c (tokens ++ left) outer).Spares left outer) :
    operatorAhead? (tokens ++ left) = operatorAhead? tokens := by
  cases tokens with
  | cons token tokens => rfl
  | nil =>
    cases hop : operatorAhead? ([] ++ left) with
    | none => rfl
    | some op =>
      have htaken : (readChain m c ([] ++ left) outer).unread <:+ _ := readChain_unread c
      rw [unread_chain c hop] at htaken
      obtain rfl := h.untaken htaken
      cases hop

theorem readChain_spares {c : Chain} (h : (readChain m c (tokens ++ left) outer).Spares left outer) :
    ¬ (readChain m c tokens pending).Fails := by
  have hahead := readChain_ahead h
  unfold readChain at h ⊢
  rw [hahead] at h
  cases hop : operatorAhead? tokens with
  | none =>
    simp only [hop] at h ⊢
    cases hs : Chain.settle 0 c.operands c.operators with
    | error f =>
      simp only [hs] at h
      exact absurd ⟨_, rfl⟩ h.ok
    | ok c' =>
      rintro ⟨f, hf⟩
      cases hf
  | some op =>
    cases tokens with
    | nil => cases hop
    | cons token rest =>
      simp only [hop, List.cons_append, List.tail_cons] at h ⊢
      cases hs : Chain.settle op.precedence c.operands c.operators with
      | error f =>
        simp only [hs] at h
        exact absurd ⟨_, rfl⟩ h.ok
      | ok c' =>
        simp only [hs] at h ⊢
        cases rest with
        | nil =>
          cases left with
          | nil => exact absurd ⟨_, rfl⟩ h.ok
          | cons producer left =>
            cases atInputEnd_of_spares [] ⟨_, rfl⟩ List.suffix_rfl h
        | cons producer rest =>
          have hend := atInputEnd_of_spares (producer :: rest) ⟨_, rfl⟩ List.suffix_rfl h
          simp only [hend]
          rintro ⟨f, hf⟩
          cases hf

theorem readInputs_spares {g : Gathering}
    (h : (readInputs m g (tokens ++ left) outer).Spares left outer) :
    ¬ (readInputs m g tokens pending).Fails := by
  unfold readInputs at h ⊢
  by_cases hg : g.parenthesised = true
  · simp only [hg, if_true] at h ⊢
    cases tokens with
    | nil =>
      cases left with
      | nil => exact absurd ⟨_, rfl⟩ h.ok
      | cons token left =>
        simp only [List.nil_append] at h
        cases hr : Role.of token
        case closeParen =>
          simp only [hr] at h
          split at h
          · cases h.untaken List.suffix_rfl
          · exact absurd ⟨_, rfl⟩ h.ok
        all_goals
          simp only [hr] at h
          cases h.untaken List.suffix_rfl
    | cons token rest =>
      simp only [List.cons_append] at h ⊢
      cases hr : Role.of token
      case closeParen =>
        simp only [hr] at h ⊢
        split at h
        · rename_i hmissing
          rw [if_pos hmissing]
          rintro ⟨f, hf⟩
          cases hf
        · exact absurd ⟨_, rfl⟩ h.ok
      all_goals
        rintro ⟨f, hf⟩
        cases hf
  · simp only [hg] at h ⊢
    by_cases hmissing : g.missing = 0
    · simp only [hmissing]
      rintro ⟨f, hf⟩
      cases hf
    · simp only [hmissing] at h ⊢
      cases tokens with
      | nil =>
        cases left with
        | nil => exact absurd ⟨_, rfl⟩ h.ok
        | cons token left =>
          cases atInputEnd_of_spares [] ⟨_, rfl⟩ List.suffix_rfl h
      | cons token rest =>
        have hend := atInputEnd_of_spares (token :: rest) ⟨_, rfl⟩ List.suffix_rfl h
        simp only [hend]
        rintro ⟨f, hf⟩
        cases hf

theorem group_spares {v : Option Value}
    (h : (resume m v (tokens ++ left) .group outer).Spares left outer) :
    ¬ (resume m v tokens .group pending).Fails := by
  cases tokens with
  | nil =>
    cases left with
    | nil => exact absurd ⟨_, rfl⟩ h.ok
    | cons token left =>
      simp only [resume, List.nil_append] at h
      split at h
      · cases h.untaken List.suffix_rfl
      · exact absurd ⟨_, rfl⟩ h.ok
  | cons token rest =>
    cases hend : atInputEnd (token :: rest) with
    | true =>
      simp only [resume, hend, if_true]
      rintro ⟨f, hf⟩
      cases hf
    | false =>
      have hend' : atInputEnd (token :: (rest ++ left)) = false := hend
      simp only [resume, List.cons_append, hend'] at h
      exact absurd ⟨_, rfl⟩ h.ok

theorem firstOperand_spares {v : Option Value}
    (h : (resume m v (tokens ++ left) .firstOperand outer).Spares left outer) :
    operatorAhead? (tokens ++ left) = operatorAhead? tokens := by
  cases tokens with
  | cons token tokens => rfl
  | nil =>
    simp only [List.nil_append] at h ⊢
    cases hop : operatorAhead? left with
    | none => rfl
    | some op =>
      simp only [resume, hop] at h
      cases v with
      | none => exact absurd ⟨_, rfl⟩ h.ok
      | some v =>
        obtain rfl := h.untaken (unread_chain _ hop ▸ List.suffix_rfl)
        cases hop

end Sparing

/-- Of tokens that are all left in the end, none is taken. -/
theorem reach_untaken {rest : List Value} {pending : List Pending}
    (h : rest <:+ outerTokens (reach rest (pending ++ [.sequence []])).tail (extendBefore rest pending)) :
    reach rest (pending ++ [.sequence []]) = [] := by
  induction pending with
  | nil =>
    have hlength : rest.length ≤ rest.tail.length := h.length_le
    rw [List.length_tail] at hlength
    have hnil : rest = [] := List.eq_nil_of_length_eq_zero (by omega)
    exact hnil
  | cons p pending ih =>
    cases p with
    | sequence saved =>
      have hp : pending ++ [.sequence []] ≠ [] :=
        List.append_ne_nil_of_right_ne_nil _ (List.cons_ne_nil _ _)
      exact reach_sequence hp rest saved
    | _ => exact ih h

/-- **One step** that leaves `rest` as it is looks at nothing of it. -/
theorem step_follows {rest : List Value} {c c' : Config σ}
    (hs : (step (c.before rest)).config? = some c') (hok : ¬ c'.Fails) (hrest : rest <:+ c'.unread) :
    (c.under [.sequence []]).Follows rest := by
  obtain ⟨m, focus, tokens, pending⟩ := c
  have hspares (outer : List Pending) :
      c'.Spares (reach rest (outer ++ [.sequence []])) (extendBefore rest outer) :=
    ⟨hok, fun h => reach_untaken (hrest.trans h)⟩
  cases focus with
  | operand =>
    cases hs
    exact readOperand_spares (hspares pending)
  | chain c =>
    cases hs
    exact ⟨readChain_ahead (hspares pending), readChain_spares (hspares pending)⟩
  | gather g =>
    cases hs
    exact readInputs_spares (hspares pending)
  | reply v =>
    cases pending with
    | nil => cases hs
    | cons p pending =>
      cases p with
      | firstOperand =>
        cases hs
        exact firstOperand_spares (hspares pending)
      | group =>
        cases hs
        exact group_spares (hspares pending)
      | _ => trivial
  | raise f =>
    cases pending with
    | nil => cases hs
    | cons p pending =>
      cases hs
      exact hok ⟨f, rfl⟩
  | _ => trivial

theorem Config.Settled.before {c : Config σ} (h : c.Settled) (rest : List Value) :
    (c.before rest).Settled := by
  obtain ⟨m, focus, tokens, pending⟩ := c
  obtain ⟨rfl, hf⟩ := settled_iff.1 h
  exact settled_iff.2 ⟨rfl, hf⟩

theorem Next.config?_before {n : Next σ} {rest : List Value} {c : Config σ}
    (h : (n.before rest).config? = some c) : ∃ d, n.config? = some d ∧ c = d.before rest := by
  cases n with
  | go d =>
    cases h
    exact ⟨d, rfl, rfl⟩
  | suspend why d =>
    cases h
    exact ⟨d, rfl, rfl⟩
  | resolved outcome m => cases h

theorem Next.of_before_go {n : Next σ} {rest : List Value} {c : Config σ}
    (h : n.before rest = .go c) : ∃ d, n = .go d ∧ c = d.before rest := by
  cases n with
  | go d =>
    cases h
    exact ⟨d, rfl, rfl⟩
  | suspend why d => cases h
  | resolved outcome m => cases h

theorem Next.of_before_suspend {n : Next σ} {rest : List Value} {why : Wait} {c : Config σ}
    (h : n.before rest = .suspend why c) : ∃ d, n = .suspend why d ∧ c = d.before rest := by
  cases n with
  | go d => cases h
  | suspend why d =>
    cases h
    exact ⟨d, rfl, rfl⟩
  | resolved outcome m => cases h

theorem Config.of_before_reply {c : Config σ} {m : Machine σ} {v : Option Value} {rest : List Value}
    (h : c.before rest = ⟨m, .reply v, rest, []⟩) : c = ⟨m, .reply v, [], []⟩ := by
  obtain ⟨m', focus, tokens, pending⟩ := c
  simp only [Config.before, Config.mk.injEq] at h
  obtain ⟨rfl, rfl, htokens, hpending⟩ := h
  cases pending with
  | cons p pending => cases hpending
  | nil =>
    obtain rfl : tokens = [] := List.append_left_eq_self.1 htokens
    rfl

/-- **One step** of a run that leaves `rest` in the end is the same with anything in its place
that begins with no operator. -/
theorem step_replaced {rest more : List Value} (ho : operatorAhead? more = none) {c a : Config σ}
    (hs : (step (c.before rest)).config? = some a) (hok : ¬ a.Fails) (hrest : rest <:+ a.unread) :
    step (c.before rest) = (step c).before rest ∧ step (c.before more) = (step c).before more := by
  have hsettled : ¬ c.Settled := fun h => Config.not_settled_of_step hs (h.before rest)
  have hsame := (step_follows hs hok hrest).step_before hsettled
  rw [hsame] at hs
  obtain ⟨d, hd, rfl⟩ := Next.config?_before hs
  exact ⟨hsame, step_before ho hd hok⟩

/-! ### The way of a reading -/

/-- A path with every moment of it: the machine, and what the run is about to do. These decide
what the step does that is noticed outside, and what host code leaves in it. -/
inductive Trail (between : Engine σ → Engine σ → Prop) :
    List (Machine σ × Focus) → Config σ → Config σ → Prop where
  | refl (c : Config σ) : Trail between [] c c
  | go {moments : List (Machine σ × Focus)} {a b c : Config σ} : step a = .go b →
      Trail between moments b c → Trail between ((a.machine, a.focus) :: moments) a c
  | wait {moments : List (Machine σ × Focus)} {a b c : Config σ} {why : Wait} {e : Engine σ} :
      step a = .suspend why b → between b.machine.engine e → Trail between moments (b.on e) c →
      Trail between ((a.machine, a.focus) :: moments) a c

namespace Trail

variable {between : Engine σ → Engine σ → Prop} {moments : List (Machine σ × Focus)}

theorem path {a b : Config σ} (h : Trail between moments a b) : Path between moments.length a b := by
  induction h with
  | refl => exact .refl _
  | go hs _ ih => exact .go hs ih
  | wait hs he _ ih => exact .wait hs he ih

theorem of_path {n : Nat} {a b : Config σ} (h : Path between n a b) :
    ∃ moments, Trail between moments a b := by
  induction h with
  | refl c => exact ⟨[], .refl c⟩
  | go hs _ ih =>
    obtain ⟨moments, h⟩ := ih
    exact ⟨_, .go hs h⟩
  | wait hs he _ ih =>
    obtain ⟨moments, h⟩ := ih
    exact ⟨_, .wait hs he h⟩

variable {rest more : List Value}

/-- **The way to a value** that leaves `rest` is the same with `more` in its place. -/
theorem replaced (ho : operatorAhead? more = none) {c : Config σ} {m : Machine σ} {v : Option Value}
    (h : Trail between moments (c.before rest) ⟨m, .reply v, rest, []⟩) :
    Trail between moments (c.before more) ⟨m, .reply v, more, []⟩ := by
  generalize ha : c.before rest = a at h
  generalize hb : (⟨m, .reply v, rest, []⟩ : Config σ) = b at h
  -- at every moment the run is still to come to `b`, so it cannot have touched `rest`
  have hok : ¬ b.Fails := by
    rintro ⟨f, hf⟩
    rw [← hb] at hf
    cases hf
  have hrest : rest = b.unread := by rw [← hb]; rfl
  induction h generalizing c with
  | refl a =>
    obtain rfl := Config.of_before_reply (ha.trans hb.symm)
    exact .refl _
  | @go moments a d b hs h ih =>
    subst ha
    have hd : ¬ d.Fails := fun hd => hok (h.path.fails hd)
    obtain ⟨hsame, hmore⟩ := step_replaced ho (by rw [hs]; rfl) hd (hrest ▸ h.path.unread hok)
    obtain ⟨d, hc, rfl⟩ := Next.of_before_go (hsame.symm.trans hs)
    rw [hc] at hmore
    exact .go hmore (ih rfl hb hok hrest)
  | @wait moments a d b why e hs he h ih =>
    subst ha
    have hd : ¬ d.Fails := fun hd => hok (h.path.fails hd)
    obtain ⟨hsame, hmore⟩ := step_replaced ho (by rw [hs]; rfl) hd (hrest ▸ h.path.unread hok)
    obtain ⟨d, hc, rfl⟩ := Next.of_before_suspend (hsame.symm.trans hs)
    rw [hc] at hmore
    exact .wait hmore he (ih (c := d.on e) rfl hb hok hrest)

end Trail

/-- What is yielded is what some way leads to. -/
theorem yields_value_iff {between : Engine σ → Engine σ → Prop} {c : Config σ} {v : Option Value}
    {rest : List Value} {m : Machine σ} :
    c.Yields between (.value v rest m) ↔
      ∃ moments, Trail between moments c ⟨m, .reply v, rest, []⟩ := by
  constructor
  · rintro ⟨n, j, d, -, hpath, hp, hr⟩
    obtain rfl := Config.eq_of_reading? hp hr
    exact Trail.of_path hpath
  · rintro ⟨moments, h⟩
    exact ⟨moments.length, moments.length, _, Nat.le_refl _, h.path, rfl, rfl⟩

/-- Where there are no tokens, nothing is read. -/
theorem Path.tokens_ne_nil {between : Engine σ → Engine σ → Prop} {n : Nat} {focus : Focus}
    (hfocus : focus = .operand ∨ focus = .expression) {m m' : Machine σ} {tokens rest : List Value}
    {v : Option Value} (h : Path between n ⟨m, focus, tokens, []⟩ ⟨m', .reply v, rest, []⟩) :
    tokens ≠ [] := by
  have hend : (⟨m', .reply v, rest, []⟩ : Config σ).Settled := ⟨_, _, rfl⟩
  rintro rfl
  -- an expression begins with an operand, and there the run fails
  have hfails : (⟨m', .reply v, rest, []⟩ : Config σ).Fails := by
    obtain rfl | rfl := hfocus
    · obtain ⟨i, -, h⟩ := h.of_go hend rfl
      exact h.fails ⟨_, rfl⟩
    · obtain ⟨i, -, h⟩ := h.of_go hend rfl
      obtain ⟨j, -, h⟩ := h.of_go hend rfl
      exact h.fails ⟨_, rfl⟩
  obtain ⟨f, hf⟩ := hfails
  cases hf

/-- **Reading is local and makes progress.** Let an operand or an expression come to a value, or to
none, with `rest` left of its tokens. Then it has taken one token at least, from the front; and with
anything else in the place of `rest` that begins with no operator it takes the same tokens, comes to
the same value on the same machine and leaves what is there unread. Whatever way led to the value,
the same moments lead to it then. -/
theorem reading_local (between : Engine σ → Engine σ → Prop) {focus : Focus}
    (hfocus : focus = .operand ∨ focus = .expression) {m m' : Machine σ} {tokens rest : List Value}
    {v : Option Value}
    (h : (⟨m, focus, tokens, []⟩ : Config σ).Yields between (.value v rest m')) :
    ∃ read, read ≠ [] ∧ tokens = read ++ rest ∧
      ∀ more, operatorAhead? more = none →
        (⟨m, focus, read ++ more, []⟩ : Config σ).Yields between (.value v more m') ∧
        ∀ moments, Trail between moments ⟨m, focus, tokens, []⟩ ⟨m', .reply v, rest, []⟩ →
          Trail between moments ⟨m, focus, read ++ more, []⟩ ⟨m', .reply v, more, []⟩ := by
  obtain ⟨moments, htrail⟩ := yields_value_iff.1 h
  have hok : ¬ (⟨m', .reply v, rest, []⟩ : Config σ).Fails := by
    rintro ⟨f, hf⟩
    cases hf
  have htaken : rest <:+ tokens.tail := by
    obtain rfl | rfl := hfocus <;> exact htrail.path.unread hok
  cases tokens with
  | nil => exact absurd rfl (htrail.path.tokens_ne_nil hfocus)
  | cons token tokens =>
    obtain ⟨read, rfl⟩ := htaken
    refine ⟨token :: read, List.cons_ne_nil _ _, rfl, fun more ho => ?_⟩
    have hmore (moments : List (Machine σ × Focus))
        (hway : Trail between moments ⟨m, focus, token :: (read ++ rest), []⟩ ⟨m', .reply v, rest, []⟩) :
        Trail between moments ⟨m, focus, token :: (read ++ more), []⟩ ⟨m', .reply v, more, []⟩ :=
      Trail.replaced (c := ⟨m, focus, token :: read, []⟩) ho hway
    exact ⟨yields_value_iff.2 ⟨moments, hmore moments htrail⟩, hmore⟩

/-- A call of `y` with a comparison as its input. -/
def Trial.comparing : List Value := [.text "y", .text "x", .text "=", .text "\"a"]

/-- `y x = "a` takes its four tokens, whether a word stands behind it, a parenthesis or nothing;
and the operand `x` takes one, whether an operator stands behind it or a parenthesis. -/
theorem reading_local_trial :
    (∃ m',
      expressionReader Eq Trial.naming (Trial.comparing ++ [.text "x"])
        (.value (some (.boolean true)) [.text "x"] m') ∧
      expressionReader Eq Trial.naming (Trial.comparing ++ [closing])
        (.value (some (.boolean true)) [closing] m') ∧
      expressionReader Eq Trial.naming Trial.comparing (.value (some (.boolean true)) [] m')) ∧
    ∃ m' moments,
      Trail Eq moments ⟨Trial.naming, .operand, [.text "x"] ++ [.text "=", .text "\"a"], []⟩
        ⟨m', .reply (some (.text "a")), [.text "=", .text "\"a"], []⟩ ∧
      Trail Eq moments ⟨Trial.naming, .operand, [.text "x"] ++ [closing], []⟩
        ⟨m', .reply (some (.text "a")), [closing], []⟩ := by
  constructor
  · have hread := Next.go_of_polled (n := Trial.reading 43 (Trial.comparing ++ [.text "x"]))
      (t := ⟨{}, .reply (some (.boolean true)), [.text "x"], []⟩) (by cbv) (by cbv)
    have hword : expressionReader Eq _ _ _ :=
      (Config.yields_advance_iff hread _).2 (Config.yields_reply_iff.2 rfl)
    obtain ⟨read, -, htokens, hmore⟩ := reading_local Eq (.inr rfl) hword
    obtain rfl : Trial.comparing = read := List.append_cancel_right htokens
    exact ⟨_, hword, (hmore [closing] rfl).1, (hmore [] rfl).1⟩
  · have hread := Next.go_of_polled
      (n := advance 16 ⟨Trial.naming, .operand, [.text "x"] ++ [.text "=", .text "\"a"], []⟩)
      (t := ⟨{}, .reply (some (.text "a")), [.text "=", .text "\"a"], []⟩) (by cbv) (by cbv)
    have hoperand : operandReader Eq _ _ _ :=
      (Config.yields_advance_iff hread _).2 (Config.yields_reply_iff.2 rfl)
    obtain ⟨moments, hway⟩ := yields_value_iff.1 hoperand
    obtain ⟨read, -, htokens, hmore⟩ := reading_local Eq (.inl rfl) hoperand
    obtain rfl : [.text "x"] = read := List.append_cancel_right htokens
    exact ⟨_, moments, hway, (hmore [closing] rfl).2 moments hway⟩

end Logo
