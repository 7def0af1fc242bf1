import Logo.Proofs.Lines
import Logo.Proofs.Stacks
import Logo.Proofs.Undisturbed

/-!
# One run or two

A program may be run in two parts, one after the other, or as a whole. How many
tokens an instruction takes is known only while it is read, so it is not plain that
no instruction of the first part reads on into the second. `Config.joined more c`
is the moment `c` of a run with `more` behind its program. Every step that does not
fail goes together with `joined`: a reader that comes to the end of its tokens has
failed by then, except where it looks for an operator (`Config.Follows`). At the end of
the program nothing is left of the first part's run but its engine.
-/

namespace Logo
set_option autoImplicit false

variable {σ : Type}

/-- What stands behind the tokens at hand once `more` stands behind the program: `more` itself if
these are tokens of the program, and nothing if they are those of a list inside of it. -/
def reach (more : List Value) : List Pending → List Value
  | [] => []
  | .sequence _ :: pending => if pending.isEmpty then more else []
  | _ :: pending => reach more pending

/-- A list that waits inside of `pending`, with `more` behind the program. -/
def Pending.extended (more : List Value) (pending : List Pending) : Pending → Pending
  | .sequence saved => .sequence (saved ++ reach more pending)
  | p => p

/-- What waits, with `more` behind the program. -/
def extend (more : List Value) : List Pending → List Pending
  | [] => []
  | p :: pending => p.extended more pending :: extend more pending

/-- The same moment of a run with `more` behind its program. -/
def Config.joined (more : List Value) (c : Config σ) : Config σ :=
  ⟨c.machine, c.focus, c.tokens ++ reach more c.pending, extend more c.pending⟩

def Next.joined (more : List Value) : Next σ → Next σ
  | .go c => .go (c.joined more)
  | .suspend why c => .suspend why (c.joined more)
  | .resolved outcome m => .resolved outcome m

/-- The run is about to give up. -/
def Config.Fails (c : Config σ) : Prop := ∃ f, c.focus = .raise f

theorem reach_sequence {pending : List Pending} (hp : pending ≠ []) (more saved : List Value) :
    reach more (.sequence saved :: pending) = [] := by
  cases pending with
  | nil => exact absurd rfl hp
  | cons p pending => rfl

theorem reach_cases (more : List Value) (pending : List Pending) :
    reach more pending = [] ∨ reach more pending = more := by
  induction pending with
  | nil => exact .inl rfl
  | cons p pending ih =>
    cases p
    case sequence saved =>
      cases pending
      · exact .inr rfl
      · exact .inl rfl
    all_goals exact ih

theorem atInputEnd_cons (token : Value) (rest rest' : List Value) :
    atInputEnd (token :: rest) = atInputEnd (token :: rest') := rfl

section Reading

variable {more : List Value} {m : Machine σ} {tokens : List Value} {pending : List Pending}

theorem enter_joined (m : Machine σ) (hp : pending ≠ []) (items : List Value) :
    enter m items (tokens ++ reach more pending) (extend more pending)
      = (enter m items tokens pending).joined more := by
  cases items with
  | nil => rfl
  | cons item items =>
    simp only [enter, Config.joined, reach_sequence hp, List.append_nil]
    rfl

theorem callNamed_joined (name : String) (parenthesised : Bool) :
    callNamed m name parenthesised (tokens ++ reach more pending) (extend more pending)
      = (callNamed m name parenthesised tokens pending).joined more := by
  unfold callNamed
  cases m.procedure name <;> rfl

theorem openParen_joined (h : ¬ (openParen m tokens pending).Fails) :
    openParen m (tokens ++ reach more pending) (extend more pending)
      = (openParen m tokens pending).joined more := by
  cases tokens with
  | nil => exact absurd ⟨_, rfl⟩ h
  | cons token rest =>
    simp only [openParen, List.cons_append]
    cases Role.of token
    case word name => exact callNamed_joined name true
    all_goals rfl

theorem readOperand_joined (h : ¬ (readOperand m tokens pending).Fails) :
    readOperand m (tokens ++ reach more pending) (extend more pending)
      = (readOperand m tokens pending).joined more := by
  cases tokens with
  | nil => exact absurd ⟨_, rfl⟩ h
  | cons token rest =>
    simp only [readOperand, List.cons_append] at h ⊢
    cases hr : Role.of token
    case openParen =>
      rw [hr] at h
      exact openParen_joined h
    case word name => exact callNamed_joined name false
    case operator op =>
      rw [hr] at h
      cases op
      case subtract =>
        simp only at h ⊢
        cases rest with
        | nil => exact absurd ⟨_, rfl⟩ h
        | cons token' rest =>
          rw [List.cons_append, atInputEnd_cons token' _ rest]
          split <;> rfl
      all_goals rfl
    all_goals rfl

/-- The only place where a reader looks past its last token. -/
theorem operatorAhead?_reach (ho : operatorAhead? more = none) :
    operatorAhead? (tokens ++ reach more pending) = operatorAhead? tokens := by
  cases tokens with
  | nil =>
    obtain h | h := reach_cases more pending
    · rw [h, List.nil_append]
    · rw [h]
      exact ho
  | cons token tokens => rfl

theorem readChain_joined
    (ho : operatorAhead? (tokens ++ reach more pending) = operatorAhead? tokens) (c : Chain)
    (h : ¬ (readChain m c tokens pending).Fails) :
    readChain m c (tokens ++ reach more pending) (extend more pending)
      = (readChain m c tokens pending).joined more := by
  unfold readChain at h ⊢
  rw [ho]
  cases hop : operatorAhead? tokens with
  | none =>
    simp only
    cases Chain.settle 0 c.operands c.operators <;> rfl
  | some op =>
    cases tokens with
    | nil => cases hop
    | cons token rest =>
      simp only [hop, List.cons_append, List.tail_cons] at h ⊢
      cases hs : Chain.settle op.precedence c.operands c.operators with
      | error f => rfl
      | ok c =>
        simp only [hs] at h ⊢
        cases rest with
        | nil => exact absurd ⟨_, rfl⟩ h
        | cons producer rest =>
          simp only [List.cons_append]
          have hsame := atInputEnd_cons producer (rest ++ reach more pending) rest
          by_cases hend : atInputEnd (producer :: rest) = true
          · simp only [hsame, hend, if_true]
            rfl
          · simp only [hsame, hend]
            rfl

theorem readInputs_joined (g : Gathering) (h : ¬ (readInputs m g tokens pending).Fails) :
    readInputs m g (tokens ++ reach more pending) (extend more pending)
      = (readInputs m g tokens pending).joined more := by
  unfold readInputs at h ⊢
  split
  · rename_i hg
    rw [if_pos hg] at h
    cases tokens with
    | nil => exact absurd ⟨_, rfl⟩ h
    | cons token rest =>
      simp only [List.cons_append]
      cases Role.of token
      case closeParen =>
        simp only
        split <;> rfl
      all_goals rfl
  · rename_i hg
    rw [if_neg hg] at h
    split
    · rfl
    · rename_i hmissing
      rw [if_neg hmissing] at h
      cases tokens with
      | nil => exact absurd ⟨_, rfl⟩ h
      | cons token rest =>
        simp only [List.cons_append, atInputEnd_cons token _ rest]
        split <;> rfl

end Reading

section Acting

variable {more : List Value} {m : Machine σ} {tokens : List Value} {pending : List Pending}

theorem callWith_joined (p : Procedure) (inputs : List Value) :
    callWith m p inputs (tokens ++ reach more pending) (extend more pending)
      = (callWith m p inputs tokens pending).joined more := by
  unfold callWith
  split <;> rfl

theorem applyList_joined (caller : String) (template inputs : List Value) :
    applyList m caller template inputs (tokens ++ reach more pending) (extend more pending)
      = (applyList m caller template inputs tokens pending).joined more := by
  unfold applyList
  split
  · split
    · rfl
    · split
      · rfl
      · have hp : Pending.template :: pending ≠ [] := List.cons_ne_nil _ _
        exact @enter_joined σ more tokens _ (m.openFrame _) hp _
  · rfl

theorem applyTemplate_joined (caller : String) (template : Value) (inputs : List Value) :
    applyTemplate m caller template inputs (tokens ++ reach more pending) (extend more pending)
      = (applyTemplate m caller template inputs tokens pending).joined more := by
  cases template
  case procedure p => exact callWith_joined p inputs
  case text s =>
    simp only [applyTemplate]
    split
    · exact callWith_joined _ inputs
    · rfl
  case list items => exact applyList_joined caller items inputs
  all_goals rfl

theorem carryOut_joined (hp : pending ≠ []) (e : Effect) :
    carryOut m e (tokens ++ reach more pending) (extend more pending)
      = (carryOut m e tokens pending).joined more := by
  cases e
  case block items => exact enter_joined m hp items
  case loop l => cases l <;> rfl
  case template caller template inputs => exact applyTemplate_joined caller template inputs
  all_goals rfl

theorem callDefined_joined (params : List String) (body inputs : List Value) :
    callDefined m params body inputs (tokens ++ reach more pending) (extend more pending)
      = (callDefined m params body inputs tokens pending).joined more := by
  unfold callDefined
  split
  · rfl
  · have hp : Pending.activation :: pending ≠ [] := List.cons_ne_nil _ _
    exact @enter_joined σ more tokens _ (m.openFrame _).openActivation hp body

theorem callHost_joined (id : Nat) (name : String) (inputs : List Value) :
    callHost m id name inputs (tokens ++ reach more pending) (extend more pending)
      = (callHost m id name inputs tokens pending).joined more := by
  unfold callHost
  split
  · rfl
  · rfl
  · simp only
    split <;> rfl

theorem callProcedure_joined (hp : pending ≠ []) (p : Procedure) (inputs : List Value) :
    callProcedure m p inputs (tokens ++ reach more pending) (extend more pending)
      = (callProcedure m p inputs tokens pending).joined more := by
  cases p with
  | primitive p =>
    simp only [callProcedure]
    split
    · exact carryOut_joined hp _
    · rfl
  | host id name arity => exact callHost_joined id name _
  | defined id name params body => exact callDefined_joined params body inputs

theorem beginPass_joined (l : Loop) :
    beginPass m l (tokens ++ reach more pending) (extend more pending)
      = (beginPass m l tokens pending).joined more := by
  -- the pass runs inside of a loop that waits for it
  have hblock (m : Machine σ) (l : Loop) (block : List Value) :
      enter m block (tokens ++ reach more pending) (.loop l :: extend more pending)
        = (enter m block tokens (.loop l :: pending)).joined more := by
    have hp : Pending.loop l :: pending ≠ [] := List.cons_ne_nil _ _
    exact @enter_joined σ more tokens _ m hp block
  have htemplate (l : Loop) (caller : String) (template : Value) (inputs : List Value) :
      applyTemplate m caller template inputs (tokens ++ reach more pending)
          (.loop l :: extend more pending)
        = (applyTemplate m caller template inputs tokens (.loop l :: pending)).joined more :=
    @applyTemplate_joined σ more m tokens (.loop l :: pending) caller template inputs
  cases l with
  | times block begun total => exact hblock _ _ block
  | endless block => exact hblock m _ block
  | each template items =>
    cases items with
    | nil => rfl
    | cons item items => exact htemplate _ _ template [item]
  | collect template items outputs =>
    cases items with
    | nil => rfl
    | cons item items => exact htemplate _ _ template [item]

theorem act_joined (hp : pending ≠ []) (a : Act) :
    act m a (tokens ++ reach more pending) (extend more pending)
      = (act m a tokens pending).joined more := by
  cases a with
  | literal v => rfl
  | read name =>
    simp only [act]
    cases m.lookup? name <;> rfl
  | call p inputs => exact callProcedure_joined hp p inputs
  | pass l => exact beginPass_joined l

theorem afterPass_joined (l : Loop) (v : Option Value) :
    afterPass m l v (tokens ++ reach more pending) (extend more pending)
      = (afterPass m l v tokens pending).joined more := by
  cases l <;> cases v <;> simp only [afterPass] <;> try split
  all_goals rfl

/-- What the next step looks at is the same with `more` behind the program: it finds no other
operator ahead, and it does not fail for want of tokens. -/
def Config.Follows (more : List Value) : Config σ → Prop
  | ⟨m, .operand, tokens, pending⟩ => ¬ (readOperand m tokens pending).Fails
  | ⟨m, .chain c, tokens, pending⟩ =>
    operatorAhead? (tokens ++ reach more pending) = operatorAhead? tokens ∧
      ¬ (readChain m c tokens pending).Fails
  | ⟨m, .gather g, tokens, pending⟩ => ¬ (readInputs m g tokens pending).Fails
  | ⟨_, .reply _, tokens, .firstOperand :: pending⟩ =>
    operatorAhead? (tokens ++ reach more pending) = operatorAhead? tokens
  | ⟨m, .reply v, tokens, .group :: pending⟩ => ¬ (resume m v tokens .group pending).Fails
  | ⟨_, .raise _, _, _⟩ => False
  | _ => True

/-- Further in than the program's own list. -/
theorem resume_joined (hp : pending ≠ []) (v : Option Value) (p : Pending)
    (h : Config.Follows more ⟨m, .reply v, tokens, p :: pending⟩) :
    resume m v (tokens ++ reach more (p :: pending)) (p.extended more pending) (extend more pending)
      = (resume m v tokens p pending).joined more := by
  cases p with
  | sequence saved =>
    rw [reach_sequence hp, List.append_nil]
    simp only [Pending.extended, resume]
    split
    · rfl
    · cases v <;> cases tokens <;>
        simp [Config.joined, extend, Pending.extended, reach_sequence hp]
  | firstOperand =>
    have ho : operatorAhead? (tokens ++ reach more pending) = operatorAhead? tokens := h
    simp only [Pending.extended, reach, resume, ho]
    cases operatorAhead? tokens <;> cases v <;> rfl
  | group =>
    cases tokens with
    | nil => exact absurd ⟨_, rfl⟩ h
    | cons token rest =>
      have hend := atInputEnd_cons token (rest ++ reach more pending) rest
      simp only [Pending.extended, reach, resume, List.cons_append, hend]
      cases atInputEnd (token :: rest) <;> rfl
  | rightOperand c op producer => cases v <;> rfl
  | negation =>
    cases v with
    | none => rfl
    | some v =>
      simp only [Pending.extended, reach, resume]
      cases negate Operator.subtract.symbol v <;> rfl
  | input g producer => cases v <;> rfl
  | activation => cases v <;> rfl
  | template => rfl
  | counter => rfl
  | loop l => exact @afterPass_joined σ more m tokens pending l v

end Acting

/-! ### Whole steps -/

section Stepping

variable {more : List Value}

theorem race_joined (m : Machine σ) (answer : Next σ) (tokens : List Value) (pending : List Pending) :
    race m (answer.joined more) (tokens ++ reach more pending) (extend more pending)
      = (race m answer tokens pending).joined more := by
  unfold race
  split
  · cases answer with
    | suspend why c =>
      have hc : (c.joined more).machine = c.machine := rfl
      simp only [Next.joined, hc]
      split <;> rfl
    | go c => rfl
    | resolved outcome m => rfl
  · split <;> rfl

theorem askHost_joined (m : Machine σ) (id : Nat) (inputs : List Value) (asked : Nat)
    (tokens : List Value) (pending : List Pending) :
    askHost m id inputs asked (tokens ++ reach more pending) (extend more pending)
      = (askHost m id inputs asked tokens pending).joined more := by
  unfold askHost
  split
  · simp only
    split <;> rfl
  · rfl

theorem awaitClock_joined (m : Machine σ) (deadline : Nat) (tokens : List Value)
    (pending : List Pending) :
    awaitClock m deadline (tokens ++ reach more pending) (extend more pending)
      = (awaitClock m deadline tokens pending).joined more := by
  unfold awaitClock
  split <;> rfl

/-- A step before the end of the program is the same with `more` behind the program, if what it
looks at is. -/
theorem Config.Follows.step_joined {c : Config σ} (h : c.Follows more) (hp : c.pending ≠ [])
    (hr : ∀ v, c.focus = .reply v → c.pending.tail ≠ []) :
    step (c.joined more) = (step c).joined more := by
  obtain ⟨m, focus, tokens, pending⟩ := c
  cases focus with
  | expression => rfl
  | operand => exact congrArg Next.go (readOperand_joined h)
  | chain c => exact congrArg Next.go (readChain_joined h.1 c h.2)
  | gather g => exact congrArg Next.go (readInputs_joined g h)
  | turn l =>
    simp only [Config.joined, step]
    cases l.outcome? <;> rfl
  | checkpoint a =>
    simp only [Config.joined, step, act_joined hp]
    cases m.engine.state <;> rfl
  | ask id inputs asked =>
    simp only [Config.joined, step, askHost_joined]
    exact race_joined m _ tokens pending
  | sleep deadline =>
    simp only [Config.joined, step, awaitClock_joined]
    exact race_joined m _ tokens pending
  | reply v =>
    cases pending with
    | nil => exact absurd rfl hp
    | cons p pending => exact congrArg Next.go (resume_joined (hr v rfl) v p h)
  | raise f => exact h.elim

/-- A step that does not fail sees nothing of what begins with no operator. -/
theorem Config.follows (ho : operatorAhead? more = none) {c : Config σ} (hp : c.pending ≠ [])
    (hok : ∀ c', (step c).config? = some c' → ¬ c'.Fails) : c.Follows more := by
  obtain ⟨m, focus, tokens, pending⟩ := c
  cases focus with
  | operand => exact hok _ rfl
  | chain c => exact ⟨operatorAhead?_reach ho, hok _ rfl⟩
  | gather g => exact hok _ rfl
  | reply v =>
    cases pending with
    | nil => exact absurd rfl hp
    | cons p pending =>
      cases p with
      | firstOperand => exact operatorAhead?_reach ho
      | group => exact hok _ rfl
      | _ => trivial
  | raise f =>
    cases pending with
    | nil => exact absurd rfl hp
    | cons p pending => exact hok _ rfl ⟨f, rfl⟩
  | _ => trivial

/-- A step that does not fail, before the end of the program, is the same with `more` behind
the program. -/
theorem step_joined (ho : operatorAhead? more = none) {c : Config σ} (hp : c.pending ≠ [])
    (hr : ∀ v, c.focus = .reply v → c.pending.tail ≠ [])
    (hok : ∀ c', (step c).config? = some c' → ¬ c'.Fails) :
    step (c.joined more) = (step c).joined more :=
  (Config.follows ho hp hok).step_joined hp hr

end Stepping

/-! ### Whole runs -/

/-- A run that is about to give up ends with an error. -/
theorem Course.of_fails {c : Config σ} {outcome : Outcome} {m : Machine σ} (hc : c.Fails)
    (h : Course c outcome m) : ∃ f, outcome = .error f := by
  induction h with
  | @ended c outcome m _ hs =>
    obtain ⟨m', focus, tokens, pending⟩ := c
    obtain ⟨f, rfl⟩ := hc
    cases pending with
    | nil =>
      cases hs
      exact ⟨f, rfl⟩
    | cons p pending => cases hs
  | @later c d outcome m _ hs _ ih =>
    obtain ⟨m', focus, tokens, pending⟩ := c
    obtain ⟨f, rfl⟩ := hc
    cases pending with
    | nil => cases hs
    | cons p pending =>
      cases hs
      exact ih ⟨f, rfl⟩

/-- The program's own list is what waits last. -/
def Config.Rooted (c : Config σ) : Prop := ∃ d : Config σ, c = d.under [.sequence []]

theorem course_go_iff {c d : Config σ} {outcome : Outcome} {m : Machine σ} (h : c.HandsOff)
    (hs : (step c).calm = .go d) : Course c outcome m ↔ Course d outcome m :=
  ⟨fun hc => hc.of_go hs, .later h hs⟩

theorem Next.calm_joined (more : List Value) (n : Next σ) :
    (n.joined more).calm = n.calm.joined more := by
  cases n <;> rfl

theorem Next.of_calm_go {n : Next σ} {d : Config σ} (h : n.calm = .go d) :
    ∃ c, n.config? = some c ∧ d = c.calm := by
  cases n with
  | go c =>
    cases h
    exact ⟨c, rfl, rfl⟩
  | suspend why c =>
    cases h
    exact ⟨c, rfl, rfl⟩
  | resolved outcome m => cases h

/-- A run stays in the program's list until that is at its end. -/
theorem step_rooted {c c' : Config σ} (hc : ¬ c.Settled)
    (hs : (step (c.under [.sequence []])).config? = some c') : c'.calm.Rooted := by
  rw [step_under hc] at hs
  cases hn : step c with
  | go d =>
    rw [hn] at hs
    cases hs
    exact ⟨d.calm, rfl⟩
  | suspend why d =>
    rw [hn] at hs
    cases hs
    exact ⟨d.calm, rfl⟩
  | resolved outcome m =>
    rw [hn] at hs
    cases hs

theorem Live.eq_empty {l : Live} (h : l.Balanced []) : l = {} := by
  obtain ⟨frames, activations, counters⟩ := l
  obtain ⟨hf, ha, hc⟩ := h
  simp only [List.countP_nil, List.length_eq_zero_iff] at hf ha hc
  rw [hf, ha, hc]

/-- The end of the program is where the run of what stands behind it begins. -/
theorem course_end_iff (more : List Value) {m : Machine σ} (hlive : m.live = {}) {outcome : Outcome}
    {m' : Machine σ} :
    Course (Config.joined more ⟨m, .reply none, [], [.sequence []]⟩) outcome m' ↔
      Course ((Thread.start more).config m.calm.engine) outcome m' := by
  refine course_go_iff (fun s hs => by cases hs) ?_
  obtain ⟨e, live⟩ := m
  have hlive' : live = {} := hlive
  subst hlive'
  cases more with
  | nil => rfl
  | cons token more => rfl

section Between

variable {m m₁ : Machine σ} (hlive : m.live = {}) {v : Option Value}

include hlive

/-- Behind the last instruction of a run that completes. -/
theorem Course.of_end (h : Course ⟨m, .reply v, [], [.sequence []]⟩ (.ok none) m₁) :
    v = none ∧ m₁ = m.calm := by
  have hstopped : m.isStopped = false := by rw [Machine.isStopped, hlive]
  have hs : (step (⟨m, .reply v, [], [.sequence []]⟩ : Config σ)).calm
      = .go ⟨m.calm, .reply v, [], []⟩ := by
    simp only [step, resume, hstopped, Bool.false_eq_true, if_false]
    rfl
  cases h.of_go hs with
  | ended _ hr =>
    cases hr
    exact ⟨rfl, rfl⟩
  | later _ hgo _ => cases hgo

/-- Between two instructions of a run that completes. -/
theorem Course.of_between {token : Value} {tokens : List Value}
    (h : Course ⟨m, .reply v, token :: tokens, [.sequence []]⟩ (.ok none) m₁) : v = none := by
  have hstopped : m.isStopped = false := by rw [Machine.isStopped, hlive]
  cases v with
  | none => rfl
  | some v =>
    have hs : (step (⟨m, .reply (some v), token :: tokens, [.sequence []]⟩ : Config σ)).calm
        = .go ⟨m.calm, .raise (.unusedValue v), [], []⟩ := by
      simp only [step, resume, hstopped, Bool.false_eq_true, if_false]
      rfl
    obtain ⟨f, hf⟩ := (h.of_go hs).of_fails ⟨_, rfl⟩
    cases hf

theorem step_between (token : Value) (tokens : List Value) :
    step (⟨m, .reply none, token :: tokens, [.sequence []]⟩ : Config σ)
      = .go ⟨m, .expression, token :: tokens, [.sequence []]⟩ := by
  have hstopped : m.isStopped = false := by rw [Machine.isStopped, hlive]
  simp only [step, resume, hstopped, Bool.false_eq_true, if_false]

end Between

/-- From any moment of a run that completes, the run with `more` behind its program comes to
the same end as a run of `more` on the engine that the first run leaves. -/
theorem Course.joined {more : List Value} (ho : operatorAhead? more = none) {c : Config σ}
    {m₁ : Machine σ} (h : Course c (.ok none) m₁) (hc : c.Rooted) (hb : c.Balanced)
    (outcome : Outcome) (m : Machine σ) :
    Course (c.joined more) outcome m ↔ Course ((Thread.start more).config m₁.engine) outcome m := by
  generalize hend : (Except.ok none : Outcome) = o at h
  induction h with
  | @ended c o m₁ hoff hs =>
    obtain ⟨d, rfl⟩ := hc
    cases hn : step (d.under [.sequence []]) with
    | go c' => simp [hn, Next.calm] at hs
    | suspend why c' => simp [hn, Next.calm] at hs
    | resolved o' m' =>
      have hp := (step_resolved hn).1
      exact absurd (List.append_eq_nil_iff.1 hp).2 (List.cons_ne_nil _ _)
  | @later c d o m₁ hoff hs hcourse ih =>
    subst hend
    obtain ⟨c', hc', rfl⟩ := Next.of_calm_go hs
    have hok : ¬ c'.Fails := by
      rintro ⟨f, hf⟩
      obtain ⟨f', h⟩ := hcourse.of_fails ⟨f, by rw [Config.calm, hf]; rfl⟩
      cases h
    -- a step that goes together with `joined` leaves the rest to the induction
    have hgo (hj : step (c.joined more) = (step c).joined more) (hroot : c'.calm.Rooted) :
        Course (c.joined more) outcome m ↔
          Course ((Thread.start more).config m₁.engine) outcome m := by
      have hs' : (step (c.joined more)).calm = .go (c'.calm.joined more) := by
        rw [hj, Next.calm_joined, hs]
        rfl
      have hb' : c'.Balanced := step_balanced hb hc'
      have hoff' : (c.joined more).HandsOff := hoff
      exact (course_go_iff hoff' hs').trans (ih hroot hb' rfl)
    obtain ⟨b, rfl⟩ := hc
    by_cases hsettled : b.Settled
    · obtain ⟨m', focus, tokens, pending⟩ := b
      obtain ⟨hp, hf⟩ := settled_iff.1 hsettled
      obtain rfl : pending = [] := hp
      obtain ⟨v, hf⟩ | ⟨f, hf⟩ := hf
      · obtain rfl : focus = .reply v := hf
        have hlive : m'.live = {} := Live.eq_empty hb
        have hwhole : Course ⟨m', .reply v, tokens, [.sequence []]⟩ (.ok none) m₁ :=
          .later hoff hs hcourse
        cases tokens with
        | nil =>
          obtain ⟨rfl, rfl⟩ := hwhole.of_end hlive
          exact course_end_iff more hlive
        | cons token tokens =>
          obtain rfl := hwhole.of_between hlive
          have hstep : step ((⟨m', .reply none, token :: tokens, []⟩ : Config σ).under [.sequence []])
              = _ := step_between hlive token tokens
          refine hgo ?_ ?_
          · rw [hstep]
            exact step_between hlive token (tokens ++ more)
          · rw [hstep] at hc'
            cases hc'
            exact ⟨⟨m'.calm, .expression, token :: tokens, []⟩, rfl⟩
      · obtain rfl : focus = .raise f := hf
        obtain ⟨f', h⟩ := (Course.later hoff hs hcourse).of_fails ⟨f, rfl⟩
        cases h
    · refine hgo (step_joined ho ?_ ?_ ?_) (step_rooted hsettled hc')
      · exact List.append_ne_nil_of_right_ne_nil _ (List.cons_ne_nil _ _)
      · intro v hv htail
        refine hsettled (settled_iff.2 ⟨?_, .inl ⟨v, hv⟩⟩)
        cases hp : b.pending with
        | nil => rfl
        | cons p pending => simp [hp, Config.lift] at htail
      · intro c'' h
        rw [hc'] at h
        cases h
        exact hok

/-- A whole run and a run of the second part, on the engine that the first part leaves, come to
the same end. -/
theorem course_append_iff {program more : List Value} (ho : operatorAhead? more = none)
    {e e₁ : Engine σ} {m₁ : Machine σ}
    (h : Course ((Thread.start program).config e).calm (.ok none) m₁) (he₁ : e₁.calm = m₁.engine)
    (outcome : Outcome) (m : Machine σ) :
    Course ((Thread.start (program ++ more)).config e).calm outcome m ↔
      Course ((Thread.start more).config e₁).calm outcome m := by
  have hsecond : ((Thread.start more).config e₁).calm = (Thread.start more).config m₁.engine := by
    rw [← he₁]
    cases more <;> rfl
  rw [hsecond]
  cases program with
  | nil =>
    have hm₁ : m₁.engine = e.calm := by
      cases h with
      | ended _ hr =>
        cases hr
        rfl
      | later _ hgo _ => cases hgo
    have hfirst : ((Thread.start more).config e).calm = (Thread.start more).config m₁.engine := by
      rw [hm₁]
      cases more <;> rfl
    rw [List.nil_append, hfirst]
  | cons token program =>
    have hroot : ((Thread.start (token :: program)).config e).calm.Rooted :=
      ⟨⟨⟨e.calm, {}⟩, .expression, token :: program, []⟩, rfl⟩
    exact h.joined ho hroot (start_balanced (token :: program) e) outcome m

/-- **Splitting a program into runs changes nothing.** Let the first part complete, let its last
item not be the word `to`, let the second part not begin with an operator, and let nobody issue a
pause or a cancel. Then the whole, line after line, reads as both parts, and its run and the
run of the second part behind that of the first come to the same end: the same outcome, the same
text printed, the same bindings; and if one of the two comes to an end, so does the other. -/
theorem split_runs_agree (e : Engine σ) (first second : String) (program program' : List Value)
    (hfirst : parse first = .ok program) (hsecond : parse second = .ok program')
    (hlast : ∀ word, program.getLast? = some (.text word) → Text.sameName word "to" = false)
    (hahead : operatorAhead? program' = none) (moves : List Move)
    (hm : (Drive.start e first).Undisturbed moves)
    (ho : ((Drive.start e first).follow moves).outcome? = some (.ok none)) :
    let whole := Drive.start e (first ++ "\n" ++ second)
    let rest := Drive.start ((Drive.start e first).follow moves).engine second
    parse (first ++ "\n" ++ second) = .ok (program ++ program') ∧
    (∀ moves₁ moves₂ outcome₁ outcome₂, whole.Undisturbed moves₁ → rest.Undisturbed moves₂ →
      (whole.follow moves₁).outcome? = some outcome₁ →
      (rest.follow moves₂).outcome? = some outcome₂ →
      outcome₁ = outcome₂ ∧
      (whole.follow moves₁).engine.sink = (rest.follow moves₂).engine.sink ∧
      (whole.follow moves₁).engine.scopes = (rest.follow moves₂).engine.scopes ∧
      ∀ name, (whole.follow moves₁).engine.global? name = (rest.follow moves₂).engine.global? name) ∧
    (∀ moves₁ outcome, whole.Undisturbed moves₁ → (whole.follow moves₁).outcome? = some outcome →
      rest.ComesTo outcome) ∧
    ∀ moves₂ outcome, rest.Undisturbed moves₂ → (rest.follow moves₂).outcome? = some outcome →
      whole.ComesTo outcome := by
  intro whole rest
  have hlast' : Source.endsInTo program.reverse = false := by
    rw [List.getLast?_eq_head?_reverse] at hlast
    cases hr : program.reverse with
    | nil => rfl
    | cons item items =>
      rw [hr] at hlast
      cases item
      case text word => exact hlast word rfl
      all_goals rfl
  have hwhole := parse_lines hfirst hlast' hsecond
  have he := Drive.idle_of_ok ho
  obtain ⟨m₁, hc₁, hcalm₁, hidle₁⟩ := Drive.start_arrives he hfirst hm ho
  have hiff := course_append_iff hahead hc₁ hcalm₁
  refine ⟨hwhole, ?_, ?_, ?_⟩
  · intro moves₁ moves₂ outcome₁ outcome₂ hm₁ hm₂ ho₁ ho₂
    obtain ⟨m, hc, hcalm, -⟩ := Drive.start_arrives he hwhole hm₁ ho₁
    obtain ⟨m', hc', hcalm', -⟩ := Drive.start_arrives hidle₁ hsecond hm₂ ho₂
    obtain ⟨rfl, rfl⟩ := ((hiff _ _).1 hc).unique hc'
    obtain ⟨hsink, hscopes⟩ := Engine.of_calm_eq (hcalm.trans hcalm'.symm)
    refine ⟨rfl, hsink, hscopes, fun name => ?_⟩
    unfold Engine.global?
    rw [hscopes]
  · intro moves₁ outcome hm₁ ho₁
    obtain ⟨m, hc, -⟩ := Drive.start_arrives he hwhole hm₁ ho₁
    exact Drive.start_comesTo hidle₁ hsecond ((hiff _ _).1 hc)
  · intro moves₂ outcome hm₂ ho₂
    obtain ⟨m, hc, -⟩ := Drive.start_arrives hidle₁ hsecond hm₂ ho₂
    exact Drive.start_comesTo he hwhole ((hiff _ _).2 hc)

/-- An engine on which `x` prints a word. -/
def Trial.printer : Engine Unit :=
  ((Engine.new () (.recorder []) 10 false).setGlobal "print" (.procedure (.primitive .print))).setGlobal
    "x" (.procedure (.defined 0 "x" [] [.text "print", .text "\"a"]))

/-- Printing a word twice, in two runs or in one. -/
theorem split_runs_agree_printer :
    let once := (Drive.start Trial.printer "x").follow [.poll 50]
    let twice := (Drive.start once.engine "x").follow [.poll 50]
    let whole := (Drive.start Trial.printer ("x" ++ "\n" ++ "x")).follow [.poll 50]
    once.outcome? = some (.ok none) ∧ twice.outcome? = some (.ok none) ∧
    whole.outcome? = some (.ok none) ∧ whole.engine.sink = twice.engine.sink ∧
    (Drive.start Trial.printer ("x" ++ "\n" ++ "x")).ComesTo (.ok none) := by
  intro once twice whole
  have hq : Quiet 50 [.poll 50] := fun move hm => .inl (List.mem_singleton.1 hm)
  have hfirst : once = (Drive.begun Trial.printer [.text "x"]).make (.poll 50) :=
    Drive.start_make_poll rfl Trial.parse_x 50
  have honce : once.outcome? = some (.ok none) ∧ once.engine.state = .idle ∧
      once.engine.hosts = #[] := by
    rw [hfirst]
    cbv
  obtain ⟨honce, hidle, hhosts⟩ := honce
  have hsecond : twice = (Drive.begun once.engine [.text "x"]).make (.poll 50) :=
    Drive.start_make_poll hidle Trial.parse_x 50
  have htwice : twice.outcome? = some (.ok none) := by
    rw [hsecond, hfirst]
    cbv
  have hsilent : ∀ h ∈ Trial.printer.hosts, h.Oblivious := fun h hm => absurd hm (Array.not_mem_empty h)
  have hsilent' : ∀ h ∈ once.engine.hosts, h.Oblivious := by
    rw [hhosts]
    exact fun h hm => absurd hm (Array.not_mem_empty h)
  obtain ⟨hparse, hagree, -, hcomes⟩ := split_runs_agree Trial.printer "x" "x" _ _ Trial.parse_x
    Trial.parse_x (fun word hw => by cases hw; cbv) (by cbv) [.poll 50]
    (Drive.start_undisturbed hsilent "x" hq) honce
  have hthird : whole = (Drive.begun Trial.printer [.text "x", .text "x"]).make (.poll 50) :=
    Drive.start_make_poll rfl hparse 50
  have hwhole : whole.outcome? = some (.ok none) := by
    rw [hthird]
    cbv
  have hrest := Drive.start_undisturbed hsilent' "x" hq
  have hsame := hagree _ _ _ _ (Drive.start_undisturbed hsilent _ hq) hrest hwhole htwice
  exact ⟨honce, htwice, hwhole, hsame.2.1, hcomes _ _ hrest htwice⟩

end Logo
