import Logo.Proofs.Paths

/-!
# What a step can be

`step_turn` says once what a step can do to the machine and to what waits. Most steps
leave the machine as it is and put plain pending frames on those that wait. A call of a
defined procedure, a list template and a `repeat` open something on the stacks of the run
and leave the pending frame that closes it. A `repeat` counts its passes, a primitive
that replies may change anything it can reach, and an outcome takes off one pending
frame after the other. What holds of a run is proved from these cases.
-/

namespace Logo
set_option autoImplicit false

variable {σ : Type}

namespace Pending

/-- Does it have nothing on a stack of the run, and is it no pass of a `repeat`? -/
def isLight : Pending → Bool
  | .activation | .template | .counter | .loop (.times _ _ _) => false
  | _ => true

end Pending

namespace Focus

/-- Is a `repeat` between two of its passes? -/
def counts : Focus → Bool
  | .turn (.times _ _ _) | .checkpoint (.pass (.times _ _ _)) => true
  | _ => false

def isOutcome : Focus → Bool
  | .reply _ | .raise _ => true
  | _ => false

end Focus

def Light (pending : List Pending) : Prop := ∀ p ∈ pending, p.isLight = true

theorem Light.nil : Light [] := fun p hp => by cases hp

theorem Light.one {p : Pending} (h : p.isLight = true) : Light [p] := by
  intro q hq
  rwa [List.mem_singleton.1 hq]

/-- The machine with what host code left. -/
def Machine.heard (m : Machine σ) (work : HostWork σ Unit) : Machine σ :=
  { m with engine := m.engine.afterHost work }

/-- What a primitive is given of the inputs that were read. -/
def Primitive.given (p : Primitive) (inputs : List Value) : List Value :=
  if p.variadic then inputs else inputs.take p.arity

/-- What follows when a primitive is entered with these inputs. -/
def Primitive.entered (p : Primitive) (inputs : List Value) (m : Machine σ) (tokens : List Value)
    (pending : List Pending) : Config σ :=
  match p.perform inputs m with
  | (.ok e, m) => carryOut m e tokens pending
  | (.error f, m) => ⟨m, .raise f, tokens, pending⟩

theorem callProcedure_primitive (p : Primitive) (inputs : List Value) (m : Machine σ)
    (tokens : List Value) (pending : List Pending) :
    callProcedure m (.primitive p) inputs tokens pending
      = p.entered (p.given inputs) m tokens pending := rfl

/-- What a construct leads to from a machine and what waits. -/
inductive Config.After (m : Machine σ) (pending : List Pending) : Config σ → Prop where
  /-- At most host code has worked. -/
  | goes (work : HostWork σ Unit) {focus : Focus} {tokens : List Value} {ps : List Pending} :
      focus.counts = false → Light ps → After m pending ⟨m.heard work, focus, tokens, ps ++ pending⟩
  /-- A list template runs; what waits for it in `qs` is its loop. -/
  | framed (bindings : List (String × Value)) {focus : Focus} {tokens : List Value}
      {ps qs : List Pending} : focus.counts = false → Light ps → Light qs →
      After m pending ⟨m.openFrame bindings, focus, tokens, ps ++ .template :: (qs ++ pending)⟩
  /-- A defined procedure runs. -/
  | called (bindings : List (String × Value)) {focus : Focus} {tokens : List Value}
      {ps : List Pending} : focus.counts = false → Light ps →
      m.live.activations.length < m.engine.depthLimit →
      After m pending
        ⟨(m.openFrame bindings).openActivation, focus, tokens, ps ++ .activation :: pending⟩
  /-- A `repeat` is about to begin. -/
  | counted (block : List Value) (total : Nat) {tokens : List Value} :
      After m pending ⟨m.openCounter, .turn (.times block 0 total), tokens, .counter :: pending⟩

/-- What a step can lead to. -/
inductive Config.Turn : Config σ → Config σ → Prop where
  | works {m : Machine σ} {focus : Focus} {tokens : List Value} {pending : List Pending}
      {c : Config σ} : focus.isOutcome = false → focus.counts = false → Config.After m pending c →
      Turn ⟨m, focus, tokens, pending⟩ c
  /-- A primitive replies. -/
  | performs {m : Machine σ} {p : Primitive} {inputs : List Value} {tokens : List Value}
      {pending : List Pending} {v : Option Value} :
      m.engine.state = .running ∨ m.engine.state = .idle →
      (p.perform (p.given inputs) m).1 = .ok (.reply v) →
      Turn ⟨m, .checkpoint (.call (.primitive p) inputs), tokens, pending⟩
        ⟨(p.perform (p.given inputs) m).2, .reply v, tokens, pending⟩
  /-- A `repeat` is about to begin a pass and waits. -/
  | holds {m : Machine σ} {focus : Focus} {block : List Value} {begun total : Nat}
      {tokens : List Value} {pending : List Pending} :
      focus = .turn (.times block begun total) ∧ begun < total ∨
        focus = .checkpoint (.pass (.times block begun total)) →
      Turn ⟨m, focus, tokens, pending⟩ ⟨m, .checkpoint (.pass (.times block begun total)), tokens, pending⟩
  /-- A `repeat` begins a pass. -/
  | passes {m : Machine σ} {block : List Value} {begun total : Nat} {focus : Focus}
      {tokens tokens' : List Value} {pending ps : List Pending} : focus.counts = false → Light ps →
      Turn ⟨m, .checkpoint (.pass (.times block begun total)), tokens, pending⟩
        ⟨m.setCounter (begun + 1), focus, tokens',
          ps ++ .loop (.times block (begun + 1) total) :: pending⟩
  /-- A `repeat` has an outcome. -/
  | leaves {m : Machine σ} {focus focus' : Focus} {tokens : List Value} {pending : List Pending} :
      focus.counts = true → focus'.isOutcome = true →
      Turn ⟨m, focus, tokens, pending⟩ ⟨m, focus', tokens, pending⟩
  | resumes {m : Machine σ} {focus : Focus} {tokens : List Value} {p : Pending}
      {pending : List Pending} {c : Config σ} : focus.isOutcome = true → p.isLight = true →
      Config.After m pending c → Turn ⟨m, focus, tokens, p :: pending⟩ c
  /-- A `repeat` has ended a pass. -/
  | turns {m : Machine σ} {block : List Value} {begun total : Nat} {tokens : List Value}
      {pending : List Pending} :
      Turn ⟨m, .reply none, tokens, .loop (.times block begun total) :: pending⟩
        ⟨m, .turn (.times block begun total), tokens, pending⟩
  | closes {m : Machine σ} {focus focus' : Focus} {tokens : List Value} {p : Pending}
      {pending : List Pending} : focus.isOutcome = true → focus'.isOutcome = true →
      p.isLight = false → Turn ⟨m, focus, tokens, p :: pending⟩ ⟨abandon m p, focus', tokens, pending⟩

/-! ### Primitives -/

/-- What a primitive can do. -/
inductive Primitive.Performs (p : Primitive) (inputs : List Value) (m : Machine σ) :
    Except Fault Effect × Machine σ → Prop where
  | refuses (f : Fault) : Performs p inputs m (.error f, m)
  | plans : Performs p inputs m (p.plan inputs m, m)
  /-- The innermost activation is ended. -/
  | finishes (how : Activation → Activation) {a : Activation} {rest : List Activation} :
      m.live.activations = a :: rest → Performs p inputs m
        (.ok (.reply none), { m with live := { m.live with activations := how a :: rest } })
  | defines (name : String) (params : List String) (body : List Value) :
      Performs p inputs m (.ok (.reply none), bindDefinition m name params body)
  | assigns (name : String) (v : Value) :
      Performs p inputs m (.ok (.reply none), assign m name v)
  | declares (names : List String) : Performs p inputs m
      (.ok (.reply none), m.mapScopes fun s => names.foldl (declareLocal m.currentFrame) s)
  | ties (names : List String) : Performs p inputs m
      (.ok (.reply none), m.mapScopes fun s => names.foldl (tieGlobal m.currentFrame) s)
  | writes (text : String) : Performs p inputs m (.ok (.reply none), m.write text)

theorem Primitive.Performs.finish (p : Primitive) (inputs : List Value) (m : Machine σ)
    (how : Activation → Activation) : Performs p inputs m (p.finish m how) := by
  unfold Primitive.finish
  split
  · exact .finishes how (by assumption)
  · exact .refuses _

theorem Primitive.Performs.taking {α : Type} {p : Primitive} {inputs : List Value} {m : Machine σ}
    {k : α → Machine σ → Machine σ} (r : Except Fault α)
    (hk : ∀ a, Performs p inputs m (.ok (.reply none), k a m)) :
    Performs p inputs m (Primitive.taking r m k) := by
  cases r with
  | ok a => exact hk a
  | error f => exact .refuses f

theorem Primitive.perform_performs (p : Primitive) (inputs : List Value) (m : Machine σ) :
    Performs p inputs m (p.perform inputs m) := by
  cases p
  case output =>
    simp only [perform]
    split
    · exact .finish output _ m _
    · exact .refuses _
  case stop => exact .finish stop inputs m _
  case define =>
    simp only [perform]
    exact .taking _ fun d => .defines d.1 d.2.1 d.2.2
  case make =>
    simp only [perform]
    exact .taking _ fun b => .assigns b.1 b.2
  case localName =>
    simp only [perform]
    exact .taking _ .declares
  case globalName =>
    simp only [perform]
    exact .taking _ .ties
  case print | display | type => exact .writes _
  all_goals exact .plans

/-- A primitive that does not reply leaves the machine as it was. -/
theorem Primitive.perform_cases (p : Primitive) (inputs : List Value) (m : Machine σ) :
    (∃ v, (p.perform inputs m).1 = .ok (.reply v)) ∨ (p.perform inputs m).2 = m := by
  have hdone := p.perform_performs inputs m
  generalize p.perform inputs m = done at hdone ⊢
  cases hdone with
  | refuses | plans => exact .inr rfl
  | _ => exact .inl ⟨none, rfl⟩

/-- What is given, if anything is. -/
def Gives {α : Type} (P : α → Prop) (r : Except Fault α) : Prop := ∀ a, r = .ok a → P a

namespace Gives

variable {α β : Type} {P : α → Prop}

theorem ok {a : α} (h : P a) : Gives P (.ok a) := by
  intro b hb
  cases hb
  exact h

theorem error {f : Fault} : Gives P (.error f) := fun b hb => by cases hb

theorem bind {r : Except Fault β} {k : β → Except Fault α} (h : ∀ b, r = .ok b → Gives P (k b)) :
    Gives P (r >>= k) := by
  cases r with
  | ok b => exact h b rfl
  | error f => exact error

theorem accept {t : Taker} {v : Value} {a? : Option α}
    (h : ∀ a, a? = some a → P a) : Gives P (t.accept v a?) := by
  cases a? with
  | none => exact .error
  | some a => exact .ok (h a rfl)

theorem one {p : Primitive} {inputs : List Value} {k : Value → Except Fault α}
    (h : ∀ a, inputs = [a] → Gives P (k a)) : Gives P (p.one inputs k) := by
  unfold Primitive.one
  split
  · exact h _ rfl
  · exact error

theorem two {p : Primitive} {inputs : List Value} {k : Value → Value → Except Fault α}
    (h : ∀ a b, inputs = [a, b] → Gives P (k a b)) : Gives P (p.two inputs k) := by
  unfold Primitive.two
  split
  · exact h _ _ rfl
  · exact error

theorem three {p : Primitive} {inputs : List Value} {k : Value → Value → Value → Except Fault α}
    (h : ∀ a b c, inputs = [a, b, c] → Gives P (k a b c)) : Gives P (p.three inputs k) := by
  unfold Primitive.three
  split
  · exact h _ _ _ rfl
  · exact error

end Gives

theorem Taker.list_ok {t : Taker} {v : Value} {items : List Value} (h : t.list v = .ok items) :
    v = .list items := by
  cases v <;> cases h
  rfl

/-- What a primitive can leave to be done: a `repeat` has all of its passes before it, and only
`apply` and `invoke` leave a template. -/
def Effect.Of (p : Primitive) (inputs : List Value) : Effect → Prop
  | .loop (.times _ begun _) => begun = 0
  | .template _ what given =>
    p = .apply ∧ inputs = [what, .list given] ∨ p = .invoke ∧ inputs = what :: given
  | _ => True

theorem Primitive.plan_effect (p : Primitive) (inputs : List Value) (m : Machine σ) :
    Gives (Effect.Of p inputs) (p.plan inputs m) := by
  cases p
  case repeatTimes => exact .two fun _ _ _ => .bind fun _ _ => .bind fun _ _ => .ok rfl
  case ifTrue =>
    refine .two fun _ _ _ => .bind fun _ _ => .bind fun holds _ => ?_
    cases holds <;> exact .ok trivial
  case ifElse => exact .three fun _ _ _ _ => .bind fun _ _ => .bind fun _ _ => .ok trivial
  case forever | run => exact .one fun _ _ => .bind fun _ _ => .ok trivial
  case wait | thing =>
    refine .one fun _ _ => .bind fun _ _ => ?_
    split
    · exact .ok trivial
    · exact .error
  case repcount => exact .ok trivial
  case apply =>
    refine .two fun template values htwo => .bind fun given hgiven => .ok (.inl ⟨rfl, ?_⟩)
    rw [htwo, Taker.list_ok hgiven]
  case invoke =>
    simp only [plan]
    split
    · exact .ok (.inr ⟨rfl, rfl⟩)
    · exact .error
  case foreach | map => exact .two fun _ _ _ => .bind fun _ _ => .ok trivial
  all_goals exact .bind fun _ _ => .ok trivial

theorem Primitive.perform_effect (p : Primitive) (inputs : List Value) (m : Machine σ) :
    Gives (Effect.Of p inputs) (p.perform inputs m).1 := by
  have hdone := p.perform_performs inputs m
  generalize p.perform inputs m = done at hdone ⊢
  cases hdone with
  | refuses f => exact .error
  | plans => exact p.plan_effect inputs m
  | _ => exact .ok trivial

/-! ### Constructs -/

namespace Config.After

variable {m : Machine σ} {tokens : List Value} {pending : List Pending}

/-- The machine is as it was. -/
theorem same {focus : Focus} (hf : focus.counts = false) :
    After m pending ⟨m, focus, tokens, pending⟩ :=
  goes ⟨m.engine.memory, [], ()⟩ hf .nil

theorem push {p : Pending} {focus : Focus} (hp : p.isLight = true)
    (hf : focus.counts = false) : After m pending ⟨m, focus, tokens, p :: pending⟩ :=
  goes ⟨m.engine.memory, [], ()⟩ hf (.one hp)

/-- Entering a block adds at most a plain pending frame. -/
theorem enter_shape (m : Machine σ) (items tokens : List Value) (pending : List Pending) :
    ∃ focus tokens' ps, Focus.counts focus = false ∧ Light ps ∧
      Logo.enter m items tokens pending = ⟨m, focus, tokens', ps ++ pending⟩ := by
  cases items with
  | nil => exact ⟨.reply none, tokens, [], rfl, .nil, rfl⟩
  | cons item items => exact ⟨.expression, item :: items, [.sequence tokens], rfl, .one rfl, rfl⟩

theorem enter (items : List Value) {ps : List Pending} (hp : Light ps) :
    After m pending (Logo.enter m items tokens (ps ++ pending)) := by
  obtain ⟨focus, tokens', qs, hf, hq, he⟩ := enter_shape m items tokens (ps ++ pending)
  rw [he, ← List.append_assoc]
  refine goes ⟨m.engine.memory, [], ()⟩ hf fun p hm => ?_
  obtain hm | hm := List.mem_append.1 hm
  · exact hq p hm
  · exact hp p hm

theorem callNamed (name : String) (parenthesised : Bool) :
    After m pending (Logo.callNamed m name parenthesised tokens pending) := by
  unfold Logo.callNamed
  split <;> exact same rfl

theorem openParen : After m pending (Logo.openParen m tokens pending) := by
  cases tokens with
  | nil => exact same rfl
  | cons token rest =>
    simp only [Logo.openParen]
    cases Role.of token
    case word name => exact callNamed name true
    case closeParen => exact same rfl
    all_goals exact push rfl rfl

theorem readOperand : After m pending (Logo.readOperand m tokens pending) := by
  cases tokens with
  | nil => exact same rfl
  | cons token rest =>
    simp only [Logo.readOperand]
    cases Role.of token
    case openParen => exact openParen
    case word name => exact callNamed name false
    case operator op =>
      cases op
      case subtract =>
        simp only
        split
        · exact same rfl
        · exact push rfl rfl
      all_goals exact same rfl
    all_goals exact same rfl

theorem readChain (c : Chain) : After m pending (Logo.readChain m c tokens pending) := by
  unfold Logo.readChain
  cases operatorAhead? tokens with
  | none =>
    simp only
    split <;> exact same rfl
  | some op =>
    simp only
    split
    · exact same rfl
    · split
      · exact same rfl
      · split
        · exact same rfl
        · exact push rfl rfl

theorem readInputs (g : Gathering) : After m pending (Logo.readInputs m g tokens pending) := by
  unfold Logo.readInputs
  split
  · split
    · exact same rfl
    · split
      · split <;> exact same rfl
      · exact push rfl rfl
  · split
    · exact same rfl
    · split
      · exact same rfl
      · split
        · exact same rfl
        · exact push rfl rfl

/-! A template may run as a pass of a loop, which waits for it. -/

theorem callWith (p : Procedure) (inputs : List Value) {qs : List Pending} (hq : Light qs) :
    After m pending (Logo.callWith m p inputs tokens (qs ++ pending)) := by
  unfold Logo.callWith
  split <;> exact goes ⟨m.engine.memory, [], ()⟩ rfl hq

theorem applyList (caller : String) (template inputs : List Value) {qs : List Pending}
    (hq : Light qs) : After m pending (Logo.applyList m caller template inputs tokens (qs ++ pending)) := by
  unfold Logo.applyList
  split
  · split
    · exact goes ⟨m.engine.memory, [], ()⟩ rfl hq
    · split
      · exact goes ⟨m.engine.memory, [], ()⟩ rfl hq
      · rename_i body _ _ names _
        obtain ⟨focus, tokens', ps, hf, hp, he⟩ :=
          enter_shape (m.openFrame (names.zip inputs)) body tokens (.template :: (qs ++ pending))
        rw [he]
        exact framed (names.zip inputs) hf hp hq
  · exact goes ⟨m.engine.memory, [], ()⟩ rfl hq

theorem applyTemplate (caller : String) (template : Value) (inputs : List Value)
    {qs : List Pending} (hq : Light qs) :
    After m pending (Logo.applyTemplate m caller template inputs tokens (qs ++ pending)) := by
  cases template
  case procedure p => exact callWith p inputs hq
  case text s =>
    simp only [Logo.applyTemplate]
    split
    · exact callWith _ inputs hq
    · exact goes ⟨m.engine.memory, [], ()⟩ rfl hq
  case list items => exact applyList caller items inputs hq
  all_goals exact goes ⟨m.engine.memory, [], ()⟩ rfl hq

/-- What a primitive leaves to be done that has not replied. -/
theorem carryOut {p : Primitive} {inputs : List Value} {e : Effect} (he : e.Of p inputs) :
    After m pending (Logo.carryOut m e tokens pending) := by
  cases e with
  | reply v => exact same rfl
  | block items => exact enter items .nil
  | loop l =>
    cases l with
    | times block begun total =>
      cases he
      exact counted block total
    | _ => exact same rfl
  | template caller template inputs => exact applyTemplate caller template inputs .nil
  | sleep nanoseconds => exact same rfl

theorem callDefined (params : List String) (body inputs : List Value) :
    After m pending (Logo.callDefined m params body inputs tokens pending) := by
  unfold Logo.callDefined
  split
  · exact same rfl
  · rename_i hdepth
    obtain ⟨focus, tokens', ps, hf, hp, he⟩ := enter_shape
      (m.openFrame (params.zip inputs)).openActivation body tokens (.activation :: pending)
    rw [he]
    exact called (params.zip inputs) hf hp (Nat.not_le.1 hdepth)

theorem heard {α : Type} (work : HostWork σ α) {focus : Focus} (hf : focus.counts = false) :
    After m pending ⟨{ m with engine := m.engine.afterHost work }, focus, tokens, pending⟩ :=
  goes ⟨work.memory, work.signals, ()⟩ hf .nil

theorem callHost (id : Nat) (name : String) (inputs : List Value) :
    After m pending (Logo.callHost m id name inputs tokens pending) := by
  unfold Logo.callHost
  split
  · exact same rfl
  · exact same rfl
  · simp only
    split <;> exact heard _ rfl

/-! A wait that is broken off leads to what it led to, but for the focus. -/

/-- What a wait leads to, also when it is broken off there. -/
def Waits (m : Machine σ) (pending : List Pending) (c : Config σ) : Prop :=
  After m pending c ∧ After m pending { c with focus := .raise .stopped }

theorem askHost {id asked : Nat} {inputs : List Value} {c : Config σ}
    (hc : (Logo.askHost m id inputs asked tokens pending).config? = some c) : Waits m pending c := by
  unfold Logo.askHost at hc
  split at hc
  · simp only at hc
    split at hc <;> cases hc <;> exact ⟨heard _ rfl, heard _ rfl⟩
  · cases hc
    exact ⟨same rfl, same rfl⟩

theorem awaitClock {deadline : Nat} {c : Config σ}
    (hc : (Logo.awaitClock m deadline tokens pending).config? = some c) : Waits m pending c := by
  unfold Logo.awaitClock at hc
  split at hc <;> cases hc <;> exact ⟨same rfl, same rfl⟩

theorem afterPass {l : Loop} (hl : (Pending.loop l).isLight = true) (v : Option Value) :
    After m pending (Logo.afterPass m l v tokens pending) := by
  unfold Logo.afterPass
  split
  · exact same rfl
  · split <;> exact same rfl
  · exact same rfl
  · split
    · exact same rfl
    · cases l with
      | times block begun total => cases hl
      | _ => exact same rfl

theorem resume (v : Option Value) {p : Pending} (hp : p.isLight = true) :
    After m pending (Logo.resume m v tokens p pending) := by
  cases p with
  | sequence saved =>
    simp only [Logo.resume]
    split
    · exact same rfl
    · split
      · exact same rfl
      · exact same rfl
      · exact push rfl rfl
  | firstOperand =>
    simp only [Logo.resume]
    split <;> exact same rfl
  | rightOperand c op producer => cases v <;> exact same rfl
  | negation =>
    cases v with
    | none => exact same rfl
    | some v =>
      simp only [Logo.resume]
      split <;> exact same rfl
  | group =>
    cases tokens with
    | nil => exact same rfl
    | cons token rest =>
      simp only [Logo.resume]
      split <;> exact same rfl
  | input g producer => cases v <;> exact same rfl
  | loop l => exact afterPass hp v
  | activation | template | counter => cases hp

end Config.After

/-! ### Steps -/

namespace Config.Turn

variable {m : Machine σ} {tokens : List Value} {pending : List Pending}

theorem callProcedure (p : Procedure) (inputs : List Value)
    (hs : m.engine.state = .running ∨ m.engine.state = .idle) :
    Turn ⟨m, .checkpoint (.call p inputs), tokens, pending⟩
      (Logo.callProcedure m p inputs tokens pending) := by
  cases p with
  | host id name arity => exact .works rfl rfl (.callHost id name _)
  | defined id name params body => exact .works rfl rfl (.callDefined params body inputs)
  | primitive p =>
    have hcases := p.perform_cases (p.given inputs) m
    have heffect := p.perform_effect (p.given inputs) m
    have hreplies : ∀ v, (p.perform (p.given inputs) m).1 = .ok (.reply v) →
        Turn ⟨m, .checkpoint (.call (.primitive p) inputs), tokens, pending⟩
          ⟨(p.perform (p.given inputs) m).2, .reply v, tokens, pending⟩ := fun v => .performs hs
    rw [callProcedure_primitive, Primitive.entered]
    generalize p.perform (p.given inputs) m = done at hcases heffect hreplies ⊢
    obtain ⟨f | e, m'⟩ := done
    · obtain ⟨v, hv⟩ | hm := hcases
      · cases hv
      · cases hm
        exact .works rfl rfl (.same rfl)
    · obtain ⟨v, hv⟩ | hm := hcases
      · cases hv
        exact hreplies v rfl
      · cases hm
        exact .works rfl rfl (.carryOut (heffect e rfl))

theorem beginPass (l : Loop) :
    Turn ⟨m, .checkpoint (.pass l), tokens, pending⟩ (Logo.beginPass m l tokens pending) := by
  cases l with
  | times block begun total =>
    obtain ⟨focus, tokens', ps, hf, hp, he⟩ := After.enter_shape (m.setCounter (begun + 1)) block
      tokens (.loop (.times block (begun + 1) total) :: pending)
    simp only [Logo.beginPass, he]
    exact .passes hf hp
  | endless block =>
    have hloop : Light [.loop (.endless block)] := .one rfl
    exact .works rfl rfl (After.enter block hloop)
  | each template items =>
    cases items with
    | nil => exact .works rfl rfl (.same rfl)
    | cons item items =>
      have hloop : Light [.loop (.each template items)] := .one rfl
      exact .works rfl rfl (After.applyTemplate _ template [item] hloop)
  | collect template items outputs =>
    cases items with
    | nil => exact .works rfl rfl (.same rfl)
    | cons item items =>
      have hloop : Light [.loop (.collect template items outputs)] := .one rfl
      exact .works rfl rfl (After.applyTemplate _ template [item] hloop)

theorem act (a : Act) (hs : m.engine.state = .running ∨ m.engine.state = .idle) :
    Turn ⟨m, .checkpoint a, tokens, pending⟩ (Logo.act m a tokens pending) := by
  cases a with
  | literal v => exact .works rfl rfl (.same rfl)
  | read name =>
    simp only [Logo.act]
    split <;> exact .works rfl rfl (.same rfl)
  | call p inputs => exact callProcedure p inputs hs
  | pass l => exact beginPass l

/-- A checkpoint that does not let the run through. -/
theorem checkpoint_stays (a : Act) :
    Turn ⟨m, .checkpoint a, tokens, pending⟩ ⟨m, .checkpoint a, tokens, pending⟩ ∧
      Turn ⟨m, .checkpoint a, tokens, pending⟩ ⟨m, .raise .stopped, tokens, pending⟩ := by
  cases hc : Focus.counts (.checkpoint a) with
  | false => exact ⟨.works rfl hc (.same hc), .works rfl hc (.same rfl)⟩
  | true =>
    refine ⟨?_, .leaves hc rfl⟩
    unfold Focus.counts at hc
    split at hc
    · rename_i h
      cases h
    · rename_i h
      rw [h]
      exact .holds (.inr rfl)
    · cases hc

theorem turn (l : Loop) {c : Config σ}
    (hc : (step ⟨m, .turn l, tokens, pending⟩).config? = some c) :
    Turn ⟨m, .turn l, tokens, pending⟩ c := by
  simp only [step] at hc
  cases l with
  | times block begun total =>
    by_cases hlt : begun < total
    · simp only [Loop.outcome?, hlt, if_true] at hc
      cases hc
      exact .holds (.inl ⟨rfl, hlt⟩)
    · simp only [Loop.outcome?, hlt, if_false] at hc
      cases hc
      exact .leaves rfl rfl
  | _ => split at hc <;> cases hc <;> exact .works rfl rfl (.same rfl)

theorem resume (v : Option Value) (p : Pending) :
    Turn ⟨m, .reply v, tokens, p :: pending⟩ (Logo.resume m v tokens p pending) := by
  cases hp : p.isLight with
  | true => exact .resumes rfl hp (.resume v hp)
  | false =>
    cases p with
    | activation => cases v <;> exact .closes rfl rfl rfl
    | template => exact .closes rfl rfl rfl
    | counter => exact .closes rfl rfl rfl
    | loop l =>
      cases l with
      | times block begun total =>
        cases v with
        | some v => exact .closes rfl rfl rfl
        | none =>
          simp only [Logo.resume, Logo.afterPass]
          split
          · exact .closes rfl rfl rfl
          · exact .turns
      | _ => cases hp
    | _ => cases hp

end Config.Turn

theorem abandon_of_isLight (m : Machine σ) {p : Pending} (hp : p.isLight = true) :
    abandon m p = m := by
  cases p with
  | activation | template | counter => cases hp
  | _ => rfl

theorem step_turn {c c' : Config σ} (hs : (step c).config? = some c') : c.Turn c' := by
  obtain ⟨m, focus, tokens, pending⟩ := c
  cases focus with
  | expression =>
    cases hs
    exact .works rfl rfl (.push rfl rfl)
  | operand =>
    cases hs
    exact .works rfl rfl .readOperand
  | chain c =>
    cases hs
    exact .works rfl rfl (.readChain c)
  | gather g =>
    cases hs
    exact .works rfl rfl (.readInputs g)
  | turn l => exact .turn l hs
  | checkpoint a =>
    simp only [step] at hs
    split at hs <;> cases hs
    · exact (Config.Turn.checkpoint_stays a).2
    · exact (Config.Turn.checkpoint_stays a).1
    · exact .act a (.inl (by assumption))
    · exact .act a (.inr (by assumption))
  | ask id inputs asked => exact .works rfl rfl (race_leads (.same rfl) (fun _ => Config.After.askHost) hs)
  | sleep deadline => exact .works rfl rfl (race_leads (.same rfl) (fun _ => Config.After.awaitClock) hs)
  | reply v =>
    cases pending with
    | nil => cases hs
    | cons p pending =>
      cases hs
      exact .resume v p
  | raise f =>
    cases pending with
    | nil => cases hs
    | cons p pending =>
      cases hs
      cases hp : p.isLight with
      | true =>
        rw [abandon_of_isLight m hp]
        exact .resumes rfl hp (.same rfl)
      | false => exact .closes rfl rfl hp

end Logo
