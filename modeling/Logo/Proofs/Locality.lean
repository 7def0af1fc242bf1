import Logo.Run.Poll

/-!
# What a step does not look at

A step works on the tokens at hand and on the innermost of what is waiting. What
waits further out it neither reads nor changes, and of the engine it reads only
a part. Both facts are said at once: `Config.lift g k` puts the frames `k` below
the pending ones and changes the engine by `g`, and every piece of `step` that
does not use what `g` changes commutes with it.
-/

namespace Logo
set_option autoImplicit false

variable {σ : Type}

/-- A change to an engine that instructions cannot see: it keeps the scope
graph, the number of definitions and the host functions, and goes together with
declaring, assigning and printing. -/
structure Engine.Neutral (g : Engine σ → Engine σ) : Prop where
  scopes : ∀ e, (g e).scopes = e.scopes
  definitions : ∀ e, (g e).definitions = e.definitions
  hosts : ∀ e, (g e).hosts = e.hosts
  setScopes : ∀ e s, g { e with scopes := s } = { g e with scopes := s }
  define : ∀ e n s,
    g { e with definitions := n, scopes := s } = { g e with definitions := n, scopes := s }
  print : ∀ e chunk,
    g { e with sink := e.sink.write chunk } = { g e with sink := (g e).sink.write chunk }

theorem Engine.neutral_id : Engine.Neutral (id : Engine σ → Engine σ) :=
  ⟨fun _ => rfl, fun _ => rfl, fun _ => rfl, fun _ _ => rfl, fun _ _ _ => rfl, fun _ _ => rfl⟩

def Machine.mapEngine (m : Machine σ) (g : Engine σ → Engine σ) : Machine σ := ⟨g m.engine, m.live⟩

def Procedure.isDefined : Procedure → Bool
  | .defined _ _ _ _ => true
  | _ => false

def Act.callsDefined : Act → Bool
  | .call p _ => p.isDefined
  | _ => false

/-- Does the coming step call a procedure that a program has defined? -/
def Config.callsDefined (c : Config σ) : Bool :=
  match c.focus, c.machine.engine.state with
  | .checkpoint a, .running | .checkpoint a, .idle => a.callsDefined
  | _, _ => false

/-- With `g` the engine has the same depth limit, or neither limit is reached. -/
def Machine.AdmitsAlike (m : Machine σ) (g : Engine σ → Engine σ) : Prop :=
  (g m.engine).depthLimit = m.engine.depthLimit ∨
    m.live.activations.length < m.engine.depthLimit ∧
      m.live.activations.length < (g m.engine).depthLimit

/-- The same moment on an engine changed by `g`, inside of what waits in `k`. -/
def Config.lift (c : Config σ) (g : Engine σ → Engine σ) (k : List Pending) : Config σ :=
  ⟨c.machine.mapEngine g, c.focus, c.tokens, c.pending ++ k⟩

namespace Machine

variable {g : Engine σ → Engine σ} (hg : Engine.Neutral g) (m : Machine σ)
include hg

theorem lookup?_mapEngine (name : String) : (m.mapEngine g).lookup? name = m.lookup? name := by
  show (g m.engine).scopes.lookup? _ _ = _
  rw [hg.scopes]
  rfl

theorem procedure_mapEngine (name : String) :
    (m.mapEngine g).procedure name = m.procedure name := by
  unfold procedure
  rw [lookup?_mapEngine hg]

theorem mapScopes_mapEngine (f : Scopes → Scopes) :
    (m.mapEngine g).mapScopes f = (m.mapScopes f).mapEngine g := by
  unfold mapScopes mapEngine
  rw [hg.setScopes m.engine (f m.engine.scopes), hg.scopes]

theorem openFrame_mapEngine (bindings : List (String × Value)) :
    (m.mapEngine g).openFrame bindings = (m.openFrame bindings).mapEngine g := by
  unfold openFrame mapEngine
  simp only [hg.scopes m.engine]
  exact congrArg (Machine.mk · _) (hg.setScopes m.engine _).symm

theorem write_mapEngine (chunk : String) :
    (m.mapEngine g).write chunk = (m.write chunk).mapEngine g := by
  unfold write mapEngine
  rw [hg.print m.engine]

omit hg in
theorem setCounter_mapEngine (n : Nat) :
    (m.mapEngine g).setCounter n = (m.setCounter n).mapEngine g := by
  unfold setCounter mapEngine
  cases m.live.counters <;> rfl

end Machine

namespace Primitive

variable {g : Engine σ → Engine σ} (hg : Engine.Neutral g) (m : Machine σ)
include hg

theorem plan_mapEngine (p : Primitive) (inputs : List Value) :
    p.plan inputs (m.mapEngine g) = p.plan inputs m := by
  cases p
  case thing =>
    simp only [plan, Machine.lookup?_mapEngine hg]
  all_goals rfl

theorem bindDefinition_mapEngine (name : String) (params : List String) (body : List Value) :
    bindDefinition (m.mapEngine g) name params body
      = (bindDefinition m name params body).mapEngine g := by
  unfold bindDefinition Machine.mapEngine
  simp only [hg.scopes m.engine, hg.definitions m.engine]
  exact congrArg (Machine.mk · _) (hg.define m.engine _ _).symm

theorem assign_mapEngine (name : String) (v : Value) :
    assign (m.mapEngine g) name v = (assign m name v).mapEngine g := by
  unfold assign
  exact Machine.mapScopes_mapEngine hg m _

omit hg in
theorem finish_mapEngine (p : Primitive) (how : Activation → Activation) :
    p.finish (m.mapEngine g) how = ((p.finish m how).1, (p.finish m how).2.mapEngine g) := by
  unfold finish Machine.mapEngine
  cases m.live.activations <;> rfl

omit hg in
theorem taking_mapEngine {α : Type} (r : Except Fault α) (k : α → Machine σ → Machine σ)
    (hk : ∀ a, k a (m.mapEngine g) = (k a m).mapEngine g) :
    taking r (m.mapEngine g) k = ((taking r m k).1, (taking r m k).2.mapEngine g) := by
  cases r with
  | ok a => simp only [taking, hk]
  | error f => rfl

theorem perform_mapEngine (p : Primitive) (inputs : List Value) :
    p.perform inputs (m.mapEngine g)
      = ((p.perform inputs m).1, (p.perform inputs m).2.mapEngine g) := by
  cases p
  case output =>
    simp only [perform]
    split
    · exact finish_mapEngine m _ _
    · rfl
  case stop => exact finish_mapEngine m _ _
  case define =>
    simp only [perform]
    apply taking_mapEngine m
    intro d
    exact bindDefinition_mapEngine hg m _ _ _
  case make =>
    simp only [perform]
    apply taking_mapEngine m
    intro b
    exact assign_mapEngine hg m _ _
  case localName =>
    simp only [perform]
    apply taking_mapEngine m
    intro names
    exact Machine.mapScopes_mapEngine hg m _
  case globalName =>
    simp only [perform]
    apply taking_mapEngine m
    intro names
    exact Machine.mapScopes_mapEngine hg m _
  case print => simp only [perform, Machine.write_mapEngine hg]
  case display => simp only [perform, Machine.write_mapEngine hg]
  case type => simp only [perform, Machine.write_mapEngine hg]
  all_goals simp only [perform, plan_mapEngine hg]

end Primitive

/-! ### Reading a program -/

section Reading

variable {g : Engine σ → Engine σ} (hg : Engine.Neutral g) (k : List Pending)
variable (m : Machine σ) (tokens : List Value) (pending : List Pending)

theorem enter_lift (items : List Value) :
    enter (m.mapEngine g) items tokens (pending ++ k) = (enter m items tokens pending).lift g k := by
  cases items <;> rfl

include hg

theorem callNamed_lift (name : String) (parenthesised : Bool) :
    callNamed (m.mapEngine g) name parenthesised tokens (pending ++ k)
      = (callNamed m name parenthesised tokens pending).lift g k := by
  unfold callNamed
  rw [Machine.procedure_mapEngine hg]
  cases m.procedure name <;> rfl

theorem openParen_lift :
    openParen (m.mapEngine g) tokens (pending ++ k) = (openParen m tokens pending).lift g k := by
  cases tokens with
  | nil => rfl
  | cons token rest =>
    simp only [openParen]
    cases Role.of token
    case word name => exact callNamed_lift hg k m rest pending name true
    all_goals rfl

theorem readOperand_lift :
    readOperand (m.mapEngine g) tokens (pending ++ k) = (readOperand m tokens pending).lift g k := by
  cases tokens with
  | nil => rfl
  | cons token rest =>
    simp only [readOperand]
    cases Role.of token
    case openParen => exact openParen_lift hg k m rest pending
    case word name => exact callNamed_lift hg k m rest pending name false
    case operator op =>
      cases op
      case subtract =>
        simp only
        split <;> rfl
      all_goals rfl
    all_goals rfl

omit hg in
theorem readChain_lift (c : Chain) :
    readChain (m.mapEngine g) c tokens (pending ++ k) = (readChain m c tokens pending).lift g k := by
  unfold readChain
  cases operatorAhead? tokens with
  | none =>
    simp only
    cases Chain.settle 0 c.operands c.operators <;> rfl
  | some op =>
    simp only
    cases Chain.settle op.precedence c.operands c.operators with
    | error f => rfl
    | ok c =>
      cases tokens.tail with
      | nil => rfl
      | cons producer rest =>
        simp only
        split <;> rfl

omit hg in
theorem readInputs_lift (c : Gathering) :
    readInputs (m.mapEngine g) c tokens (pending ++ k) = (readInputs m c tokens pending).lift g k := by
  unfold readInputs
  split
  · cases tokens with
    | nil => rfl
    | cons token rest =>
      simp only
      cases Role.of token
      case closeParen =>
        simp only
        split <;> rfl
      all_goals rfl
  · split
    · rfl
    · cases tokens with
      | nil => rfl
      | cons token rest =>
        simp only
        split <;> rfl

end Reading

/-! ### Calls, templates and loops -/

section Acting

variable {g : Engine σ → Engine σ} (hg : Engine.Neutral g) (k : List Pending)
variable (m : Machine σ) (tokens : List Value) (pending : List Pending)

theorem callWith_lift (p : Procedure) (inputs : List Value) :
    callWith (m.mapEngine g) p inputs tokens (pending ++ k)
      = (callWith m p inputs tokens pending).lift g k := by
  unfold callWith
  split <;> rfl

include hg

theorem applyList_lift (caller : String) (template inputs : List Value) :
    applyList (m.mapEngine g) caller template inputs tokens (pending ++ k)
      = (applyList m caller template inputs tokens pending).lift g k := by
  unfold applyList
  split
  · split
    · rfl
    · split
      · rfl
      · rw [Machine.openFrame_mapEngine hg]
        exact enter_lift k _ tokens (.template :: pending) _
  · rfl

theorem applyTemplate_lift (caller : String) (template : Value) (inputs : List Value) :
    applyTemplate (m.mapEngine g) caller template inputs tokens (pending ++ k)
      = (applyTemplate m caller template inputs tokens pending).lift g k := by
  cases template
  case procedure p => exact callWith_lift k m tokens pending p inputs
  case text s =>
    simp only [applyTemplate, Machine.procedure_mapEngine hg]
    split
    · exact callWith_lift k m tokens pending _ inputs
    · rfl
  case list items => exact applyList_lift hg k m tokens pending caller items inputs
  all_goals rfl

/-- The deadline of a `wait` comes from the clock, which `g` may change. -/
theorem carryOut_lift {e : Effect}
    (he : (∃ n, e = .sleep n) → (g m.engine).clock = m.engine.clock) :
    carryOut (m.mapEngine g) e tokens (pending ++ k) = (carryOut m e tokens pending).lift g k := by
  cases e
  case block items => exact enter_lift k m tokens pending items
  case loop l => cases l <;> rfl
  case template caller template inputs =>
    exact applyTemplate_lift hg k m tokens pending caller template inputs
  case sleep n =>
    have hc : (m.mapEngine g).engine.clock = m.engine.clock := he ⟨n, rfl⟩
    simp only [carryOut, hc]
    rfl
  all_goals rfl

/-- A call that is within the limit is so under any other limit that is not reached. -/
theorem callDefined_lift (hd : m.AdmitsAlike g) (params : List String) (body inputs : List Value) :
    callDefined (m.mapEngine g) params body inputs tokens (pending ++ k)
      = (callDefined m params body inputs tokens pending).lift g k := by
  have hl : (m.mapEngine g).engine.depthLimit = (g m.engine).depthLimit := rfl
  have ha : (m.mapEngine g).live = m.live := rfl
  have hentered : enter ((m.mapEngine g).openFrame (params.zip inputs)).openActivation body tokens
        (.activation :: pending ++ k)
      = (enter (m.openFrame (params.zip inputs)).openActivation body tokens
          (.activation :: pending)).lift g k := by
    rw [Machine.openFrame_mapEngine hg]
    exact enter_lift k (m.openFrame _).openActivation tokens (.activation :: pending) body
  unfold callDefined
  rw [hl, ha]
  obtain hd | ⟨hd, hd'⟩ := hd
  · rw [hd]
    split
    · rfl
    · exact hentered
  · rw [if_neg (Nat.not_le.2 hd), if_neg (Nat.not_le.2 hd')]
    exact hentered

theorem beginPass_lift (l : Loop) :
    beginPass (m.mapEngine g) l tokens (pending ++ k) = (beginPass m l tokens pending).lift g k := by
  cases l with
  | times block begun total =>
    simp only [beginPass, Machine.setCounter_mapEngine]
    exact enter_lift k _ tokens (_ :: pending) block
  | endless block => exact enter_lift k m tokens (_ :: pending) block
  | each template items =>
    cases items with
    | nil => rfl
    | cons item items => exact applyTemplate_lift hg k m tokens (_ :: pending) _ template [item]
  | collect template items outputs =>
    cases items with
    | nil => rfl
    | cons item items => exact applyTemplate_lift hg k m tokens (_ :: pending) _ template [item]

end Acting

/-! ### Outcomes -/

section Resuming

variable {g : Engine σ → Engine σ} (k : List Pending)
variable (m : Machine σ) (tokens : List Value) (pending : List Pending)

theorem afterPass_lift (l : Loop) (v : Option Value) :
    afterPass (m.mapEngine g) l v tokens (pending ++ k)
      = (afterPass m l v tokens pending).lift g k := by
  have hs : (m.mapEngine g).isStopped = m.isStopped := rfl
  cases l <;> cases v <;> simp only [afterPass, hs] <;> try split
  all_goals rfl

theorem resume_lift (v : Option Value) (p : Pending) :
    resume (m.mapEngine g) v tokens p (pending ++ k) = (resume m v tokens p pending).lift g k := by
  have hs : (m.mapEngine g).isStopped = m.isStopped := rfl
  cases p with
  | sequence saved =>
    simp only [resume, hs]
    split
    · rfl
    · cases v <;> cases tokens <;> rfl
  | firstOperand =>
    simp only [resume]
    cases operatorAhead? tokens <;> cases v <;> rfl
  | rightOperand c op producer => cases v <;> rfl
  | negation =>
    cases v with
    | none => rfl
    | some v =>
      simp only [resume]
      cases negate Operator.subtract.symbol v <;> rfl
  | group =>
    cases tokens with
    | nil => rfl
    | cons token rest =>
      simp only [resume]
      split <;> rfl
  | input c producer => cases v <;> rfl
  | activation => cases v <;> rfl
  | template => rfl
  | counter => rfl
  | loop l => exact afterPass_lift k m tokens pending l v

theorem abandon_mapEngine (p : Pending) :
    abandon (m.mapEngine g) p = (abandon m p).mapEngine g := by
  cases p <;> rfl

end Resuming

/-! ### Whole steps -/

/-- A change to an engine that not even checkpoints, host functions and waits can
see. A call of a defined procedure can, if it is to the depth limit. -/
structure Engine.Unseen (g : Engine σ → Engine σ) : Prop extends Engine.Neutral g where
  state : ∀ e, (g e).state = e.state
  answersFirst : ∀ e, (g e).answersFirst = e.answersFirst
  clock : ∀ e, (g e).clock = e.clock
  hostView : ∀ e, (g e).hostView = e.hostView
  afterHost : ∀ {α : Type} e (work : HostWork σ α), g (e.afterHost work) = (g e).afterHost work

theorem Engine.unseen_id : Engine.Unseen (id : Engine σ → Engine σ) :=
  { Engine.neutral_id with
    state := fun _ => rfl
    answersFirst := fun _ => rfl
    clock := fun _ => rfl
    hostView := fun _ => rfl
    afterHost := fun _ _ => rfl }

def Next.lift (n : Next σ) (g : Engine σ → Engine σ) (k : List Pending) : Next σ :=
  match n with
  | .go c => .go (c.lift g k)
  | .suspend why c => .suspend why (c.lift g k)
  | .resolved outcome m => .resolved outcome (m.mapEngine g)

section Stepping

variable {g : Engine σ → Engine σ} (hg : Engine.Unseen g) (k : List Pending)
variable (m : Machine σ) (tokens : List Value) (pending : List Pending)
include hg

theorem callHost_lift (id : Nat) (name : String) (inputs : List Value) :
    callHost (m.mapEngine g) id name inputs tokens (pending ++ k)
      = (callHost m id name inputs tokens pending).lift g k := by
  have hh : (m.mapEngine g).engine.hosts = m.engine.hosts := hg.hosts _
  have hv : (m.mapEngine g).engine.hostView = m.engine.hostView := hg.hostView _
  have ha : ∀ work : HostWork σ Outcome, (m.mapEngine g).engine.afterHost work
      = g (m.engine.afterHost work) := fun work => (hg.afterHost _ work).symm
  unfold callHost
  rw [hh]
  split
  · rfl
  · rfl
  · simp only [hv, ha]
    split <;> rfl

theorem askHost_lift (id : Nat) (inputs : List Value) (asked : Nat) :
    askHost (m.mapEngine g) id inputs asked tokens (pending ++ k)
      = (askHost m id inputs asked tokens pending).lift g k := by
  have hh : (m.mapEngine g).engine.hosts = m.engine.hosts := hg.hosts _
  have hv : (m.mapEngine g).engine.hostView = m.engine.hostView := hg.hostView _
  have ha : ∀ work : HostWork σ HostReply, (m.mapEngine g).engine.afterHost work
      = g (m.engine.afterHost work) := fun work => (hg.afterHost _ work).symm
  unfold askHost
  rw [hh]
  split
  · simp only [hv, ha]
    split <;> rfl
  · rfl

theorem awaitClock_lift (deadline : Nat) :
    awaitClock (m.mapEngine g) deadline tokens (pending ++ k)
      = (awaitClock m deadline tokens pending).lift g k := by
  have hc : (m.mapEngine g).engine.clock = m.engine.clock := hg.clock _
  unfold awaitClock
  rw [hc]
  split <;> rfl

theorem race_lift (answer : Next σ) :
    race (m.mapEngine g) (answer.lift g k) tokens (pending ++ k)
      = (race m answer tokens pending).lift g k := by
  have hf : (m.mapEngine g).engine.answersFirst = m.engine.answersFirst := hg.answersFirst _
  have hs : (m.mapEngine g).engine.state = m.engine.state := hg.state _
  unfold race
  rw [hf, hs]
  split
  · cases answer with
    | suspend why c =>
      have hc : (c.lift g k).machine.engine.state = c.machine.engine.state := hg.state _
      simp only [Next.lift, hc]
      split <;> rfl
    | go c => rfl
    | resolved outcome m => rfl
  · split <;> rfl

theorem callProcedure_lift {p : Procedure} (hd : p.isDefined = true → m.AdmitsAlike g)
    (inputs : List Value) :
    callProcedure (m.mapEngine g) p inputs tokens (pending ++ k)
      = (callProcedure m p inputs tokens pending).lift g k := by
  cases p with
  | primitive p =>
    simp only [callProcedure, Primitive.perform_mapEngine hg.toNeutral]
    generalize p.perform _ m = done
    obtain ⟨e | e, m'⟩ := done
    · rfl
    · exact carryOut_lift hg.toNeutral k m' tokens pending fun _ => hg.clock _
  | host id name arity => exact callHost_lift hg k m tokens pending id name _
  | defined id name params body =>
    exact callDefined_lift hg.toNeutral k m tokens pending (hd rfl) params body inputs

theorem act_lift {a : Act} (hd : a.callsDefined = true → m.AdmitsAlike g) :
    act (m.mapEngine g) a tokens (pending ++ k) = (act m a tokens pending).lift g k := by
  cases a with
  | literal v => rfl
  | read name =>
    simp only [act, Machine.lookup?_mapEngine hg.toNeutral]
    cases m.lookup? name <;> rfl
  | call p inputs => exact callProcedure_lift hg k m tokens pending hd inputs
  | pass l => exact beginPass_lift hg.toNeutral k m tokens pending l

/-- A run that goes on does not see what waits outside of it, nor what `g`
changes. -/
theorem step_lift {c : Config σ} (hd : c.callsDefined = true → c.machine.AdmitsAlike g)
    (h : ∀ outcome m, step c ≠ .resolved outcome m) :
    step (c.lift g k) = (step c).lift g k := by
  obtain ⟨m, focus, tokens, pending⟩ := c
  have hs : (m.mapEngine g).engine.state = m.engine.state := hg.state _
  simp only [Config.lift]
  cases focus with
  | expression => rfl
  | operand => exact congrArg Next.go (readOperand_lift hg.toNeutral k m tokens pending)
  | chain c => exact congrArg Next.go (readChain_lift k m tokens pending c)
  | gather c => exact congrArg Next.go (readInputs_lift k m tokens pending c)
  | turn l =>
    simp only [step]
    cases l.outcome? <;> rfl
  | checkpoint a =>
    simp only [Config.callsDefined] at hd
    simp only [step, hs]
    cases hstate : m.engine.state with
    | running | idle =>
      simp only [hstate] at hd
      exact congrArg Next.go (act_lift hg k m tokens pending hd)
    | _ => rfl
  | ask id inputs asked =>
    simp only [step, askHost_lift hg k m tokens pending]
    exact race_lift hg k m tokens pending _
  | sleep deadline =>
    simp only [step, awaitClock_lift hg k m tokens pending]
    exact race_lift hg k m tokens pending _
  | reply v =>
    cases pending with
    | nil => exact absurd rfl (h (.ok v) m)
    | cons p pending => exact congrArg Next.go (resume_lift k m tokens pending v p)
  | raise f =>
    cases pending with
    | nil => exact absurd rfl (h (.error f) m)
    | cons p pending =>
      simp only [step, List.cons_append, abandon_mapEngine]
      rfl

end Stepping

end Logo
