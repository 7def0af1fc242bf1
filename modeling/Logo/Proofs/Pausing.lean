import Logo.Proofs.Schedules

/-!
# Pausing is transparent

A run that is paused and resumed any number of times, at any of its suspensions,
comes to the same end as one that is left alone. `Config.calm` forgets what
pausing, passing time and chance can change: the run state, the clock, the deadlines
of waits and what comes first in a race. Every step of a run that nobody cancels
either leaves the run where it is or is, up to calm, the step of the calm run; so all
schedules lead along one path, and only how far they lead differs.
-/

namespace Logo
set_option autoImplicit false

variable {σ : Type}

/-- A function that neither reads nor changes the run state. -/
def HostFunction.Oblivious : HostFunction σ → Prop
  | .sync kinds body => ∀ inputs memory state,
      HostBody.apply kinds body inputs ⟨memory, state⟩
        = HostBody.apply kinds body inputs ⟨memory, .running⟩ ∧
      (HostBody.apply kinds body inputs ⟨memory, state⟩).signals = []
  | .async _ ask => ∀ inputs asked memory state,
      ask inputs asked ⟨memory, state⟩ = ask inputs asked ⟨memory, .running⟩ ∧
      (ask inputs asked ⟨memory, state⟩).signals = []

/-- A function to which the run state might as well be `running`. -/
def HostFunction.BlindTo (state : RunState) : HostFunction σ → Prop
  | .sync kinds body => ∀ inputs memory, HostBody.apply kinds body inputs ⟨memory, state⟩
      = HostBody.apply kinds body inputs ⟨memory, .running⟩
  | .async _ ask => ∀ inputs asked memory,
      ask inputs asked ⟨memory, state⟩ = ask inputs asked ⟨memory, .running⟩

theorem HostFunction.Oblivious.blindTo {h : HostFunction σ} (ho : h.Oblivious) (state : RunState) :
    h.BlindTo state := by
  cases h with
  | sync kinds body => exact fun inputs memory => (ho inputs memory state).1
  | async arity ask => exact fun inputs asked memory => (ho inputs asked memory state).1

theorem HostFunction.blindTo_running (h : HostFunction σ) : h.BlindTo .running := by
  cases h with
  | sync kinds body => exact fun inputs memory => rfl
  | async arity ask => exact fun inputs asked memory => rfl

/-! ### Calm -/

/-- The engine as a run sees it that is never paused and never waits. -/
def Engine.calm (e : Engine σ) : Engine σ :=
  { e with state := .running, clock := 0, answersFirst := false }

def Focus.calm : Focus → Focus
  | .sleep _ => .sleep 0
  | focus => focus

def Machine.calm (m : Machine σ) : Machine σ := m.mapEngine Engine.calm

def Config.calm (c : Config σ) : Config σ := ⟨c.machine.calm, c.focus.calm, c.tokens, c.pending⟩

/-- Where a step of a calm run leads; it never waits. -/
def Next.calm : Next σ → Next σ
  | .go c | .suspend _ c => .go c.calm
  | .resolved outcome m => .resolved outcome m.calm

theorem Engine.neutral_calm : Engine.Neutral (Engine.calm : Engine σ → Engine σ) :=
  ⟨fun _ => rfl, fun _ => rfl, fun _ => rfl, fun _ _ => rfl, fun _ _ _ => rfl, fun _ _ => rfl⟩

theorem Engine.of_calm_eq {e e' : Engine σ} (h : e.calm = e'.calm) :
    e.sink = e'.sink ∧ e.scopes = e'.scopes := by
  have hsink : e.calm.sink = e'.calm.sink := by rw [h]
  have hscopes : e.calm.scopes = e'.calm.scopes := by rw [h]
  exact ⟨hsink, hscopes⟩

theorem Config.calm_lift (c : Config σ) : (c.lift Engine.calm []).calm = c.calm := by
  unfold Config.lift Config.calm
  rw [List.append_nil]
  rfl

/-- What commutes with a change of engine is the same up to calm. -/
theorem calm_of_lift {c d : Config σ} (h : d = c.lift Engine.calm []) : d.calm = c.calm := by
  rw [h]
  exact c.calm_lift

/-- A state becomes `cancelling` by a cancel only. -/
theorem RunState.foldl_after_ne_cancelling {state : RunState} (hs : state ≠ .cancelling)
    {signals : List Signal} (hn : .cancel ∉ signals) :
    signals.foldl RunState.after state ≠ .cancelling := by
  induction signals generalizing state with
  | nil => exact hs
  | cons signal signals ih =>
    rw [List.mem_cons, not_or] at hn
    refine ih ?_ hn.2
    cases signal with
    | cancel => exact absurd rfl hn.1
    | pause => cases state <;> first | decide | exact absurd rfl hs
    | resume => cases state <;> first | decide | exact absurd rfl hs

section Steps

variable (m : Machine σ) (tokens : List Value) (pending : List Pending)

theorem carryOut_calm (e : Effect) :
    (carryOut m.calm e tokens pending).calm = (carryOut m e tokens pending).calm := by
  cases e
  case sleep n => rfl
  all_goals
    refine calm_of_lift ?_
    rw [← carryOut_lift Engine.neutral_calm [] m tokens pending fun ⟨n, h⟩ => by cases h]
    rw [List.append_nil]
    rfl

theorem callHost_calm (hh : ∀ h ∈ m.engine.hosts, h.BlindTo m.engine.state) (id : Nat) (name : String)
    (inputs : List Value) :
    (callHost m.calm id name inputs tokens pending).calm
      = (callHost m id name inputs tokens pending).calm := by
  unfold callHost
  have hhosts : m.calm.engine.hosts = m.engine.hosts := rfl
  rw [hhosts]
  cases hf : m.engine.hosts[id]? with
  | none => rfl
  | some f =>
    have ho := hh f (Array.mem_of_getElem? hf)
    cases f with
    | async arity ask => rfl
    | sync kinds body =>
      have hw := ho inputs m.engine.memory
      have hview : m.engine.hostView = ⟨m.engine.memory, m.engine.state⟩ := rfl
      have hcalm : m.calm.engine.hostView = ⟨m.engine.memory, .running⟩ := rfl
      simp only [hview, hcalm, ← hw]
      split <;> rfl

theorem act_calm (hh : ∀ h ∈ m.engine.hosts, h.BlindTo m.engine.state) (a : Act) :
    (act m.calm a tokens pending).calm = (act m a tokens pending).calm := by
  cases a with
  | literal v => rfl
  | read name =>
    simp only [act, Machine.calm, Machine.lookup?_mapEngine Engine.neutral_calm]
    cases m.lookup? name <;> rfl
  | pass l =>
    refine calm_of_lift ?_
    rw [act, act, ← beginPass_lift Engine.neutral_calm [] m tokens pending l, List.append_nil]
    rfl
  | call p inputs =>
    cases p with
    | host id name arity => exact callHost_calm m tokens pending hh id name _
    | defined id name params body =>
      refine calm_of_lift ?_
      rw [act, act, callProcedure, callProcedure,
        ← callDefined_lift Engine.neutral_calm [] m tokens pending (.inl rfl) params body inputs,
        List.append_nil]
      rfl
    | primitive p =>
      simp only [act, callProcedure, Machine.calm, Primitive.perform_mapEngine Engine.neutral_calm]
      generalize p.perform _ m = done
      obtain ⟨f | e, m'⟩ := done
      · rfl
      · exact carryOut_calm m' tokens pending e

theorem askHost_calm (hh : ∀ h ∈ m.engine.hosts, h.BlindTo m.engine.state) (id : Nat)
    (inputs : List Value) (asked : Nat) : (askHost m.calm id inputs asked tokens pending).calm
      = (askHost m id inputs asked tokens pending).calm := by
  unfold askHost
  have hhosts : m.calm.engine.hosts = m.engine.hosts := rfl
  rw [hhosts]
  cases hf : m.engine.hosts[id]? with
  | none => rfl
  | some f =>
    have ho := hh f (Array.mem_of_getElem? hf)
    cases f with
    | sync kinds body => rfl
    | async arity ask =>
      have hw := ho inputs asked m.engine.memory
      have hview : m.engine.hostView = ⟨m.engine.memory, m.engine.state⟩ := rfl
      have hcalm : m.calm.engine.hostView = ⟨m.engine.memory, .running⟩ := rfl
      simp only [hview, hcalm, ← hw]
      split <;> rfl

/-- A function that sends no cancel does not break the run that asks it. -/
theorem askHost_ne_cancelling {m : Machine σ} (hs : m.engine.state ≠ .cancelling) {id asked : Nat}
    {inputs tokens : List Value} {pending : List Pending}
    (hn : ∀ arity ask, m.engine.hosts[id]? = some (.async arity ask) →
      .cancel ∉ (ask inputs asked m.engine.hostView).signals) {c : Config σ}
    (hc : (askHost m id inputs asked tokens pending).config? = some c) :
    c.machine.engine.state ≠ .cancelling := by
  unfold askHost at hc
  split at hc
  · rename_i arity ask hf
    have hafter := RunState.foldl_after_ne_cancelling hs (hn arity ask hf)
    simp only at hc
    split at hc <;> cases hc <;> exact hafter
  · cases hc
    exact hs

theorem race_askHost {m : Machine σ} (hs : m.engine.state ≠ .cancelling) {id asked : Nat}
    {inputs : List Value} (hn : ∀ arity ask, m.engine.hosts[id]? = some (.async arity ask) →
      .cancel ∉ (ask inputs asked m.engine.hostView).signals) (tokens : List Value)
    (pending : List Pending) :
    race m (askHost m id inputs asked tokens pending) tokens pending
      = askHost m id inputs asked tokens pending :=
  race_eq_answer tokens pending hs fun _ hc => askHost_ne_cancelling hs hn hc

theorem race_awaitClock {m : Machine σ} (hs : m.engine.state ≠ .cancelling) (deadline : Nat)
    (tokens : List Value) (pending : List Pending) :
    race m (awaitClock m deadline tokens pending) tokens pending
      = awaitClock m deadline tokens pending := by
  refine race_eq_answer tokens pending hs fun c hc => ?_
  unfold awaitClock at hc
  split at hc <;> cases hc
  · exact hs
  · exact hs

end Steps

/-- A run that nobody has cancelled, in whose next step host code does not cancel it either
and cannot tell whether it is paused. -/
structure Config.Awake (c : Config σ) : Prop where
  state : c.machine.engine.state = .running ∨ c.machine.engine.state = .paused
  blind : ∀ h ∈ c.machine.engine.hosts, h.BlindTo c.machine.engine.state
  signals : .cancel ∉ c.hostWork.signals

theorem Config.Awake.not_cancelling {c : Config σ} (hc : c.Awake) :
    c.machine.engine.state ≠ .cancelling := by
  obtain h | h := hc.state <;> rw [h] <;> decide

/-- A run that nobody has cancelled, with oblivious host functions. -/
structure Config.Driven (c : Config σ) : Prop where
  state : c.machine.engine.state = .running ∨ c.machine.engine.state = .paused
  hosts : ∀ h ∈ c.machine.engine.hosts, h.Oblivious

/-- The run stays where it is: paused at a checkpoint, or before a deadline. -/
def Config.Parked (c : Config σ) : Prop :=
  (c.machine.engine.state = .paused ∧ ∃ a, c.focus = .checkpoint a) ∨
    ∃ deadline, c.focus = .sleep deadline ∧ c.machine.engine.clock < deadline

theorem step_parked {c : Config σ} (hc : c.Awake) (hp : c.Parked) :
    ∃ why, step c = .suspend why c := by
  obtain ⟨m, focus, tokens, pending⟩ := c
  obtain ⟨hs, a, hf⟩ | ⟨deadline, hf, hd⟩ := hp
  · simp only at hs hf
    subst hf
    exact ⟨.paused, by simp only [step, hs]⟩
  · simp only at hf hd
    subst hf
    refine ⟨.clock deadline, ?_⟩
    have hlate : ¬ deadline ≤ m.engine.clock := by omega
    rw [step, race_awaitClock hc.not_cancelling, awaitClock, if_neg hlate]

/-- Every other step is, up to calm, a step of the calm run. -/
theorem step_calm {c : Config σ} (hc : c.Awake) (hp : ¬ c.Parked) :
    (step c.calm).calm = (step c).calm := by
  obtain ⟨m, focus, tokens, pending⟩ := c
  cases focus with
  | expression => rfl
  | operand =>
    refine congrArg Next.go (calm_of_lift ?_)
    rw [← readOperand_lift Engine.neutral_calm [] m tokens pending, List.append_nil]
    rfl
  | chain c =>
    refine congrArg Next.go (calm_of_lift ?_)
    rw [← readChain_lift [] m tokens pending c, List.append_nil]
    rfl
  | gather g =>
    refine congrArg Next.go (calm_of_lift ?_)
    rw [← readInputs_lift [] m tokens pending g, List.append_nil]
    rfl
  | turn l =>
    simp only [Config.calm, Focus.calm, step]
    cases l.outcome? <;> rfl
  | checkpoint a =>
    have hs : m.engine.state = .running := by
      obtain hs | hs := hc.state
      · exact hs
      · exact absurd (.inl ⟨hs, a, rfl⟩) hp
    have hcalm : m.calm.engine.state = .running := rfl
    simp only [Config.calm, Focus.calm, step, hs, hcalm]
    exact congrArg Next.go (act_calm m tokens pending hc.blind a)
  | ask id inputs asked =>
    have hcalm : m.calm.engine.state ≠ .cancelling := fun h => by cases h
    have hsends : ∀ arity ask, m.engine.hosts[id]? = some (.async arity ask) →
        .cancel ∉ (ask inputs asked m.engine.hostView).signals := by
      intro arity ask hf
      have hlooks : m.engine.looksForAnswer = true := by
        simp [Engine.looksForAnswer, show m.engine.state ≠ .cancelling from hc.not_cancelling]
      have hsignals := hc.signals
      simp only [Config.hostWork, hlooks, if_true, hf] at hsignals
      exact hsignals
    have hsends' : ∀ arity ask, m.calm.engine.hosts[id]? = some (.async arity ask) →
        .cancel ∉ (ask inputs asked m.calm.engine.hostView).signals := by
      intro arity ask hf
      have hblind := hc.blind _ (Array.mem_of_getElem? hf) inputs asked m.engine.memory
      rw [show m.calm.engine.hostView = ⟨m.engine.memory, .running⟩ from rfl, ← hblind]
      exact hsends arity ask hf
    simp only [Config.calm, Focus.calm, step, race_askHost hcalm hsends',
      race_askHost hc.not_cancelling hsends]
    exact askHost_calm m tokens pending hc.blind id inputs asked
  | sleep deadline =>
    have hcalm : m.calm.engine.state ≠ .cancelling := fun h => by cases h
    have hd : deadline ≤ m.engine.clock := by
      refine Nat.le_of_not_lt fun h => hp (.inr ⟨deadline, rfl, h⟩)
    simp only [Config.calm, Focus.calm, step]
    rw [race_awaitClock hcalm, race_awaitClock hc.not_cancelling, awaitClock, awaitClock, if_pos hd]
    rfl
  | reply v =>
    cases pending with
    | nil => rfl
    | cons p pending =>
      refine congrArg Next.go (calm_of_lift ?_)
      rw [← resume_lift [] m tokens pending v p, List.append_nil]
      rfl
  | raise f =>
    cases pending with
    | nil => rfl
    | cons p pending =>
      refine congrArg Next.go (calm_of_lift ?_)
      simp only [Config.lift, List.append_nil, ← abandon_mapEngine]
      rfl

theorem hostWork_signals {c : Config σ} (hh : ∀ h ∈ c.machine.engine.hosts, h.Oblivious) :
    c.hostWork.signals = [] := by
  unfold Config.hostWork
  simp only
  split
  · split
    · rename_i hf
      exact (hh _ (Array.mem_of_getElem? hf) _ _ _).2
    · rfl
  · split
    · rename_i hf
      exact (hh _ (Array.mem_of_getElem? hf) _ _ _).2
    · rfl
  · split
    · split
      · rename_i hf
        exact (hh _ (Array.mem_of_getElem? hf) _ _ _ _).2
      · rfl
    · rfl
  · rfl

theorem Config.Driven.awake {c : Config σ} (hc : c.Driven) : c.Awake where
  state := hc.state
  blind := fun h hh => (hc.hosts h hh).blindTo _
  signals := by
    rw [hostWork_signals hc.hosts]
    exact List.not_mem_nil

theorem step_driven {c c' : Config σ} (hc : c.Driven) (hs : (step c).config? = some c') :
    c'.Driven := by
  constructor
  · rw [step_state hs, hostWork_signals hc.hosts]
    exact hc.state
  · rw [step_hosts hs]
    exact hc.hosts

/-! ### One path -/

/-- The calm run comes from `c` to its end after `n` steps. -/
inductive Fate : Nat → Config σ → Outcome → Machine σ → Prop where
  | ended {c : Config σ} {outcome : Outcome} {m : Machine σ} :
      (step c).calm = .resolved outcome m → Fate 0 c outcome m
  | later {n : Nat} {c d : Config σ} {outcome : Outcome} {m : Machine σ} :
      (step c).calm = .go d → Fate n d outcome m → Fate (n + 1) c outcome m

def Config.Ends (c : Config σ) (outcome : Outcome) (m : Machine σ) : Prop := ∃ n, Fate n c outcome m

section Path

variable {n : Nat} {c c' : Config σ} {outcome : Outcome} {m : Machine σ}

theorem Fate.of_go (h : Fate n c outcome m) (hs : (step c).calm = .go c') :
    ∃ k, n = k + 1 ∧ Fate k c' outcome m := by
  cases h with
  | ended hr => simp [hs] at hr
  | later hs' h =>
    obtain rfl : _ = c' := by simpa [hs] using hs'.symm
    exact ⟨_, rfl, h⟩

theorem Fate.of_resolved {outcome' : Outcome} {m' : Machine σ} (h : Fate n c outcome m)
    (hs : (step c).calm = .resolved outcome' m') : outcome = outcome' ∧ m = m' := by
  cases h with
  | ended hr => simpa [hs, eq_comm] using hr
  | later hs' h => simp [hs] at hs'

theorem Fate.unique {k : Nat} {outcome' : Outcome} {m' : Machine σ} (h : Fate n c outcome m)
    (h' : Fate k c outcome' m') : outcome = outcome' ∧ m = m' := by
  induction h generalizing k with
  | ended hr =>
    obtain ⟨ho, hm⟩ := h'.of_resolved hr
    exact ⟨ho.symm, hm.symm⟩
  | later hs _ ih =>
    obtain ⟨j, -, hj⟩ := h'.of_go hs
    exact ih hj

theorem ends_go_iff (hs : (step c).calm = .go c') : c'.Ends outcome m ↔ c.Ends outcome m := by
  constructor
  · rintro ⟨n, h⟩
    exact ⟨n + 1, .later hs h⟩
  · rintro ⟨n, h⟩
    obtain ⟨k, -, h'⟩ := h.of_go hs
    exact ⟨k, h'⟩

/-- A step does not change where the calm run ends. -/
theorem step_ends (hc : c.Driven) (hs : (step c).config? = some c') :
    c'.calm.Ends outcome m ↔ c.calm.Ends outcome m := by
  by_cases hp : c.Parked
  · obtain ⟨why, hw⟩ := step_parked hc.awake hp
    rw [hw] at hs
    cases hs
    rfl
  · apply ends_go_iff
    rw [step_calm hc.awake hp]
    cases h : step c with
    | go d =>
      rw [h] at hs
      cases hs
      rfl
    | suspend why d =>
      rw [h] at hs
      cases hs
      rfl
    | resolved outcome m =>
      rw [h] at hs
      cases hs

theorem resolved_ends (hc : c.Driven) (hs : step c = .resolved outcome m) :
    c.calm.Ends outcome m.calm := by
  have hp : ¬ c.Parked := by
    intro hp
    obtain ⟨why, hw⟩ := step_parked hc.awake hp
    rw [hs] at hw
    cases hw
  refine ⟨0, .ended ?_⟩
  rw [step_calm hc.awake hp, hs]
  rfl

/-- What a poll keeps: nobody has cancelled the run, and it is bound for the same end. -/
def BoundFor (c₀ c : Config σ) : Prop :=
  c.Driven ∧ ∀ outcome m, c.calm.Ends outcome m ↔ c₀.calm.Ends outcome m

theorem BoundFor.step {c₀ : Config σ} (hc : BoundFor c₀ c) (hs : (step c).config? = some c') :
    BoundFor c₀ c' :=
  ⟨step_driven hc.1 hs, fun outcome m => (step_ends hc.1 hs).trans (hc.2 outcome m)⟩

theorem BoundFor.along {c₀ : Config σ} {fuel : Nat} (hc : BoundFor c₀ c) :
    Along (BoundFor c₀) fuel c :=
  .of_step hc fun _ _ _ h hs => h.step hs

theorem BoundFor.resolved {c₀ : Config σ} {fuel : Nat} (hc : BoundFor c₀ c)
    (h : advance fuel c = .resolved outcome m) : c₀.calm.Ends outcome m.calm := by
  obtain ⟨d, hd, hs⟩ := hc.along.ends outcome m h
  exact (hd.2 _ _).1 (resolved_ends hd.1 hs)

end Path

/-! ### All schedules -/

/-- How a run of `source` on `e` ends if it ends, and with which engine, up to calm. -/
inductive Expected (e : Engine σ) (source : String) : Outcome → Engine σ → Prop where
  | refused : e.state ≠ .idle → Expected e source (.error .alreadyRunning) e.calm
  | unreadable {f : Source.Fault} : e.state = .idle → parse source = .error f →
      Expected e source (.error (.unreadable f)) e.calm
  | ran {program : List Value} {outcome : Outcome} {m : Machine σ} : e.state = .idle →
      parse source = .ok program → ((Thread.start program).config e).calm.Ends outcome m →
      Expected e source outcome m.engine

theorem Expected.unique {e e₁ e₂ : Engine σ} {source : String} {o₁ o₂ : Outcome}
    (h₁ : Expected e source o₁ e₁) (h₂ : Expected e source o₂ e₂) : o₁ = o₂ ∧ e₁ = e₂ := by
  cases h₁ with
  | refused hi =>
    cases h₂ with
    | refused _ => exact ⟨rfl, rfl⟩
    | unreadable hi' _ => exact absurd hi' hi
    | ran hi' _ _ => exact absurd hi' hi
  | unreadable hi hp =>
    cases h₂ with
    | refused hi' => exact absurd hi hi'
    | unreadable _ hp' =>
      cases hp.symm.trans hp'
      exact ⟨rfl, rfl⟩
    | ran _ hp' _ => cases hp.symm.trans hp'
  | ran hi hp h =>
    cases h₂ with
    | refused hi' => exact absurd hi hi'
    | unreadable _ hp' => cases hp.symm.trans hp'
    | ran _ hp' h' =>
      cases hp.symm.trans hp'
      obtain ⟨n, h⟩ := h
      obtain ⟨n', h'⟩ := h'
      obtain ⟨rfl, rfl⟩ := h.unique h'
      exact ⟨rfl, rfl⟩

/-- Where a schedule without a cancel can have led the run. -/
inductive Drive.Tracks (e : Engine σ) (source : String) : Drive σ → Prop where
  | created {e' : Engine σ} : e'.calm = e.calm → (e'.state = .idle ↔ e.state = .idle) →
      Tracks e source ⟨e', .created source, none⟩
  | underWay {t : Thread} {e' : Engine σ} {program : List Value} : e.state = .idle →
      parse source = .ok program → BoundFor ((Thread.start program).config e) (t.config e') →
      Tracks e source ⟨e', .inFlight t, none⟩
  | ended {e' : Engine σ} {outcome : Outcome} : Expected e source outcome e'.calm →
      Tracks e source ⟨e', .ended, some outcome⟩

theorem RunState.after_eq_idle (state : RunState) (s : Signal) :
    state.after s = .idle ↔ state = .idle := by
  cases state <;> cases s <;> decide

theorem RunState.begin_of_ne_idle {state : RunState} (h : state ≠ .idle) :
    state.begin = .error .alreadyRunning := by
  cases state
  case idle => exact absurd rfl h
  all_goals rfl

theorem RunState.after_awake {state : RunState} (h : state = .running ∨ state = .paused) {s : Signal}
    (hs : s ≠ .cancel) : state.after s = .running ∨ state.after s = .paused := by
  obtain rfl | rfl := h
  · revert hs
    cases s <;> decide
  · revert hs
    cases s <;> decide

section Schedule

variable {e : Engine σ} {source : String}

theorem Drive.Tracks.signal {d : Drive σ} (hd : d.Tracks e source) {s : Signal} (hs : s ≠ .cancel) :
    (d.make (.signal s)).Tracks e source := by
  have he : d.make (.signal s)
      = ⟨{ d.engine with state := d.engine.state.after s }, d.run, d.outcome?⟩ := by
    simp only [Drive.make, Engine.answerSignal_engine]
  rw [he]
  cases hd with
  | created hc hi => exact .created hc ((RunState.after_eq_idle _ _).trans hi)
  | underWay hi hp hb => exact .underWay hi hp ⟨⟨RunState.after_awake hb.1.state hs, hb.1.hosts⟩, hb.2⟩
  | ended h => exact .ended h

theorem Drive.Tracks.elapse {d : Drive σ} (hd : d.Tracks e source) (n : Nat) :
    (d.make (.elapse n)).Tracks e source := by
  cases hd with
  | created hc hi => exact .created hc hi
  | underWay hi hp hb => exact .underWay hi hp ⟨⟨hb.1.state, hb.1.hosts⟩, hb.2⟩
  | ended h => exact .ended h

theorem Drive.Tracks.toss {d : Drive σ} (hd : d.Tracks e source) (answersFirst : Bool) :
    (d.make (.toss answersFirst)).Tracks e source := by
  cases hd with
  | created hc hi => exact .created hc hi
  | underWay hi hp hb => exact .underWay hi hp ⟨⟨hb.1.state, hb.1.hosts⟩, hb.2⟩
  | ended h => exact .ended h

/-- A poll that opens the run at a moment bound for the expected end. -/
theorem Drive.Tracks.advance {program : List Value} (hi : e.state = .idle)
    (hp : parse source = .ok program) {d : Drive σ} {c : Config σ} (ho : d.outcome? = none)
    (hc : d.run.opening? d.engine = some c) (hb : BoundFor ((Thread.start program).config e) c)
    (fuel : Nat) : (d.make (.poll fuel)).Tracks e source := by
  rw [Drive.make_poll hc, ho]
  cases ha : Logo.advance fuel c with
  | go c' => exact .underWay hi hp (hb.along.waits c' (by rw [ha]; rfl))
  | suspend why c' =>
    exact .underWay hi hp (hb.along.waits c' (by rw [ha]; rfl))
  | resolved outcome m =>
    have hx : Expected e source outcome m.calm.engine := .ran hi hp (hb.resolved ha)
    exact .ended hx

/-- Wherever time has passed before the first poll, that poll starts on the way to the
expected end. -/
theorem created_opening (hh : ∀ h ∈ e.hosts, h.Oblivious) {e' : Engine σ} (hc : e'.calm = e.calm)
    (hi : e'.state = .idle) {program : List Value} (hp : parse source = .ok program) :
    (Run.created source).opening? e'
        = some ((Thread.start program).config { e' with state := .running }) ∧
      BoundFor ((Thread.start program).config e)
        ((Thread.start program).config { e' with state := .running }) := by
  have hbegin : e'.state.begin = .ok .running := by rw [hi]; rfl
  have hcalm : ((Thread.start program).config { e' with state := .running }).calm
      = ((Thread.start program).config e).calm := by
    unfold Config.calm
    rw [show Machine.calm _ = ⟨e'.calm, _⟩ from rfl, hc]
    rfl
  have hhosts : e'.calm.hosts = e.calm.hosts := by rw [hc]
  refine ⟨by simp only [Run.opening?, hbegin, hp], ⟨.inl rfl, ?_⟩, fun outcome m => by rw [hcalm]⟩
  show ∀ h ∈ e'.calm.hosts, h.Oblivious
  rw [hhosts]
  exact hh

theorem Drive.Tracks.poll (hh : ∀ h ∈ e.hosts, h.Oblivious) {d : Drive σ} (hd : d.Tracks e source)
    (fuel : Nat) : (d.make (.poll fuel)).Tracks e source := by
  cases hd with
  | ended h => exact .ended h
  | underWay hi hp hb => exact Drive.Tracks.advance hi hp rfl rfl hb fuel
  | @created e' hc hidle =>
    by_cases hi : e.state = .idle
    · have hi' : e'.state = .idle := hidle.2 hi
      have hbegin : e'.state.begin = .ok .running := by rw [hi']; rfl
      cases hp : parse source with
      | error f =>
        have hx : Expected e source (.error (.unreadable f)) e'.calm := hc ▸ .unreadable hi hp
        simp only [Drive.make, Engine.poll, hbegin, hp]
        exact .ended hx
      | ok program =>
        obtain ⟨ho, hb⟩ := created_opening hh hc hi' hp
        exact Drive.Tracks.advance hi hp rfl ho hb fuel
    · have hbegin : e'.state.begin = .error .alreadyRunning :=
        RunState.begin_of_ne_idle fun h => hi (hidle.1 h)
      have hx : Expected e source (.error .alreadyRunning) e'.calm := hc ▸ .refused hi
      simp only [Drive.make, Engine.poll, hbegin]
      exact .ended hx

theorem Drive.Tracks.follow (hh : ∀ h ∈ e.hosts, h.Oblivious) {d : Drive σ} (hd : d.Tracks e source)
    {moves : List Move} (hm : .signal .cancel ∉ moves) : (d.follow moves).Tracks e source := by
  induction moves generalizing d with
  | nil => exact hd
  | cons move moves ih =>
    rw [List.mem_cons, not_or] at hm
    refine ih ?_ hm.2
    cases move with
    | poll fuel => exact hd.poll hh fuel
    | elapse n => exact hd.elapse n
    | toss b => exact hd.toss b
    | signal s => exact hd.signal fun h => hm.1 (by rw [h])

end Schedule

/-! ### Runs that are left alone come to their end -/

/-- Only polls with so much fuel, and passing time. -/
def Quiet (fuel : Nat) (moves : List Move) : Prop :=
  ∀ move ∈ moves, move = .poll fuel ∨ ∃ n, move = .elapse n

/-- A class of running runs that steps and passing time do not lead out of. -/
structure Steady (G : Config σ → Prop) : Prop where
  awake : ∀ c, G c → c.Awake
  running : ∀ c, G c → c.machine.engine.state = .running
  step : ∀ c c', G c → (step c).config? = some c' → G c'
  elapse : ∀ (t : Thread) (e : Engine σ) n, G (t.config e) → G (t.config (e.elapse n))

theorem steady_driven :
    Steady fun c : Config σ => c.Driven ∧ c.machine.engine.state = .running where
  awake := fun c hc => hc.1.awake
  running := fun c hc => hc.2
  step := fun c c' hc hs => by
    refine ⟨step_driven hc.1 hs, ?_⟩
    rw [step_state hs, hostWork_signals hc.1.hosts]
    exact hc.2
  elapse := fun t e n hc => ⟨⟨hc.1.state, hc.1.hosts⟩, hc.2⟩

section Steady

variable {G : Config σ → Prop} (hG : Steady G) {fuel n : Nat} {outcome : Outcome} {m : Machine σ}

include hG

/-- A steady run that is not parked comes nearer to its end in every poll. -/
theorem advance_nearer {c : Config σ} (hc : G c) (hp : ¬ c.Parked) (h : Fate n c.calm outcome m)
    (hn : n < fuel) : (∃ m', advance fuel c = .resolved outcome m') ∨
      ∃ why c' k, advance fuel c = .suspend why c' ∧ G c' ∧ k < n ∧ Fate k c'.calm outcome m := by
  induction fuel generalizing n c with
  | zero => omega
  | succ fuel ih =>
    have hcalm := step_calm (hG.awake c hc) hp
    unfold advance
    cases hs : Logo.step c with
    | resolved outcome' m' =>
      rw [hs] at hcalm
      obtain ⟨rfl, -⟩ := h.of_resolved hcalm
      exact .inl ⟨m', rfl⟩
    | suspend why c' =>
      rw [hs] at hcalm
      obtain ⟨k, rfl, h'⟩ := h.of_go hcalm
      exact .inr ⟨why, c', k, rfl, hG.step c c' hc (by rw [hs]; rfl), by omega, h'⟩
    | go c' =>
      rw [hs] at hcalm
      obtain ⟨k, rfl, h'⟩ := h.of_go hcalm
      have hc' : G c' := hG.step c c' hc (by rw [hs]; rfl)
      by_cases hp' : c'.Parked
      · obtain ⟨fuel, rfl⟩ : ∃ j, fuel = j + 1 := ⟨fuel - 1, by omega⟩
        obtain ⟨why, hw⟩ := step_parked (hG.awake c' hc') hp'
        refine .inr ⟨why, c', k, ?_, hc', by omega, h'⟩
        simp only [advance, hw]
      · obtain hend | ⟨why, d, j, ha, hd, hj, hf⟩ := ih hc' hp' h' (by omega)
        · exact .inl hend
        · exact .inr ⟨why, d, j, ha, hd, by omega, hf⟩

end Steady

/-- The run can be driven to this end by polls and passing time alone. -/
def Drive.Finishes (fuel : Nat) (outcome : Outcome) (d : Drive σ) : Prop :=
  ∃ moves, Quiet fuel moves ∧ (d.follow moves).outcome? = some outcome

theorem Drive.Finishes.of_make {fuel : Nat} {outcome : Outcome} {d : Drive σ} (move : Move)
    (hm : move = .poll fuel ∨ ∃ n, move = .elapse n) (h : (d.make move).Finishes fuel outcome) :
    d.Finishes fuel outcome := by
  obtain ⟨moves, hq, ho⟩ := h
  refine ⟨move :: moves, ?_, ho⟩
  intro move' hm'
  obtain rfl | hm' := List.mem_cons.1 hm'
  · exact hm
  · exact hq move' hm'

/-- Every run of the class that is under way and `n` steps from its end can be finished. -/
def Finishable (G : Config σ → Prop) (fuel : Nat) (outcome : Outcome) (m : Machine σ) (n : Nat) :
    Prop :=
  ∀ (t : Thread) (e : Engine σ) (before : Option Outcome), G (t.config e) →
    Fate n (t.config e).calm outcome m → (⟨e, .inFlight t, before⟩ : Drive σ).Finishes fuel outcome

section Steady

variable {G : Config σ → Prop} (hG : Steady G) {fuel n : Nat} (outcome : Outcome) (m : Machine σ)

include hG

theorem make_poll_finishes {d : Drive σ} {c : Config σ} (ho : d.run.opening? d.engine = some c)
    (hc : G c) (hp : ¬ c.Parked) (h : Fate n c.calm outcome m) (hn : n < fuel)
    (hnext : ∀ k < n, Finishable G fuel outcome m k) :
    (d.make (.poll fuel)).Finishes fuel outcome := by
  rw [Drive.make_poll ho]
  obtain ⟨m', ha⟩ | ⟨why, c', k, ha, hc', hk, h'⟩ := advance_nearer hG hc hp h hn
  · rw [ha]
    exact ⟨[], fun move hm => (by cases hm), rfl⟩
  · rw [ha]
    exact hnext k hk c'.thread c'.machine.engine d.outcome? hc' h'

theorem finishable (hn : n < fuel) : Finishable G fuel outcome m n := by
  induction n using Nat.strongRecOn with
  | ind n ih =>
    have hnext : ∀ k < n, Finishable G fuel outcome m k := fun k hk => ih k hk (by omega)
    intro t e before hc h
    have hr : e.state = .running := hG.running _ hc
    by_cases hp : (t.config e).Parked
    · -- running, so it waits for the clock; let the time pass
      obtain ⟨hs, -⟩ | ⟨deadline, hf, hd⟩ := hp
      · have hs' : e.state = .paused := hs
        rw [hr] at hs'
        cases hs'
      · refine .of_make (.elapse (deadline - e.clock)) (.inr ⟨_, rfl⟩) ?_
        refine .of_make (.poll fuel) (.inl rfl) ?_
        have hd' : e.clock < deadline := hd
        refine make_poll_finishes (c := t.config (e.elapse (deadline - e.clock))) hG outcome m rfl
          (hG.elapse t e _ hc) ?_ h hn hnext
        rintro (⟨hs, -⟩ | ⟨deadline', hf', hlate⟩)
        · have hs' : e.state = .paused := hs
          rw [hr] at hs'
          cases hs'
        · have hsame : deadline' = deadline := by
            have : Focus.sleep deadline' = .sleep deadline := hf'.symm.trans hf
            cases this
            rfl
          have hlate' : e.clock + (deadline - e.clock) < deadline' := hlate
          omega
    · exact .of_make (.poll fuel) (.inl rfl) (make_poll_finishes hG outcome m rfl hc hp h hn hnext)

end Steady

theorem not_parked_start (program : List Value) (e : Engine σ) :
    ¬ ((Thread.start program).config e).Parked := by
  cases program with
  | nil => rintro (⟨-, a, hf⟩ | ⟨deadline, hf, -⟩) <;> cases hf
  | cons token program => rintro (⟨-, a, hf⟩ | ⟨deadline, hf, -⟩) <;> cases hf

/-- A run that is not left paused can be driven to the expected end. -/
theorem Drive.Tracks.finishes {e e' : Engine σ} {source : String} {outcome : Outcome} {d : Drive σ}
    (hh : ∀ h ∈ e.hosts, h.Oblivious) (hd : d.Tracks e source) (hx : Expected e source outcome e')
    (hs : d.engine.state ≠ .paused) : ∃ steps, ∀ fuel, steps ≤ fuel → d.Finishes fuel outcome := by
  cases hd with
  | ended h =>
    obtain ⟨rfl, -⟩ := hx.unique h
    exact ⟨0, fun fuel _ => ⟨[], fun move hm => (by cases hm), rfl⟩⟩
  | @underWay t e₁ program hi hp hb =>
    cases hx with
    | refused hi' => exact absurd hi hi'
    | unreadable _ hp' => cases hp.symm.trans hp'
    | @ran program' _ m _ hp' hends =>
      cases hp.symm.trans hp'
      obtain ⟨n, hn⟩ := (hb.2 _ _).2 hends
      have hr : e₁.state = .running := hb.1.state.resolve_right hs
      exact ⟨n + 1, fun fuel hf =>
        finishable steady_driven outcome m (by omega) t e₁ none ⟨hb.1, hr⟩ hn⟩
  | @created e₁ hc hidle =>
    cases hx with
    | refused hi =>
      have hbegin : e₁.state.begin = .error .alreadyRunning :=
        RunState.begin_of_ne_idle fun h => hi (hidle.1 h)
      refine ⟨0, fun fuel _ => ⟨[.poll fuel], fun move hm => .inl (List.mem_singleton.1 hm), ?_⟩⟩
      simp only [Drive.follow, Drive.make, Engine.poll, hbegin]
    | unreadable hi hp =>
      have hbegin : e₁.state.begin = .ok .running := by rw [hidle.2 hi]; rfl
      refine ⟨0, fun fuel _ => ⟨[.poll fuel], fun move hm => .inl (List.mem_singleton.1 hm), ?_⟩⟩
      simp only [Drive.follow, Drive.make, Engine.poll, hbegin, hp]
    | @ran program _ m hi hp hends =>
      obtain ⟨ho, hb⟩ := created_opening hh hc (hidle.2 hi) hp
      obtain ⟨n, hn⟩ := (hb.2 _ _).2 hends
      refine ⟨n + 1, fun fuel hf => .of_make (.poll fuel) (.inl rfl) ?_⟩
      exact make_poll_finishes steady_driven outcome m ho ⟨hb.1, rfl⟩ (not_parked_start _ _) hn
        (by omega) fun k hk => finishable steady_driven outcome m (by omega)

/-- **Pausing is transparent.** Let host functions be oblivious of the run state, and take
two schedules of polls, pauses, resumes, passing time and chance on the same engine. If both drive
a run of the same source to its end, then to the same end: the same outcome, the same text
printed, the same bindings. And where one of them does, the other can be driven on to it by
polls alone, unless it leaves the run paused. -/
theorem pausing_transparent (e : Engine σ) (source : String) (hosts : ∀ h ∈ e.hosts, h.Oblivious)
    (moves moves' : List Move) (hm : .signal .cancel ∉ moves) (hm' : .signal .cancel ∉ moves')
    (outcome : Outcome) (ho : ((Drive.start e source).follow moves).outcome? = some outcome) :
    (∀ outcome', ((Drive.start e source).follow moves').outcome? = some outcome' →
      (∀ mode : Mode, mode.finish outcome' = mode.finish outcome) ∧ outcome' = outcome ∧
      ((Drive.start e source).follow moves').engine.sink
        = ((Drive.start e source).follow moves).engine.sink ∧
      ((Drive.start e source).follow moves').engine.scopes
        = ((Drive.start e source).follow moves).engine.scopes ∧
      ∀ name, ((Drive.start e source).follow moves').engine.global? name
        = ((Drive.start e source).follow moves).engine.global? name) ∧
    (((Drive.start e source).follow moves').engine.state ≠ .paused →
      ∃ steps, ∀ fuel, steps ≤ fuel → ∃ rest, Quiet fuel rest ∧
        ((Drive.start e source).follow (moves' ++ rest)).outcome? = some outcome) := by
  have hstart : (Drive.start e source).Tracks e source := .created rfl Iff.rfl
  have expected : ∀ {d : Drive σ} {o : Outcome}, d.Tracks e source → d.outcome? = some o →
      Expected e source o d.engine.calm := by
    intro d o hd ho
    cases hd with
    | created _ _ => cases ho
    | underWay _ _ _ => cases ho
    | ended h =>
      cases ho
      exact h
  have hx := expected (hstart.follow hosts hm) ho
  constructor
  · intro outcome' ho'
    obtain ⟨rfl, he⟩ := (expected (hstart.follow hosts hm') ho').unique hx
    obtain ⟨hsink, hscopes⟩ := Engine.of_calm_eq he
    refine ⟨fun _ => rfl, rfl, hsink, hscopes, fun name => ?_⟩
    unfold Engine.global?
    rw [hscopes]
  · intro hs
    obtain ⟨steps, hf⟩ := (hstart.follow hosts hm').finishes hosts hx hs
    refine ⟨steps, fun fuel hfuel => ?_⟩
    obtain ⟨rest, hq, hr⟩ := hf fuel hfuel
    exact ⟨rest, hq, by rwa [Drive.follow_append]⟩

/-- The trial run, paused at the start of a pass and again while the host is asked. -/
theorem pausing_transparent_trial :
    let d := Drive.start Trial.engine "x"
    let moves := [.poll 100, .signal .pause, .poll 100, .signal .resume, .poll 100, .poll 100,
      .signal .pause, .poll 100, .toss true, .poll 100, .signal .resume, .poll 100]
    let plain := [.poll 100, .poll 100, .poll 100, .poll 100, .poll 100]
    (d.follow moves).outcome? = some (.ok none) ∧ (d.follow plain).outcome? = some (.ok none) ∧
    (d.follow plain).engine.sink = (d.follow moves).engine.sink := by
  intro d moves plain
  have hosts : ∀ h ∈ Trial.engine.hosts, h.Oblivious := by
    intro h hm
    obtain rfl := Array.mem_singleton.1 hm
    exact fun inputs asked memory state => ⟨rfl, rfl⟩
  have ho : (d.follow moves).outcome? = some (.ok none) := by
    rw [Drive.follow, Trial.make_poll]
    cbv
  have ho' : (d.follow plain).outcome? = some (.ok none) := by
    rw [Drive.follow, Trial.make_poll]
    cbv
  have h := pausing_transparent Trial.engine "x" hosts moves plain (by decide) (by decide) _ ho
  exact ⟨ho, ho', (h.1 _ ho').2.2.1⟩

end Logo
