import Logo.Proofs.Effects
import Logo.Proofs.Upheld

/-!
# A break always lands

Wherever a run waits, the step that it takes next looks for a break. Once a cancel
has been accepted that step raises the fault `stopped`, which nothing on the way out
catches, so the next poll ends the run and does nothing else. Only an answer of the
host or the end of a wait that comes in the same poll can be noticed before the break.
The other way round, that fault has no other source: unless a host function fails so
itself, a run ends as cancelled only if a cancel was accepted while it was under
way.
-/

namespace Logo
set_option autoImplicit false

variable {σ : Type}

/-! ### The way out -/

/-- A place at which a run can be suspended. -/
def Focus.IsStop : Focus → Prop
  | .checkpoint _ | .ask _ _ _ | .sleep _ => True
  | _ => False

theorem askHost_suspend {m : Machine σ} {id asked : Nat} {inputs tokens : List Value}
    {pending : List Pending} {why : Wait} {c : Config σ}
    (h : askHost m id inputs asked tokens pending = .suspend why c) : c.focus.IsStop := by
  unfold askHost at h
  split at h
  · simp only at h
    split at h <;> cases h
    · trivial
    · trivial
  · cases h

theorem awaitClock_suspend {m : Machine σ} {deadline : Nat} {tokens : List Value}
    {pending : List Pending} {why : Wait} {c : Config σ}
    (h : awaitClock m deadline tokens pending = .suspend why c) : c.focus.IsStop := by
  unfold awaitClock at h
  split at h <;> cases h
  trivial

theorem race_suspend {m : Machine σ} {answer : Next σ} {tokens : List Value}
    {pending : List Pending} {why : Wait} {c : Config σ}
    (h : race m answer tokens pending = .suspend why c) : answer = .suspend why c := by
  obtain ⟨-, -, h'⟩ | ⟨-, h'⟩ | ⟨-, why', d, -, -, h'⟩ := race_cases m answer tokens pending
  · rw [h'] at h
    cases h
  · rw [← h', h]
  · rw [h'] at h
    cases h

theorem step_suspend {c c' : Config σ} {why : Wait} (h : step c = .suspend why c') :
    c'.focus.IsStop := by
  obtain ⟨m, focus, tokens, pending⟩ := c
  cases focus with
  | turn l =>
    simp only [step] at h
    split at h <;> cases h
    trivial
  | checkpoint a =>
    simp only [step] at h
    split at h <;> cases h
    trivial
  | ask id inputs asked => exact askHost_suspend (race_suspend h)
  | sleep deadline => exact awaitClock_suspend (race_suspend h)
  | reply v => cases pending <;> cases h
  | raise f => cases pending <;> cases h
  | _ => cases h

theorem advance_suspend {fuel : Nat} {c c' : Config σ} {why : Wait}
    (h : advance fuel c = .suspend why c') : c'.focus.IsStop := by
  induction fuel generalizing c with
  | zero => cases h
  | succ fuel ih =>
    unfold advance at h
    cases hs : step c with
    | go d =>
      simp only [hs] at h
      exact ih h
    | suspend why' d =>
      simp only [hs] at h
      cases h
      exact step_suspend hs
    | resolved outcome m =>
      simp only [hs] at h
      cases h

def HostReply.isReady : HostReply → Bool
  | .ready _ => true
  | _ => false

/-- Has what the run waits for not come? The host function has no answer yet, the clock is
not there. -/
def Engine.unanswered (e : Engine σ) : Focus → Bool
  | .ask id inputs asked =>
    match e.hosts[id]? with
    | some (.async _ ask) => !(ask inputs asked e.hostView).answer.isReady
    | _ => false
  | .sleep deadline => decide (e.clock < deadline)
  | _ => true

theorem RunState.foldl_after_cancelling (signals : List Signal) :
    signals.foldl after .cancelling = .cancelling := by
  induction signals with
  | nil => rfl
  | cons s signals ih => rw [List.foldl_cons, after_cancelling, ih]

/-- Whatever host code did after a break, nothing was printed or bound, and the run is still
to be given up. -/
structure Engine.Broken (e e' : Engine σ) : Prop extends Engine.Untouched e e' where
  state : e'.state = .cancelling

theorem race_cancelling {m : Machine σ} {answer : Next σ} {tokens : List Value}
    {pending : List Pending} (hs : m.engine.state = .cancelling)
    (ha : m.engine.answersFirst = true → ∃ why m' focus,
      answer = .suspend why ⟨m', focus, tokens, pending⟩ ∧ Engine.Broken m.engine m'.engine) :
    ∃ m', Engine.Broken m.engine m'.engine ∧
      race m answer tokens pending = .go ⟨m', .raise .stopped, tokens, pending⟩ := by
  cases hfirst : m.engine.answersFirst with
  | false =>
    refine ⟨m, ⟨.refl _, hs⟩, ?_⟩
    simp only [race, hfirst, hs, Bool.false_eq_true, if_false]
  | true =>
    obtain ⟨why, m', focus, rfl, hb⟩ := ha hfirst
    refine ⟨m', hb, ?_⟩
    simp only [race, hfirst, hb.state, if_true]

theorem askHost_unanswered {m : Machine σ} {id asked : Nat} {inputs : List Value}
    (hs : m.engine.state = .cancelling) (h : m.engine.unanswered (.ask id inputs asked) = true)
    (tokens : List Value) (pending : List Pending) : ∃ why m' focus,
      askHost m id inputs asked tokens pending = .suspend why ⟨m', focus, tokens, pending⟩ ∧
        Engine.Broken m.engine m'.engine := by
  simp only [Engine.unanswered] at h
  split at h
  · rename_i arity ask hf
    have hb : Engine.Broken m.engine (m.engine.afterHost (ask inputs asked m.engine.hostView)) := by
      refine ⟨⟨rfl, rfl⟩, ?_⟩
      rw [Engine.afterHost, hs]
      exact RunState.foldl_after_cancelling _
    simp only [askHost, hf]
    cases hans : (ask inputs asked m.engine.hostView).answer with
    | ready outcome =>
      rw [hans] at h
      cases h
    | pending => exact ⟨_, _, _, rfl, hb⟩
    | hopeless => exact ⟨_, _, _, rfl, hb⟩
  · cases h

/-- A run that is suspended gives up at the first step after a break, as long as no answer
comes before. -/
theorem step_stop {c : Config σ} (hf : c.focus.IsStop) (hs : c.machine.engine.state = .cancelling)
    (hn : c.machine.engine.answersFirst = true → c.machine.engine.unanswered c.focus = true) :
    ∃ m, Engine.Broken c.machine.engine m.engine ∧
      step c = .go ⟨m, .raise .stopped, c.tokens, c.pending⟩ := by
  obtain ⟨m, focus, tokens, pending⟩ := c
  cases focus with
  | checkpoint a =>
    refine ⟨m, ⟨.refl _, hs⟩, ?_⟩
    simp only at hs
    simp only [step, hs]
  | ask id inputs asked =>
    exact race_cancelling hs fun hfirst => askHost_unanswered hs (hn hfirst) tokens pending
  | sleep deadline =>
    refine race_cancelling hs fun hfirst => ?_
    have hlate : m.engine.clock < deadline := of_decide_eq_true (hn hfirst)
    refine ⟨.clock deadline, m, .sleep deadline, ?_, .refl _, hs⟩
    rw [awaitClock, if_neg (by omega)]
  | _ => exact hf.elim

theorem abandon_engine (m : Machine σ) (p : Pending) : (abandon m p).engine = m.engine := by
  cases p <;> rfl

/-- Nothing that waits catches a fault or does anything about it. -/
theorem advance_raise {fuel : Nat} (m : Machine σ) (f : Fault) (tokens : List Value)
    (pending : List Pending) (h : pending.length < fuel) :
    ∃ m', m'.engine = m.engine ∧
      advance fuel ⟨m, .raise f, tokens, pending⟩ = .resolved (.error f) m' := by
  induction pending generalizing m fuel with
  | nil =>
    obtain ⟨fuel, rfl⟩ : ∃ n, fuel = n + 1 := ⟨fuel - 1, by simp at h; omega⟩
    exact ⟨m, rfl, rfl⟩
  | cons p pending ih =>
    obtain ⟨fuel, rfl⟩ : ∃ n, fuel = n + 1 := ⟨fuel - 1, by simp at h; omega⟩
    obtain ⟨m', he, ha⟩ := ih (abandon m p) (by simpa using h)
    exact ⟨m', he.trans (abandon_engine m p), ha⟩

/-- A poll of a suspended run ends it once a cancel was accepted. -/
theorem poll_cancelling {e : Engine σ} {t : Thread} (hf : t.focus.IsStop) (he : e.state = .cancelling)
    (hn : e.answersFirst = true → e.unanswered t.focus = true) {fuel : Nat}
    (h : t.pending.length + 1 < fuel) : ∃ e', Engine.Untouched e e' ∧
      e.poll fuel (.inFlight t) = (.resolved (.error .stopped), .ended, e'.release) := by
  obtain ⟨fuel, rfl⟩ : ∃ n, fuel = n + 1 := ⟨fuel - 1, by omega⟩
  obtain ⟨m, hb, hs⟩ := step_stop (c := t.config e) hf he hn
  obtain ⟨m', hm, ha⟩ := advance_raise m .stopped t.tokens t.pending
    (show t.pending.length < fuel by omega)
  have hadv : advance (fuel + 1) (t.config e) = .resolved (.error .stopped) m' := by
    rw [advance, hs]
    exact ha
  refine ⟨m.engine, hb.toUntouched, ?_⟩
  simp only [Engine.poll, Engine.pollThread, hadv, hm]

/-! ### Where the fault comes from -/

/-- A cancel among the signals, sent in this order from `state` on, is accepted. -/
def RunState.AcceptsCancel (state : RunState) (signals : List Signal) : Prop :=
  ∃ earlier later, signals = earlier ++ .cancel :: later ∧
    (earlier.foldl RunState.after state).cancel = .ok .cancelling

theorem RunState.cancel_of_after {state : RunState} {s : Signal} (h : state ≠ .cancelling)
    (hs : state.after s = .cancelling) : s = .cancel ∧ state.cancel = .ok .cancelling := by
  have hst : s = .cancel ∧ (state = .running ∨ state = .paused) := by
    revert h hs
    cases s <;> cases state <;> decide
  obtain ⟨rfl, rfl | rfl⟩ := hst
  · exact ⟨rfl, rfl⟩
  · exact ⟨rfl, rfl⟩

theorem RunState.acceptsCancel {state : RunState} {signals : List Signal} (h : state ≠ .cancelling)
    (hs : signals.foldl RunState.after state = .cancelling) : state.AcceptsCancel signals := by
  induction signals generalizing state with
  | nil => exact absurd hs h
  | cons s signals ih =>
    by_cases hn : state.after s = .cancelling
    · obtain ⟨rfl, hc⟩ := cancel_of_after h hn
      exact ⟨[], signals, rfl, hc⟩
    · obtain ⟨earlier, later, rfl, hc⟩ := ih hn hs
      exact ⟨s :: earlier, later, rfl, hc⟩

/-- A cancel is accepted in this move, from outside or from host code, while the run is
under way. -/
def Drive.CancelledBy (d : Drive σ) : Move → Prop
  | .poll fuel => ∃ c ∈ d.momentsOf (.poll fuel),
      c.machine.engine.state.AcceptsCancel c.hostWork.signals
  | .signal s => (∃ t, d.run = .inFlight t) ∧ d.engine.state.AcceptsCancel [s]
  | .elapse _ | .toss _ => False

/-- A cancel is accepted somewhere in a schedule. -/
def Drive.Cancelled (d : Drive σ) : List Move → Prop
  | [] => False
  | move :: moves => d.CancelledBy move ∨ (d.make move).Cancelled moves

/-- No fault is on its way out that says that the run was stopped. -/
def Focus.Unbroken (focus : Focus) : Prop := ∀ f, focus = .raise f → f.kind ≠ .cancelled

theorem settle_kind {strength : Nat} {operands : List Value} {operators : List Operator} :
    FailsWith (· ≠ .cancelled) (Chain.settle strength operands operators) := by
  induction operators generalizing operands with
  | nil => exact .ok _
  | cons op operators ih =>
    unfold Chain.settle
    split
    · split
      · split
        · exact ih
        · rename_i f hf
          exact .error (op.apply_failsWith (P := (· ≠ .cancelled)) (by decide) _ _ f hf)
      · exact .error (by simp [Fault.kind])
    · exact .ok _

theorem upheld_unbroken {hosts : Array (HostFunction σ)}
    (hh : ∀ h ∈ hosts, ∀ f, h.CanFail f → f.kind ≠ .cancelled) :
    Upheld hosts Focus.Unbroken fun _ => True where
  focus := by
    rintro focus hf f rfl
    exact hf.elim
  frame := fun _ => trivial
  fault := by
    rintro f hf f' he
    cases he
    obtain hf | ⟨h, hm, hf⟩ := hf
    · exact hf
    · exact hh h hm f hf
  firstOperand := fun v f he => by cases he
  nextOperand := fun v _ f he => by cases he
  nextOperator := fun _ _ _ _ => trivial
  unsettled := by
    rintro c strength f _ hs f' he
    cases he
    exact settle_kind f hs

/-- Nobody has cancelled the run. -/
structure Config.Unbroken (hosts : Array (HostFunction σ)) (c : Config σ) : Prop where
  hosts : c.machine.engine.hosts = hosts
  state : c.machine.engine.state ≠ .cancelling
  focus : c.focus.Unbroken

section Unbroken

variable {hosts : Array (HostFunction σ)}
variable (hh : ∀ h ∈ hosts, ∀ f, h.CanFail f → f.kind ≠ .cancelled)
include hh

theorem step_unbroken {c c' : Config σ} (hc : c.Unbroken hosts)
    (hno : ¬ c.machine.engine.state.AcceptsCancel c.hostWork.signals)
    (hs : (step c).config? = some c') : c'.Unbroken hosts := by
  have hst : c'.machine.engine.state ≠ .cancelling := by
    intro hst
    rw [step_state hs] at hst
    exact hno (RunState.acceptsCancel hc.state hst)
  refine ⟨(step_hosts hs).trans hc.hosts, hst, ?_⟩
  obtain h | hg := step_upheld (upheld_unbroken hh) hc.hosts ⟨hc.focus, fun _ _ => trivial⟩ hs
  · exact h.1
  · exact absurd hg.state hst

omit hh in
theorem resolved_unbroken {c : Config σ} {outcome : Outcome} {m : Machine σ} (hc : c.Unbroken hosts)
    (h : step c = .resolved outcome m) :
    m.engine.hosts = hosts ∧ ∀ f, outcome = .error f → f.kind ≠ .cancelled := by
  obtain ⟨-, rfl, ho⟩ := step_resolved h
  refine ⟨hc.hosts, ?_⟩
  rintro f rfl
  obtain ⟨v, -, he⟩ | ⟨f', hf, he⟩ := ho
  · cases he
  · cases he
    exact hc.focus f hf

/-- Nobody has cancelled the run, whether it is under way or not. -/
structure Drive.Unbroken (hosts : Array (HostFunction σ)) (d : Drive σ) : Prop where
  config : d.Meets (Config.Unbroken hosts)
  outcome : ∀ f, d.outcome? = some (.error f) → f.kind ≠ .cancelled
  engine : d.engine.hosts = hosts

omit hh in
theorem start_unbroken {e : Engine σ} (he : e.hosts = hosts) (program : List Value) :
    ((Thread.start program).config { e with state := .running }).Unbroken hosts := by
  cases program with
  | nil => exact ⟨he, fun h => (by cases h), fun f h => (by cases h)⟩
  | cons token program => exact ⟨he, fun h => (by cases h), fun f h => (by cases h)⟩

theorem Drive.Unbroken.poll {d : Drive σ} (hd : d.Unbroken hosts) {fuel : Nat}
    (hno : ¬ d.CancelledBy (.poll fuel)) : (d.make (.poll fuel)).Unbroken hosts := by
  cases hc : d.run.opening? d.engine with
  | none =>
    obtain ⟨hr, he, ho⟩ := Drive.make_poll_of_none hc fuel
    refine ⟨?_, ?_, ?_⟩
    · intro t ht
      rw [hr] at ht
      cases ht
    · intro f hf
      obtain ho | ⟨f', ho, hk⟩ := ho
      · exact hd.outcome f (ho ▸ hf)
      · rw [ho] at hf
        cases hf
        exact hk
    · obtain he | he := he
      · rw [he]
        exact hd.engine
      · rw [he]
        exact hd.engine
  | some c =>
    have hcu : c.Unbroken hosts := hd.config.opening (start_unbroken hd.engine) hc
    have hquiet : ∀ c' ∈ c.moments fuel,
        ¬ c'.machine.engine.state.AcceptsCancel c'.hostWork.signals := by
      intro c' hm ha
      exact hno ⟨c', by simpa only [Drive.momentsOf, hc] using hm, ha⟩
    have h : Along (Config.Unbroken hosts) fuel c :=
      .of_step hcu fun d hd d' hu hs => step_unbroken hh hu (hquiet d hd) hs
    rw [Drive.make_poll hc]
    cases ha : advance fuel c with
    | go c' =>
      have hc' := h.waits c' (by rw [ha]; rfl)
      refine ⟨fun t ht => ?_, hd.outcome, hc'.hosts⟩
      cases ht
      exact hc'
    | suspend why c' =>
      have hc' := h.waits c' (by rw [ha]; rfl)
      refine ⟨fun t ht => ?_, hd.outcome, hc'.hosts⟩
      cases ht
      exact hc'
    | resolved outcome m =>
      obtain ⟨d', hd', hs⟩ := h.ends outcome m ha
      obtain ⟨hm, hk⟩ := resolved_unbroken hd' hs
      refine ⟨fun t ht => (by cases ht), fun f hf => ?_, hm⟩
      exact hk f (Option.some.inj hf)

theorem Drive.Unbroken.make {d : Drive σ} (hd : d.Unbroken hosts) {move : Move}
    (hno : ¬ d.CancelledBy move) : (d.make move).Unbroken hosts := by
  cases move with
  | poll fuel => exact hd.poll hh hno
  | elapse n =>
    refine ⟨fun t ht => ?_, hd.outcome, hd.engine⟩
    have h := hd.config t ht
    exact ⟨h.hosts, h.state, h.focus⟩
  | toss b =>
    refine ⟨fun t ht => ?_, hd.outcome, hd.engine⟩
    have h := hd.config t ht
    exact ⟨h.hosts, h.state, h.focus⟩
  | signal s =>
    have he : (d.make (.signal s)).engine = { d.engine with state := d.engine.state.after s } :=
      d.engine.answerSignal_engine s
    refine ⟨fun t ht => ?_, hd.outcome, by rw [he]; exact hd.engine⟩
    have h := hd.config t ht
    rw [he]
    refine ⟨h.hosts, fun hst => hno ⟨⟨t, ht⟩, ?_⟩, h.focus⟩
    exact RunState.acceptsCancel h.state hst

theorem Drive.Unbroken.follow {d : Drive σ} (hd : d.Unbroken hosts) {moves : List Move}
    (hno : ¬ d.Cancelled moves) : (d.follow moves).Unbroken hosts := by
  induction moves generalizing d with
  | nil => exact hd
  | cons move moves ih =>
    exact ih (hd.make hh fun h => hno (.inl h)) fun h => hno (.inr h)

end Unbroken

theorem suspended_of_poll {e e' : Engine σ} {r : Run} {fuel : Nat} {why : Wait} {t : Thread}
    (h : e.poll fuel r = (.pending why, .inFlight t, e')) : t.focus.IsStop := by
  cases hc : r.opening? e with
  | some c =>
    rw [Engine.poll_of_opening? hc] at h
    cases ha : advance fuel c with
    | go c' =>
      rw [ha] at h
      cases h
    | resolved outcome m =>
      rw [ha] at h
      cases h
    | suspend why' c' =>
      rw [ha] at h
      cases h
      exact advance_suspend ha
  | none =>
    have hr := (Drive.make_poll_of_none (d := ⟨e, r, none⟩) hc fuel).1
    simp only [Drive.make, h] at hr
    cases hr

theorem signal_cancel {e e' : Engine σ} (h : e.signal .cancel = .ok e') :
    e' = { e with state := .cancelling } := by
  unfold Engine.signal Signal.apply RunState.cancel at h
  cases hs : e.state <;> simp only [hs] at h <;> cases h
  · rfl
  · rfl

theorem completion_cancelled {outcome : Outcome} (h : Completion.of outcome = .cancelled) :
    ∃ f, outcome = .error f ∧ f.kind = .cancelled := by
  unfold Completion.of at h
  split at h
  · cases h
  · cases h
  · rename_i f
    split at h
    · exact ⟨f, rfl, by assumption⟩
    · cases h

/-- Once a cancel was accepted nothing but a poll gets the run out of that state. -/
theorem Drive.follow_cancelling {d : Drive σ} (hd : d.engine.state = .cancelling) {later : List Move}
    (hl : ∀ fuel, .poll fuel ∉ later) :
    (d.follow later).run = d.run ∧ (d.follow later).engine.state = .cancelling ∧
      Engine.Untouched d.engine (d.follow later).engine := by
  induction later generalizing d with
  | nil => exact ⟨rfl, hd, .refl _⟩
  | cons move later ih =>
    have hrest : ∀ fuel, .poll fuel ∉ later := fun fuel h => hl fuel (List.mem_cons_of_mem _ h)
    cases move with
    | poll fuel => exact absurd List.mem_cons_self (hl fuel)
    | elapse n =>
      obtain ⟨hr, hst, hu⟩ := ih (d := d.make (.elapse n)) hd hrest
      exact ⟨hr, hst, hu.sink, hu.scopes⟩
    | toss b =>
      obtain ⟨hr, hst, hu⟩ := ih (d := d.make (.toss b)) hd hrest
      exact ⟨hr, hst, hu.sink, hu.scopes⟩
    | signal s =>
      have he : (d.make (.signal s)).engine = { d.engine with state := d.engine.state.after s } :=
        d.engine.answerSignal_engine s
      have hs : (d.make (.signal s)).engine.state = .cancelling := by
        rw [he, hd]
        exact RunState.after_cancelling s
      obtain ⟨hr, hst, hu⟩ := ih hs hrest
      rw [he] at hu
      exact ⟨hr, hst, hu.sink, hu.scopes⟩

/-- **A break always lands.** Let a poll leave a run suspended, and let a cancel be
accepted at any later time. Whatever else than a poll happens after that, the next poll ends
the run as cancelled, prints nothing, binds nothing and leaves the engine idle, unless what
the run waits for comes in that poll and is noticed first. And if no host function fails as
cancelled itself, a run ends so only if a cancel was accepted while it was under way. -/
theorem break_lands :
    (∀ (e : Engine σ) r fuel why t e', e.poll fuel r = (.pending why, .inFlight t, e') →
      ∀ (e₁ e₂ : Engine σ) later, e₁.signal .cancel = .ok e₂ → (∀ fuel, .poll fuel ∉ later) →
        let d := Drive.follow ⟨e₂, .inFlight t, none⟩ later
        (d.engine.answersFirst = true → d.engine.unanswered t.focus = true) →
        ∃ steps, ∀ fuel, steps ≤ fuel →
          (d.make (.poll fuel)).outcome? = some (.error .stopped) ∧
          (d.make (.poll fuel)).run = .ended ∧ (d.make (.poll fuel)).engine.state = .idle ∧
          Engine.Untouched e₁ (d.make (.poll fuel)).engine) ∧
    (Mode.execute.finish (.error .stopped) = .executed .cancelled ∧
      Mode.evaluate.finish (.error .stopped) = .evaluated (.error .stopped) ∧
      Fault.kind .stopped = .cancelled ∧ Fault.message .stopped = "stopped") ∧
    ∀ (e : Engine σ) source moves, (∀ h ∈ e.hosts, ∀ f, h.CanFail f → f.kind ≠ .cancelled) →
      ∀ outcome, ((Drive.start e source).follow moves).outcome? = some outcome →
        Completion.of outcome = .cancelled → (Drive.start e source).Cancelled moves := by
  refine ⟨?_, ⟨rfl, rfl, rfl, rfl⟩, ?_⟩
  · intro e r fuel why t e' hp e₁ e₂ later hs hl d hn
    have hstop : t.focus.IsStop := suspended_of_poll hp
    obtain rfl := signal_cancel hs
    obtain ⟨hr, hst, hu⟩ :=
      Drive.follow_cancelling (d := ⟨{ e₁ with state := .cancelling }, .inFlight t, none⟩) rfl hl
    refine ⟨t.pending.length + 2, fun fuel hf => ?_⟩
    obtain ⟨e'', hu', hpoll⟩ := poll_cancelling hstop hst hn (show t.pending.length + 1 < fuel by omega)
    rw [Drive.make, hr, hpoll]
    exact ⟨rfl, rfl, rfl, hu'.sink.trans hu.sink, hu'.scopes.trans hu.scopes⟩
  · intro e source moves hh outcome ho hk
    obtain ⟨f, rfl, hf⟩ := completion_cancelled hk
    have hstart : (Drive.start e source).Unbroken e.hosts :=
      ⟨Drive.start_meets _ e source, fun f h => (by cases h), rfl⟩
    refine Classical.byContradiction fun hno => ?_
    exact (hstart.follow hh hno).outcome f ho hf

namespace Trial

/-- A run that waits for the host, which has no answer for it when it is broken off. -/
def awaitsHost : Polled × Run × Engine Unit → Bool
  | (.pending .host, .inFlight t, e) => decide (e.state = .running) &&
      ({ e with state := .cancelling } : Engine Unit).unanswered t.focus
  | _ => false

end Trial

/-- The trial run is broken off while it waits for the host, which is asked once more in
vain; a resume comes too late. -/
theorem break_lands_trial :
    let d := (Drive.start Trial.engine "x").follow [.poll 100, .poll 100]
    (∃ t e' e₂, d.engine.poll 100 d.run = (.pending .host, .inFlight t, e') ∧
      e'.signal .cancel = .ok e₂ ∧ ∃ steps, ∀ fuel, steps ≤ fuel →
        (Drive.follow ⟨e₂, .inFlight t, none⟩ [.signal .resume, .toss true, .poll fuel]).outcome?
          = some (.error .stopped)) ∧
    (d.follow [.poll 100, .signal .cancel, .toss true, .poll 100]).outcome?
      = some (.error .stopped) ∧
    (Drive.start Trial.engine "x").Cancelled
      [.poll 100, .poll 100, .poll 100, .signal .cancel, .toss true, .poll 100] := by
  intro d
  have hpoll : Trial.awaitsHost (d.engine.poll 100 d.run) = true := by
    simp only [d, Drive.follow, Trial.make_poll]
    cbv
  have hend : (d.follow [.poll 100, .signal .cancel, .toss true, .poll 100]).outcome?
      = some (.error .stopped) := by
    simp only [d, Drive.follow, Trial.make_poll]
    cbv
  have hhosts : ∀ h ∈ Trial.engine.hosts, ∀ f, h.CanFail f → f.kind ≠ .cancelled := by
    intro h hm f hf
    obtain rfl := Array.mem_singleton.1 hm
    obtain ⟨inputs, asked, view, ha⟩ := hf
    simp only at ha
    split at ha <;> cases ha
  refine ⟨?_, hend, ?_⟩
  · unfold Trial.awaitsHost at hpoll
    split at hpoll
    · rename_i t e' hp
      obtain ⟨hst, hn⟩ := Bool.and_eq_true_iff.1 hpoll
      have hcancel : e'.signal .cancel = .ok { e' with state := .cancelling } := by
        simp only [Engine.signal, of_decide_eq_true hst]
        rfl
      obtain ⟨steps, h⟩ := break_lands.1 _ _ _ _ _ _ hp _ _ [.signal .resume, .toss true] hcancel
        (by simp) fun _ => hn
      exact ⟨t, e', _, hp, hcancel, steps, fun fuel hf => (h fuel hf).1⟩
    · cases hpoll
  · refine break_lands.2.2 Trial.engine "x" _ hhosts (.error .stopped) ?_ rfl
    exact hend

end Logo
