import Logo.Proofs.Schedules

/-!
# Effects happen only while a run is running

Everything a program does to the outside stands behind a checkpoint, so at each
moment at which something is printed, a name is declared or shared, a cell is
written, an activation is ended or a call of a host function begins, the state of
the engine is `running`. In particular a poll of a paused or cancelled run does
none of this, even where it completes a call or a wait, as long as no host code
resumes the run in it.
-/

namespace Logo
set_option autoImplicit false

variable {σ : Type}

/-! ### A run under way is never idle -/

theorem lasting_ne_idle : Lasting fun c : Config σ => c.machine.engine.state ≠ .idle where
  start := by
    intro e program h
    unfold Thread.start at h
    split at h <;> cases h
  step := by
    intro c c' hc hs
    rw [step_state hs]
    exact RunState.foldl_after_ne_idle hc _
  signal := fun t e s h => RunState.after_ne_idle h s
  elapse := fun t e n h => h
  toss := fun t e b h => h

/-- A moment at which something is done is at a checkpoint that lets the run through. -/
theorem events_ne_nil {c : Config σ} (h : c.events ≠ []) :
    c.machine.engine.state = .running ∨ c.machine.engine.state = .idle := by
  unfold Config.events at h
  split at h
  · exact .inl (by assumption)
  · exact .inr (by assumption)
  · exact absurd rfl h

/-! ### Polls of a run that is held up -/

/-- Paused, or about to be given up. -/
def RunState.Held (state : RunState) : Prop := state = .paused ∨ state = .cancelling

theorem RunState.Held.after {state : RunState} (h : state.Held) {s : Signal} (hs : s ≠ .resume) :
    (state.after s).Held := by
  obtain rfl | rfl := h
  · cases s
    case pause => exact .inl rfl
    case resume => exact absurd rfl hs
    case cancel => exact .inr rfl
  · exact .inr (after_cancelling s)

theorem RunState.Held.foldl {state : RunState} (h : state.Held) {signals : List Signal}
    (hs : .resume ∉ signals) : (signals.foldl RunState.after state).Held := by
  induction signals generalizing state with
  | nil => exact h
  | cons s signals ih =>
    rw [List.mem_cons, not_or] at hs
    exact ih (h.after (Ne.symm hs.1)) hs.2

theorem RunState.Held.events {c : Config σ} (h : c.machine.engine.state.Held) : c.events = [] := by
  unfold Config.events
  split
  · rename_i hr
    rw [hr] at h
    obtain h | h := h <;> cases h
  · rename_i hr
    rw [hr] at h
    obtain h | h := h <;> cases h
  · rfl

/-- Nothing printed, nothing bound. -/
structure Engine.Untouched (e e' : Engine σ) : Prop where
  sink : e'.sink = e.sink
  scopes : e'.scopes = e.scopes

theorem Engine.Untouched.refl (e : Engine σ) : Engine.Untouched e e := ⟨rfl, rfl⟩

theorem Engine.Untouched.trans {e e' e'' : Engine σ} (h : Engine.Untouched e e')
    (h' : Engine.Untouched e' e'') : Engine.Untouched e e'' :=
  ⟨h'.sink.trans h.sink, h'.scopes.trans h.scopes⟩

theorem step_untouched {c c' : Config σ} (h : c.events = []) (hs : (step c).config? = some c') :
    Engine.Untouched c.machine.engine c'.machine.engine := by
  rw [(step_explains hs).engine, h]
  exact ⟨rfl, rfl⟩

/-- All along a poll in which no host code resumes the run, it stays held up and does
nothing. -/
theorem held_along {fuel : Nat} {c : Config σ} (hc : c.machine.engine.state.Held)
    (hr : ∀ d ∈ c.moments fuel, .resume ∉ d.hostWork.signals) :
    Along (fun d => d.machine.engine.state.Held ∧ Engine.Untouched c.machine.engine d.machine.engine)
      fuel c := by
  refine .of_step ⟨hc, .refl _⟩ ?_
  rintro d hd d' ⟨hheld, hu⟩ hs
  refine ⟨?_, hu.trans (step_untouched hheld.events hs)⟩
  rw [step_state hs]
  exact hheld.foldl (hr d hd)

/-- A poll of a run that is held up, in which no host code resumes it, does nothing. -/
theorem Drive.held_poll {d : Drive σ} (hd : d.engine.state.Held) {fuel : Nat}
    (hr : ∀ c ∈ d.momentsOf (.poll fuel), .resume ∉ c.hostWork.signals) :
    (∀ c ∈ d.momentsOf (.poll fuel), c.events = []) ∧
      Engine.Untouched d.engine (d.make (.poll fuel)).engine := by
  cases hc : d.run.opening? d.engine with
  | none =>
    constructor
    · intro c h
      simp only [momentsOf, hc] at h
      cases h
    · obtain ⟨-, he | he, -⟩ := make_poll_of_none hc fuel
      · rw [he]
        exact .refl _
      · rw [he]
        exact ⟨rfl, rfl⟩
  | some c =>
    simp only [momentsOf, hc] at hr ⊢
    have he : c.machine.engine = d.engine := by
      obtain ⟨e, r, o⟩ := d
      cases r with
      | inFlight t =>
        cases hc
        rfl
      | ended => cases hc
      | created source =>
        have hb : e.state.begin = .error .alreadyRunning := by
          obtain h | h := hd <;> simp only at h <;> rw [h] <;> rfl
        simp only [Run.opening?, hb] at hc
        cases hc
    have h := held_along (by rwa [he]) hr
    refine ⟨fun d hd => (h.moments d hd).1.events, ?_⟩
    rw [make_poll hc, ← he]
    cases ha : advance fuel c with
    | go c' => exact (h.waits c' (by rw [ha]; rfl)).2
    | suspend why c' => exact (h.waits c' (by rw [ha]; rfl)).2
    | resolved outcome m =>
      obtain ⟨d, ⟨-, hu⟩, hs⟩ := h.ends outcome m ha
      rw [(step_resolved hs).2.1]
      exact ⟨hu.sink, hu.scopes⟩

/-- **Effects happen only while running.** At every moment of every schedule at which
something is done to the outside, the state is `running`; what is done there is what the
events say, and nothing else. Hence a poll of a paused or cancelled run prints nothing, binds
nothing and begins no call, unless host code resumes the run in it. -/
theorem effects_while_running (e : Engine σ) (source : String) (moves : List Move) :
    (∀ c ∈ (Drive.start e source).moments moves,
      (c.events ≠ [] → c.machine.engine.state = .running) ∧
      (∀ c', (step c).config? = some c' → Explains c c') ∧
      ∀ outcome m, step c = .resolved outcome m → m = c.machine) ∧
    ∀ fuel, ((Drive.start e source).follow moves).engine.state.Held →
      (∀ c ∈ ((Drive.start e source).follow moves).momentsOf (.poll fuel),
        .resume ∉ c.hostWork.signals) →
      (∀ c ∈ ((Drive.start e source).follow moves).momentsOf (.poll fuel), c.events = []) ∧
      Engine.Untouched ((Drive.start e source).follow moves).engine
        ((Drive.start e source).follow (moves ++ [.poll fuel])).engine := by
  constructor
  · intro c hc
    have hidle := ((Drive.start_meets _ e source).follow lasting_ne_idle moves).2 c hc
    refine ⟨?_, fun c' hs => step_explains hs, fun outcome m hs => (step_resolved hs).2.1⟩
    intro he
    obtain hr | hr := events_ne_nil he
    · exact hr
    · exact absurd hr hidle
  · intro fuel hd hr
    rw [Drive.follow_append]
    exact Drive.held_poll hd hr

/-- The trial run prints while it is running, and does nothing more in a poll that follows a
break, although the host's answer comes first in it and the run ends with that. -/
theorem effects_while_running_trial :
    let d := Drive.start Trial.engine "x"
    let moves := [.poll 100, .poll 100, .poll 100, .poll 100, .signal .cancel, .toss true]
    (∃ c ∈ d.moments [.poll 100, .poll 100], c.events ≠ [] ∧ c.machine.engine.state = .running) ∧
    (d.follow moves).engine.state.Held ∧ (d.follow (moves ++ [.poll 100])).outcome? = some (.ok none) ∧
    Engine.Untouched (d.follow moves).engine (d.follow (moves ++ [.poll 100])).engine := by
  intro d moves
  have hany : ((d.moments [.poll 100, .poll 100]).any fun c => !c.events.isEmpty) = true := by
    rw [Drive.moments, Drive.start_momentsOf rfl Trial.parse_x, Trial.make_poll]
    cbv
  have hheld : (d.follow moves).engine.state.Held := by
    right
    rw [Drive.follow, Trial.make_poll]
    cbv
  have hquiet : (((d.follow moves).momentsOf (.poll 100)).all
      fun c => !c.hostWork.signals.contains .resume) = true := by
    rw [Drive.follow, Trial.make_poll]
    cbv
  have hend : (d.follow (moves ++ [.poll 100])).outcome? = some (.ok none) := by
    simp only [moves, List.cons_append, Drive.follow, d, Trial.make_poll]
    cbv
  refine ⟨?_, hheld, hend, ?_⟩
  · obtain ⟨c, hc, he⟩ := List.any_eq_true.1 hany
    have hne : c.events ≠ [] := by
      intro h
      rw [h] at he
      cases he
    exact ⟨c, hc, hne, ((effects_while_running Trial.engine "x" _).1 c hc).1 hne⟩
  · refine ((effects_while_running Trial.engine "x" moves).2 100 hheld ?_).2
    intro c hc
    have hn := List.all_eq_true.1 hquiet c hc
    simpa using hn

end Logo
