import Logo.Proofs.Pausing

/-!
# Runs that nobody disturbs

Here host functions may do what they like with the run state; what is asked of a
schedule is that in it no pause and no cancel is issued, by a move or by host code.
Such a run follows its calm run, too, and a `Course` is a calm run in which host code
issues nothing either. Every undisturbed schedule that ends has taken a course, and
every course can be taken by an undisturbed schedule.
-/

namespace Logo
set_option autoImplicit false

variable {σ : Type}

/-- In the next step host code issues no pause and no cancel. -/
def Config.HandsOff (c : Config σ) : Prop := ∀ s ∈ c.hostWork.signals, s = .resume

/-- In the whole schedule nobody issues a pause or a cancel. -/
def Drive.Undisturbed (d : Drive σ) (moves : List Move) : Prop :=
  (∀ s, .signal s ∈ moves → s = .resume) ∧ ∀ c ∈ d.moments moves, c.HandsOff

theorem Drive.Undisturbed.of_cons {d : Drive σ} {move : Move} {moves : List Move}
    (h : d.Undisturbed (move :: moves)) : (d.make move).Undisturbed moves :=
  ⟨fun s hs => h.1 s (List.mem_cons_of_mem _ hs), fun c hc => h.2 c (List.mem_append_right _ hc)⟩

section Steps

variable {c c' : Config σ}

/-- A run that has nothing but an outcome calls no host code. -/
theorem handsOff_of_resolved {outcome : Outcome} {m : Machine σ} (h : step c = .resolved outcome m) :
    c.HandsOff := by
  obtain ⟨-, -, ⟨v, hf, -⟩ | ⟨f, hf, -⟩⟩ := step_resolved h
  · intro s hs
    simp only [Config.hostWork, hf] at hs
    cases hs
  · intro s hs
    simp only [Config.hostWork, hf] at hs
    cases hs

/-- Host code does the same in a run that is not paused and in the calm run. -/
theorem hostWork_calm (hr : c.machine.engine.state = .running) : c.calm.hostWork = c.hostWork := by
  obtain ⟨⟨e, live⟩, focus, tokens, pending⟩ := c
  have hr' : e.state = .running := hr
  have hview : e.calm.hostView = e.hostView := by
    rw [Engine.hostView, Engine.hostView, hr']
    rfl
  have hlook : e.looksForAnswer = true := by simp [Engine.looksForAnswer, hr']
  have hlook' : e.calm.looksForAnswer = true := rfl
  have hmemory : e.calm.memory = e.memory := rfl
  have hhosts : e.calm.hosts = e.hosts := rfl
  have hstate : e.calm.state = .running := rfl
  have hmachine : Machine.calm ⟨e, live⟩ = ⟨e.calm, live⟩ := rfl
  unfold Config.hostWork
  cases focus <;>
    simp only [Config.calm, Focus.calm, hmachine, hr', hstate, hview, hlook, hlook', hmemory, hhosts]

theorem handsOff_calm_iff (hr : c.machine.engine.state = .running) :
    c.calm.HandsOff ↔ c.HandsOff := by
  unfold Config.HandsOff
  rw [hostWork_calm hr]

theorem RunState.foldl_after_resume {signals : List Signal} (h : ∀ s ∈ signals, s = .resume) :
    signals.foldl RunState.after .running = .running := by
  induction signals with
  | nil => rfl
  | cons s signals ih =>
    obtain rfl := h s List.mem_cons_self
    exact ih fun s hs => h s (List.mem_cons_of_mem _ hs)

theorem Config.HandsOff.awake (h : c.HandsOff) (hr : c.machine.engine.state = .running) : c.Awake where
  state := .inl hr
  blind := by
    rw [hr]
    exact fun f _ => f.blindTo_running
  signals := fun hs => absurd (h _ hs) (by decide)

theorem step_running (h : c.HandsOff) (hr : c.machine.engine.state = .running)
    (hs : (step c).config? = some c') : c'.machine.engine.state = .running := by
  rw [step_state hs, hr]
  exact RunState.foldl_after_resume h

end Steps

/-! ### Courses -/

/-- The calm run comes from `c` to this end, and host code issues no pause and no cancel. -/
inductive Course : Config σ → Outcome → Machine σ → Prop where
  | ended {c : Config σ} {outcome : Outcome} {m : Machine σ} : c.HandsOff →
      (step c).calm = .resolved outcome m → Course c outcome m
  | later {c d : Config σ} {outcome : Outcome} {m : Machine σ} : c.HandsOff →
      (step c).calm = .go d → Course d outcome m → Course c outcome m

section Courses

variable {c c' : Config σ} {outcome : Outcome} {m : Machine σ}

theorem Course.handsOff (h : Course c outcome m) : c.HandsOff := by
  cases h with
  | ended h _ => exact h
  | later h _ _ => exact h

theorem Course.fate (h : Course c outcome m) : c.Ends outcome m := by
  induction h with
  | ended _ hs => exact ⟨0, .ended hs⟩
  | later _ hs _ ih =>
    obtain ⟨n, hn⟩ := ih
    exact ⟨n + 1, .later hs hn⟩

theorem Course.unique {outcome' : Outcome} {m' : Machine σ} (h : Course c outcome m)
    (h' : Course c outcome' m') : outcome = outcome' ∧ m = m' := by
  obtain ⟨n, hn⟩ := h.fate
  obtain ⟨n', hn'⟩ := h'.fate
  exact hn.unique hn'

theorem Course.of_go (h : Course c outcome m) (hs : (step c).calm = .go c') :
    Course c' outcome m := by
  cases h with
  | ended _ hr => simp [hs] at hr
  | later _ hs' h =>
    obtain rfl : _ = c' := by simpa [hs] using hs'.symm
    exact h

/-- A step does not change the course of an undisturbed run. -/
theorem step_course (h : c.HandsOff) (hr : c.machine.engine.state = .running)
    (hs : (step c).config? = some c') : Course c'.calm outcome m ↔ Course c.calm outcome m := by
  by_cases hp : c.Parked
  · obtain ⟨why, hw⟩ := step_parked (h.awake hr) hp
    rw [hw] at hs
    cases hs
    rfl
  · have hgo : (step c.calm).calm = .go c'.calm := by
      rw [step_calm (h.awake hr) hp]
      cases hn : step c with
      | go d =>
        rw [hn] at hs
        cases hs
        rfl
      | suspend why d =>
        rw [hn] at hs
        cases hs
        rfl
      | resolved outcome m =>
        rw [hn] at hs
        cases hs
    exact ⟨.later ((handsOff_calm_iff hr).2 h) hgo, fun hc => hc.of_go hgo⟩

theorem resolved_course (hr : c.machine.engine.state = .running)
    (hs : step c = .resolved outcome m) : Course c.calm outcome m.calm := by
  have h := handsOff_of_resolved hs
  have hp : ¬ c.Parked := by
    intro hp
    obtain ⟨why, hw⟩ := step_parked (h.awake hr) hp
    rw [hs] at hw
    cases hw
  refine .ended ((handsOff_calm_iff hr).2 h) ?_
  rw [step_calm (h.awake hr) hp, hs]
  rfl

end Courses

/-- What holds all along a poll of an undisturbed run: it is running, and its course is that of
`c₀`. -/
def OnCourse (c₀ c : Config σ) : Prop :=
  c.machine.engine.state = .running ∧ ∀ outcome m, Course c.calm outcome m ↔ Course c₀.calm outcome m

theorem OnCourse.along {c₀ c : Config σ} (hc : OnCourse c₀ c) {fuel : Nat}
    (h : ∀ d ∈ c.moments fuel, d.HandsOff) : Along (OnCourse c₀) fuel c := by
  refine .of_step hc fun d hd d' hon hs => ⟨step_running (h d hd) hon.1 hs, fun outcome m => ?_⟩
  exact (step_course (h d hd) hon.1 hs).trans (hon.2 outcome m)

/-! ### Undisturbed schedules -/

/-- Nothing happens to a run that has ended but that time passes. -/
theorem Drive.follow_ended (moves : List Move) (e : Engine σ) (outcome : Option Outcome) :
    ∃ e', (⟨e, .ended, outcome⟩ : Drive σ).follow moves = ⟨e', .ended, outcome⟩ ∧
      e'.calm = e.calm ∧ (e'.state = .idle ↔ e.state = .idle) := by
  induction moves generalizing e with
  | nil => exact ⟨e, rfl, rfl, Iff.rfl⟩
  | cons move moves ih =>
    obtain ⟨e₁, hm, hc, hi⟩ : ∃ e₁, (⟨e, .ended, outcome⟩ : Drive σ).make move
        = ⟨e₁, .ended, outcome⟩ ∧ e₁.calm = e.calm ∧ (e₁.state = .idle ↔ e.state = .idle) := by
      cases move with
      | poll fuel => exact ⟨e, rfl, rfl, Iff.rfl⟩
      | elapse n => exact ⟨e.elapse n, rfl, rfl, Iff.rfl⟩
      | toss b => exact ⟨{ e with answersFirst := b }, rfl, rfl, Iff.rfl⟩
      | signal s =>
        refine ⟨{ e with state := e.state.after s }, ?_, rfl, RunState.after_eq_idle _ _⟩
        simp only [Drive.make, Engine.answerSignal_engine]
    obtain ⟨e', hf, hc', hi'⟩ := ih e₁
    exact ⟨e', by rw [Drive.follow, hm, hf], hc'.trans hc, hi'.trans hi⟩

/-- Only a run that finds the engine idle comes to an outcome of its own. -/
theorem Drive.idle_of_ok {moves : List Move} {e : Engine σ} {source : String} {v : Option Value}
    (ho : ((Drive.start e source).follow moves).outcome? = some (.ok v)) : e.state = .idle := by
  induction moves generalizing e with
  | nil => cases ho
  | cons move moves ih =>
    cases move with
    | elapse n => exact ih (e := e.elapse n) ho
    | toss b => exact ih (e := { e with answersFirst := b }) ho
    | signal s =>
      have hm : (Drive.start e source).make (.signal s)
          = Drive.start { e with state := e.state.after s } source := by
        simp only [Drive.make, Drive.start, Engine.answerSignal_engine]
      rw [Drive.follow, hm] at ho
      exact (RunState.after_eq_idle _ _).1 (ih ho)
    | poll fuel =>
      refine Decidable.byContradiction fun hi => ?_
      have hm : (Drive.start e source).make (.poll fuel) = ⟨e, .ended, some (.error .alreadyRunning)⟩ := by
        simp only [Drive.make, Drive.start, Engine.poll, RunState.begin_of_ne_idle hi]
      obtain ⟨e', hf, -, -⟩ := Drive.follow_ended moves e (some (.error .alreadyRunning))
      rw [Drive.follow, hm, hf] at ho
      cases ho

/-- The run has come to the end of the course from `c`, and has released its engine. -/
def Arrives (c : Config σ) (outcome : Outcome) (d : Drive σ) : Prop :=
  ∃ m, Course c.calm outcome m ∧ d.engine.calm = m.engine ∧ d.engine.state = .idle

/-- An undisturbed run that is under way ends, if it does, at the end of its course. -/
theorem Drive.follow_arrives {moves : List Move} {t : Thread} {e : Engine σ} {outcome : Outcome}
    (hr : e.state = .running) (h : (⟨e, .inFlight t, none⟩ : Drive σ).Undisturbed moves)
    (ho : ((⟨e, .inFlight t, none⟩ : Drive σ).follow moves).outcome? = some outcome) :
    Arrives (t.config e) outcome ((⟨e, .inFlight t, none⟩ : Drive σ).follow moves) := by
  induction moves generalizing t e with
  | nil => cases ho
  | cons move moves ih =>
    cases move with
    | elapse n => exact ih (e := e.elapse n) hr h.of_cons ho
    | toss b => exact ih (e := { e with answersFirst := b }) hr h.of_cons ho
    | signal s =>
      obtain rfl := h.1 s List.mem_cons_self
      have hm : (⟨e, .inFlight t, none⟩ : Drive σ).make (.signal .resume)
          = ⟨{ e with state := e.state.after .resume }, .inFlight t, none⟩ := by
        simp only [Drive.make, Engine.answerSignal_engine]
      have hrest := h.of_cons
      rw [Drive.follow, hm] at ho ⊢
      rw [hm] at hrest
      exact ih (e := { e with state := e.state.after .resume })
        (show e.state.after .resume = .running by rw [hr]; rfl) hrest ho
    | poll fuel =>
      have hm := Drive.make_poll (d := (⟨e, .inFlight t, none⟩ : Drive σ)) rfl fuel
      have hrest := h.of_cons
      have hon : OnCourse (t.config e) (t.config e) := ⟨hr, fun outcome m => Iff.rfl⟩
      have halong : Along (OnCourse (t.config e)) fuel (t.config e) :=
        hon.along fun d hd => h.2 d (List.mem_append_left _ hd)
      rw [Drive.follow, hm] at ho ⊢
      rw [hm] at hrest
      -- where the poll leads, and what the rest of the schedule makes of it
      have hgo : ∀ c', (advance fuel (t.config e)).config? = some c' →
          (⟨c'.machine.engine, .inFlight c'.thread, none⟩ : Drive σ).Undisturbed moves →
          ((⟨c'.machine.engine, .inFlight c'.thread, none⟩ : Drive σ).follow moves).outcome?
            = some outcome →
          Arrives (t.config e) outcome
            ((⟨c'.machine.engine, .inFlight c'.thread, none⟩ : Drive σ).follow moves) := by
        intro c' hc' hrest ho
        obtain ⟨hr', hiff⟩ := halong.waits c' hc'
        obtain ⟨m, hcourse, hend⟩ := ih hr' hrest ho
        exact ⟨m, (hiff outcome m).1 hcourse, hend⟩
      cases ha : advance fuel (t.config e) with
      | go c' =>
        rw [ha] at ho hrest
        exact hgo c' (by rw [ha]; rfl) hrest ho
      | suspend why c' =>
        rw [ha] at ho hrest
        exact hgo c' (by rw [ha]; rfl) hrest ho
      | resolved outcome' m =>
        rw [ha] at ho
        obtain ⟨d, hd, hs⟩ := halong.ends outcome' m ha
        obtain ⟨e', hf, hcalm, hidle⟩ :=
          Drive.follow_ended moves m.engine.release (some outcome')
        simp only [hf] at ho ⊢
        cases ho
        exact ⟨m.calm, (hd.2 _ _).1 (resolved_course hd.1 hs), hcalm, hidle.2 rfl⟩

/-- An undisturbed run on an idle engine ends, if it does, at the end of its course. -/
theorem Drive.start_arrives {moves : List Move} {e : Engine σ} {source : String}
    {program : List Value} {outcome : Outcome} (he : e.state = .idle)
    (hp : parse source = .ok program) (h : (Drive.start e source).Undisturbed moves)
    (ho : ((Drive.start e source).follow moves).outcome? = some outcome) :
    Arrives ((Thread.start program).config e) outcome ((Drive.start e source).follow moves) := by
  induction moves generalizing e with
  | nil => cases ho
  | cons move moves ih =>
    cases move with
    | elapse n => exact ih (e := e.elapse n) he h.of_cons ho
    | toss b => exact ih (e := { e with answersFirst := b }) he h.of_cons ho
    | signal s =>
      have hm : (Drive.start e source).make (.signal s)
          = Drive.start { e with state := e.state.after s } source := by
        simp only [Drive.make, Drive.start, Engine.answerSignal_engine]
      have hrest := h.of_cons
      rw [Drive.follow, hm] at ho ⊢
      rw [hm] at hrest
      exact ih (e := { e with state := e.state.after s }) ((RunState.after_eq_idle _ _).2 he) hrest ho
    | poll fuel =>
      have hm := Drive.start_make_poll he hp fuel
      have hbegun : (Drive.begun e program).Undisturbed (.poll fuel :: moves) := by
        refine ⟨h.1, fun c hc => h.2 c ?_⟩
        rw [Drive.moments, Drive.start_momentsOf he hp, hm]
        exact hc
      have hfollow : (Drive.start e source).follow (.poll fuel :: moves)
          = (Drive.begun e program).follow (.poll fuel :: moves) := by
        rw [Drive.follow, hm]
        rfl
      rw [hfollow] at ho ⊢
      exact Drive.follow_arrives rfl hbegun ho

/-! ### Courses are taken -/

/-- A running run whose course comes to an end. -/
def Config.Promising (c : Config σ) : Prop :=
  c.machine.engine.state = .running ∧ ∃ outcome m, Course c.calm outcome m

theorem Config.Promising.handsOff {c : Config σ} (h : c.Promising) : c.HandsOff := by
  obtain ⟨hr, outcome, m, hc⟩ := h
  exact (handsOff_calm_iff hr).1 hc.handsOff

theorem steady_promising : Steady (Config.Promising : Config σ → Prop) where
  awake := fun c hc => hc.handsOff.awake hc.1
  running := fun c hc => hc.1
  step := by
    intro c c' hc hs
    refine ⟨step_running hc.handsOff hc.1 hs, ?_⟩
    obtain ⟨outcome, m, hcourse⟩ := hc.2
    exact ⟨outcome, m, (step_course hc.handsOff hc.1 hs).2 hcourse⟩
  elapse := fun t e n hc => hc

/-- Wherever the run is polled next, it is in the class. -/
def Drive.Within (G : Config σ → Prop) (d : Drive σ) : Prop :=
  ∀ c, d.run.opening? d.engine = some c → G c

theorem Drive.Within.make {G : Config σ → Prop} (hG : Steady G) {d : Drive σ} (hd : d.Within G)
    {fuel : Nat} {move : Move} (hm : move = .poll fuel ∨ ∃ n, move = .elapse n) :
    (d.make move).Within G ∧ ∀ c ∈ d.momentsOf move, G c := by
  obtain rfl | ⟨n, rfl⟩ := hm
  · simp only [Drive.momentsOf]
    cases ho : d.run.opening? d.engine with
    | none =>
      refine ⟨fun c hc => ?_, fun c hc => by cases hc⟩
      rw [(Drive.make_poll_of_none ho fuel).1] at hc
      cases hc
    | some c =>
      have halong : Along G fuel c := .of_step (hd c ho) fun d _ => hG.step d
      refine ⟨?_, halong.moments⟩
      rw [Drive.make_poll ho]
      cases ha : advance fuel c with
      | go c' =>
        intro d hd
        cases hd
        exact halong.waits c' (by rw [ha]; rfl)
      | suspend why c' =>
        intro d hd
        cases hd
        exact halong.waits c' (by rw [ha]; rfl)
      | resolved outcome m =>
        intro d hd
        cases hd
  · refine ⟨?_, fun c hc => by cases hc⟩
    obtain ⟨e, r, o⟩ := d
    intro c hc
    cases r with
    | inFlight t =>
      cases hc
      exact hG.elapse t e n (hd _ rfl)
    | ended => cases hc
    | created source =>
      have hstate : (e.elapse n).state = e.state := rfl
      simp only [Drive.make, Run.opening?, hstate] at hc
      have hopening := hd
      simp only [Drive.Within, Run.opening?] at hopening
      split at hc
      · rename_i state program hb hp
        cases hc
        refine hG.elapse _ { e with state } n (hopening _ ?_)
        simp only [hb, hp]
      · cases hc

theorem Drive.Within.moments {G : Config σ → Prop} (hG : Steady G) {fuel : Nat} {moves : List Move}
    (hq : Quiet fuel moves) {d : Drive σ} (hd : d.Within G) : ∀ c ∈ d.moments moves, G c := by
  induction moves generalizing d with
  | nil =>
    intro c hc
    cases hc
  | cons move moves ih =>
    intro c hc
    obtain ⟨hnext, hnow⟩ := hd.make hG (hq move List.mem_cons_self)
    obtain hc | hc := List.mem_append.1 hc
    · exact hnow c hc
    · exact ih (fun move hm => hq move (List.mem_cons_of_mem _ hm)) hnext c hc

/-- Polls and passing time alone drive the run to this outcome, and nobody disturbs it then. -/
def Drive.ComesTo (d : Drive σ) (outcome : Outcome) : Prop :=
  ∃ steps, ∀ fuel, steps ≤ fuel → ∃ moves, Quiet fuel moves ∧ d.Undisturbed moves ∧
    (d.follow moves).outcome? = some outcome

theorem Drive.start_comesTo {e : Engine σ} {source : String} {program : List Value}
    {outcome : Outcome} {m : Machine σ} (he : e.state = .idle) (hp : parse source = .ok program)
    (hc : Course ((Thread.start program).config e).calm outcome m) :
    (Drive.start e source).ComesTo outcome := by
  have hbegin : e.state.begin = .ok .running := by rw [he]; rfl
  have hopen : (Drive.start e source).run.opening? (Drive.start e source).engine
      = some ((Thread.start program).config { e with state := .running }) := by
    simp only [Drive.start, Run.opening?, hbegin, hp]
  have hpromising : ((Thread.start program).config { e with state := .running }).Promising :=
    ⟨rfl, outcome, m, hc⟩
  obtain ⟨n, hn⟩ := hc.fate
  refine ⟨n + 1, fun fuel hf => ?_⟩
  have hfinishes : (Drive.start e source).Finishes fuel outcome := by
    refine .of_make (.poll fuel) (.inl rfl) ?_
    exact make_poll_finishes steady_promising outcome m hopen hpromising (not_parked_start _ _) hn
      (by omega) fun k hk => finishable steady_promising outcome m (by omega)
  obtain ⟨moves, hq, ho⟩ := hfinishes
  have hwithin : (Drive.start e source).Within Config.Promising := by
    intro c hc
    rw [hopen] at hc
    cases hc
    exact hpromising
  refine ⟨moves, hq, ⟨fun s hs => ?_, fun c hc => ?_⟩, ho⟩
  · obtain h | ⟨n, h⟩ := hq _ hs
    · cases h
    · cases h
  · exact (hwithin.moments steady_promising hq c hc).handsOff

/-- Functions that send no signals leave a quiet schedule undisturbed. -/
theorem Drive.start_undisturbed {e : Engine σ} (hh : ∀ h ∈ e.hosts, h.Oblivious) (source : String)
    {fuel : Nat} {moves : List Move} (hq : Quiet fuel moves) :
    (Drive.start e source).Undisturbed moves := by
  have hwithin : (Drive.start e source).Within
      fun c => c.Driven ∧ c.machine.engine.state = .running := by
    have hmeets := Drive.start_meets
      (fun c : Config σ => c.Driven ∧ c.machine.engine.state = .running) e source
    exact fun c hc => hmeets.opening (fun program => ⟨⟨.inl rfl, hh⟩, rfl⟩) hc
  refine ⟨fun s hs => ?_, fun c hc s hs => ?_⟩
  · obtain h | ⟨n, h⟩ := hq _ hs
    · cases h
    · cases h
  · rw [hostWork_signals (hwithin.moments steady_driven hq c hc).1.hosts] at hs
    cases hs

end Logo
