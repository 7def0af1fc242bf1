import Logo.Proofs.Effects
import Mathlib.Logic.Function.Basic

/-!
# One run at a time

Runs are made, polled and dropped in any order on one engine, and in between the host sends
signals, sets and binds names. A bench is the engine with all of its runs, each in a place of
its own. The engine is idle exactly as long as no run is in flight, and there is never more
than one: whoever comes while another run has the engine is turned away at the first poll,
which nobody else can notice (`one_run_at_a_time`).
-/

namespace Logo
set_option autoImplicit false

variable {σ : Type}

def Run.isInFlight : Run → Bool
  | .inFlight _ => true
  | .created _ | .ended => false

/-- What a host can do to an engine apart from its runs. -/
inductive Handling (σ : Type) where
  | signal (s : Signal)
  | set (name : String) (v : Value)
  | bind (name : String) (f : HostFunction σ)
  | elapse (nanoseconds : Nat)
  | toss (answersFirst : Bool)

def Engine.handle (e : Engine σ) : Handling σ → Engine σ
  | .signal s => (e.answerSignal s).2
  | .set name v => e.setGlobal name v
  | .bind name f => e.bindHost name f
  | .elapse nanoseconds => e.elapse nanoseconds
  | .toss answersFirst => { e with answersFirst }

/-- What can be done on a bench. -/
inductive Deed (σ : Type) where
  /-- Make a run, to be polled later; one that was in its place is dropped. -/
  | start (place : Nat) (source : String)
  | poll (place fuel : Nat)
  | drop (place : Nat)
  | handle (h : Handling σ)

/-- The place of the run that is dealt with. -/
def Deed.place? : Deed σ → Option Nat
  | .start place _ | .poll place _ | .drop place => some place
  | .handle _ => none

/-- An engine and its runs. A place without a run is like one whose run has ended. -/
structure Bench (σ : Type) where
  engine : Engine σ
  runs : Nat → Run

namespace Bench

/-- An engine without runs. -/
def of (e : Engine σ) : Bench σ := ⟨e, fun _ => .ended⟩

/-- The bench with `r` in a place. -/
def put (b : Bench σ) (place : Nat) (r : Run) (e : Engine σ) : Bench σ :=
  ⟨e, Function.update b.runs place r⟩

def make (b : Bench σ) : Deed σ → Bench σ
  | .start place source => b.put place (.created source) (b.engine.drop (b.runs place))
  | .poll place fuel =>
    let polled := b.engine.poll fuel (b.runs place)
    b.put place polled.2.1 polled.2.2
  | .drop place => b.put place .ended (b.engine.drop (b.runs place))
  | .handle h => { b with engine := b.engine.handle h }

def follow (b : Bench σ) : List (Deed σ) → Bench σ
  | [] => b
  | deed :: deeds => (b.make deed).follow deeds

/-- What a poll answers. -/
def answer? (b : Bench σ) : Deed σ → Option Polled
  | .poll place fuel => some (b.engine.poll fuel (b.runs place)).1
  | _ => none

/-- What is answered along the way. -/
def answers (b : Bench σ) : List (Deed σ) → List (Option Polled)
  | [] => []
  | deed :: deeds => b.answer? deed :: (b.make deed).answers deeds

/-- The moments at which a deed takes steps of a run. -/
def momentsOf (b : Bench σ) : Deed σ → List (Config σ)
  | .poll place fuel =>
    match (b.runs place).opening? b.engine with
    | some c => c.moments fuel
    | none => []
  | _ => []

def moments (b : Bench σ) : List (Deed σ) → List (Config σ)
  | [] => []
  | deed :: deeds => b.momentsOf deed ++ (b.make deed).moments deeds

/-- A run has begun in this place and has neither ended nor been dropped. -/
def InFlight (b : Bench σ) (place : Nat) : Prop := ∃ t, b.runs place = .inFlight t

theorem inFlight_iff {b : Bench σ} {place : Nat} :
    b.InFlight place ↔ (b.runs place).isInFlight = true := by
  unfold InFlight Run.isInFlight
  cases b.runs place <;> simp

/-- Something can be done on the bench so that a run takes a step at this moment, or waits
there. -/
inductive Reaches (b : Bench σ) (c : Config σ) : Prop where
  | steps (deeds : List (Deed σ)) : c ∈ b.moments deeds → Reaches b c
  | waits (deeds : List (Deed σ)) (place : Nat) (t : Thread) :
      (b.follow deeds).runs place = .inFlight t → c = t.config (b.follow deeds).engine → Reaches b c

end Bench

/-! ### A single poll -/

/-- Who comes while another run has the engine is turned away. -/
theorem Engine.poll_created_of_ne_idle {e : Engine σ} (he : e.state ≠ .idle) (source : String)
    (fuel : Nat) :
    e.poll fuel (.created source) = (.resolved (.error .alreadyRunning), .ended, e) := by
  have hb : e.state.begin = .error .alreadyRunning := by
    unfold RunState.begin
    split
    · rename_i h
      exact absurd h he
    · rfl
  simp only [Engine.poll, hb]

theorem Run.opening?_state {e : Engine σ} {r : Run} {c : Config σ}
    (hr : ∀ t, r = .inFlight t → e.state ≠ .idle) (hc : r.opening? e = some c) :
    c.machine.engine.state ≠ .idle := by
  refine Drive.Meets.opening (d := ⟨e, r, none⟩) (P := fun c => c.machine.engine.state ≠ .idle)
    hr ?_ hc
  exact fun program => lasting_ne_idle.start e program

/-- What a poll of `r` can lead to. -/
inductive Engine.PollsTo (e : Engine σ) (r : Run) : Polled × Run × Engine σ → Prop where
  /-- The run had ended before, or is turned away. -/
  | nothing (answer : Polled) : (∀ t, r ≠ .inFlight t) → PollsTo e r (answer, .ended, e)
  /-- The run has the engine and keeps it. -/
  | holds {answer : Polled} {t : Thread} {e' : Engine σ} :
      e.state = .idle ∨ (∃ t, r = .inFlight t) → (∀ outcome, answer ≠ .resolved outcome) →
      e'.state ≠ .idle → PollsTo e r (answer, .inFlight t, e')
  /-- The run had the engine, or took hold of it, and has ended. -/
  | releases {outcome : Outcome} {e' : Engine σ} :
      e.state = .idle ∨ (∃ t, r = .inFlight t) → e'.state = .idle →
      PollsTo e r (.resolved outcome, .ended, e')

/-- A run that is not turned away has the engine exactly as long as it is in flight. -/
theorem Engine.poll_cases {e : Engine σ} {r : Run} (hr : ∀ t, r = .inFlight t → e.state ≠ .idle)
    (fuel : Nat) : e.PollsTo r (e.poll fuel r) := by
  have hopened : ∀ c, r.opening? e = some c → e.state = .idle ∨ (∃ t, r = .inFlight t) →
      e.PollsTo r (e.poll fuel r) := by
    intro c hc htaken
    have halong : Along (fun c => c.machine.engine.state ≠ .idle) fuel c :=
      .of_step (Run.opening?_state hr hc) fun d _ => lasting_ne_idle.step d
    rw [Engine.poll_of_opening? hc]
    cases ha : advance fuel c with
    | go c' => exact .holds htaken (fun outcome h => by cases h) (halong.waits c' (by rw [ha]; rfl))
    | suspend why c' =>
      exact .holds htaken (fun outcome h => by cases h) (halong.waits c' (by rw [ha]; rfl))
    | resolved outcome m => exact .releases htaken rfl
  cases r with
  | ended => exact .nothing _ fun t h => by cases h
  | inFlight t => exact hopened (t.config e) rfl (.inr ⟨t, rfl⟩)
  | created source =>
    by_cases he : e.state = .idle
    · have hb : e.state.begin = .ok .running := by rw [he]; rfl
      cases hp : parse source with
      | error f =>
        simp only [Engine.poll, hb, hp]
        exact .releases (.inl he) rfl
      | ok program =>
        refine hopened ((Thread.start program).config { e with state := .running }) ?_ (.inl he)
        simp only [Run.opening?, hb, hp]
    · rw [Engine.poll_created_of_ne_idle he]
      exact .nothing _ fun t h => by cases h

/-- A run that cannot be opened ends at once. -/
theorem Engine.poll_of_closed {e : Engine σ} {r : Run} (hc : r.opening? e = none) (fuel : Nat) :
    (e.poll fuel r).2 = (.ended, e) ∨ (e.poll fuel r).2 = (.ended, e.release) := by
  cases r with
  | inFlight t => cases hc
  | ended => exact .inl rfl
  | created source =>
    simp only [Run.opening?] at hc
    simp only [Engine.poll]
    cases hb : e.state.begin with
    | error f => exact .inl rfl
    | ok state =>
      cases hp : parse source with
      | error f => exact .inr rfl
      | ok program => simp [hb, hp] at hc

/-! ### Who has the engine -/

namespace Bench

theorem inFlight_put_self {b : Bench σ} {place : Nat} {r : Run} {e : Engine σ} :
    (b.put place r e).InFlight place ↔ ∃ t, r = .inFlight t := by
  simp only [InFlight, put, Function.update_self]

theorem inFlight_put_of_ne {b : Bench σ} {place j : Nat} {r : Run} {e : Engine σ}
    (hj : j ≠ place) : (b.put place r e).InFlight j ↔ b.InFlight j := by
  simp only [InFlight, put, Function.update_of_ne hj]

/-- The run in this place has the engine, or none has it. -/
structure HeldBy (b : Bench σ) (holder : Option Nat) : Prop where
  idle : b.engine.state = .idle ↔ holder = none
  inFlight : ∀ place, b.InFlight place ↔ holder = some place

theorem heldBy_of {e : Engine σ} (he : e.state = .idle) : (of e).HeldBy none :=
  ⟨⟨fun _ => rfl, fun _ => he⟩, fun place => ⟨fun ⟨t, ht⟩ => (by cases ht), fun h => (by cases h)⟩⟩

/-- No run has the engine once the only one that had it has left. -/
theorem heldBy_none {b : Bench σ} {place : Nat} {r : Run} {e : Engine σ}
    (hb : ∀ j, b.InFlight j → j = place) (hr : ∀ t, r ≠ .inFlight t) (he : e.state = .idle) :
    (b.put place r e).HeldBy none := by
  refine ⟨⟨fun _ => rfl, fun _ => he⟩, fun j => ⟨fun hin => ?_, fun hs => by cases hs⟩⟩
  by_cases hj : j = place
  · subst hj
    obtain ⟨t, ht⟩ := inFlight_put_self.1 hin
    exact absurd ht (hr t)
  · exact absurd (hb j ((inFlight_put_of_ne hj).1 hin)) hj

/-- The run in this place has the engine if no other one has it. -/
theorem heldBy_some {b : Bench σ} {place : Nat} (t : Thread) {e : Engine σ}
    (hb : ∀ j, b.InFlight j → j = place) (he : e.state ≠ .idle) :
    (b.put place (.inFlight t) e).HeldBy (some place) := by
  refine ⟨⟨fun hi => absurd hi he, fun hs => by cases hs⟩, fun j => ?_⟩
  by_cases hj : j = place
  · subst hj
    exact ⟨fun _ => rfl, fun _ => inFlight_put_self.2 ⟨t, rfl⟩⟩
  · refine ⟨fun hin => ?_, fun hs => absurd (Option.some.inj hs).symm hj⟩
    exact absurd (hb j ((inFlight_put_of_ne hj).1 hin)) hj

namespace HeldBy

variable {b : Bench σ} {holder : Option Nat}

theorem ne_idle (h : b.HeldBy holder) {place : Nat} (hp : b.InFlight place) :
    b.engine.state ≠ .idle := by
  intro he
  have hnone := h.idle.1 he
  rw [(h.inFlight place).1 hp] at hnone
  cases hnone

theorem eq_of_inFlight (h : b.HeldBy holder) {i j : Nat} (hi : b.InFlight i) (hj : b.InFlight j) :
    i = j :=
  Option.some.inj (((h.inFlight i).1 hi).symm.trans ((h.inFlight j).1 hj))

/-- A run that could take hold of the engine has no rival. -/
theorem eq_of_taken (h : b.HeldBy holder) {place : Nat}
    (ht : b.engine.state = .idle ∨ b.InFlight place) (j : Nat) (hj : b.InFlight j) : j = place := by
  obtain he | hp := ht
  · exact absurd he (h.ne_idle hj)
  · exact h.eq_of_inFlight hj hp

/-- A run that has not begun makes place for another such. -/
theorem put_same (h : b.HeldBy holder) {place : Nat} {r : Run} (hb : ¬ b.InFlight place)
    (hr : ∀ t, r ≠ .inFlight t) : (b.put place r b.engine).HeldBy holder := by
  refine ⟨h.idle, fun j => ?_⟩
  by_cases hj : j = place
  · subst hj
    refine ⟨fun hin => ?_, fun hs => absurd ((h.inFlight j).2 hs) hb⟩
    obtain ⟨t, ht⟩ := inFlight_put_self.1 hin
    exact absurd ht (hr t)
  · exact (inFlight_put_of_ne hj).trans (h.inFlight j)

/-- A run that is dropped gives the engine back if it had it. -/
theorem put_drop (h : b.HeldBy holder) (place : Nat) {r : Run} (hr : ∀ t, r ≠ .inFlight t) :
    ∃ holder', (b.put place r (b.engine.drop (b.runs place))).HeldBy holder' := by
  by_cases hin : b.InFlight place
  · obtain ⟨t, ht⟩ := id hin
    refine ⟨none, heldBy_none (h.eq_of_taken (.inr hin)) hr ?_⟩
    rw [ht]
    rfl
  · have hdrop : b.engine.drop (b.runs place) = b.engine := by
      cases hb : b.runs place with
      | inFlight t => exact absurd ⟨t, hb⟩ hin
      | created source => rfl
      | ended => rfl
    rw [hdrop]
    exact ⟨holder, h.put_same hin hr⟩

theorem handle (h : b.HeldBy holder) (handling : Handling σ) :
    (b.make (.handle handling)).HeldBy holder := by
  refine ⟨?_, h.inFlight⟩
  cases handling with
  | signal s =>
    have hs : (b.make (.handle (.signal s))).engine.state = b.engine.state.after s :=
      congrArg Engine.state (b.engine.answerSignal_engine s)
    rw [hs, ← h.idle]
    cases b.engine.state <;> cases s <;> decide
  | _ => exact h.idle

theorem make (h : b.HeldBy holder) (deed : Deed σ) : ∃ holder', (b.make deed).HeldBy holder' := by
  cases deed with
  | start place source => exact h.put_drop place fun t ht => by cases ht
  | drop place => exact h.put_drop place fun t ht => by cases ht
  | handle handling => exact ⟨holder, h.handle handling⟩
  | poll place fuel =>
    have hpoll := Engine.poll_cases (r := b.runs place) (fun t ht => h.ne_idle ⟨t, ht⟩) fuel
    simp only [Bench.make]
    generalize b.engine.poll fuel (b.runs place) = polled at hpoll
    cases hpoll with
    | nothing answer hne =>
      refine ⟨holder, h.put_same ?_ fun t ht => by cases ht⟩
      exact fun ⟨t, ht⟩ => hne t ht
    | holds ht _ he => exact ⟨some place, heldBy_some _ (h.eq_of_taken ht) he⟩
    | releases ht he => exact ⟨none, heldBy_none (h.eq_of_taken ht) (fun t ht => by cases ht) he⟩

theorem follow (h : b.HeldBy holder) (deeds : List (Deed σ)) :
    ∃ holder', (b.follow deeds).HeldBy holder' := by
  induction deeds generalizing b holder with
  | nil => exact ⟨holder, h⟩
  | cons deed deeds ih =>
    obtain ⟨holder', h'⟩ := h.make deed
    exact ih h'

end HeldBy

/-! ### What others notice -/

/-- The same engine, and the same runs but for one. -/
structure Alike (place : Nat) (b b' : Bench σ) : Prop where
  engine : b'.engine = b.engine
  runs : ∀ j, j ≠ place → b'.runs j = b.runs j

namespace Alike

variable {b b' : Bench σ} {place : Nat}

theorem put (h : Alike place b b') {j : Nat} (r : Run) (e : Engine σ) :
    Alike place (b.put j r e) (b'.put j r e) := by
  refine ⟨rfl, fun k hk => ?_⟩
  by_cases hkj : k = j
  · subst hkj
    simp only [Bench.put, Function.update_self]
  · simp only [Bench.put, Function.update_of_ne hkj]
    exact h.runs k hk

/-- What is done elsewhere is done alike and answered alike. -/
theorem make (h : Alike place b b') {deed : Deed σ} (hd : deed.place? ≠ some place) :
    Alike place (b.make deed) (b'.make deed) ∧ b'.answer? deed = b.answer? deed := by
  have hrun : ∀ {j}, some j ≠ some place → b'.runs j = b.runs j := fun hj =>
    h.runs _ fun he => hj (congrArg some he)
  cases deed with
  | start j source =>
    simp only [Bench.make, h.engine, hrun hd]
    exact ⟨h.put _ _, rfl⟩
  | drop j =>
    simp only [Bench.make, h.engine, hrun hd]
    exact ⟨h.put _ _, rfl⟩
  | poll j fuel =>
    refine ⟨?_, ?_⟩
    · simp only [Bench.make, h.engine, hrun hd]
      exact h.put _ _
    · simp only [answer?, h.engine, hrun hd]
  | handle handling =>
    refine ⟨⟨?_, h.runs⟩, rfl⟩
    simp only [Bench.make, h.engine]

theorem follow (h : Alike place b b') {deeds : List (Deed σ)}
    (hd : ∀ deed ∈ deeds, deed.place? ≠ some place) :
    Alike place (b.follow deeds) (b'.follow deeds) ∧ b'.answers deeds = b.answers deeds := by
  induction deeds generalizing b b' with
  | nil => exact ⟨h, rfl⟩
  | cons deed deeds ih =>
    obtain ⟨hmake, hanswer⟩ := h.make (hd deed List.mem_cons_self)
    obtain ⟨hfollow, hanswers⟩ := ih hmake fun deed hm => hd deed (List.mem_cons_of_mem _ hm)
    refine ⟨hfollow, ?_⟩
    rw [answers, answers, hanswer, hanswers]

end Alike

/-- The first poll of the run in this place turns it away. The engine and the other runs stay
as they are, and so does all that happens to them later. -/
structure TurnsAway (b : Bench σ) (place fuel : Nat) : Prop where
  answer : ∃ f, b.answer? (.poll place fuel) = some (.resolved (.error f)) ∧ f.kind = .usage ∧
    f.message = "a program is already running" ∧ Completion.of (.error f) = .failed f
  ended : (b.make (.poll place fuel)).runs place = .ended
  alike : Alike place b (b.make (.poll place fuel))
  later : ∀ deeds : List (Deed σ), (∀ deed ∈ deeds, deed.place? ≠ some place) →
    Alike place (b.follow deeds) ((b.make (.poll place fuel)).follow deeds) ∧
      (b.make (.poll place fuel)).answers deeds = b.answers deeds

theorem turnsAway {b : Bench σ} (hb : b.engine.state ≠ .idle) {place : Nat} {source : String}
    (hr : b.runs place = .created source) (fuel : Nat) : b.TurnsAway place fuel := by
  have hpoll := Engine.poll_created_of_ne_idle hb source fuel
  have hmake : b.make (.poll place fuel) = b.put place .ended b.engine := by
    simp only [make, hr, hpoll]
  have halike : Alike place b (b.make (.poll place fuel)) := by
    rw [hmake]
    refine ⟨rfl, fun j hj => ?_⟩
    simp only [put, Function.update_of_ne hj]
  refine ⟨?_, ?_, halike, fun deeds hd => halike.follow hd⟩
  · refine ⟨.alreadyRunning, ?_, rfl, rfl, rfl⟩
    simp only [answer?, hr, hpoll]
  · rw [hmake]
    simp only [put, Function.update_self]

/-! ### What lasts on a bench -/

/-- A condition on engines and one on the moments of runs that starting a run, steps, the end
of a run and the host preserve. -/
structure Lasting (E : Engine σ → Prop) (P : Config σ → Prop) : Prop where
  start : ∀ e program, E e → P ((Thread.start program).config { e with state := .running })
  step : ∀ c c', P c → (step c).config? = some c' → P c'
  engine : ∀ c, P c → E c.machine.engine
  release : ∀ e, E e → E e.release
  handle : ∀ e h, E e → E (e.handle h)
  suspended : ∀ (t : Thread) e h, P (t.config e) → P (t.config (e.handle h))

/-- The same, as long as each step is taken where `A` holds and the host keeps to `H`. A run
begins with what a source is read as. -/
structure LastingWhile (A : Config σ → Prop) (H : Engine σ → Handling σ → Prop)
    (E : Engine σ → Prop) (P : Config σ → Prop) : Prop where
  start : ∀ e source program, parse source = .ok program → E e →
    P ((Thread.start program).config { e with state := .running })
  step : ∀ c c', A c → P c → (step c).config? = some c' → P c'
  engine : ∀ c, P c → E c.machine.engine
  release : ∀ e, E e → E e.release
  handle : ∀ e h, H e h → E e → E (e.handle h)
  suspended : ∀ (t : Thread) e h, H e h → P (t.config e) → P (t.config (e.handle h))

theorem Lasting.always {E : Engine σ → Prop} {P : Config σ → Prop} (hl : Lasting E P) :
    LastingWhile (fun _ => True) (fun _ _ => True) E P where
  start := fun e _ program _ => hl.start e program
  step := fun c c' _ => hl.step c c'
  engine := hl.engine
  release := hl.release
  handle := fun e h _ => hl.handle e h
  suspended := fun t e h _ => hl.suspended t e h

/-- In what is done each step is taken where `A` holds, and the host keeps to `H`. -/
def Abides (A : Config σ → Prop) (H : Engine σ → Handling σ → Prop) (b : Bench σ) :
    List (Deed σ) → Prop
  | [] => True
  | deed :: deeds => (∀ c ∈ b.momentsOf deed, A c) ∧ (∀ h, deed = .handle h → H b.engine h) ∧
      (b.make deed).Abides A H deeds

theorem abides_of_forall {A : Config σ → Prop} {H : Engine σ → Handling σ → Prop} (hA : ∀ c, A c)
    (hH : ∀ e h, H e h) (b : Bench σ) (deeds : List (Deed σ)) : b.Abides A H deeds := by
  induction deeds generalizing b with
  | nil => trivial
  | cons deed deeds ih => exact ⟨fun c _ => hA c, fun h _ => hH b.engine h, ih _⟩

/-- The conditions hold of the engine and of the run that is in flight. -/
structure Meets (E : Engine σ → Prop) (P : Config σ → Prop) (b : Bench σ) : Prop where
  engine : E b.engine
  runs : ∀ place t, b.runs place = .inFlight t → P (t.config b.engine)

theorem meets_of {E : Engine σ → Prop} {e : Engine σ} (he : E e) (P : Config σ → Prop) :
    (of e).Meets E P :=
  ⟨he, fun place t ht => by cases ht⟩

namespace Meets

variable {A : Config σ → Prop} {H : Engine σ → Handling σ → Prop}
variable {E : Engine σ → Prop} {P : Config σ → Prop} {b : Bench σ} {holder : Option Nat}

/-- An idle engine has no run in flight of which anything had to hold. -/
theorem of_idle (hb : b.HeldBy holder) (he : E b.engine) (hi : b.engine.state = .idle) :
    b.Meets E P :=
  ⟨he, fun _ t ht => absurd hi (hb.ne_idle ⟨t, ht⟩)⟩

theorem put_same (h : b.Meets E P) (place : Nat) {r : Run} (hr : ∀ t, r ≠ .inFlight t) :
    (b.put place r b.engine).Meets E P := by
  refine ⟨h.engine, fun j t ht => ?_⟩
  by_cases hj : j = place
  · subst hj
    simp only [put, Function.update_self] at ht
    exact absurd ht (hr t)
  · simp only [put, Function.update_of_ne hj] at ht
    exact h.runs j t ht

theorem put_drop (h : b.Meets E P) (hl : LastingWhile A H E P) (hb : b.HeldBy holder) (place : Nat)
    {r : Run} (hr : ∀ t, r ≠ .inFlight t) :
    (b.put place r (b.engine.drop (b.runs place))).Meets E P := by
  obtain ⟨holder', hb'⟩ := hb.put_drop place hr
  cases hrun : b.runs place with
  | inFlight t =>
    rw [hrun] at hb'
    exact of_idle hb' (hl.release b.engine h.engine) rfl
  | _ => exact h.put_same place hr

/-- The condition holds all along a poll. -/
theorem along (h : b.Meets E P) (hl : LastingWhile A H E P) {place fuel : Nat} {c : Config σ}
    (hc : (b.runs place).opening? b.engine = some c)
    (ha : ∀ d ∈ b.momentsOf (.poll place fuel), A d) : Along P fuel c := by
  have hopens : P c := by
    obtain ⟨source, program, -, hp, rfl⟩ | ⟨t, ht, rfl⟩ := Run.opening?_cases hc
    · exact hl.start b.engine source program hp h.engine
    · exact h.runs place t ht
  refine .of_step hopens fun d hd d' => hl.step d d' (ha d ?_)
  simpa only [Bench.momentsOf, hc] using hd

theorem make_poll (h : b.Meets E P) (hl : LastingWhile A H E P) (hb : b.HeldBy holder)
    (place fuel : Nat) (ha : ∀ d ∈ b.momentsOf (.poll place fuel), A d) :
    (b.make (.poll place fuel)).Meets E P := by
  obtain ⟨holder', hb'⟩ := hb.make (.poll place fuel)
  cases hc : (b.runs place).opening? b.engine with
  | none =>
    simp only [Bench.make] at hb' ⊢
    obtain hp | hp := Engine.poll_of_closed hc fuel
    · rw [hp] at hb' ⊢
      exact h.put_same place fun t ht => by cases ht
    · rw [hp] at hb' ⊢
      exact of_idle hb' (hl.release _ h.engine) rfl
  | some c =>
    have halong : Along P fuel c := h.along hl hc ha
    have hmake : b.make (.poll place fuel)
        = b.put place (advance fuel c).polled.2.1 (advance fuel c).polled.2.2 := by
      simp only [make, Engine.poll_of_opening? hc]
    rw [hmake] at hb' ⊢
    have hwaits : ∀ c', (advance fuel c).config? = some c' →
        (b.put place (.inFlight c'.thread) c'.machine.engine).HeldBy holder' →
        (b.put place (.inFlight c'.thread) c'.machine.engine).Meets E P := by
      intro c' hc' hb'
      refine ⟨hl.engine c' (halong.waits c' hc'), fun j t ht => ?_⟩
      obtain rfl : j = place := hb'.eq_of_inFlight ⟨t, ht⟩ (inFlight_put_self.2 ⟨_, rfl⟩)
      simp only [put, Function.update_self] at ht
      cases ht
      exact halong.waits c' hc'
    cases ha : advance fuel c with
    | go c' =>
      rw [ha] at hb'
      exact hwaits c' (by rw [ha]; rfl) hb'
    | suspend why c' =>
      rw [ha] at hb'
      exact hwaits c' (by rw [ha]; rfl) hb'
    | resolved outcome m =>
      rw [ha] at hb'
      obtain ⟨d, hd, hs⟩ := halong.ends outcome m ha
      refine of_idle hb' ?_ rfl
      rw [(step_resolved hs).2.1]
      exact hl.release _ (hl.engine d hd)

theorem make (h : b.Meets E P) (hl : LastingWhile A H E P) (hb : b.HeldBy holder) (deed : Deed σ)
    (ha : ∀ c ∈ b.momentsOf deed, A c) (hh : ∀ h, deed = .handle h → H b.engine h) :
    (b.make deed).Meets E P := by
  cases deed with
  | start place source => exact h.put_drop hl hb place fun t ht => by cases ht
  | drop place => exact h.put_drop hl hb place fun t ht => by cases ht
  | poll place fuel => exact h.make_poll hl hb place fuel ha
  | handle handling =>
    have hkeeps := hh handling rfl
    exact ⟨hl.handle b.engine handling hkeeps h.engine,
      fun place t ht => hl.suspended t b.engine handling hkeeps (h.runs place t ht)⟩

theorem momentsOf (h : b.Meets E P) (hl : LastingWhile A H E P) (deed : Deed σ)
    (ha : ∀ c ∈ b.momentsOf deed, A c) : ∀ c ∈ b.momentsOf deed, P c := by
  intro c hm
  cases deed with
  | poll place fuel =>
    cases hc : (b.runs place).opening? b.engine with
    | none =>
      simp only [Bench.momentsOf, hc] at hm
      cases hm
    | some d =>
      refine (h.along hl hc ha).moments c ?_
      simpa only [Bench.momentsOf, hc] using hm
  | _ => cases hm

/-- Conditions that last as long as `A` and `H` do hold all along. -/
theorem followWhile (h : b.Meets E P) (hl : LastingWhile A H E P) (hb : b.HeldBy holder)
    {deeds : List (Deed σ)} (hd : b.Abides A H deeds) :
    (b.follow deeds).Meets E P ∧ ∀ c ∈ b.moments deeds, P c := by
  induction deeds generalizing b holder with
  | nil => exact ⟨h, fun c hc => by cases hc⟩
  | cons deed deeds ih =>
    obtain ⟨holder', hb'⟩ := hb.make deed
    obtain ⟨ha, hh, hrest⟩ := hd
    obtain ⟨hend, hmoments⟩ := ih (h.make hl hb deed ha hh) hb' hrest
    refine ⟨hend, fun c hc => ?_⟩
    obtain hc | hc := List.mem_append.1 hc
    · exact h.momentsOf hl deed ha c hc
    · exact hmoments c hc

/-- Lasting conditions hold all along. -/
theorem follow (h : b.Meets E P) (hl : Lasting E P) (hb : b.HeldBy holder) (deeds : List (Deed σ)) :
    (b.follow deeds).Meets E P ∧ ∀ c ∈ b.moments deeds, P c :=
  h.followWhile hl.always hb (b.abides_of_forall (fun _ => trivial) (fun _ _ => trivial) deeds)

end Meets

theorem Lasting.reaches {E : Engine σ → Prop} {P : Config σ → Prop} (hl : Lasting E P)
    {e : Engine σ} (hi : e.state = .idle) (he : E e) {c : Config σ} (hc : (of e).Reaches c) : P c := by
  have hfollow := fun deeds => (meets_of he P).follow hl (heldBy_of hi) deeds
  cases hc with
  | steps deeds hc => exact (hfollow deeds).2 c hc
  | waits deeds place t ht hc =>
    rw [hc]
    exact (hfollow deeds).1.runs place t ht

/-- A run that takes steps has the engine. -/
theorem lasting_ne_idle : Lasting (fun _ : Engine σ => True) fun c => c.machine.engine.state ≠ .idle where
  start := fun e program _ => Logo.lasting_ne_idle.start e program
  step := Logo.lasting_ne_idle.step
  engine := fun _ _ => trivial
  release := fun _ _ => trivial
  handle := fun _ _ _ => trivial
  suspended := by
    intro t e h he
    cases h with
    | signal s =>
      show (e.answerSignal s).2.state ≠ .idle
      rw [e.answerSignal_engine s]
      exact RunState.after_ne_idle he s
    | _ => exact he

end Bench

/-- **One run at a time.** Whatever has been done on a bench, the engine is not idle exactly when
one run is in flight, and there are never two. A run that is polled for the first time while
another one has the engine is turned away, and nobody else can tell. A refused signal changes
nothing. The engine is idle when a run has ended, by an outcome of its own, by a fault or by being
dropped. Nor can host code start a run inside of the run that calls it, whatever signals it has
sent before. -/
theorem one_run_at_a_time {e : Engine σ} (he : e.state = .idle) (deeds : List (Deed σ)) :
    let b := (Bench.of e).follow deeds
    (b.engine.state ≠ .idle ↔ ∃! place, b.InFlight place) ∧
    (∀ i j, b.InFlight i → b.InFlight j → i = j) ∧
    (b.engine.state ≠ .idle → ∀ place source, b.runs place = .created source →
      ∀ fuel, b.TurnsAway place fuel) ∧
    (∀ s f, b.engine.signal s = .error f → b.make (.handle (.signal s)) = b) ∧
    (∀ place fuel outcome, b.answer? (.poll place fuel) = some (.resolved outcome) →
      b.engine.state = .idle ∨ b.InFlight place →
      (b.make (.poll place fuel)).engine.state = .idle) ∧
    (∀ place, b.InFlight place → (b.make (.drop place)).engine.state = .idle) ∧
    ∀ c ∈ (Bench.of e).moments deeds, ∀ (signals : List Signal) source fuel,
      let e' := { c.machine.engine with
        state := signals.foldl RunState.after c.machine.engine.state }
      e'.poll fuel (.created source) = (.resolved (.error .alreadyRunning), .ended, e') := by
  intro b
  obtain ⟨holder, hb⟩ : ∃ holder, b.HeldBy holder := (Bench.heldBy_of he).follow deeds
  refine ⟨⟨fun hs => ?_, fun ⟨place, hp, _⟩ => hb.ne_idle hp⟩, fun i j => hb.eq_of_inFlight,
    fun hs place source hr => Bench.turnsAway hs hr, fun s f hs => ?_, fun place fuel outcome ho ht => ?_,
    fun place hp => ?_, fun c hc signals source fuel => ?_⟩
  · obtain ⟨place, rfl⟩ : ∃ place, holder = some place :=
      Option.ne_none_iff_exists'.1 fun hn => hs (hb.idle.2 hn)
    have hp : b.InFlight place := (hb.inFlight place).2 rfl
    exact ⟨place, hp, fun j hj => hb.eq_of_inFlight hj hp⟩
  · have hanswer : (b.engine.answerSignal s).2 = b.engine := by
      simp only [Engine.answerSignal, hs]
    show (⟨(b.engine.answerSignal s).2, b.runs⟩ : Bench σ) = b
    rw [hanswer]
  · have hpoll := Engine.poll_cases (r := b.runs place) (fun t ht => hb.ne_idle ⟨t, ht⟩) fuel
    simp only [Bench.answer?, Option.some.injEq] at ho
    simp only [Bench.make, Bench.put]
    generalize b.engine.poll fuel (b.runs place) = polled at hpoll ho
    cases hpoll with
    | nothing answer hne =>
      obtain hi | ⟨t, hp⟩ := ht
      · exact hi
      · exact absurd hp (hne t)
    | holds _ hne _ => exact absurd ho (hne outcome)
    | releases _ hi => exact hi
  · obtain ⟨t, ht⟩ := hp
    simp only [Bench.make, Bench.put, ht]
    rfl
  · have hne := ((Bench.meets_of trivial _).follow Bench.lasting_ne_idle (Bench.heldBy_of he) deeds).2 c hc
    exact Engine.poll_created_of_ne_idle (RunState.foldl_after_ne_idle hne signals) source fuel

namespace Bench

/-- The run in this place has taken hold of the engine, and its source has been read. -/
def begun (b : Bench σ) (place : Nat) (program : List Value) : Bench σ :=
  b.put place (.inFlight (Thread.start program)) { b.engine with state := .running }

theorem begun_make_poll {b : Bench σ} (place : Nat) {source : String} {program : List Value}
    (hb : b.engine.state = .idle) (hr : b.runs place = .created source)
    (hp : parse source = .ok program) (fuel : Nat) :
    (b.begun place program).make (.poll place fuel) = b.make (.poll place fuel) ∧
      (b.begun place program).momentsOf (.poll place fuel) = b.momentsOf (.poll place fuel) := by
  have hbegin : b.engine.state.begin = .ok .running := by rw [hb]; rfl
  constructor
  · simp only [make, begun, put, Function.update_self, Function.update_idem, hr, Engine.poll, hbegin, hp]
  · simp only [momentsOf, begun, put, Function.update_self, hr, Run.opening?, hbegin, hp]

end Bench

namespace Trial

/-- An engine on which `x` waits for the host. -/
def asking : Engine Unit := (Engine.new () .silent 10 false).bindHost "x" answer

/-- Two runs wait for the engine. -/
def awaited : Bench Unit := ((Bench.of asking).make (.start 0 "x")).make (.start 1 "x")

end Trial

/-- Two runs are made, one is polled and then cancelled. -/
theorem one_run_at_a_time_trial :
    let deeds := [.start 0 "x", .start 1 "x", .poll 0 100, .handle (.signal .cancel)]
    let b := (Bench.of Trial.asking).follow deeds
    (∃! place, b.InFlight place) ∧ b.TurnsAway 1 100 ∧ b.make (.handle (.signal .pause)) = b ∧
      b.answer? (.poll 0 100) = some (.resolved (.error .stopped)) ∧
      (b.make (.poll 0 100)).engine.state = .idle ∧ (b.make (.drop 0)).engine.state = .idle ∧
      ∃ c ∈ (Bench.of Trial.asking).moments deeds,
        (c.machine.engine.poll 100 (.created "x")).1 = .resolved (.error .alreadyRunning) := by
  intro deeds b
  obtain ⟨hmake, hmoments⟩ := Bench.begun_make_poll (b := Trial.awaited) 0 rfl rfl
    Trial.parse_x 100
  have hb : b = ((Trial.awaited.begun 0 [.text "x"]).make (.poll 0 100)).make
      (.handle (.signal .cancel)) := by
    rw [hmake]
    rfl
  have hstate : b.engine.state = .cancelling := by
    rw [hb]
    cbv
  have hin : b.InFlight 0 := by
    rw [Bench.inFlight_iff, hb]
    cbv
  have hwaiting : b.runs 1 = .created "x" := by
    rw [hb]
    rfl
  have hstopped : b.answer? (.poll 0 100) = some (.resolved (.error .stopped)) := by
    rw [hb]
    cbv
  have hfirst : (Thread.start [.text "x"]).config { Trial.asking with state := .running }
      ∈ (Bench.of Trial.asking).moments deeds := by
    have hopen : (Thread.start [.text "x"]).config { Trial.asking with state := .running }
        ∈ Trial.awaited.momentsOf (.poll 0 100) := by
      rw [← hmoments]
      exact List.mem_cons_self
    show _ ∈ Trial.awaited.momentsOf (.poll 0 100) ++ _
    exact List.mem_append_left _ hopen
  have hne : b.engine.state ≠ .idle := by
    rw [hstate]
    decide
  obtain ⟨hone, -, haway, hrefused, hend, hdrop, hinner⟩ :=
    one_run_at_a_time (e := Trial.asking) rfl deeds
  refine ⟨hone.1 hne, haway hne 1 "x" hwaiting 100, hrefused .pause .alreadyStopping ?_, hstopped,
    hend 0 100 _ hstopped (.inr hin), hdrop 0 hin, _, hfirst, ?_⟩
  · show b.engine.signal .pause = .error .alreadyStopping
    simp only [Engine.signal, hstate, Signal.apply, RunState.pause]
  · exact congrArg Prod.fst (hinner _ hfirst [] "x" 100)

end Logo
