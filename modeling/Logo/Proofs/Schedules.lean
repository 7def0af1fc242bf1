import Logo.Proofs.Events
import Logo.Proofs.Items
import Logo.Session
import Mathlib

/-!
# Schedules

What is done to one run from outside, move by move: it is polled, signals are
sent to its engine, time passes, chance decides whether the coming polls notice an
answer or a break first. A schedule is any list of moves; signals may be
refused and polls may come after the end. A poll that is given little fuel
stops in the middle of what would be one poll, so that a statement about all
schedules is also one about signals that arrive between any two steps.
-/

namespace Logo
set_option autoImplicit false

variable {σ : Type}

inductive Move where
  | poll (fuel : Nat)
  | signal (s : Signal)
  | elapse (nanoseconds : Nat)
  | toss (answersFirst : Bool)
  deriving DecidableEq, Repr

/-- The moment at which a poll of the run takes its first step. -/
def Run.opening? (e : Engine σ) : Run → Option (Config σ)
  | .created source =>
    match e.state.begin, parse source with
    | .ok state, .ok program => some ((Thread.start program).config { e with state })
    | _, _ => none
  | .inFlight t => some (t.config e)
  | .ended => none

/-- A poll begins a run whose source can be read, or goes on with one that is in flight. -/
theorem Run.opening?_cases {e : Engine σ} {r : Run} {c : Config σ} (h : r.opening? e = some c) :
    (∃ source program, r = .created source ∧ parse source = .ok program ∧
      c = (Thread.start program).config { e with state := .running }) ∨
    ∃ t, r = .inFlight t ∧ c = t.config e := by
  cases r with
  | created source =>
    simp only [Run.opening?] at h
    split at h
    · rename_i state program hb hp
      cases h
      have hstate : state = .running := by
        unfold RunState.begin at hb
        split at hb
        · cases hb
          rfl
        · cases hb
      exact .inl ⟨source, program, rfl, hp, hstate ▸ rfl⟩
    · cases h
  | inFlight t =>
    cases h
    exact .inr ⟨t, rfl, rfl⟩
  | ended => cases h

/-- What a poll makes of where its steps lead. -/
def Next.polled : Next σ → Polled × Run × Engine σ
  | .go c => (.exhausted, .inFlight c.thread, c.machine.engine)
  | .suspend why c => (.pending why, .inFlight c.thread, c.machine.engine)
  | .resolved outcome m => (.resolved outcome, .ended, m.engine.release)

theorem Engine.poll_of_opening? {e : Engine σ} {r : Run} {c : Config σ} (h : r.opening? e = some c)
    (fuel : Nat) : e.poll fuel r = (advance fuel c).polled := by
  cases r with
  | created source =>
    simp only [Run.opening?] at h
    split at h
    · rename_i state program hb hp
      cases h
      simp only [Engine.poll, hb, hp, Engine.pollThread]
      rfl
    · cases h
  | inFlight t =>
    cases h
    rfl
  | ended => cases h

/-- The moments that a run passes in at most `fuel` steps, up to where it waits or ends. -/
def Config.moments : Nat → Config σ → List (Config σ)
  | 0, _ => []
  | fuel + 1, c => c :: match step c with
    | .go c => c.moments fuel
    | _ => []

/-- A run on its engine, with its outcome when there is one. -/
structure Drive (σ : Type) where
  engine : Engine σ
  run : Run
  outcome? : Option Outcome

namespace Drive

/-- A run that is about to start. -/
def start (e : Engine σ) (source : String) : Drive σ := ⟨e, .created source, none⟩

def make (d : Drive σ) : Move → Drive σ
  | .poll fuel =>
    match d.engine.poll fuel d.run with
    | (.resolved outcome, r, e) => ⟨e, r, some outcome⟩
    | (_, r, e) => ⟨e, r, d.outcome?⟩
  | .signal s => { d with engine := (d.engine.answerSignal s).2 }
  | .elapse nanoseconds => { d with engine := d.engine.elapse nanoseconds }
  | .toss answersFirst => { d with engine := { d.engine with answersFirst } }

def follow (d : Drive σ) : List Move → Drive σ
  | [] => d
  | move :: moves => (d.make move).follow moves

/-- The moments at which a move takes steps. -/
def momentsOf (d : Drive σ) : Move → List (Config σ)
  | .poll fuel =>
    match d.run.opening? d.engine with
    | some c => c.moments fuel
    | none => []
  | _ => []

/-- The moments of a whole schedule. -/
def moments (d : Drive σ) : List Move → List (Config σ)
  | [] => []
  | move :: moves => d.momentsOf move ++ (d.make move).moments moves

theorem follow_append (d : Drive σ) (moves moves' : List Move) :
    d.follow (moves ++ moves') = (d.follow moves).follow moves' := by
  induction moves generalizing d with
  | nil => rfl
  | cons move moves ih => exact ih _

end Drive

/-! ### Polls -/

theorem Engine.answerSignal_engine (e : Engine σ) (s : Signal) :
    (e.answerSignal s).2 = { e with state := e.state.after s } := by
  unfold Engine.answerSignal Engine.signal RunState.after
  cases s.apply e.state <;> rfl

/-- A condition holds all along a poll: at each moment of it, where it comes to wait, and
where the run ends. -/
structure Along (P : Config σ → Prop) (fuel : Nat) (c : Config σ) : Prop where
  moments : ∀ d ∈ c.moments fuel, P d
  waits : ∀ c', (advance fuel c).config? = some c' → P c'
  ends : ∀ outcome m, advance fuel c = .resolved outcome m → ∃ d, P d ∧ step d = .resolved outcome m

/-- What the steps of a poll preserve holds all along it. -/
theorem Along.of_step {P : Config σ → Prop} {fuel : Nat} {c : Config σ} (hc : P c)
    (hstep : ∀ d ∈ c.moments fuel, ∀ d', P d → (step d).config? = some d' → P d') :
    Along P fuel c := by
  induction fuel generalizing c with
  | zero =>
    refine ⟨fun d hd => (by cases hd), fun c' h => ?_, fun outcome m h => by cases h⟩
    cases h
    exact hc
  | succ fuel ih =>
    have hfirst : ∀ c', (step c).config? = some c' → P c' := fun c' =>
      hstep c List.mem_cons_self c' hc
    unfold Config.moments at hstep
    cases hs : step c with
    | go c' =>
      simp only [hs] at hstep
      have h := ih (hfirst c' (by rw [hs]; rfl)) fun d hd => hstep d (List.mem_cons_of_mem _ hd)
      have hadv : advance (fuel + 1) c = advance fuel c' := by rw [advance, hs]
      refine ⟨fun d hd => ?_, hadv ▸ h.waits, hadv ▸ h.ends⟩
      simp only [Config.moments, hs] at hd
      obtain rfl | hd := List.mem_cons.1 hd
      · exact hc
      · exact h.moments d hd
    | suspend why c' =>
      have hadv : advance (fuel + 1) c = .suspend why c' := by rw [advance, hs]
      refine ⟨fun d hd => ?_, fun d h => ?_, fun outcome m h => ?_⟩
      · simp only [Config.moments, hs] at hd
        obtain rfl := List.mem_singleton.1 hd
        exact hc
      · rw [hadv] at h
        exact hfirst d (by rw [hs]; exact h)
      · rw [hadv] at h
        cases h
    | resolved outcome m =>
      have hadv : advance (fuel + 1) c = .resolved outcome m := by rw [advance, hs]
      refine ⟨fun d hd => ?_, fun d h => ?_, fun outcome' m' h => ?_⟩
      · simp only [Config.moments, hs] at hd
        obtain rfl := List.mem_singleton.1 hd
        exact hc
      · rw [hadv] at h
        cases h
      · exact ⟨c, hc, by rw [hs, ← hadv, h]⟩

/-- A condition on the moments of runs that starting one, steps, signals, time and chance
preserve. -/
structure Lasting (P : Config σ → Prop) : Prop where
  start : ∀ (e : Engine σ) program, P ((Thread.start program).config { e with state := .running })
  step : ∀ c c', P c → (step c).config? = some c' → P c'
  signal : ∀ (t : Thread) (e : Engine σ) s, P (t.config e) →
    P (t.config { e with state := e.state.after s })
  elapse : ∀ (t : Thread) (e : Engine σ) n, P (t.config e) → P (t.config (e.elapse n))
  toss : ∀ (t : Thread) (e : Engine σ) answersFirst, P (t.config e) →
    P (t.config { e with answersFirst })

namespace Drive

/-- The condition holds of the run, if it is under way. -/
def Meets (P : Config σ → Prop) (d : Drive σ) : Prop :=
  ∀ t, d.run = .inFlight t → P (t.config d.engine)

theorem start_meets (P : Config σ → Prop) (e : Engine σ) (source : String) :
    (start e source).Meets P := by
  intro t h
  cases h

variable {P : Config σ → Prop}

/-- What holds of a run under way, and of one that has just started, holds where a poll
begins. -/
theorem Meets.opening {d : Drive σ} (hd : d.Meets P)
    (hstart : ∀ program, P ((Thread.start program).config { d.engine with state := .running }))
    {c : Config σ} (hc : d.run.opening? d.engine = some c) : P c := by
  obtain ⟨source, program, -, -, rfl⟩ | ⟨t, ht, rfl⟩ := Run.opening?_cases hc
  · exact hstart program
  · exact hd t ht

/-- A poll of a run that has an opening takes its steps from there. -/
theorem make_poll {d : Drive σ} {c : Config σ} (hc : d.run.opening? d.engine = some c) (fuel : Nat) :
    d.make (.poll fuel) = match advance fuel c with
      | .go c' | .suspend _ c' => ⟨c'.machine.engine, .inFlight c'.thread, d.outcome?⟩
      | .resolved outcome m => ⟨m.engine.release, .ended, some outcome⟩ := by
  simp only [make, Engine.poll_of_opening? hc]
  cases advance fuel c <;> rfl

/-- A run whose source has been read. -/
def begun (e : Engine σ) (program : List Value) : Drive σ :=
  ⟨{ e with state := .running }, .inFlight (Thread.start program), none⟩

theorem start_make_poll {e : Engine σ} {source : String} {program : List Value}
    (he : e.state = .idle) (hp : parse source = .ok program) (fuel : Nat) :
    (start e source).make (.poll fuel) = (begun e program).make (.poll fuel) := by
  have hb : e.state.begin = .ok .running := by rw [he]; rfl
  simp only [make, start, begun, Engine.poll, hb, hp]

theorem start_momentsOf {e : Engine σ} {source : String} {program : List Value}
    (he : e.state = .idle) (hp : parse source = .ok program) (fuel : Nat) :
    (start e source).momentsOf (.poll fuel) = (begun e program).momentsOf (.poll fuel) := by
  have hb : e.state.begin = .ok .running := by rw [he]; rfl
  simp only [momentsOf, start, begun, Run.opening?, hb, hp]

/-- A run that cannot be opened ends at once, if it has not ended already. -/
theorem make_poll_of_none {d : Drive σ} (hc : d.run.opening? d.engine = none) (fuel : Nat) :
    (d.make (.poll fuel)).run = .ended ∧
      ((d.make (.poll fuel)).engine = d.engine ∨ (d.make (.poll fuel)).engine = d.engine.release) ∧
      ((d.make (.poll fuel)).outcome? = d.outcome? ∨
        ∃ f, (d.make (.poll fuel)).outcome? = some (.error f) ∧ f.kind ≠ .cancelled) := by
  obtain ⟨e, r, o⟩ := d
  cases r with
  | inFlight t => cases hc
  | ended => exact ⟨rfl, .inl rfl, .inl rfl⟩
  | created source =>
    simp only [Run.opening?] at hc
    simp only [make, Engine.poll]
    cases hb : e.state.begin with
    | error f =>
      refine ⟨rfl, .inl rfl, .inr ⟨f, rfl, ?_⟩⟩
      unfold RunState.begin at hb
      split at hb
      · cases hb
      · cases hb
        decide
    | ok state =>
      cases hp : parse source with
      | error f => exact ⟨rfl, .inr rfl, .inr ⟨.unreadable f, rfl, fun h => by cases h⟩⟩
      | ok program => simp [hb, hp] at hc

theorem Meets.make {d : Drive σ} (hd : d.Meets P) (h : Lasting P) (move : Move) :
    (d.make move).Meets P := by
  cases move with
  | signal s =>
    intro t ht
    have hm : (d.make (.signal s)).engine = _ := d.engine.answerSignal_engine s
    rw [hm]
    exact h.signal t d.engine s (hd t ht)
  | elapse n =>
    intro t ht
    exact h.elapse t d.engine n (hd t ht)
  | toss b =>
    intro t ht
    exact h.toss t d.engine b (hd t ht)
  | poll fuel =>
    intro t ht
    cases hc : d.run.opening? d.engine with
    | none =>
      rw [(make_poll_of_none hc fuel).1] at ht
      cases ht
    | some c =>
      have hP : ∀ c', (advance fuel c).config? = some c' → P c' := fun c' h' =>
        (Along.of_step (hd.opening (h.start d.engine) hc) fun d _ => h.step d).waits c' h'
      rw [make_poll hc] at ht ⊢
      cases ha : advance fuel c with
      | resolved outcome m =>
        simp only [ha] at ht
        cases ht
      | go c' =>
        simp only [ha] at ht ⊢
        cases ht
        exact hP c' (by rw [ha]; rfl)
      | suspend why c' =>
        simp only [ha] at ht ⊢
        cases ht
        exact hP c' (by rw [ha]; rfl)

theorem Meets.momentsOf {d : Drive σ} (hd : d.Meets P) (h : Lasting P) (move : Move) :
    ∀ c ∈ d.momentsOf move, P c := by
  intro c hm
  cases move with
  | signal s => cases hm
  | elapse n => cases hm
  | toss b => cases hm
  | poll fuel =>
    simp only [Drive.momentsOf] at hm
    split at hm
    · rename_i c' hc
      exact (Along.of_step (hd.opening (h.start d.engine) hc) fun d _ => h.step d).moments c hm
    · cases hm

/-- A lasting condition holds all along a schedule. -/
theorem Meets.follow {d : Drive σ} (hd : d.Meets P) (h : Lasting P) (moves : List Move) :
    (d.follow moves).Meets P ∧ ∀ c ∈ d.moments moves, P c := by
  induction moves generalizing d with
  | nil => exact ⟨hd, fun c hc => by cases hc⟩
  | cons move moves ih =>
    obtain ⟨h₁, h₂⟩ := ih (hd.make h move)
    refine ⟨h₁, fun c hc => ?_⟩
    obtain hc | hc := List.mem_append.1 hc
    · exact hd.momentsOf h move c hc
    · exact h₂ c hc

end Drive

/-! ### A run to try -/

namespace Trial

/-- A host function that answers when it is asked for the third time. -/
def answer : HostFunction Unit := .async 0 fun _ asked view =>
  ⟨view.memory, [], if asked < 2 then .pending else .ready (.ok none)⟩

/-- An engine on which `x` prints the members of a list and then waits for the host. -/
def engine : Engine Unit :=
  let body := [.text "foreach", .list [.text "a", .text "b"], .text "\"print", .text "answer"]
  ((((Engine.new () (.recorder []) 10 false).bindHost "answer" answer).setGlobal "print"
    (.procedure (.primitive .print))).setGlobal "foreach"
    (.procedure (.primitive .foreach))).setGlobal "x" (.procedure (.defined 0 "x" [] body))

theorem parse_x : parse "x" = .ok [.text "x"] := by
  have hi : Source.State.initial.item false 'x' []
      = .ok (Source.State.initial.push (.text "x") true, []) := by cbv
  have hr : Source.State.initial.read ['x'] = .ok [.text "x"] := by
    rw [Source.State.read_of_item rfl hi, Source.State.read_of_end rfl]
    rfl
  show (Source.State.initial.read ['x']).mapError _ = _
  rw [hr]
  rfl

/-- The trial run, whose source need not be read again. -/
theorem make_poll (fuel : Nat) : (Drive.start engine "x").make (.poll fuel)
    = (Drive.begun engine [.text "x"]).make (.poll fuel) :=
  Drive.start_make_poll rfl parse_x fuel

end Trial

end Logo
