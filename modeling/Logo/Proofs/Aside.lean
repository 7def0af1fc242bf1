import Logo.Proofs.Bench

/-!
# What nothing on a bench looks at

A change to an engine that no step sees and that goes together with everything a host does
is a change that nobody on the bench notices: on the changed engine all runs come to the same
moments, all polls are answered alike, and at the end the engine differs by that change only.
A call of a defined procedure may see the change if it is to the depth limit; so each step has
to admit the call with the change and without it alike.
-/

namespace Logo
set_option autoImplicit false

variable {σ : Type}

/-- A change that goes together with all that is done to an engine from outside of its runs. -/
structure Engine.Aside (g : Engine σ → Engine σ) : Prop extends Engine.Unseen g where
  setState : ∀ e s, g { e with state := s } = { g e with state := s }
  handle : ∀ e h, (g e).handle h = g (e.handle h)

/-- The coming step admits a call with the change and without it alike. -/
def Config.Indifferent (g : Engine σ → Engine σ) (c : Config σ) : Prop :=
  c.callsDefined = true → c.machine.AdmitsAlike g

section Steps

variable {g : Engine σ → Engine σ} (hg : Engine.Aside g)
include hg

theorem step_aside {c : Config σ} (h : c.Indifferent g) : step (c.lift g []) = (step c).lift g [] := by
  by_cases hs : c.Settled
  · obtain ⟨m, focus, tokens, pending⟩ := c
    obtain ⟨hp, ⟨v, hf⟩ | ⟨f, hf⟩⟩ := settled_iff.1 hs
    all_goals
      simp only at hp hf
      subst hp hf
      rfl
  · exact step_lift hg.toUnseen [] h fun outcome m hr => hs ⟨outcome, m, hr⟩

/-- The steps of a poll pass the same moments. -/
theorem advance_aside {fuel : Nat} {c : Config σ} (h : ∀ d ∈ c.moments fuel, d.Indifferent g) :
    advance fuel (c.lift g []) = (advance fuel c).lift g [] ∧
      (c.lift g []).moments fuel = (c.moments fuel).map (·.lift g []) := by
  induction fuel generalizing c with
  | zero => exact ⟨rfl, rfl⟩
  | succ fuel ih =>
    have hstep := step_aside hg (h c List.mem_cons_self)
    rw [advance, advance, Config.moments, Config.moments, hstep]
    cases hs : step c with
    | go c' =>
      obtain ⟨hadvance, hmoments⟩ := ih (c := c') fun d hd => h d (by
        simp only [Config.moments, hs]
        exact List.mem_cons_of_mem _ hd)
      exact ⟨hadvance, congrArg (c.lift g [] :: ·) hmoments⟩
    | suspend why c' => exact ⟨rfl, rfl⟩
    | resolved outcome m => exact ⟨rfl, rfl⟩

theorem Next.polled_aside (n : Next σ) :
    (n.lift g []).polled = (n.polled.1, n.polled.2.1, g n.polled.2.2) := by
  cases n with
  | resolved outcome m =>
    have hrelease : (g m.engine).release = g m.engine.release := (hg.setState _ _).symm
    exact congrArg (fun e => (_, _, e)) hrelease
  | _ =>
    simp only [Next.lift, Next.polled, Config.lift, List.append_nil]
    rfl

/-- A run opens a poll alike. -/
theorem Run.opening?_aside (e : Engine σ) (r : Run) :
    r.opening? (g e) = (r.opening? e).map (·.lift g []) := by
  cases r with
  | created source =>
    simp only [Run.opening?, hg.state]
    cases e.state.begin with
    | error f => rfl
    | ok state =>
      cases parse source with
      | error f => rfl
      | ok program =>
        have hstate : { g e with state := state } = g { e with state := state } :=
          (hg.setState _ _).symm
        simp [Config.lift, Thread.config, Machine.mapEngine, hstate]
  | inFlight t => simp [Run.opening?, Config.lift, Thread.config, Machine.mapEngine]
  | ended => rfl

theorem Engine.poll_aside {fuel : Nat} {e : Engine σ} {r : Run}
    (h : ∀ c, r.opening? e = some c → ∀ d ∈ c.moments fuel, d.Indifferent g) :
    (g e).poll fuel r = ((e.poll fuel r).1, (e.poll fuel r).2.1, g (e.poll fuel r).2.2) := by
  cases hopen : r.opening? e with
  | some c =>
    have hopen' : r.opening? (g e) = some (c.lift g []) := by
      rw [Run.opening?_aside hg, hopen]
      rfl
    rw [Engine.poll_of_opening? hopen, Engine.poll_of_opening? hopen',
      (advance_aside hg (h c hopen)).1]
    exact Next.polled_aside hg _
  | none =>
    cases r with
    | inFlight t => cases hopen
    | ended => rfl
    | created source =>
      simp only [Run.opening?] at hopen
      simp only [Engine.poll, hg.state]
      cases hb : e.state.begin with
      | error f => rfl
      | ok state =>
        cases hp : parse source with
        | error f =>
          have hstate : { g e with state := .idle } = g { e with state := .idle } :=
            (hg.setState _ _).symm
          exact congrArg (fun e => (_, _, e)) hstate
        | ok program => simp [hb, hp] at hopen

end Steps

namespace Bench

/-- The bench with a changed engine. -/
def mapEngine (g : Engine σ → Engine σ) (b : Bench σ) : Bench σ := ⟨g b.engine, b.runs⟩

variable {g : Engine σ → Engine σ} (hg : Engine.Aside g)
include hg

theorem momentsOf_aside {b : Bench σ} {deed : Deed σ} (h : ∀ c ∈ b.momentsOf deed, c.Indifferent g) :
    (b.mapEngine g).momentsOf deed = (b.momentsOf deed).map (·.lift g []) := by
  cases deed with
  | poll place fuel =>
    simp only [momentsOf, mapEngine, Run.opening?_aside hg] at h ⊢
    cases hopen : (b.runs place).opening? b.engine with
    | none => rfl
    | some c =>
      simp only [hopen] at h
      exact (advance_aside hg h).2
  | _ => rfl

theorem make_aside {b : Bench σ} {deed : Deed σ} (h : ∀ c ∈ b.momentsOf deed, c.Indifferent g) :
    (b.mapEngine g).make deed = (b.make deed).mapEngine g ∧
      (b.mapEngine g).answer? deed = b.answer? deed := by
  have hdrop : ∀ r : Run, (g b.engine).drop r = g (b.engine.drop r) := by
    intro r
    cases r with
    | inFlight t => exact (hg.setState _ _).symm
    | _ => rfl
  cases deed with
  | start place source =>
    refine ⟨?_, rfl⟩
    simp only [make, put, mapEngine, hdrop]
  | drop place =>
    refine ⟨?_, rfl⟩
    simp only [make, put, mapEngine, hdrop]
  | poll place fuel =>
    have hpoll : (g b.engine).poll fuel (b.runs place) = _ :=
      Engine.poll_aside hg fun c hc d hd => h d (by simpa only [momentsOf, hc] using hd)
    constructor
    · simp only [make, put, mapEngine, hpoll]
    · simp only [answer?, mapEngine, hpoll]
  | handle handling =>
    refine ⟨?_, rfl⟩
    simp only [make, mapEngine, hg.handle]

/-- What is done is done alike. -/
theorem follow_aside {b : Bench σ} {deeds : List (Deed σ)}
    (h : ∀ c ∈ b.moments deeds, c.Indifferent g) :
    (b.mapEngine g).follow deeds = (b.follow deeds).mapEngine g ∧
      (b.mapEngine g).answers deeds = b.answers deeds := by
  induction deeds generalizing b with
  | nil => exact ⟨rfl, rfl⟩
  | cons deed deeds ih =>
    obtain ⟨hmake, hanswer⟩ := make_aside hg fun c hc => h c (List.mem_append_left _ hc)
    obtain ⟨hfollow, hanswers⟩ := ih fun c hc => h c (List.mem_append_right _ hc)
    rw [follow, answers, hmake, hfollow, hanswers, hanswer]
    exact ⟨rfl, rfl⟩

end Bench

end Logo
