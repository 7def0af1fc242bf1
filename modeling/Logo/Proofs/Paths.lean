import Logo.Proofs.Locality

/-!
# Paths of a run

A path leads a run from one moment to a later one. Wherever the run waits to be
polled again, the host may change the engine in between, as far as `between`
allows. A path that starts inside of other work runs as it would alone until
its own outcome is there (`Path.split`), so what an expression yields does not
depend on what waits for it.
-/

namespace Logo
set_option autoImplicit false

variable {σ : Type}

/-- The same moment on another engine. -/
def Config.on (c : Config σ) (e : Engine σ) : Config σ := c.thread.config e

/-- The same moment inside of what waits in `k`. -/
abbrev Config.under (c : Config σ) (k : List Pending) : Config σ := c.lift id k

/-- What a step leads to, whether the run goes on or waits there. -/
def Next.config? : Next σ → Option (Config σ)
  | .go c | .suspend _ c => some c
  | .resolved _ _ => none

/-- The run is at its end. -/
def Config.Settled (c : Config σ) : Prop := ∃ outcome m, step c = .resolved outcome m

inductive Path (between : Engine σ → Engine σ → Prop) : Nat → Config σ → Config σ → Prop where
  | refl (c : Config σ) : Path between 0 c c
  | go {n : Nat} {a b c : Config σ} : step a = .go b → Path between n b c → Path between (n + 1) a c
  | wait {n : Nat} {a b c : Config σ} {why : Wait} {e : Engine σ} : step a = .suspend why b →
      between b.machine.engine e → Path between n (b.on e) c → Path between (n + 1) a c

/-- Is an answer looked for at all, or is a break noticed before? -/
def Engine.looksForAnswer (e : Engine σ) : Bool := e.answersFirst || e.state != .cancelling

/-- A race is decided by a break that is noticed before the answer is looked for; else by
the answer, or by a break that has come when there is no answer. -/
theorem race_cases (m : Machine σ) (answer : Next σ) (tokens : List Value) (pending : List Pending) :
    (m.engine.looksForAnswer = false ∧ m.engine.state = .cancelling ∧
      race m answer tokens pending = .go ⟨m, .raise .stopped, tokens, pending⟩) ∨
    (m.engine.looksForAnswer = true ∧ race m answer tokens pending = answer) ∨
    (m.engine.looksForAnswer = true ∧ ∃ why c, answer = .suspend why c ∧
      c.machine.engine.state = .cancelling ∧
      race m answer tokens pending = .go { c with focus := .raise .stopped }) := by
  unfold race
  split
  · rename_i hfirst
    have hlook : m.engine.looksForAnswer = true := by
      rw [Engine.looksForAnswer, hfirst, Bool.true_or]
    split
    · rename_i why c
      split
      · exact .inr (.inr ⟨hlook, why, c, rfl, by assumption, rfl⟩)
      · exact .inr (.inl ⟨hlook, rfl⟩)
    · exact .inr (.inl ⟨hlook, rfl⟩)
  · rename_i hfirst
    split
    · rename_i hs
      exact .inl ⟨by simp [Engine.looksForAnswer, hfirst, hs], hs, rfl⟩
    · rename_i hs
      exact .inr (.inl ⟨by simpa [Engine.looksForAnswer, hfirst] using hs, rfl⟩)

/-- What holds of a break before the answer, of the answer, and of a break instead of it, holds
of where a race leads. -/
theorem race_leads {P : Config σ → Prop} {m : Machine σ} {answer : Next σ} {tokens : List Value}
    {pending : List Pending} (hbreak : P ⟨m, .raise .stopped, tokens, pending⟩)
    (ha : ∀ c, answer.config? = some c → P c ∧ P { c with focus := .raise .stopped }) {c : Config σ}
    (hc : (race m answer tokens pending).config? = some c) : P c := by
  obtain ⟨-, -, h⟩ | ⟨-, h⟩ | ⟨-, why, d, rfl, -, h⟩ := race_cases m answer tokens pending
  · rw [h] at hc
    cases hc
    exact hbreak
  · rw [h] at hc
    exact (ha c hc).1
  · rw [h] at hc
    cases hc
    exact (ha d rfl).2

/-- Where nobody sends a break there is no race. -/
theorem race_eq_answer {m : Machine σ} {answer : Next σ} (tokens : List Value)
    (pending : List Pending) (hm : m.engine.state ≠ .cancelling)
    (ha : ∀ c, answer.config? = some c → c.machine.engine.state ≠ .cancelling) :
    race m answer tokens pending = answer := by
  obtain ⟨-, hs, -⟩ | ⟨-, h⟩ | ⟨-, why, c, rfl, hs, -⟩ := race_cases m answer tokens pending
  · exact absurd hs hm
  · exact h
  · exact absurd hs (ha c rfl)

theorem askHost_ne_resolved (m : Machine σ) (id : Nat) (inputs : List Value) (asked : Nat)
    (tokens : List Value) (pending : List Pending) (outcome : Outcome) (m' : Machine σ) :
    askHost m id inputs asked tokens pending ≠ .resolved outcome m' := by
  unfold askHost
  intro h
  split at h
  · simp only at h
    split at h <;> cases h
  · cases h

theorem awaitClock_ne_resolved (m : Machine σ) (deadline : Nat) (tokens : List Value)
    (pending : List Pending) (outcome : Outcome) (m' : Machine σ) :
    awaitClock m deadline tokens pending ≠ .resolved outcome m' := by
  unfold awaitClock
  intro h
  split at h <;> cases h

theorem race_ne_resolved {m : Machine σ} {answer : Next σ} {tokens : List Value}
    {pending : List Pending} (ha : ∀ outcome m', answer ≠ .resolved outcome m') (outcome : Outcome)
    (m' : Machine σ) : race m answer tokens pending ≠ .resolved outcome m' := by
  obtain ⟨-, -, h⟩ | ⟨-, h⟩ | ⟨-, why, c, -, -, h⟩ := race_cases m answer tokens pending
  · rw [h]
    intro h'
    cases h'
  · rw [h]
    exact ha outcome m'
  · rw [h]
    intro h'
    cases h'

/-- A run ends with the outcome that nothing waits for, and with its machine as it is. -/
theorem step_resolved {c : Config σ} {outcome : Outcome} {m : Machine σ}
    (h : step c = .resolved outcome m) :
    c.pending = [] ∧ m = c.machine ∧ ((∃ v, c.focus = .reply v ∧ outcome = .ok v) ∨
      ∃ f, c.focus = .raise f ∧ outcome = .error f) := by
  obtain ⟨m', focus, tokens, pending⟩ := c
  cases focus with
  | reply v =>
    cases pending with
    | nil =>
      cases h
      exact ⟨rfl, rfl, .inl ⟨v, rfl, rfl⟩⟩
    | cons p pending => cases h
  | raise f =>
    cases pending with
    | nil =>
      cases h
      exact ⟨rfl, rfl, .inr ⟨f, rfl, rfl⟩⟩
    | cons p pending => cases h
  | turn l =>
    simp only [step] at h
    split at h <;> cases h
  | checkpoint a =>
    simp only [step] at h
    split at h <;> cases h
  | ask id inputs asked =>
    exact absurd h (race_ne_resolved (askHost_ne_resolved m' id inputs asked tokens pending) _ _)
  | sleep deadline =>
    exact absurd h (race_ne_resolved (awaitClock_ne_resolved m' deadline tokens pending) _ _)
  | _ => cases h

theorem settled_iff {c : Config σ} :
    c.Settled ↔ c.pending = [] ∧ ((∃ v, c.focus = .reply v) ∨ ∃ f, c.focus = .raise f) := by
  constructor
  · rintro ⟨outcome, m, h⟩
    obtain ⟨hp, -, ⟨v, hf, -⟩ | ⟨f, hf, -⟩⟩ := step_resolved h
    · exact ⟨hp, .inl ⟨v, hf⟩⟩
    · exact ⟨hp, .inr ⟨f, hf⟩⟩
  · obtain ⟨m, focus, tokens, pending⟩ := c
    rintro ⟨hp, ⟨v, hf⟩ | ⟨f, hf⟩⟩
    · simp only at hp hf
      subst hp hf
      exact ⟨_, _, rfl⟩
    · simp only at hp hf
      subst hp hf
      exact ⟨_, _, rfl⟩

/-- A run that is at its end inside of something is so alone. -/
theorem Config.Settled.of_under {c : Config σ} {k : List Pending} (h : (c.under k).Settled) :
    c.Settled := by
  obtain ⟨hp, hf⟩ := settled_iff.1 h
  exact settled_iff.2 ⟨(List.append_eq_nil_iff.1 hp).1, hf⟩

theorem step_under {c : Config σ} (h : ¬ c.Settled) (k : List Pending) :
    step (c.under k) = (step c).lift id k :=
  step_lift Engine.unseen_id k (fun _ => .inl rfl) fun outcome m hs => h ⟨outcome, m, hs⟩

namespace Path

variable {between : Engine σ → Engine σ → Prop}

theorem trans {i j : Nat} {a b c : Config σ} (h : Path between i a b) (h' : Path between j b c) :
    Path between (i + j) a c := by
  induction h with
  | refl => simpa using h'
  | go hs _ ih =>
    rw [Nat.succ_add]
    exact .go hs (ih h')
  | wait hs he _ ih =>
    rw [Nat.succ_add]
    exact .wait hs he (ih h')

/-- A path inside of what waits in `k`. -/
theorem under {n : Nat} {a b : Config σ} (h : Path between n a b) (k : List Pending) :
    Path between n (a.under k) (b.under k) := by
  induction h with
  | refl => exact .refl _
  | @go n a b c hs _ ih =>
    have hs' : step (a.under k) = .go (b.under k) := by
      rw [step_under (fun ⟨_, _, hr⟩ => by simp [hs] at hr), hs]
      rfl
    exact .go hs' ih
  | @wait n a b c why e hs he _ ih =>
    have hs' : step (a.under k) = .suspend why (b.under k) := by
      rw [step_under (fun ⟨_, _, hr⟩ => by simp [hs] at hr), hs]
      rfl
    exact .wait hs' he ih

theorem eq_of_settled {n : Nat} {a b : Config σ} (h : Path between n a b) (ha : a.Settled) :
    n = 0 ∧ b = a := by
  obtain ⟨outcome, m, hr⟩ := ha
  cases h with
  | refl => exact ⟨rfl, rfl⟩
  | go hs _ => simp [hs] at hr
  | wait hs _ _ => simp [hs] at hr

/-- A path to the end of a run whose first step goes on. -/
theorem of_go {n : Nat} {a b c : Config σ} (h : Path between n a c) (hc : c.Settled)
    (hs : step a = .go b) : ∃ i, n = i + 1 ∧ Path between i b c := by
  cases h with
  | refl =>
    obtain ⟨outcome, m, hr⟩ := hc
    simp [hs] at hr
  | go hs' h =>
    obtain rfl : _ = b := by simpa [hs] using hs'.symm
    exact ⟨_, rfl, h⟩
  | wait hs' _ _ => simp [hs] at hs'

/-- What runs inside of `k` either still does, or has come to an outcome of its own before `k`
was looked at. -/
theorem under_cases {n : Nat} {a c : Config σ} {k : List Pending} (h : Path between n (a.under k) c) :
    (∃ b, ¬ b.Settled ∧ c = b.under k ∧ Path between n a b) ∨
    ∃ i j b, i + j = n ∧ b.Settled ∧ Path between i a b ∧ Path between j (b.under k) c := by
  generalize ha : a.under k = a' at h
  induction h generalizing a with
  | refl =>
    subst ha
    by_cases hd : a.Settled
    · exact .inr ⟨0, 0, a, rfl, hd, .refl a, .refl _⟩
    · exact .inl ⟨a, hd, rfl, .refl a⟩
  | @go n a' b' c hs h ih =>
    subst ha
    by_cases hd : a.Settled
    · exact .inr ⟨0, n + 1, a, by omega, hd, .refl a, .go hs h⟩
    · rw [step_under hd] at hs
      cases ha : step a with
      | resolved outcome m => exact absurd ⟨outcome, m, ha⟩ hd
      | suspend why b => simp [ha, Next.lift] at hs
      | go b =>
        obtain rfl : b.under k = b' := by simpa [ha, Next.lift] using hs
        obtain ⟨d, hd, hc, h⟩ | ⟨i, j, d, hn, hd, h₁, h₂⟩ := ih rfl
        · exact .inl ⟨d, hd, hc, .go ha h⟩
        · exact .inr ⟨i + 1, j, d, by omega, hd, .go ha h₁, h₂⟩
  | @wait n a' b' c why e hs he h ih =>
    subst ha
    by_cases hd : a.Settled
    · exact .inr ⟨0, n + 1, a, by omega, hd, .refl a, .wait hs he h⟩
    · rw [step_under hd] at hs
      cases ha : step a with
      | resolved outcome m => exact absurd ⟨outcome, m, ha⟩ hd
      | go b => simp [ha, Next.lift] at hs
      | suspend why' b =>
        obtain ⟨rfl, rfl⟩ : why' = why ∧ b.under k = b' := by simpa [ha, Next.lift] using hs
        obtain ⟨d, hd, hc, h⟩ | ⟨i, j, d, hn, hd, h₁, h₂⟩ := ih (a := b.on e) rfl
        · exact .inl ⟨d, hd, hc, .wait ha he h⟩
        · exact .inr ⟨i + 1, j, d, by omega, hd, .wait ha he h₁, h₂⟩

/-- What runs inside of `k` comes to an outcome of its own before `k` is looked at. -/
theorem split {n : Nat} {a c : Config σ} {k : List Pending} (h : Path between n (a.under k) c)
    (hc : c.Settled) :
    ∃ i j b, i + j = n ∧ b.Settled ∧ Path between i a b ∧ Path between j (b.under k) c := by
  obtain ⟨b, hb, rfl, -⟩ | h := h.under_cases
  · exact absurd hc.of_under hb
  · exact h

/-- What every step and everything the host does between polls preserves holds all along
a path. -/
theorem invariant {P : Config σ → Prop} (hgo : ∀ a b, P a → step a = .go b → P b)
    (hwait : ∀ a b why e, P a → step a = .suspend why b → between b.machine.engine e → P (b.on e))
    {n : Nat} {a b : Config σ} (h : Path between n a b) (ha : P a) : P b := by
  induction h with
  | refl => exact ha
  | go hs _ ih => exact ih (hgo _ _ ha hs)
  | wait hs he _ ih => exact ih (hwait _ _ _ _ ha hs he)

end Path

end Logo
