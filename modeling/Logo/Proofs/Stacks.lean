import Logo.Proofs.Events
import Logo.Proofs.Turns

/-!
# The stacks of a run

What is live in a run are three stacks: frames, activations and the pass numbers of
`repeat`. A call of a defined procedure, a list template and a `repeat` each put
something on them and leave a pending frame behind that takes it off again, however
what runs inside ends. So one step does at most one thing to the stacks
(`step_turnover`), and the frames that wait tell how high each stack is
(`Config.Balanced`).
-/

namespace Logo
set_option autoImplicit false

variable {σ : Type}

/-- Does a pending frame have something on a stack of the run? -/
def Pending.owns : Pending → Bool
  | .activation | .template | .counter => true
  | _ => false

/-- The pending frames that have something on a stack, innermost first. -/
def owners (pending : List Pending) : List Pending := pending.filter Pending.owns

theorem owners_cons_of_owns {p : Pending} (h : p.owns = true) (pending : List Pending) :
    owners (p :: pending) = p :: owners pending :=
  List.filter_cons_of_pos h

theorem owners_cons_of_not_owns {p : Pending} (h : p.owns = false) (pending : List Pending) :
    owners (p :: pending) = owners pending :=
  List.filter_cons_of_neg (by simp [h])

namespace Live

/-- The stacks with what `p` puts on them; `f` is its frame, if it has one. -/
def opened (l : Live) (f : FrameId) : Pending → Live
  | .activation => { l with frames := f :: l.frames, activations := {} :: l.activations }
  | .template => { l with frames := f :: l.frames }
  | .counter => { l with counters := 0 :: l.counters }
  | _ => l

/-- The stacks without what `p` has on them. -/
def closed (l : Live) : Pending → Live
  | .activation => { l with frames := l.frames.tail, activations := l.activations.tail }
  | .template => { l with frames := l.frames.tail }
  | .counter => { l with counters := l.counters.tail }
  | _ => l

/-- The innermost `repeat` is in pass `n`. -/
def counted (l : Live) (n : Nat) : Live :=
  match l.counters with
  | _ :: counters => { l with counters := n :: counters }
  | [] => l

/-- The innermost activation has ended, with a value or without. -/
def ended (l : Live) (v : Option Value) : Live :=
  { l with activations := Event.onActivations l.activations (.ended v) }

/-- What a step does to the stacks that does not end an activation, with the frames that
have something on them before and after it. -/
inductive Turnover : Live → List Pending → Live → List Pending → Prop where
  | kept (l : Live) (os : List Pending) : Turnover l os l os
  | opened (l : Live) (os : List Pending) (f : FrameId) {p : Pending} :
      p.owns = true → Turnover l os (l.opened f p) (p :: os)
  | counted (l : Live) (os : List Pending) (n : Nat) : Turnover l os (l.counted n) os
  | closed (l : Live) (os : List Pending) {p : Pending} :
      p.owns = true → Turnover l (p :: os) (l.closed p) os

end Live

/-! ### Constructs -/

theorem Pending.not_owns_of_isLight {p : Pending} (h : p.isLight = true) : p.owns = false := by
  cases p with
  | activation | template | counter => cases h
  | _ => rfl

theorem Light.owners_append {ps : List Pending} (h : Light ps) (pending : List Pending) :
    owners (ps ++ pending) = owners pending := by
  induction ps with
  | nil => rfl
  | cons p ps ih =>
    have hp := Pending.not_owns_of_isLight (h p List.mem_cons_self)
    rw [List.cons_append, owners_cons_of_not_owns hp, ih fun q hq => h q (List.mem_cons_of_mem _ hq)]

/-- A construct opens at most one thing on the stacks. -/
theorem Config.After.turnover {m : Machine σ} {pending : List Pending} {c : Config σ}
    (h : Config.After m pending c) :
    Live.Turnover m.live (owners pending) c.machine.live (owners c.pending) := by
  cases h with
  | goes work _ hp =>
    simp only [hp.owners_append]
    exact .kept _ _
  | framed bindings _ hp hq =>
    simp only [hp.owners_append, owners_cons_of_owns (p := .template) rfl, hq.owners_append]
    exact .opened m.live (owners pending) m.engine.scopes.frames.size (p := .template) rfl
  | called bindings _ hp =>
    simp only [hp.owners_append, owners_cons_of_owns (p := .activation) rfl]
    exact .opened m.live (owners pending) m.engine.scopes.frames.size (p := .activation) rfl
  | counted block total => exact .opened m.live (owners pending) 0 (p := .counter) rfl

theorem setCounter_live (m : Machine σ) (n : Nat) : (m.setCounter n).live = m.live.counted n := by
  unfold Machine.setCounter Live.counted
  cases m.live.counters <;> rfl

/-- Giving up a pending frame takes off what it has on the stacks, and nothing else. -/
theorem abandon_turnover (m : Machine σ) (p : Pending) (pending : List Pending) :
    Live.Turnover m.live (owners (p :: pending)) (abandon m p).live (owners pending) := by
  have hlive : (abandon m p).live = m.live.closed p := by cases p <;> rfl
  rw [hlive]
  cases ho : p.owns with
  | true =>
    rw [owners_cons_of_owns ho]
    exact .closed _ _ ho
  | false =>
    rw [owners_cons_of_not_owns ho]
    cases p with
    | activation | template | counter => cases ho
    | _ => exact .kept _ _

/-! ### Primitives -/

/-- `output` or `stop` ends the innermost activation with `v`. -/
structure Primitive.Ends (done : Except Fault Effect × Machine σ) (m : Machine σ) (v : Option Value) :
    Prop where
  effect : done.1 = .ok (.reply none)
  live : done.2.live = m.live.ended v
  engine : done.2.engine = m.engine

theorem Primitive.finish_ends (p : Primitive) {m : Machine σ} (v : Option Value)
    (h : m.live.activations ≠ []) :
    Ends (p.finish m fun a => match v with | some v => a.output v | none => a.stop) m v := by
  obtain ⟨engine, frames, activations, counters⟩ := m
  cases activations with
  | nil => exact absurd rfl h
  | cons a rest => exact ⟨rfl, rfl, rfl⟩

/-- A primitive leaves the stacks alone, unless it ends the innermost activation. -/
theorem Primitive.perform_live (p : Primitive) (inputs : List Value) (m : Machine σ) :
    (p.perform inputs m).2.live = m.live ∨
      ∃ v, p.events inputs m = [.ended v] ∧ Ends (p.perform inputs m) m v := by
  have finished (p : Primitive) (v : Option Value) :
      (p.finish m fun a => match v with | some v => a.output v | none => a.stop).2.live = m.live ∨
        finishEvents m v = [.ended v] ∧ m.live.activations ≠ [] := by
    unfold finish finishEvents
    cases m.live.activations with
    | nil => exact .inl rfl
    | cons a rest => exact .inr ⟨rfl, List.cons_ne_nil _ _⟩
  have taken {α : Type} (r : Except Fault α) (k : α → Machine σ → Machine σ)
      (hk : ∀ a, (k a m).live = m.live) : (taking r m k).2.live = m.live := by
    cases r with
    | ok a => exact hk a
    | error f => rfl
  cases p
  case output =>
    match inputs with
    | [] => exact .inl rfl
    | [v] =>
      exact (finished output (some v)).imp_right fun h => ⟨some v, h.1, finish_ends output (some v) h.2⟩
    | _ :: _ :: _ => exact .inl rfl
  case stop => exact (finished stop none).imp_right fun h => ⟨none, h.1, finish_ends stop none h.2⟩
  case define | make | localName | globalName => exact .inl (taken _ _ fun _ => rfl)
  all_goals exact .inl rfl

/-! ### Whole steps -/

/-- The step from `c` to `c'` ends the innermost activation with `v` and does nothing else. -/
structure Config.EndsInto (c c' : Config σ) (v : Option Value) : Prop where
  event : c.events = [.ended v]
  machine : c'.machine = ⟨c.machine.engine, c.machine.live.ended v⟩
  focus : c'.focus = .reply none
  pending : c'.pending = c.pending

/-- A step changes the stacks in one of the ways of `Live.Turnover`, or ends the innermost
activation. -/
def Config.TurnsInto (c c' : Config σ) : Prop :=
  Live.Turnover c.machine.live (owners c.pending) c'.machine.live (owners c'.pending) ∨
    ∃ v, c.EndsInto c' v

theorem performs_turnover {m : Machine σ} {p : Primitive} {inputs tokens : List Value}
    {pending : List Pending} {v : Option Value}
    (hs : m.engine.state = .running ∨ m.engine.state = .idle)
    (hv : (p.perform (p.given inputs) m).1 = .ok (.reply v)) :
    Config.TurnsInto ⟨m, .checkpoint (.call (.primitive p) inputs), tokens, pending⟩
      ⟨(p.perform (p.given inputs) m).2, .reply v, tokens, pending⟩ := by
  obtain hp | ⟨w, he, hf, hl, hm⟩ := p.perform_live (p.given inputs) m
  · left
    simp only [hp]
    exact .kept _ _
  · right
    rw [hv] at hf
    cases hf
    refine ⟨w, ?_, ?_, rfl, rfl⟩
    · have hplan : Primitive.planEvents (p.perform (p.given inputs) m) = [] := by
        unfold Primitive.planEvents
        split
        · rename_i heq
          rw [heq] at hv
          cases hv
        · rfl
      have hcall : Procedure.events m inputs (.primitive p)
          = p.events (p.given inputs) m ++ Primitive.planEvents (p.perform (p.given inputs) m) := rfl
      unfold Config.events
      obtain hs | hs := hs <;> simp only [hs, Act.events, hcall, he, hplan, List.append_nil]
    · rw [← hl, ← hm]

/-- What a step does to the stacks. -/
theorem step_turnover {c c' : Config σ} (hs : (step c).config? = some c') : c.TurnsInto c' := by
  cases step_turn hs with
  | works _ _ h => exact .inl h.turnover
  | performs hstate hv => exact performs_turnover hstate hv
  | holds _ => exact .inl (.kept _ _)
  | @passes m block begun total focus _ tokens pending ps _ hp =>
    left
    simp only [hp.owners_append, setCounter_live, owners_cons_of_not_owns (p := .loop _) rfl]
    exact .counted _ _ _
  | leaves _ _ => exact .inl (.kept _ _)
  | resumes _ hp h =>
    left
    rw [owners_cons_of_not_owns (Pending.not_owns_of_isLight hp)]
    exact h.turnover
  | turns => exact .inl (.kept _ _)
  | closes _ _ _ => exact .inl (abandon_turnover _ _ _)

/-! ### How high the stacks are -/

namespace Pending

def isActivation : Pending → Bool
  | .activation => true
  | _ => false

/-- Does it have a frame of its own? -/
def hasFrame : Pending → Bool
  | .activation | .template => true
  | _ => false

def isCounter : Pending → Bool
  | .counter => true
  | _ => false

end Pending

/-- Each stack is as high as what waits needs it. -/
structure Live.Balanced (l : Live) (os : List Pending) : Prop where
  frames : l.frames.length = os.countP Pending.hasFrame
  activations : l.activations.length = os.countP Pending.isActivation
  counters : l.counters.length = os.countP Pending.isCounter

def Config.Balanced (c : Config σ) : Prop := c.machine.live.Balanced (owners c.pending)

theorem Live.Balanced.turnover {l l' : Live} {os os' : List Pending} (h : l.Balanced os)
    (ht : Live.Turnover l os l' os') : l'.Balanced os' := by
  obtain ⟨hf, ha, hc⟩ := h
  cases ht with
  | kept => exact ⟨hf, ha, hc⟩
  | counted n =>
    refine ⟨?_, ?_, ?_⟩
    all_goals
      unfold Live.counted
      split <;> simp_all
  | @opened _ f p ho =>
    cases p <;> cases ho
    all_goals
      refine ⟨?_, ?_, ?_⟩ <;>
        simp [Live.opened, Pending.hasFrame, Pending.isActivation, Pending.isCounter, hf, ha, hc,
          List.countP_cons]
  | @closed _ p ho =>
    cases p <;> cases ho
    all_goals
      simp only [List.countP_cons, Pending.hasFrame, Pending.isActivation, Pending.isCounter] at hf ha hc
      refine ⟨?_, ?_, ?_⟩ <;> simp [Live.closed, hf, ha, hc]

theorem Live.ended_length (l : Live) (v : Option Value) :
    (l.ended v).activations.length = l.activations.length := by
  unfold Live.ended Event.onActivations
  cases l.activations <;> rfl

theorem step_balanced {c c' : Config σ} (hc : c.Balanced) (hs : (step c).config? = some c') :
    c'.Balanced := by
  obtain h | ⟨v, -, hm, -, hp⟩ := step_turnover hs
  · exact Live.Balanced.turnover hc h
  · obtain ⟨hf, ha, hcount⟩ := hc
    unfold Config.Balanced
    rw [hm, hp]
    exact ⟨hf, (Live.ended_length _ v).trans ha, hcount⟩

theorem start_balanced (program : List Value) (e : Engine σ) :
    ((Thread.start program).config e).Balanced := by
  cases program with
  | nil => exact ⟨rfl, rfl, rfl⟩
  | cons token program => exact ⟨rfl, rfl, rfl⟩

theorem Path.balanced {between : Engine σ → Engine σ → Prop} {n : Nat} {a b : Config σ}
    (h : Path between n a b) (ha : a.Balanced) : b.Balanced :=
  h.invariant (P := Config.Balanced) (fun a b ha hs => step_balanced ha (by rw [hs]; rfl))
    (fun a b why e ha hs _ => by
      have hb : b.Balanced := step_balanced ha (by rw [hs]; rfl)
      exact hb) ha

end Logo
