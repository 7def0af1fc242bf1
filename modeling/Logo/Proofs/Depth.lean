import Logo.Proofs.Aside
import Logo.Proofs.Turns

/-!
# The depth limit

An engine has a limit on how many calls of defined procedures may be nested. No run ever has
more activations than the limit, and the call that would open one more is refused before
anything of it is done. Apart from that call nothing in a run depends on the limit: on an engine
that differs in a greater limit only, all that is done is done alike, until such a call is
refused.
-/

namespace Logo
set_option autoImplicit false

variable {σ : Type}

/-! ### Never more than the limit -/

/-- The engine has this limit, and not more calls are nested. -/
structure Config.Shallow (limit : Nat) (c : Config σ) : Prop where
  engine : c.machine.engine.depthLimit = limit
  depth : c.machine.live.activations.length ≤ limit

theorem Primitive.perform_depth (p : Primitive) (inputs : List Value) (m : Machine σ) :
    (p.perform inputs m).2.engine.depthLimit = m.engine.depthLimit ∧
      (p.perform inputs m).2.live.activations.length = m.live.activations.length := by
  have hdone := p.perform_performs inputs m
  generalize p.perform inputs m = done at hdone ⊢
  cases hdone with
  | finishes how ha =>
    rw [ha]
    exact ⟨rfl, rfl⟩
  | _ => exact ⟨rfl, rfl⟩

theorem setCounter_depth (m : Machine σ) (n : Nat) :
    (m.setCounter n).engine = m.engine ∧ (m.setCounter n).live.activations = m.live.activations := by
  unfold Machine.setCounter
  split <;> exact ⟨rfl, rfl⟩

theorem abandon_depth (m : Machine σ) (p : Pending) : (abandon m p).engine = m.engine ∧
    (abandon m p).live.activations.length ≤ m.live.activations.length := by
  cases p with
  | activation =>
    refine ⟨rfl, ?_⟩
    show m.live.activations.tail.length ≤ _
    rw [List.length_tail]
    omega
  | _ => exact ⟨rfl, Nat.le_refl _⟩

theorem Config.After.shallow {m : Machine σ} {pending : List Pending} {c : Config σ} {limit : Nat}
    (h : Config.After m pending c) (hl : m.engine.depthLimit = limit)
    (hd : m.live.activations.length ≤ limit) : c.Shallow limit := by
  cases h with
  | called bindings _ _ hroom =>
    refine ⟨hl, ?_⟩
    show m.live.activations.length + 1 ≤ limit
    omega
  | _ => exact ⟨hl, hd⟩

/-- **One step** opens an activation only where there is room for it. -/
theorem step_shallow {c c' : Config σ} {limit : Nat} (hc : c.Shallow limit)
    (h : (step c).config? = some c') : c'.Shallow limit := by
  have hturn := step_turn h
  obtain ⟨hl, hd⟩ := hc
  cases hturn with
  | works _ _ hafter => exact hafter.shallow hl hd
  | @performs m p inputs _ _ _ _ _ =>
    obtain ⟨hlimit, hdepth⟩ := p.perform_depth (p.given inputs) m
    exact ⟨hlimit.trans hl, hdepth.trans_le hd⟩
  | holds _ => exact ⟨hl, hd⟩
  | @passes m _ begun _ _ _ _ _ _ _ _ =>
    obtain ⟨hengine, hactivations⟩ := setCounter_depth m (begun + 1)
    exact ⟨by rw [hengine]; exact hl, by rw [hactivations]; exact hd⟩
  | leaves _ _ => exact ⟨hl, hd⟩
  | resumes _ _ hafter => exact hafter.shallow hl hd
  | turns => exact ⟨hl, hd⟩
  | @closes m _ _ _ p _ _ _ _ =>
    obtain ⟨hengine, hdepth⟩ := abandon_depth m p
    exact ⟨by rw [hengine]; exact hl, hdepth.trans hd⟩

theorem Engine.handle_depthLimit (e : Engine σ) (h : Handling σ) :
    (e.handle h).depthLimit = e.depthLimit := by
  cases h with
  | signal s =>
    show (e.answerSignal s).2.depthLimit = _
    rw [e.answerSignal_engine s]
  | _ => rfl

theorem lasting_shallow (limit : Nat) :
    Bench.Lasting (fun e : Engine σ => e.depthLimit = limit) (Config.Shallow limit) where
  start := by
    intro e program he
    cases program with
    | nil => exact ⟨he, Nat.zero_le _⟩
    | cons item items => exact ⟨he, Nat.zero_le _⟩
  step := fun c c' => step_shallow
  engine := fun c hc => hc.engine
  release := fun e he => he
  handle := fun e h he => (e.handle_depthLimit h).trans he
  suspended := fun t e h hc => ⟨(e.handle_depthLimit h).trans hc.engine, hc.depth⟩

/-! ### A greater limit -/

def Engine.limited (limit : Nat) (e : Engine σ) : Engine σ := { e with depthLimit := limit }

theorem Engine.aside_limited (limit : Nat) : Engine.Aside (Engine.limited limit : Engine σ → Engine σ) where
  scopes := fun _ => rfl
  definitions := fun _ => rfl
  hosts := fun _ => rfl
  setScopes := fun _ _ => rfl
  define := fun _ _ _ => rfl
  print := fun _ _ => rfl
  state := fun _ => rfl
  answersFirst := fun _ => rfl
  clock := fun _ => rfl
  hostView := fun _ => rfl
  afterHost := fun _ _ => rfl
  setState := fun _ _ => rfl
  handle := by
    intro e h
    cases h with
    | signal s =>
      simp only [Engine.handle, Engine.answerSignal_engine]
      rfl
    | _ => rfl

/-- The coming step calls a defined procedure where as many calls are nested as may be. -/
def Config.Overflows (c : Config σ) : Prop :=
  c.callsDefined = true ∧ c.machine.engine.depthLimit ≤ c.machine.live.activations.length

instance (c : Config σ) : Decidable c.Overflows := inferInstanceAs (Decidable (_ ∧ _))

/-- Neither the limit of the engine nor the given one, which is not smaller, is in the way. -/
structure Config.Clears (limit : Nat) (c : Config σ) : Prop where
  engine : c.machine.engine.depthLimit ≤ limit
  room : ¬ c.Overflows

theorem Config.Clears.indifferent {limit : Nat} {c : Config σ} (h : c.Clears limit) :
    c.Indifferent (Engine.limited limit) := by
  intro hc
  have hroom : c.machine.live.activations.length < c.machine.engine.depthLimit :=
    Nat.not_le.1 fun hle => h.room ⟨hc, hle⟩
  exact .inr ⟨hroom, hroom.trans_le h.engine⟩

namespace Bench

/-- The bench with another limit on its engine. -/
def limited (limit : Nat) (b : Bench σ) : Bench σ := b.mapEngine (Engine.limited limit)

/-- What is done is done alike, as long as neither limit is in the way. -/
theorem follow_limited {limit : Nat} {b : Bench σ} {deeds : List (Deed σ)}
    (h : ∀ c ∈ b.moments deeds, c.Clears limit) :
    (b.limited limit).follow deeds = (b.follow deeds).limited limit ∧
      (b.limited limit).answers deeds = b.answers deeds :=
  follow_aside (Engine.aside_limited limit) fun c hc => (h c hc).indifferent

end Bench

/-- **The depth limit is exact and else unseen.** No run on an engine ever has more activations
than the limit. A call of a defined procedure fails where there are as many, with the machine as it
is and nothing of the procedure read, and else begins with an activation of its own. And if no call
fails so in what is done, then under a greater limit the same is answered, and engine and runs are
the same but for the limit. -/
theorem depth_limit_exact {e : Engine σ} (he : e.state = .idle) :
    (∀ c, (Bench.of e).Reaches c → c.machine.live.activations.length ≤ e.depthLimit) ∧
    (∀ c, (Bench.of e).Reaches c → c.machine.engine.state = .running →
      ∀ id name params body inputs,
        c.focus = .checkpoint (.call (.defined id name params body) inputs) →
        (c.machine.live.activations.length = e.depthLimit →
          step c = .go { c with focus := .raise (.tooDeep e.depthLimit) }) ∧
        (c.machine.live.activations.length ≠ e.depthLimit →
          step c = .go (enter (c.machine.openFrame (params.zip inputs)).openActivation body c.tokens
            (.activation :: c.pending)))) ∧
    ∀ limit, e.depthLimit ≤ limit → ∀ deeds : List (Deed σ),
      (∀ c ∈ (Bench.of e).moments deeds, ¬ c.Overflows) →
      (Bench.of (e.limited limit)).answers deeds = (Bench.of e).answers deeds ∧
      ((Bench.of (e.limited limit)).follow deeds).runs = ((Bench.of e).follow deeds).runs ∧
      ((Bench.of (e.limited limit)).follow deeds).engine
        = ((Bench.of e).follow deeds).engine.limited limit := by
  have hreaches : ∀ c, (Bench.of e).Reaches c → c.Shallow e.depthLimit := fun c hc =>
    (lasting_shallow e.depthLimit).reaches he rfl hc
  refine ⟨fun c hc => (hreaches c hc).depth, ?_, ?_⟩
  · intro c hc hrunning id name params body inputs hfocus
    obtain ⟨hlimit, hdepth⟩ := hreaches c hc
    obtain ⟨m, focus, tokens, pending⟩ := c
    simp only at hrunning hfocus hlimit hdepth
    subst hfocus
    have hstep : step ⟨m, .checkpoint (.call (.defined id name params body) inputs), tokens, pending⟩
        = .go (callDefined m params body inputs tokens pending) := by
      simp only [step, hrunning, act, callProcedure]
    rw [hstep, callDefined, hlimit]
    constructor
    · intro hfull
      rw [if_pos (Nat.le_of_eq hfull.symm)]
    · intro hroom
      rw [if_neg fun hfull => hroom (Nat.le_antisymm hdepth hfull)]
  · intro limit hle deeds hnone
    have hclears : ∀ c ∈ (Bench.of e).moments deeds, c.Clears limit := fun c hc =>
      ⟨(hreaches c (.steps deeds hc)).engine.trans_le hle, hnone c hc⟩
    obtain ⟨hfollow, hanswers⟩ := Bench.follow_limited hclears
    have hof : Bench.of (e.limited limit) = (Bench.of e).limited limit := rfl
    rw [hof, hfollow, hanswers]
    exact ⟨rfl, rfl, rfl⟩

namespace Trial

/-- An engine that lets one call be nested, on which `x` runs a block. -/
def defining (block : List Value) : Engine Unit :=
  (Engine.new () .silent 1 false).setGlobal "x" (.procedure (.defined 0 "x" [] block))

/-- The source `x` is run for so many steps. -/
def calling (fuel : Nat) : List (Deed Unit) := [.start 0 "x", .poll 0 fuel]

/-- The run of `x`, which has begun. -/
def begun (block : List Value) : Bench Unit :=
  ((Bench.of (defining block)).make (.start 0 "x")).begun 0 [.text "x"]

theorem begun_calling (block : List Value) (fuel : Nat) :
    (Bench.of (defining block)).follow (calling fuel) = (begun block).make (.poll 0 fuel) ∧
      (Bench.of (defining block)).moments (calling fuel) = (begun block).momentsOf (.poll 0 fuel) := by
  let b := (Bench.of (defining block)).make (.start 0 "x")
  obtain ⟨hmake, hmoments⟩ := Bench.begun_make_poll (b := b) 0 rfl rfl parse_x fuel
  refine ⟨hmake.symm, ?_⟩
  rw [begun, hmoments]
  exact List.append_nil _

/-- `x` calls itself from the one activation that there may be. -/
def again : Thread where
  live := { frames := [1], activations := [{}] }
  focus := .checkpoint (.call (.defined 0 "x" [] [.text "x"]) [])
  tokens := []
  pending := [.firstOperand, .sequence [], .activation, .firstOperand, .sequence []]

end Trial

/-- `x` fails where it calls itself, and it does not matter where it does not. -/
theorem depth_limit_exact_trial :
    let b := (Bench.of (Trial.defining [.text "x"])).follow (Trial.calling 7)
    b.runs 0 = .inFlight Trial.again ∧
    step (Trial.again.config b.engine)
      = .go { Trial.again.config b.engine with focus := .raise (.tooDeep 1) } ∧
    (Bench.of ((Trial.defining []).limited 5)).answers (Trial.calling 100)
      = (Bench.of (Trial.defining [])).answers (Trial.calling 100) := by
  intro b
  obtain ⟨hfollow, -⟩ := Trial.begun_calling [.text "x"] 7
  have hruns : b.runs 0 = .inFlight Trial.again := by
    show ((Bench.of (Trial.defining [.text "x"])).follow (Trial.calling 7)).runs 0 = _
    rw [hfollow]
    cbv
  have hstate : b.engine.state = .running := by
    show ((Bench.of (Trial.defining [.text "x"])).follow (Trial.calling 7)).engine.state = _
    rw [hfollow]
    cbv
  have hnone : ∀ c ∈ (Bench.of (Trial.defining [])).moments (Trial.calling 100), ¬ c.Overflows := by
    rw [(Trial.begun_calling [] 100).2]
    decide +kernel
  have hreaches : (Bench.of (Trial.defining [.text "x"])).Reaches (Trial.again.config b.engine) :=
    .waits (Trial.calling 7) 0 Trial.again hruns rfl
  obtain ⟨-, hcall, -⟩ := depth_limit_exact (e := Trial.defining [.text "x"]) rfl
  obtain ⟨-, -, hlimit⟩ := depth_limit_exact (e := Trial.defining []) rfl
  refine ⟨hruns, ?_, (hlimit 5 (by decide) (Trial.calling 100) hnone).1⟩
  exact (hcall _ hreaches hstate 0 "x" [] [.text "x"] [] rfl).1 rfl

end Logo
