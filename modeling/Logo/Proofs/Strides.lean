import Logo.Proofs.Floats
import Logo.Proofs.Turns
import Logo.Proofs.Undisturbed

/-!
# Steps that nothing delays

A run that nobody pauses or cancels, that calls no asynchronous host function and waits for
no positive time can only be made to wait by a loop. `step_stride` says what its steps can
be: it ends, it comes to wait for the pass that a loop is about to begin, it begins that pass
with the loop waiting for it, or it goes on with no more passes open than before.
-/

namespace Logo
set_option autoImplicit false

variable {σ : Type}

/-- The loops that wait for one of their passes. -/
def openPasses : List Pending → Nat
  | [] => 0
  | .loop _ :: pending => openPasses pending + 1
  | _ :: pending => openPasses pending

/-- The next step begins a pass of `repeat`, `forever`, `foreach` or `map`: the loop is put to wait
for it. -/
def Config.beginsPass (c : Config σ) : Bool :=
  match step c with
  | .go c' => openPasses c.pending < openPasses c'.pending
  | _ => false

/-- Something is called for which the run may have to wait: an asynchronous host function, or
`wait` with a positive input. -/
def Config.mayWait (c : Config σ) : Bool :=
  match c.focus with
  | .checkpoint (.call (.host id _ _) _) =>
    match c.machine.engine.hosts[id]? with
    | some (.async _ _) => true
    | _ => false
  | .checkpoint (.call (.primitive .wait) (v :: _)) =>
    match v.toNumber? with
    | some ticks => 0.0 < ticks
    | none => false
  | _ => false

/-- In the next step host code issues no pause and no cancel, and nothing is called for which the
run may have to wait. -/
def Config.Prompt (c : Config σ) : Prop := c.HandsOff ∧ c.mayWait = false

/-! ### Sleeping -/

theorem tickNanoseconds_of_nonpositive {ticks : Float} (hfinite : Decimal.isFinite ticks = true)
    (h : ¬ 0.0 < ticks) : tickNanoseconds ticks = 0 := by
  unfold tickNanoseconds
  split
  · rename_i b hb
    obtain ⟨m, e, hpos, hsixty⟩ : ∃ m e hpos,
        (60.0 : Float).toModel.unpack = .finite .positive m e hpos := ⟨_, _, _, rfl⟩
    obtain hneg | hzero := Decimal.ofFloat_div_nonpositive hfinite h hsixty hb
    · rw [hneg, if_pos rfl]
    · have hratio : b.ratio.1 = 0 := by
        unfold Decimal.Binary.ratio
        split <;> simp [hzero]
      have hround : Decimal.roundHalfEven 0 b.ratio.2 = 0 := by
        have hden := b.ratio_pos
        simp [Decimal.roundHalfEven, hden]
      rw [hratio, Nat.zero_mul, hround, ite_self]
  · rfl

theorem Taker.number_ok {t : Taker} {v : Value} {n : Float} (h : t.number v = .ok n) :
    v.toNumber? = some n := by
  unfold Taker.number at h
  cases hv : v.toNumber? with
  | none =>
    rw [hv] at h
    cases h
  | some m =>
    rw [hv] at h
    cases h
    rfl

/-- Only `wait` leaves a time to sleep, and it is that of its input. -/
def Effect.SleepOf (p : Primitive) (inputs : List Value) : Effect → Prop
  | .sleep nanoseconds => p = .wait ∧ ∃ v ticks, inputs = [v] ∧ v.toNumber? = some ticks ∧
      Decimal.isFinite ticks = true ∧ nanoseconds = tickNanoseconds ticks
  | _ => True

theorem Primitive.plan_sleep (p : Primitive) (inputs : List Value) (m : Machine σ) :
    Gives (Effect.SleepOf p inputs) (p.plan inputs m) := by
  cases p
  case wait =>
    refine .one fun v hone => .bind fun ticks hticks => ?_
    split
    · exact .ok ⟨rfl, v, ticks, hone, Taker.number_ok hticks, by assumption, rfl⟩
    · exact .error
  case ifTrue =>
    refine .two fun _ _ _ => .bind fun _ _ => .bind fun holds _ => ?_
    cases holds <;> exact .ok trivial
  case ifElse => exact .three fun _ _ _ _ => .bind fun _ _ => .bind fun _ _ => .ok trivial
  case repeatTimes => exact .two fun _ _ _ => .bind fun _ _ => .bind fun _ _ => .ok trivial
  case forever | run => exact .one fun _ _ => .bind fun _ _ => .ok trivial
  case thing =>
    refine .one fun _ _ => .bind fun _ _ => ?_
    split
    · exact .ok trivial
    · exact .error
  case repcount => exact .ok trivial
  case invoke =>
    simp only [plan]
    split
    · exact .ok trivial
    · exact .error
  case apply | foreach | map => exact .two fun _ _ _ => .bind fun _ _ => .ok trivial
  all_goals exact .bind fun _ _ => .ok trivial

theorem Primitive.perform_sleep (p : Primitive) (inputs : List Value) (m : Machine σ) :
    Gives (Effect.SleepOf p inputs) (p.perform inputs m).1 := by
  have hdone := p.perform_performs inputs m
  generalize p.perform inputs m = done at hdone ⊢
  cases hdone with
  | refuses f => exact .error
  | plans => exact p.plan_sleep inputs m
  | _ => exact .ok trivial

/-! ### What a step leads to -/

/-- Is the run about to begin a pass? -/
def Focus.atPass : Focus → Bool
  | .checkpoint (.pass _) => true
  | _ => false

/-- No host function is asked, the clock has come far enough, and a pass is there to begin. -/
def Focus.InTime (clock : Nat) : Focus → Prop
  | .ask _ _ _ => False
  | .sleep deadline => deadline ≤ clock
  | .checkpoint (.pass l) => l.outcome? = none
  | _ => True

theorem Focus.InTime.later {focus : Focus} {clock clock' : Nat} (h : focus.InTime clock)
    (hle : clock ≤ clock') : focus.InTime clock' := by
  cases focus with
  | sleep deadline => exact Nat.le_trans h hle
  | checkpoint a => cases a <;> exact h
  | _ => exact h

/-- The run goes on with something else than a pass, and with as many passes open as `pending`
has. -/
structure Config.Onward (pending : List Pending) (c : Config σ) : Prop where
  atPass : c.focus.atPass = false
  inTime : c.focus.InTime c.machine.engine.clock
  passes : openPasses c.pending = openPasses pending

namespace Config.Onward

variable {m : Machine σ} {tokens : List Value} {pending : List Pending}

theorem enter (items : List Value) : Onward pending (Logo.enter m items tokens pending) := by
  cases items <;> exact ⟨rfl, trivial, rfl⟩

theorem callNamed (name : String) (parenthesised : Bool) :
    Onward pending (Logo.callNamed m name parenthesised tokens pending) := by
  unfold Logo.callNamed
  split <;> exact ⟨rfl, trivial, rfl⟩

theorem openParen : Onward pending (Logo.openParen m tokens pending) := by
  unfold Logo.openParen
  split
  · exact ⟨rfl, trivial, rfl⟩
  · split
    · exact callNamed _ _
    · exact ⟨rfl, trivial, rfl⟩
    · exact ⟨rfl, trivial, rfl⟩

theorem readOperand : Onward pending (Logo.readOperand m tokens pending) := by
  cases tokens with
  | nil => exact ⟨rfl, trivial, rfl⟩
  | cons token rest =>
    simp only [Logo.readOperand]
    cases Role.of token
    case openParen => exact openParen
    case word name => exact callNamed name false
    case operator op =>
      cases op
      case subtract =>
        simp only
        split <;> exact ⟨rfl, trivial, rfl⟩
      all_goals exact ⟨rfl, trivial, rfl⟩
    all_goals exact ⟨rfl, trivial, rfl⟩

theorem readChain (c : Chain) : Onward pending (Logo.readChain m c tokens pending) := by
  unfold Logo.readChain
  split
  · split <;> exact ⟨rfl, trivial, rfl⟩
  · simp only
    split
    · exact ⟨rfl, trivial, rfl⟩
    · split
      · exact ⟨rfl, trivial, rfl⟩
      · split <;> exact ⟨rfl, trivial, rfl⟩

theorem readInputs (g : Gathering) : Onward pending (Logo.readInputs m g tokens pending) := by
  unfold Logo.readInputs
  split
  · split
    · exact ⟨rfl, trivial, rfl⟩
    · split
      · split <;> exact ⟨rfl, trivial, rfl⟩
      · exact ⟨rfl, trivial, rfl⟩
  · split
    · exact ⟨rfl, trivial, rfl⟩
    · split
      · exact ⟨rfl, trivial, rfl⟩
      · split <;> exact ⟨rfl, trivial, rfl⟩

theorem callWith (p : Procedure) (inputs : List Value) :
    Onward pending (Logo.callWith m p inputs tokens pending) := by
  unfold Logo.callWith
  split <;> exact ⟨rfl, trivial, rfl⟩

theorem applyList (caller : String) (template inputs : List Value) :
    Onward pending (Logo.applyList m caller template inputs tokens pending) := by
  unfold Logo.applyList
  split
  · split
    · exact ⟨rfl, trivial, rfl⟩
    · split
      · exact ⟨rfl, trivial, rfl⟩
      · exact ⟨(enter _).atPass, (enter _).inTime, (enter _).passes⟩
  · exact ⟨rfl, trivial, rfl⟩

theorem applyTemplate (caller : String) (template : Value) (inputs : List Value) :
    Onward pending (Logo.applyTemplate m caller template inputs tokens pending) := by
  unfold Logo.applyTemplate
  split
  · exact callWith _ _
  · simp only
    split
    · exact callWith _ _
    · exact ⟨rfl, trivial, rfl⟩
  · exact applyList _ _ _
  · exact ⟨rfl, trivial, rfl⟩

theorem callDefined (params : List String) (body inputs : List Value) :
    Onward pending (Logo.callDefined m params body inputs tokens pending) := by
  unfold Logo.callDefined
  split
  · exact ⟨rfl, trivial, rfl⟩
  · exact ⟨(enter _).atPass, (enter _).inTime, (enter _).passes⟩

theorem resume (v : Option Value) (p : Pending) :
    Onward pending (Logo.resume m v tokens p pending) := by
  unfold Logo.resume Logo.afterPass
  repeat' split
  all_goals exact ⟨rfl, trivial, rfl⟩

theorem carryOut {e : Effect} (he : ∀ n, e = .sleep n → n = 0) :
    Onward pending (Logo.carryOut m e tokens pending) := by
  cases e with
  | reply v => exact ⟨rfl, trivial, rfl⟩
  | block items => exact enter items
  | loop l => cases l <;> exact ⟨rfl, trivial, rfl⟩
  | template caller template inputs => exact applyTemplate caller template inputs
  | sleep n =>
    obtain rfl := he n rfl
    exact ⟨rfl, Nat.le_refl _, rfl⟩

theorem callHost {id : Nat} (hsync : ∀ arity ask, m.engine.hosts[id]? ≠ some (.async arity ask))
    (name : String) (inputs : List Value) :
    Onward pending (Logo.callHost m id name inputs tokens pending) := by
  unfold Logo.callHost
  split
  · exact ⟨rfl, trivial, rfl⟩
  · rename_i arity ask hasync
    exact absurd hasync (hsync arity ask)
  · simp only
    split <;> exact ⟨rfl, trivial, rfl⟩

/-- A call for which the run need not wait. -/
theorem callProcedure {p : Procedure} {inputs : List Value}
    (h : Config.mayWait ⟨m, .checkpoint (.call p inputs), tokens, pending⟩ = false) :
    Onward pending (Logo.callProcedure m p inputs tokens pending) := by
  cases p with
  | primitive p =>
    have hsleep := p.perform_sleep (p.given inputs) m
    rw [callProcedure_primitive, Primitive.entered]
    generalize p.perform (p.given inputs) m = done at hsleep
    obtain ⟨f | e, m'⟩ := done
    · exact ⟨rfl, trivial, rfl⟩
    · refine carryOut fun n hn => ?_
      subst hn
      obtain ⟨rfl, v, ticks, hgiven, hticks, hfinite, rfl⟩ := hsleep _ rfl
      refine tickNanoseconds_of_nonpositive hfinite fun hpos => ?_
      cases inputs with
      | nil => cases hgiven
      | cons w inputs =>
        cases hgiven
        simp [Config.mayWait, hticks, hpos] at h
  | host id name arity =>
    refine callHost (fun arity ask hasync => ?_) name _
    simp [Config.mayWait, hasync] at h
  | defined id name params body => exact callDefined params body inputs

/-- Which loop waits does not matter. -/
theorem loop {l l' : Loop} {c : Config σ} (h : Onward (.loop l' :: pending) c) :
    Onward (.loop l :: pending) c :=
  ⟨h.atPass, h.inTime, h.passes⟩

/-- A pass is begun with its loop waiting for it. -/
theorem beginPass {l : Loop} (hl : l.outcome? = none) :
    Onward (.loop l :: pending) (Logo.beginPass m l tokens pending) := by
  cases l with
  | times block begun total => exact (enter block).loop
  | endless block => exact enter block
  | each template items =>
    cases items with
    | nil => cases hl
    | cons item items => exact (applyTemplate _ template [item]).loop
  | collect template items outputs =>
    cases items with
    | nil => cases hl
    | cons item items => exact (applyTemplate _ template [item]).loop

theorem act {a : Act} (ha : (Focus.checkpoint a).atPass = false)
    (h : Config.mayWait ⟨m, .checkpoint a, tokens, pending⟩ = false) :
    Onward pending (Logo.act m a tokens pending) := by
  cases a with
  | literal v => exact ⟨rfl, trivial, rfl⟩
  | read name =>
    simp only [Logo.act]
    split <;> exact ⟨rfl, trivial, rfl⟩
  | call p inputs => exact callProcedure h
  | pass l => cases ha

end Config.Onward

theorem openPasses_le_cons (p : Pending) (pending : List Pending) :
    openPasses pending ≤ openPasses (p :: pending) := by
  cases p with
  | loop l => exact Nat.le_succ _
  | _ => exact Nat.le_refl _

/-- What a step of a run that goes on at once can be. -/
inductive Config.Stride (c : Config σ) : Next σ → Prop where
  | ends {outcome : Outcome} {m : Machine σ} : c.focus.atPass = false →
      Stride c (.resolved outcome m)
  /-- A loop is about to begin a pass and waits. -/
  | waits {l : Loop} : c.focus = .turn l → l.outcome? = none →
      Stride c (.suspend .pass { c with focus := .checkpoint (.pass l) })
  | begins {l : Loop} {c' : Config σ} : c.focus = .checkpoint (.pass l) →
      c'.Onward (.loop l :: c.pending) → Stride c (.go c')
  | goes {pending : List Pending} {c' : Config σ} : c.focus.atPass = false → c'.Onward pending →
      openPasses pending ≤ openPasses c.pending → Stride c (.go c')

/-- The run is running, and nothing but a pass can make it wait. -/
structure Config.Unhindered (c : Config σ) : Prop where
  running : c.machine.engine.state = .running
  inTime : c.focus.InTime c.machine.engine.clock

section Steps

variable {c c' : Config σ}

theorem step_stride (hc : c.Unhindered) (hp : c.mayWait = false) : c.Stride (step c) := by
  obtain ⟨m, focus, tokens, pending⟩ := c
  have hgo : ∀ {c' : Config σ}, focus.atPass = false → c'.Onward pending →
      Config.Stride ⟨m, focus, tokens, pending⟩ (.go c') := fun ha h => .goes ha h (Nat.le_refl _)
  cases focus with
  | expression => exact hgo rfl ⟨rfl, trivial, rfl⟩
  | operand => exact hgo rfl .readOperand
  | chain c => exact hgo rfl (.readChain c)
  | gather g => exact hgo rfl (.readInputs g)
  | turn l =>
    simp only [step]
    split
    · exact hgo rfl ⟨rfl, trivial, rfl⟩
    · exact .waits rfl (by assumption)
  | checkpoint a =>
    have hr : m.engine.state = .running := hc.running
    simp only [step, hr]
    cases ha : (Focus.checkpoint a).atPass with
    | false => exact hgo ha (.act ha hp)
    | true =>
      cases a with
      | pass l => exact .begins rfl (.beginPass hc.inTime)
      | _ => cases ha
  | ask id inputs asked => exact hc.inTime.elim
  | sleep deadline =>
    have hr : m.engine.state ≠ .cancelling := by
      rw [show m.engine.state = .running from hc.running]
      decide
    have hclock : deadline ≤ m.engine.clock := hc.inTime
    simp only [step]
    rw [race_awaitClock hr, awaitClock, if_pos hclock]
    exact hgo rfl ⟨rfl, trivial, rfl⟩
  | reply v =>
    cases pending with
    | nil => exact .ends rfl
    | cons p pending => exact .goes rfl (.resume v p) (openPasses_le_cons p pending)
  | raise f =>
    cases pending with
    | nil => exact .ends rfl
    | cons p pending => exact .goes rfl ⟨rfl, trivial, rfl⟩ (openPasses_le_cons p pending)

theorem step_unhindered (hc : c.Unhindered) (hp : c.Prompt) (hs : (step c).config? = some c') :
    c'.Unhindered := by
  refine ⟨step_running hp.1 hc.running hs, ?_⟩
  have hstride := step_stride hc hp.2
  generalize step c = next at hstride hs
  cases hstride with
  | ends => cases hs
  | waits _ hl =>
    cases hs
    exact hl
  | begins _ h =>
    cases hs
    exact h.inTime
  | goes _ h _ =>
    cases hs
    exact h.inTime

end Steps

end Logo
