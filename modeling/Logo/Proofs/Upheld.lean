import Logo.Proofs.Faults
import Logo.Proofs.Paths

/-!
# Conditions that every step upholds

An invariant of a run mostly concerns a few kinds of focus and of pending frames;
of all the others it asks nothing. `Upheld` lists what such a pair of conditions
has to satisfy where operator chains grow and where faults arise, and
`step_upheld` carries it through every construct of a program.
-/

namespace Logo
set_option autoImplicit false

variable {σ : Type}

/-- Can a call of this function fail with `f`? -/
def HostFunction.CanFail : HostFunction σ → Fault → Prop
  | .sync kinds body, f => ∃ inputs view, (HostBody.apply kinds body inputs view).answer = .error f
  | .async _ ask, f => ∃ inputs asked view, (ask inputs asked view).answer = .ready (.error f)

/-- The fault comes from a host function, or says something else than that the run
was stopped. -/
def Fault.Ordinary (hosts : Array (HostFunction σ)) (f : Fault) : Prop :=
  f.kind ≠ .cancelled ∨ ∃ h ∈ hosts, h.CanFail f

/-- Neither a chain nor a fault. -/
def Focus.Plain : Focus → Prop
  | .chain _ | .raise _ => False
  | _ => True

/-- Waits for anything but a right operand. -/
def Pending.Plain : Pending → Prop
  | .rightOperand _ _ _ => False
  | _ => True

/-- Two conditions, on what a run is about to do and on what waits, that hold on where
they have to. -/
structure Upheld (hosts : Array (HostFunction σ)) (F : Focus → Prop) (G : Pending → Prop) : Prop where
  focus : ∀ {focus : Focus}, focus.Plain → F focus
  frame : ∀ {p : Pending}, p.Plain → G p
  fault : ∀ {f : Fault}, f.Ordinary hosts → F (.raise f)
  firstOperand : ∀ v, F (.chain ⟨[v], []⟩)
  nextOperand : ∀ {c op producer} (v : Value), G (.rightOperand c op producer) →
    F (.chain ⟨v :: c.operands, c.operators⟩)
  nextOperator : ∀ {c c' strength} (op : Operator) (producer : Value), F (.chain c) →
    Chain.settle strength c.operands c.operators = .ok c' →
    G (.rightOperand ⟨c'.operands, op :: c'.operators⟩ op producer)
  unsettled : ∀ {c strength f}, F (.chain c) →
    Chain.settle strength c.operands c.operators = .error f → F (.raise f)

theorem parameter_failsWith (caller : String) (v : Value) :
    FailsWith FaultKind.OfProgram (parameter caller v) := by
  unfold parameter
  split
  · exact .ok _
  · exact .error (.inr (.inr rfl))

def Config.Meets (F : Focus → Prop) (G : Pending → Prop) (c : Config σ) : Prop :=
  F c.focus ∧ ∀ p ∈ c.pending, G p

namespace Upheld

variable {hosts : Array (HostFunction σ)} {F : Focus → Prop} {G : Pending → Prop}
variable (h : Upheld hosts F G) {m : Machine σ} {tokens : List Value} {pending : List Pending}
include h

/-- A fault of the program. -/
theorem ofProgram {f : Fault} (hf : f.kind.OfProgram) : F (.raise f) := by
  refine h.fault (.inl fun hk => ?_)
  rw [hk] at hf
  obtain hf | hf | hf := hf <;> cases hf

theorem frames {p : Pending} (hp : p.Plain) (hw : ∀ p ∈ pending, G p) : ∀ q ∈ p :: pending, G q := by
  intro q hq
  obtain rfl | hq := List.mem_cons.1 hq
  · exact h.frame hp
  · exact hw q hq

variable (hw : ∀ p ∈ pending, G p)
include hw

theorem enter (items : List Value) : (enter m items tokens pending).Meets F G := by
  cases items with
  | nil => exact ⟨h.focus trivial, hw⟩
  | cons item items => exact ⟨h.focus trivial, h.frames trivial hw⟩

theorem callNamed (name : String) (parenthesised : Bool) :
    (callNamed m name parenthesised tokens pending).Meets F G := by
  unfold Logo.callNamed Machine.procedure
  split
  · exact ⟨h.focus trivial, hw⟩
  · rename_i f hf
    refine ⟨h.ofProgram ?_, hw⟩
    split at hf <;> cases hf
    · exact .inr (.inr rfl)
    · exact .inr (.inl rfl)

theorem openParen : (openParen m tokens pending).Meets F G := by
  cases tokens with
  | nil => exact ⟨h.ofProgram (.inl rfl), hw⟩
  | cons token rest =>
    simp only [Logo.openParen]
    cases Role.of token
    case word name => exact h.callNamed hw name true
    case closeParen => exact ⟨h.ofProgram (.inl rfl), hw⟩
    all_goals exact ⟨h.focus trivial, h.frames trivial hw⟩

theorem readOperand : (readOperand m tokens pending).Meets F G := by
  cases tokens with
  | nil => exact ⟨h.ofProgram (.inl rfl), hw⟩
  | cons token rest =>
    simp only [Logo.readOperand]
    cases Role.of token
    case openParen => exact h.openParen hw
    case word name => exact h.callNamed hw name false
    case closeParen => exact ⟨h.ofProgram (.inl rfl), hw⟩
    case operator op =>
      cases op
      case subtract =>
        simp only
        split
        · exact ⟨h.ofProgram (.inl rfl), hw⟩
        · exact ⟨h.focus trivial, h.frames trivial hw⟩
      all_goals exact ⟨h.ofProgram (.inl rfl), hw⟩
    all_goals exact ⟨h.focus trivial, hw⟩

theorem readChain {c : Chain} (hc : F (.chain c)) : (readChain m c tokens pending).Meets F G := by
  unfold Logo.readChain
  cases operatorAhead? tokens with
  | none =>
    cases hs : Chain.settle 0 c.operands c.operators with
    | ok c' => exact ⟨h.focus trivial, hw⟩
    | error f => exact ⟨h.unsettled hc hs, hw⟩
  | some op =>
    cases hs : Chain.settle op.precedence c.operands c.operators with
    | error f =>
      simp only [hs]
      exact ⟨h.unsettled hc hs, hw⟩
    | ok c' =>
      simp only [hs]
      cases tokens.tail with
      | nil => exact ⟨h.ofProgram (.inl rfl), hw⟩
      | cons producer rest =>
        simp only
        split
        · exact ⟨h.ofProgram (.inl rfl), hw⟩
        · refine ⟨h.focus trivial, fun q hq => ?_⟩
          obtain rfl | hq := List.mem_cons.1 hq
          · exact h.nextOperator op producer hc hs
          · exact hw q hq

theorem readInputs (g : Gathering) : (readInputs m g tokens pending).Meets F G := by
  unfold Logo.readInputs
  split
  · cases tokens with
    | nil => exact ⟨h.ofProgram (.inl rfl), hw⟩
    | cons token rest =>
      simp only
      cases Role.of token
      case closeParen =>
        simp only
        split
        · exact ⟨h.focus trivial, hw⟩
        · exact ⟨h.ofProgram (.inl rfl), hw⟩
      all_goals exact ⟨h.focus trivial, h.frames trivial hw⟩
  · split
    · exact ⟨h.focus trivial, hw⟩
    · cases tokens with
      | nil => exact ⟨h.ofProgram (.inl rfl), hw⟩
      | cons token rest =>
        simp only
        split
        · exact ⟨h.ofProgram (.inl rfl), hw⟩
        · exact ⟨h.focus trivial, h.frames trivial hw⟩

/-! ### Calls, templates and loops -/

theorem callWith (p : Procedure) (inputs : List Value) :
    (callWith m p inputs tokens pending).Meets F G := by
  unfold Logo.callWith
  split
  · exact ⟨h.ofProgram (.inl rfl), hw⟩
  · exact ⟨h.focus trivial, hw⟩

theorem applyList (caller : String) (template inputs : List Value) :
    (applyList m caller template inputs tokens pending).Meets F G := by
  unfold Logo.applyList
  split
  · split
    · exact ⟨h.ofProgram (.inl rfl), hw⟩
    · split
      · rename_i f hf
        exact ⟨h.ofProgram (FailsWith.mapM (parameter_failsWith caller) _ f hf), hw⟩
      · exact h.enter (h.frames (p := .template) trivial hw) _
  · exact ⟨h.ofProgram (.inr (.inr rfl)), hw⟩

theorem applyTemplate (caller : String) (template : Value) (inputs : List Value) :
    (applyTemplate m caller template inputs tokens pending).Meets F G := by
  cases template
  case procedure p => exact h.callWith hw p inputs
  case text s =>
    unfold Logo.applyTemplate Machine.procedure
    simp only
    split
    · exact h.callWith hw _ inputs
    · rename_i f hf
      refine ⟨h.ofProgram ?_, hw⟩
      split at hf <;> cases hf
      · exact .inr (.inr rfl)
      · exact .inr (.inl rfl)
  case list items => exact h.applyList hw caller items inputs
  all_goals exact ⟨h.ofProgram (.inr (.inr rfl)), hw⟩

theorem carryOut (e : Effect) : (carryOut m e tokens pending).Meets F G := by
  cases e
  case block items => exact h.enter hw items
  case loop l =>
    cases l
    case times block begun total => exact ⟨h.focus trivial, h.frames trivial hw⟩
    all_goals exact ⟨h.focus trivial, hw⟩
  case template caller template inputs => exact h.applyTemplate hw caller template inputs
  all_goals exact ⟨h.focus trivial, hw⟩

theorem callDefined (params : List String) (body inputs : List Value) :
    (callDefined m params body inputs tokens pending).Meets F G := by
  unfold Logo.callDefined
  split
  · exact ⟨h.fault (.inl (by simp [Fault.kind])), hw⟩
  · exact h.enter (h.frames (p := .activation) trivial hw) body

theorem callHost (hh : m.engine.hosts = hosts) (id : Nat) (name : String) (inputs : List Value) :
    (callHost m id name inputs tokens pending).Meets F G := by
  unfold Logo.callHost
  split
  · exact ⟨h.ofProgram (.inr (.inr rfl)), hw⟩
  · exact ⟨h.focus trivial, hw⟩
  · rename_i kinds body hf
    simp only
    split
    · exact ⟨h.focus trivial, hw⟩
    · rename_i f hans
      have hm : HostFunction.sync kinds body ∈ hosts := hh ▸ Array.mem_of_getElem? hf
      exact ⟨h.fault (.inr ⟨_, hm, inputs, _, hans⟩), hw⟩

theorem callProcedure (hh : m.engine.hosts = hosts) (p : Procedure) (inputs : List Value) :
    (callProcedure m p inputs tokens pending).Meets F G := by
  cases p with
  | primitive p =>
    unfold Logo.callProcedure
    simp only
    have hf := p.perform_failsWith (if p.variadic then inputs else inputs.take p.arity) m
    generalize p.perform _ m = done at hf
    obtain ⟨f | e, m'⟩ := done
    · exact ⟨h.ofProgram (hf f rfl), hw⟩
    · exact h.carryOut hw e
  | host id name arity => exact h.callHost hw hh id name _
  | defined id name params body => exact h.callDefined hw params body inputs

theorem beginPass (l : Loop) : (beginPass m l tokens pending).Meets F G := by
  cases l with
  | times block begun total =>
    exact h.enter (h.frames (p := .loop (.times block (begun + 1) total)) trivial hw) block
  | endless block => exact h.enter (h.frames (p := .loop (.endless block)) trivial hw) block
  | each template items =>
    cases items with
    | nil => exact ⟨h.focus trivial, hw⟩
    | cons item items =>
      exact h.applyTemplate (h.frames (p := .loop (.each template items)) trivial hw) _ template [item]
  | collect template items outputs =>
    cases items with
    | nil => exact ⟨h.focus trivial, hw⟩
    | cons item items =>
      exact h.applyTemplate (h.frames (p := .loop (.collect template items outputs)) trivial hw) _
        template [item]

theorem act (hh : m.engine.hosts = hosts) (a : Act) : (act m a tokens pending).Meets F G := by
  cases a with
  | literal v => exact ⟨h.focus trivial, hw⟩
  | read name =>
    simp only [Logo.act]
    split
    · exact ⟨h.focus trivial, hw⟩
    · exact ⟨h.ofProgram (.inr (.inl rfl)), hw⟩
  | call p inputs => exact h.callProcedure hw hh p inputs
  | pass l => exact h.beginPass hw l

/-! ### Outcomes -/

theorem afterPass (l : Loop) (v : Option Value) : (afterPass m l v tokens pending).Meets F G := by
  unfold Logo.afterPass
  split
  · exact ⟨h.focus trivial, hw⟩
  · split
    · exact ⟨h.focus trivial, hw⟩
    · exact ⟨h.ofProgram (.inl rfl), hw⟩
  · exact ⟨h.ofProgram (.inl rfl), hw⟩
  · split
    · exact ⟨h.focus trivial, hw⟩
    · exact ⟨h.focus trivial, hw⟩

theorem resume {p : Pending} (hp : G p) (v : Option Value) :
    (resume m v tokens p pending).Meets F G := by
  cases p with
  | sequence saved =>
    simp only [Logo.resume]
    split
    · exact ⟨h.focus trivial, hw⟩
    · cases v with
      | none =>
        cases tokens with
        | nil => exact ⟨h.focus trivial, hw⟩
        | cons token rest => exact ⟨h.focus trivial, h.frames trivial hw⟩
      | some v =>
        cases tokens with
        | nil => exact ⟨h.focus trivial, hw⟩
        | cons token rest => exact ⟨h.ofProgram (.inl rfl), hw⟩
  | firstOperand =>
    simp only [Logo.resume]
    cases operatorAhead? tokens with
    | none => exact ⟨h.focus trivial, hw⟩
    | some op =>
      cases v with
      | none => exact ⟨h.ofProgram (.inl rfl), hw⟩
      | some v => exact ⟨h.firstOperand v, hw⟩
  | rightOperand c op producer =>
    cases v with
    | none => exact ⟨h.ofProgram (.inl rfl), hw⟩
    | some v => exact ⟨h.nextOperand v hp, hw⟩
  | negation =>
    cases v with
    | none => exact ⟨h.ofProgram (.inl rfl), hw⟩
    | some v =>
      simp only [Logo.resume]
      cases hn : negate Operator.subtract.symbol v with
      | ok w => exact ⟨h.focus trivial, hw⟩
      | error f => exact ⟨h.ofProgram (negate_failsWith (.inr (.inr rfl)) _ v f hn), hw⟩
  | group =>
    cases tokens with
    | nil => exact ⟨h.ofProgram (.inl rfl), hw⟩
    | cons token rest =>
      simp only [Logo.resume]
      split
      · exact ⟨h.focus trivial, hw⟩
      · exact ⟨h.ofProgram (.inl rfl), hw⟩
  | input g producer =>
    cases v with
    | none => exact ⟨h.ofProgram (.inl rfl), hw⟩
    | some v => exact ⟨h.focus trivial, hw⟩
  | activation =>
    cases v with
    | none => exact ⟨h.focus trivial, hw⟩
    | some v => exact ⟨h.ofProgram (.inl rfl), hw⟩
  | template => exact ⟨h.focus trivial, hw⟩
  | counter => exact ⟨h.focus trivial, hw⟩
  | loop l => exact h.afterPass hw l v

end Upheld

/-! ### Whole steps -/

theorem Upheld.askHost {hosts : Array (HostFunction σ)} {F : Focus → Prop} {G : Pending → Prop}
    (h : Upheld hosts F G) {m : Machine σ} {tokens : List Value} {pending : List Pending}
    (hw : ∀ p ∈ pending, G p) (hh : m.engine.hosts = hosts) {id asked : Nat} {inputs : List Value}
    {c : Config σ} (hc : (askHost m id inputs asked tokens pending).config? = some c) :
    c.Meets F G := by
  unfold Logo.askHost at hc
  split at hc
  · rename_i arity ask hf
    simp only at hc
    split at hc <;> cases hc
    · exact ⟨h.focus trivial, hw⟩
    · rename_i f hans
      have hm : HostFunction.async arity ask ∈ hosts := hh ▸ Array.mem_of_getElem? hf
      exact ⟨h.fault (.inr ⟨_, hm, inputs, asked, _, hans⟩), hw⟩
    · exact ⟨h.focus trivial, hw⟩
    · exact ⟨h.focus trivial, hw⟩
  · cases hc
    exact ⟨h.focus trivial, hw⟩

theorem Upheld.awaitClock {hosts : Array (HostFunction σ)} {F : Focus → Prop} {G : Pending → Prop}
    (h : Upheld hosts F G) {m : Machine σ} {tokens : List Value} {pending : List Pending}
    (hw : ∀ p ∈ pending, G p) {deadline : Nat} {c : Config σ}
    (hc : (awaitClock m deadline tokens pending).config? = some c) : c.Meets F G := by
  unfold Logo.awaitClock at hc
  split at hc <;> cases hc
  · exact ⟨h.focus trivial, hw⟩
  · exact ⟨h.focus trivial, hw⟩

/-- The run gives up because of a break. -/
structure Config.GivesUp (G : Pending → Prop) (c : Config σ) : Prop where
  state : c.machine.engine.state = .cancelling
  focus : c.focus = .raise .stopped
  pending : ∀ p ∈ c.pending, G p

theorem race_upheld {F : Focus → Prop} {G : Pending → Prop} {m : Machine σ} {answer : Next σ}
    {tokens : List Value} {pending : List Pending} (hw : ∀ p ∈ pending, G p)
    (ha : ∀ c, answer.config? = some c → c.Meets F G) {c : Config σ}
    (hc : (race m answer tokens pending).config? = some c) : c.Meets F G ∨ c.GivesUp G := by
  obtain ⟨-, hs, h⟩ | ⟨-, h⟩ | ⟨-, why, c', rfl, hs, h⟩ := race_cases m answer tokens pending
  · rw [h] at hc
    cases hc
    exact .inr ⟨hs, rfl, hw⟩
  · rw [h] at hc
    exact .inl (ha c hc)
  · rw [h] at hc
    cases hc
    exact .inr ⟨hs, rfl, (ha c' rfl).2⟩

/-- A step upholds the conditions, unless a break makes the run give up. -/
theorem step_upheld {hosts : Array (HostFunction σ)} {F : Focus → Prop} {G : Pending → Prop}
    (h : Upheld hosts F G) {c c' : Config σ} (hh : c.machine.engine.hosts = hosts)
    (hc : c.Meets F G) (hs : (step c).config? = some c') :
    c'.Meets F G ∨ c'.GivesUp G := by
  obtain ⟨m, focus, tokens, pending⟩ := c
  obtain ⟨hf, hw⟩ := hc
  cases focus with
  | expression =>
    cases hs
    exact .inl ⟨h.focus trivial, h.frames trivial hw⟩
  | operand =>
    cases hs
    exact .inl (h.readOperand hw)
  | chain c =>
    cases hs
    exact .inl (h.readChain hw hf)
  | gather g =>
    cases hs
    exact .inl (h.readInputs hw g)
  | turn l =>
    simp only [step] at hs
    split at hs <;> cases hs
    · exact .inl ⟨h.focus trivial, hw⟩
    · exact .inl ⟨h.focus trivial, hw⟩
  | checkpoint a =>
    simp only [step] at hs
    split at hs <;> cases hs
    · exact .inr ⟨by assumption, rfl, hw⟩
    · exact .inl ⟨h.focus trivial, hw⟩
    · exact .inl (h.act hw hh a)
    · exact .inl (h.act hw hh a)
  | ask id inputs asked => exact race_upheld hw (fun c hc => h.askHost hw hh hc) hs
  | sleep deadline => exact race_upheld hw (fun c hc => h.awaitClock hw hc) hs
  | reply v =>
    cases pending with
    | nil => cases hs
    | cons p pending =>
      cases hs
      exact .inl (h.resume (fun q hq => hw q (List.mem_cons_of_mem _ hq)) (hw p List.mem_cons_self) v)
  | raise f =>
    cases pending with
    | nil => cases hs
    | cons p pending =>
      cases hs
      exact .inl ⟨hf, fun q hq => hw q (List.mem_cons_of_mem _ hq)⟩

end Logo
