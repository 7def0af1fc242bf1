import Logo.Proofs.Bench
import Logo.Proofs.Holdings
import Logo.Proofs.Parentheses

/-!
# Properties that values inherit

A hereditary property is one of every value that a run holds, as long as it is one of those that
the host hands over, and a call always has as many inputs as its procedure wants: each step
preserves it (`step_holds`), and a run begins with it, for a source has only words and lists of
them (`parse_holds`). `Inherited.lasting` puts this together for all that can be done on a bench.
-/

namespace Logo
set_option autoImplicit false

variable {σ : Type}

/-! ### Constructs -/

/-- Only a value that is no text stands for itself. -/
theorem Role.of_eq_literal {token v : Value} (h : Role.of token = .literal v) : token = v := by
  cases token with
  | text s =>
    simp only [Role.of, Role.ofText] at h
    repeat' split at h
    all_goals cases h
  | _ => cases h; rfl

section Constructs

variable {V : Value → Prop} {m : Machine σ} {tokens : List Value} {pending : List Pending}
variable (hm : m.Holds V) (ht : ∀ v ∈ tokens, V v) (hp : ∀ p ∈ pending, p.Holds V)

include hm ht hp

theorem enter_holds {items : List Value} (hi : ∀ v ∈ items, V v) :
    (enter m items tokens pending).Holds V := by
  cases items with
  | nil => exact ⟨hm, trivial, ht, hp⟩
  | cons item items => exact ⟨hm, trivial, hi, List.forall_mem_cons.2 ⟨ht, hp⟩⟩

theorem callNamed_holds (name : String) (parenthesised : Bool) :
    (callNamed m name parenthesised tokens pending).Holds V := by
  unfold callNamed
  split
  · rename_i p hname
    exact ⟨hm, ⟨hm.procedure hname, List.forall_mem_nil _, rfl⟩, ht, hp⟩
  · exact ⟨hm, trivial, ht, hp⟩

theorem openParen_holds : (openParen m tokens pending).Holds V := by
  cases tokens with
  | nil => exact ⟨hm, trivial, ht, hp⟩
  | cons token rest =>
    simp only [openParen]
    cases Role.of token
    case word name => exact callNamed_holds hm (List.forall_mem_cons.1 ht).2 hp name true
    case closeParen => exact ⟨hm, trivial, ht, hp⟩
    all_goals exact ⟨hm, trivial, ht, List.forall_mem_cons.2 ⟨trivial, hp⟩⟩

theorem readInputs_holds {g : Gathering} (hg : g.Holds V) :
    (readInputs m g tokens pending).Holds V := by
  have hinput : ∀ token, (⟨m, .expression, tokens, .input g token :: pending⟩ : Config σ).Holds V :=
    fun token => ⟨hm, trivial, ht, List.forall_mem_cons.2 ⟨hg, hp⟩⟩
  have hcall : g.missing = 0 → g.call.Holds V := by
    intro hmissing
    refine ⟨hg.procedure, fun v hv => hg.inputs v (List.mem_reverse.1 hv), ?_⟩
    have hcount := hg.missing
    rw [List.length_reverse]
    omega
  unfold readInputs
  split
  · split
    · exact ⟨hm, trivial, ht, hp⟩
    · have hrest := (List.forall_mem_cons.1 ht).2
      split
      · split
        · rename_i hmissing
          exact ⟨hm, hcall hmissing, hrest, hp⟩
        · exact ⟨hm, trivial, hrest, hp⟩
      · exact hinput _
  · split
    · rename_i hmissing
      exact ⟨hm, hcall hmissing, ht, hp⟩
    · split
      · exact ⟨hm, trivial, ht, hp⟩
      · split
        · exact ⟨hm, trivial, ht, hp⟩
        · exact hinput _

theorem callWith_holds {p : Procedure} {inputs : List Value} (hf : V (.procedure p))
    (hi : ∀ v ∈ inputs, V v) : (callWith m p inputs tokens pending).Holds V := by
  unfold callWith
  split
  · exact ⟨hm, trivial, ht, hp⟩
  · rename_i hlength
    exact ⟨hm, ⟨hf, hi, Nat.not_lt.1 hlength⟩, ht, hp⟩

theorem applyList_holds (caller : String) {template inputs : List Value}
    (htemplate : ∀ v ∈ template, V v) (hi : ∀ v ∈ inputs, V v) :
    (applyList m caller template inputs tokens pending).Holds V := by
  unfold applyList
  split
  · obtain ⟨-, hbody⟩ := List.forall_mem_cons.1 htemplate
    split
    · exact ⟨hm, trivial, ht, hp⟩
    · split
      · exact ⟨hm, trivial, ht, hp⟩
      · refine enter_holds (hm.openFrame fun b hb => hi b.2 (List.of_mem_zip hb).2) ht ?_ hbody
        exact List.forall_mem_cons.2 ⟨trivial, hp⟩
  · exact ⟨hm, trivial, ht, hp⟩

theorem afterPass_holds {l : Loop} (hl : l.Holds V) {v : Option Value}
    (hv : v.elim True V) : (afterPass m l v tokens pending).Holds V := by
  unfold afterPass
  split
  · exact ⟨hm, ⟨hl.1, hl.2.1, List.forall_mem_cons.2 ⟨hv, hl.2.2⟩⟩, ht, hp⟩
  · split <;> exact ⟨hm, trivial, ht, hp⟩
  · exact ⟨hm, trivial, ht, hp⟩
  · split
    · exact ⟨hm, trivial, ht, hp⟩
    · exact ⟨hm, hl, ht, hp⟩

theorem callDefined_holds (params : List String) {body inputs : List Value} (hb : ∀ v ∈ body, V v)
    (hi : ∀ v ∈ inputs, V v) : (callDefined m params body inputs tokens pending).Holds V := by
  unfold callDefined
  split
  · exact ⟨hm, trivial, ht, hp⟩
  · have hframe : (m.openFrame (params.zip inputs)).Holds V :=
      hm.openFrame fun b hb => hi b.2 (List.of_mem_zip hb).2
    refine enter_holds hframe.openActivation ht ?_ hb
    exact List.forall_mem_cons.2 ⟨trivial, hp⟩

theorem callHost_holds {id : Nat} {name : String} {inputs : List Value}
    (hf : V (.procedure (.host id name inputs.length)))
    (hanswer : ∀ v, (callHost m id name inputs tokens pending).focus = .reply (some v) → V v) :
    (callHost m id name inputs tokens pending).Holds V := by
  unfold callHost at hanswer ⊢
  split
  · exact ⟨hm, trivial, ht, hp⟩
  · exact ⟨hm, ⟨name, hf⟩, ht, hp⟩
  · rename_i kinds body hfound
    simp only [hfound] at hanswer ⊢
    cases hwork : (HostBody.apply kinds body inputs m.engine.hostView).answer with
    | error f => exact ⟨hm.of_same rfl rfl, trivial, ht, hp⟩
    | ok v =>
      rw [hwork] at hanswer
      refine ⟨hm.of_same rfl rfl, ?_, ht, hp⟩
      cases v with
      | none => trivial
      | some v => exact hanswer v rfl

variable (hV : Hereditary V)
include hV

theorem readOperand_holds : (readOperand m tokens pending).Holds V := by
  cases tokens with
  | nil => exact ⟨hm, trivial, ht, hp⟩
  | cons token rest =>
    obtain ⟨htoken, hrest⟩ := List.forall_mem_cons.1 ht
    simp only [readOperand]
    cases hrole : Role.of token
    case literal v => exact ⟨hm, Role.of_eq_literal hrole ▸ htoken, hrest, hp⟩
    case quoted w => exact ⟨hm, hV.word rfl, hrest, hp⟩
    case openParen => exact openParen_holds hm hrest hp
    case word name => exact callNamed_holds hm hrest hp name false
    case operator op =>
      cases op
      case subtract =>
        simp only
        split
        · exact ⟨hm, trivial, hrest, hp⟩
        · exact ⟨hm, trivial, hrest, List.forall_mem_cons.2 ⟨trivial, hp⟩⟩
      all_goals exact ⟨hm, trivial, hrest, hp⟩
    all_goals exact ⟨hm, trivial, hrest, hp⟩

theorem readChain_holds {c : Chain} (hc : ∀ v ∈ c.operands, V v) :
    (readChain m c tokens pending).Holds V := by
  have hsettled : ∀ strength, Gives (fun c => ∀ v ∈ c.operands, V v)
      (Chain.settle strength c.operands c.operators) := fun strength => Chain.settle_holds hV hc
  have htail : ∀ v ∈ tokens.tail, V v := fun v hv => ht v (List.mem_of_mem_tail hv)
  unfold readChain
  split
  · split
    · rename_i d hd
      refine ⟨hm, ?_, ht, hp⟩
      cases hhead : d.operands.head? with
      | none => trivial
      | some v => exact hsettled 0 d hd v (List.mem_of_mem_head? hhead)
    · exact ⟨hm, trivial, ht, hp⟩
  · simp only
    split
    · exact ⟨hm, trivial, htail, hp⟩
    · rename_i d hd
      split
      · exact ⟨hm, trivial, htail, hp⟩
      · split
        · exact ⟨hm, trivial, htail, hp⟩
        · exact ⟨hm, trivial, htail, List.forall_mem_cons.2 ⟨hsettled _ d hd, hp⟩⟩

theorem applyTemplate_holds (caller : String) {template : Value} {inputs : List Value}
    (htemplate : V template) (hi : ∀ v ∈ inputs, V v) :
    (applyTemplate m caller template inputs tokens pending).Holds V := by
  cases template
  case procedure p => exact callWith_holds hm ht hp htemplate hi
  case text s =>
    simp only [applyTemplate]
    split
    · rename_i p hname
      exact callWith_holds hm ht hp (hm.procedure hname) hi
    · exact ⟨hm, trivial, ht, hp⟩
  case list items => exact applyList_holds hm ht hp caller (hV.list.1 htemplate) hi
  all_goals exact ⟨hm, trivial, ht, hp⟩

theorem carryOut_holds {e : Effect} (he : e.Holds V) : (carryOut m e tokens pending).Holds V := by
  cases e with
  | reply v => exact ⟨hm, he, ht, hp⟩
  | block items => exact enter_holds hm ht hp he
  | loop l =>
    cases l with
    | times block begun total =>
      exact ⟨hm.of_same rfl rfl, he, ht, List.forall_mem_cons.2 ⟨trivial, hp⟩⟩
    | _ => exact ⟨hm, he, ht, hp⟩
  | template caller template inputs => exact applyTemplate_holds hm ht hp hV caller he.1 he.2
  | sleep nanoseconds => exact ⟨hm, trivial, ht, hp⟩

theorem callProcedure_holds {p : Procedure} {inputs : List Value}
    (hcall : (Act.call p inputs).Holds V)
    (hanswer : ∀ v id name arity, p = .host id name arity →
      (callProcedure m p inputs tokens pending).focus = .reply (some v) → V v) :
    (callProcedure m p inputs tokens pending).Holds V := by
  obtain ⟨hf, hi, hlength⟩ := hcall
  cases p with
  | primitive p =>
    have hgiven : ∀ v ∈ p.given inputs, V v := by
      unfold Primitive.given
      split
      · exact hi
      · exact fun v hv => hi v (List.mem_of_mem_take hv)
    obtain ⟨hmachine, heffect⟩ := p.perform_leaves hV hm hgiven
    rw [callProcedure_primitive, Primitive.entered]
    generalize p.perform (p.given inputs) m = done at hmachine heffect ⊢
    obtain ⟨f | e, m'⟩ := done
    · exact ⟨hmachine, trivial, ht, hp⟩
    · exact carryOut_holds hmachine ht hp hV (heffect e rfl)
  | host id name arity =>
    have hgiven : (inputs.take arity).length = arity := List.length_take_of_le hlength
    refine callHost_holds hm ht hp ?_ fun v => hanswer v id name arity rfl
    rwa [hgiven]
  | defined id name params body => exact callDefined_holds hm ht hp params (hV.defined.1 hf) hi

theorem beginPass_holds {l : Loop} (hl : l.Holds V) : (beginPass m l tokens pending).Holds V := by
  have hloop : ∀ l : Loop, l.Holds V → ∀ q ∈ Pending.loop l :: pending, q.Holds V :=
    fun l hl => List.forall_mem_cons.2 ⟨hl, hp⟩
  cases l with
  | times block begun total => exact enter_holds (hm.setCounter _) ht (hloop (.times block (begun + 1) total) hl) hl
  | endless block => exact enter_holds hm ht (hloop _ hl) hl
  | each template items =>
    cases items with
    | nil => exact ⟨hm, hl, ht, hp⟩
    | cons item items =>
      obtain ⟨htemplate, hitems⟩ := hl
      obtain ⟨hitem, hrest⟩ := List.forall_mem_cons.1 hitems
      exact applyTemplate_holds hm ht (hloop (.each template items) ⟨htemplate, hrest⟩) hV _ htemplate
        (List.forall_mem_singleton.2 hitem)
  | collect template items outputs =>
    cases items with
    | nil => exact ⟨hm, hl, ht, hp⟩
    | cons item items =>
      obtain ⟨htemplate, hitems, houtputs⟩ := hl
      obtain ⟨hitem, hrest⟩ := List.forall_mem_cons.1 hitems
      exact applyTemplate_holds hm ht
        (hloop (.collect template items outputs) ⟨htemplate, hrest, houtputs⟩) hV _ htemplate
        (List.forall_mem_singleton.2 hitem)

theorem resume_holds {p : Pending} (hw : p.Holds V) {v : Option Value} (hv : v.elim True V) :
    (resume m v tokens p pending).Holds V := by
  cases p with
  | sequence saved =>
    simp only [resume]
    split
    · exact ⟨hm, trivial, hw, hp⟩
    · split
      · exact ⟨hm, hv, hw, hp⟩
      · exact ⟨hm, trivial, hw, hp⟩
      · exact ⟨hm, trivial, ht, List.forall_mem_cons.2 ⟨hw, hp⟩⟩
  | firstOperand =>
    simp only [resume]
    split
    · exact ⟨hm, hv, ht, hp⟩
    · exact ⟨hm, List.forall_mem_singleton.2 hv, ht, hp⟩
    · exact ⟨hm, trivial, ht, hp⟩
  | rightOperand c op producer =>
    cases v with
    | none => exact ⟨hm, trivial, ht, hp⟩
    | some v => exact ⟨hm, List.forall_mem_cons.2 ⟨hv, hw⟩, ht, hp⟩
  | negation =>
    cases v with
    | none => exact ⟨hm, trivial, ht, hp⟩
    | some v =>
      simp only [resume]
      split
      · rename_i w hw
        have hnegated : Gives V (negate Operator.subtract.symbol v) :=
          .bind fun _ _ => .ok (hV.word rfl)
        exact ⟨hm, hnegated w hw, ht, hp⟩
      · exact ⟨hm, trivial, ht, hp⟩
  | group =>
    cases tokens with
    | nil => exact ⟨hm, trivial, ht, hp⟩
    | cons token rest =>
      simp only [resume]
      split
      · exact ⟨hm, hv, (List.forall_mem_cons.1 ht).2, hp⟩
      · exact ⟨hm, trivial, ht, hp⟩
  | input g producer =>
    cases v with
    | none => exact ⟨hm, trivial, ht, hp⟩
    | some v =>
      have hg : g.Holds V := hw
      refine ⟨hm, ⟨hg.procedure, List.forall_mem_cons.2 ⟨hv, hg.inputs⟩, ?_⟩, ht, hp⟩
      show g.missing - 1 = g.procedure.arity - (g.inputs.length + 1)
      rw [hg.missing, Nat.sub_sub]
  | activation =>
    have hclosed : m.closeFrame.closeActivation.Holds V := .closeActivation (hm.of_same rfl rfl)
    cases v with
    | none => exact ⟨hclosed, hm.output?, ht, hp⟩
    | some v => exact ⟨hclosed, trivial, ht, hp⟩
  | template => exact ⟨hm.of_same rfl rfl, hv, ht, hp⟩
  | counter => exact ⟨hm.of_same rfl rfl, hv, ht, hp⟩
  | loop l => exact afterPass_holds hm ht hp hw hv

end Constructs

/-! ### Steps -/

/-- Is host code about to work, or asked again? -/
def Focus.callsHost : Focus → Bool
  | .checkpoint (.call (.host _ _ _) _) | .ask _ _ _ => true
  | _ => false

/-- The value with which host code answers in the next step. -/
def Config.handed? (c : Config σ) : Option Value :=
  match c.focus.callsHost, (step c).config? with
  | true, some ⟨_, .reply v, _, _⟩ => v
  | _, _ => none

theorem Config.handed?_of_reply {c c' : Config σ} {v : Value} (hcalls : c.focus.callsHost = true)
    (hs : (step c).config? = some c') (hv : c'.focus = .reply (some v)) : c.handed? = some v := by
  obtain ⟨m, focus, tokens, pending⟩ := c'
  subst hv
  simp only [Config.handed?, hcalls, hs]

section Steps

variable {V : Value → Prop} {m : Machine σ} {tokens : List Value} {pending : List Pending}

theorem Config.Holds.raise {c : Config σ} (h : c.Holds V) (f : Fault) :
    ({ c with focus := .raise f } : Config σ).Holds V :=
  ⟨h.machine, trivial, h.tokens, h.pending⟩

theorem Loop.outcome?_holds (hV : Hereditary V) {l : Loop} (hl : l.Holds V) {v : Option Value}
    (hv : l.outcome? = some v) : v.elim True V := by
  unfold Loop.outcome? at hv
  split at hv
  · split at hv <;> cases hv
    trivial
  · cases hv
  · cases hv
    trivial
  · cases hv
  · cases hv
    exact hV.list.2 fun w hw => hl.2.2 w (List.mem_reverse.1 hw)
  · cases hv

section Waits

variable (hm : m.Holds V) (ht : ∀ v ∈ tokens, V v) (hp : ∀ p ∈ pending, p.Holds V)
include hm ht hp

/-- Only an answer of the host brings a value with it. -/
theorem askHost_holds {id asked : Nat} {inputs : List Value} (hf : (Focus.ask id inputs asked).Holds V)
    {c : Config σ} (hc : (askHost m id inputs asked tokens pending).config? = some c) :
    ((∀ v, c.focus = .reply (some v) → V v) → c.Holds V) ∧
      ({ c with focus := .raise .stopped } : Config σ).Holds V := by
  unfold askHost at hc
  split at hc
  · rename_i ask _
    have hheard : ({ m with engine := m.engine.afterHost (ask inputs asked m.engine.hostView) } :
        Machine σ).Holds V := hm.of_same rfl rfl
    simp only at hc
    split at hc <;> cases hc
    · rename_i v _
      refine ⟨fun hanswer => ⟨hheard, ?_, ht, hp⟩, ⟨hheard, trivial, ht, hp⟩⟩
      cases v with
      | none => trivial
      | some v => exact hanswer v rfl
    · exact ⟨fun _ => ⟨hheard, trivial, ht, hp⟩, ⟨hheard, trivial, ht, hp⟩⟩
    · exact ⟨fun _ => ⟨hheard, hf, ht, hp⟩, ⟨hheard, trivial, ht, hp⟩⟩
    · exact ⟨fun _ => ⟨hheard, hf, ht, hp⟩, ⟨hheard, trivial, ht, hp⟩⟩
  · cases hc
    exact ⟨fun _ => ⟨hm, trivial, ht, hp⟩, ⟨hm, trivial, ht, hp⟩⟩

theorem awaitClock_holds {deadline : Nat} {c : Config σ}
    (hc : (awaitClock m deadline tokens pending).config? = some c) : c.Holds V := by
  unfold awaitClock at hc
  split at hc <;> cases hc <;> exact ⟨hm, trivial, ht, hp⟩

end Waits

theorem act_holds (hV : Hereditary V) (hm : m.Holds V) (ht : ∀ v ∈ tokens, V v)
    (hp : ∀ p ∈ pending, p.Holds V) {a : Act} (ha : a.Holds V)
    (hanswer : ∀ v, Focus.callsHost (.checkpoint a) = true →
      (act m a tokens pending).focus = .reply (some v) → V v) :
    (act m a tokens pending).Holds V := by
  cases a with
  | literal v => exact ⟨hm, ha, ht, hp⟩
  | read name =>
    simp only [act]
    split
    · rename_i v hv
      exact ⟨hm, hm.scopes.lookup? hv, ht, hp⟩
    · exact ⟨hm, trivial, ht, hp⟩
  | call p inputs =>
    refine callProcedure_holds hm ht hp hV ha fun v id name arity hhost => ?_
    subst hhost
    exact hanswer v rfl
  | pass l => exact beginPass_holds hm ht hp hV ha

/-- A step keeps the property of all values and the count of all inputs, provided that the value
which the host hands over in it has the property. -/
theorem step_holds (hV : Hereditary V) {c c' : Config σ} (hc : c.Holds V)
    (hhost : ∀ v, c.handed? = some v → V v) (hs : (step c).config? = some c') : c'.Holds V := by
  have hanswer : c.focus.callsHost = true → ∀ v, c'.focus = .reply (some v) → V v :=
    fun hcalls v hv => hhost v (c.handed?_of_reply hcalls hs hv)
  obtain ⟨m, focus, tokens, pending⟩ := c
  obtain ⟨hm, hfocus, ht, hp⟩ := hc
  cases focus with
  | expression =>
    cases hs
    exact ⟨hm, trivial, ht, List.forall_mem_cons.2 ⟨trivial, hp⟩⟩
  | operand =>
    cases hs
    exact readOperand_holds hm ht hp hV
  | chain c =>
    cases hs
    exact readChain_holds hm ht hp hV hfocus
  | gather g =>
    cases hs
    exact readInputs_holds hm ht hp hfocus
  | turn l =>
    simp only [step] at hs
    split at hs <;> cases hs
    · rename_i v hv
      exact ⟨hm, Loop.outcome?_holds hV hfocus hv, ht, hp⟩
    · exact ⟨hm, hfocus, ht, hp⟩
  | checkpoint a =>
    simp only [step] at hs
    split at hs <;> cases hs
    · exact ⟨hm, trivial, ht, hp⟩
    · exact ⟨hm, hfocus, ht, hp⟩
    · exact act_holds hV hm ht hp hfocus fun v hcalls => hanswer hcalls v
    · exact act_holds hV hm ht hp hfocus fun v hcalls => hanswer hcalls v
  | ask id inputs asked =>
    have hleads : (∀ v, c'.focus = .reply (some v) → V v) → c'.Holds V :=
      race_leads (P := fun d => (∀ v, d.focus = .reply (some v) → V v) → d.Holds V)
        (fun _ => ⟨hm, trivial, ht, hp⟩)
        (fun d hd => (askHost_holds hm ht hp hfocus hd).imp_right fun h _ => h) hs
    exact hleads (hanswer rfl)
  | sleep deadline =>
    refine race_leads (P := fun d => d.Holds V) ⟨hm, trivial, ht, hp⟩ (fun d hd => ?_) hs
    have hawaited := awaitClock_holds hm ht hp hd
    exact ⟨hawaited, hawaited.raise .stopped⟩
  | reply v =>
    cases pending with
    | nil => cases hs
    | cons p pending =>
      cases hs
      obtain ⟨hw, hp⟩ := List.forall_mem_cons.1 hp
      exact resume_holds hm ht hp hV hw hfocus
  | raise f =>
    cases pending with
    | nil => cases hs
    | cons p pending =>
      cases hs
      exact ⟨hm.abandon p, trivial, ht, (List.forall_mem_cons.1 hp).2⟩

end Steps

/-! ### Sources -/

namespace Source

variable {V : Value → Prop}

/-- Every member that has been read has the property. -/
def State.Holds (V : Value → Prop) (s : State) : Prop := ∀ l ∈ s.level :: s.outer, ∀ v ∈ l.items, V v

theorem definitionItems_holds (hV : Hereditary V) (name : String) (params : List String)
    {body : List Value} (hbody : ∀ v ∈ body, V v) : ∀ v ∈ definitionItems name params body, V v := by
  intro v hv
  simp only [definitionItems, List.mem_append, List.mem_cons, List.mem_map, List.not_mem_nil,
    or_false] at hv
  obtain (rfl | rfl | ⟨p, -, rfl⟩) | rfl | rfl | rfl := hv
  case inl.inr.inl => exact hV.list.2 hbody
  all_goals exact hV.word rfl

theorem State.Grows.holds (hV : Hereditary V) {s t : State} {lone : List Char} (h : s.Grows lone t)
    (hs : s.Holds V) : t.Holds V := by
  obtain ⟨hlevel, houter⟩ := List.forall_mem_cons.1 hs
  unfold State.Holds
  cases h with
  | opened hitems _ ho =>
    rw [ho]
    exact List.forall_mem_cons.2 ⟨by rw [hitems]; exact List.forall_mem_nil _, hs⟩
  | kept hitems _ ho =>
    rw [ho]
    exact List.forall_mem_cons.2 ⟨by rw [hitems]; exact hlevel, houter⟩
  | added hword hitems ho _ =>
    rw [ho]
    refine List.forall_mem_cons.2 ⟨?_, houter⟩
    rw [hitems]
    exact List.forall_mem_cons.2 ⟨hV.word hword, hlevel⟩
  | escaped _ hitems _ ho =>
    rw [ho]
    refine List.forall_mem_cons.2 ⟨?_, houter⟩
    rw [hitems]
    exact List.forall_mem_cons.2 ⟨hV.word rfl, hlevel⟩
  | @closed _ l outer members added hclose ho hadded hitems _ ho' =>
    rw [ho] at houter
    obtain ⟨hl, houter⟩ := List.forall_mem_cons.1 houter
    have hmembers : ∀ v ∈ members, V v := by
      rw [(Level.close_ok hclose).2]
      exact fun v hv => hlevel v (List.mem_reverse.1 hv)
    have hnew : ∀ v ∈ added, V v := by
      obtain rfl | ⟨name, params, rfl⟩ := hadded
      · exact List.forall_mem_singleton.2 (hV.list.2 hmembers)
      · exact definitionItems_holds hV name params hmembers
    rw [ho']
    refine List.forall_mem_cons.2 ⟨?_, houter⟩
    rw [hitems]
    exact List.forall_mem_append.2 ⟨hnew, hl⟩

theorem State.Reads.holds (hV : Hereditary V) {s u : State} {source : List Char}
    (h : s.Reads source u) (hs : s.Holds V) : u.Holds V := by
  induction h with
  | done => exact hs
  | item _ ht _ ih => exact ih (ht.grows.holds hV hs)

end Source

open Source in
/-- All that is read is words and lists of what is read. -/
theorem parse_holds {V : Value → Prop} (hV : Hereditary V) {source : String} {program : List Value}
    (h : parse source = .ok program) : ∀ v ∈ program, V v := by
  obtain ⟨u, hu, hfinish⟩ := State.read_ok_iff.1 (parse_ok_iff.1 h)
  have hinitial : State.initial.Holds V := by
    intro l hl
    rw [List.mem_singleton.1 hl]
    exact List.forall_mem_nil _
  have hread := hu.holds hV hinitial u.level List.mem_cons_self
  rw [(hu.nested (.program rfl)).of_finish hfinish] at hread
  exact fun v hv => hread v (List.mem_reverse.2 hv)

/-! ### Whole runs -/

section Mono

variable {V W : Value → Prop} (hVW : ∀ v, V v → W v)
include hVW

theorem Loop.Holds.mono {l : Loop} (h : l.Holds V) : l.Holds W := by
  have hall : ∀ {items : List Value}, (∀ v ∈ items, V v) → ∀ v ∈ items, W v :=
    fun h v hv => hVW v (h v hv)
  cases l with
  | times | endless => exact hall h
  | each => exact ⟨hVW _ h.1, hall h.2⟩
  | collect => exact ⟨hVW _ h.1, hall h.2.1, hall h.2.2⟩

theorem Gathering.Holds.mono {g : Gathering} (h : g.Holds V) : g.Holds W :=
  ⟨hVW _ h.procedure, fun v hv => hVW v (h.inputs v hv), h.missing⟩

theorem Focus.Holds.mono {focus : Focus} (h : focus.Holds V) : focus.Holds W := by
  cases focus with
  | chain c => exact fun v hv => hVW v (h v hv)
  | gather g => exact Gathering.Holds.mono hVW h
  | turn l => exact Loop.Holds.mono hVW h
  | checkpoint a =>
    cases a with
    | literal v => exact hVW v h
    | read name => trivial
    | call p inputs => exact ⟨hVW _ h.1, fun v hv => hVW v (h.2.1 v hv), h.2.2⟩
    | pass l => exact Loop.Holds.mono hVW h
  | ask id inputs asked => exact h.imp fun name => hVW _
  | reply v =>
    cases v with
    | none => trivial
    | some v => exact hVW v h
  | _ => trivial

theorem Pending.Holds.mono {p : Pending} (h : p.Holds V) : p.Holds W := by
  cases p with
  | sequence | rightOperand => exact fun v hv => hVW v (h v hv)
  | input => exact Gathering.Holds.mono hVW h
  | loop => exact Loop.Holds.mono hVW h
  | _ => trivial

theorem Config.Holds.mono {c : Config σ} (h : c.Holds V) : c.Holds W where
  machine := by
    refine ⟨fun v hv => hVW v (h.machine.scopes v hv), fun a ha => ?_⟩
    have hresult := h.machine.results a ha
    cases hr : a.result with
    | none => trivial
    | some v =>
      rw [hr] at hresult
      exact hVW v hresult
  focus := h.focus.mono hVW
  tokens := fun v hv => hVW v (h.tokens v hv)
  pending := fun p hp => (h.pending p hp).mono hVW

end Mono

/-- A property that may depend on the host functions that there are. No value loses it when
another function is registered, and the procedure that stands for that function has it. -/
structure Inherited (V : Array (HostFunction σ) → Value → Prop) : Prop where
  hereditary : ∀ hosts, Hereditary (V hosts)
  registered : ∀ (hosts : Array (HostFunction σ)) f name,
    V (hosts.push f) (.procedure (.host hosts.size name f.arity))
  grows : ∀ (hosts : Array (HostFunction σ)) f v, V hosts v → V (hosts.push f) v

section Lasting

variable (V : Array (HostFunction σ) → Value → Prop)

def Engine.Holds (e : Engine σ) : Prop := e.scopes.Holds (V e.hosts)

/-- Host code hands over only values that have the property. -/
def Config.Fair (c : Config σ) : Prop := ∀ v, c.handed? = some v → V c.machine.engine.hosts v

/-- The host sets names only to values that have the property. -/
def Handling.Fair (e : Engine σ) : Handling σ → Prop
  | .set _ v => V e.hosts v
  | _ => True

end Lasting

namespace Inherited

variable {V : Array (HostFunction σ) → Value → Prop} (hV : Inherited V)
include hV

theorem new (memory : σ) (sink : Sink) (depthLimit : Nat) (primitives : Bool) :
    (Engine.new memory sink depthLimit primitives).Holds V := by
  have hinitial : Scopes.initial.Holds (V #[]) := fun v hv => by cases Array.not_mem_empty _ hv
  have hbind : ∀ s p, s.Holds (V #[]) → (Engine.bindPrimitive s p).Holds (V #[]) := by
    intro s p hs
    exact .foldl (fun s name hs => hs.bind _ name ((hV.hereditary #[]).primitive p)) hs _
  cases primitives with
  | false => exact hinitial
  | true => exact .foldl hbind hinitial Primitive.all

theorem handle {e : Engine σ} {h : Handling σ} (hh : h.Fair V e) (he : e.Holds V) :
    (e.handle h).Holds V := by
  cases h with
  | signal s =>
    show (e.answerSignal s).2.Holds V
    rw [e.answerSignal_engine s]
    exact he
  | set name v => exact he.bind globalFrame name hh
  | bind name f =>
    have hkept : e.scopes.Holds (V (e.hosts.push f)) := fun v hv => hV.grows e.hosts f v (he v hv)
    exact hkept.bind globalFrame name (hV.registered e.hosts f name)
  | elapse nanoseconds => exact he
  | toss answersFirst => exact he

/-- What the host does beside a run that waits leaves the run what it holds. -/
theorem suspended {t : Thread} {e : Engine σ} {h : Handling σ} (hh : h.Fair V e)
    (hc : (t.config e).Holds (V e.hosts)) : (t.config (e.handle h)).Holds (V (e.handle h).hosts) := by
  have hscopes : (e.handle h).Holds V := hV.handle hh hc.machine.scopes
  have hgrown : (t.config e).Holds (V (e.handle h).hosts) := by
    cases h with
    | signal s =>
      have hsame : (e.handle (.signal s)).hosts = e.hosts := by
        show (e.answerSignal s).2.hosts = e.hosts
        rw [e.answerSignal_engine s]
      rwa [hsame]
    | bind name f => exact hc.mono (hV.grows e.hosts f)
    | _ => exact hc
  exact ⟨⟨hscopes, hgrown.machine.results⟩, hgrown.focus, hgrown.tokens, hgrown.pending⟩

/-- **Every value of a run** has an inherited property as long as the host keeps to it. -/
theorem lasting : Bench.LastingWhile (Config.Fair V) (Handling.Fair V) (Engine.Holds V)
    fun c => c.Holds (V c.machine.engine.hosts) where
  start := by
    intro e source program hp he
    have hprogram := parse_holds (hV.hereditary e.hosts) hp
    cases program with
    | nil => exact ⟨⟨he, List.forall_mem_nil _⟩, trivial, List.forall_mem_nil _, List.forall_mem_nil _⟩
    | cons v program =>
      refine ⟨⟨he, List.forall_mem_nil _⟩, trivial, hprogram, ?_⟩
      exact List.forall_mem_singleton.2 (List.forall_mem_nil _)
  step := by
    intro c c' hfair hc hs
    rw [step_hosts hs]
    exact step_holds (hV.hereditary _) hc hfair hs
  engine := fun c hc => hc.machine.scopes
  release := fun e he => he
  handle := fun e h => hV.handle
  suspended := fun t e h => hV.suspended

theorem moments {memory : σ} {sink : Sink} {depthLimit : Nat} {primitives : Bool} {deeds : List (Deed σ)}
    (hd : (Bench.of (Engine.new memory sink depthLimit primitives)).Abides
      (Config.Fair V) (Handling.Fair V) deeds) :
    ∀ c ∈ (Bench.of (Engine.new memory sink depthLimit primitives)).moments deeds,
      c.Holds (V c.machine.engine.hosts) :=
  ((Bench.meets_of (hV.new memory sink depthLimit primitives) _).followWhile hV.lasting
    (Bench.heldBy_of rfl) hd).2

end Inherited

/-- Whatever the host hands over, calls have their inputs. -/
theorem Bench.moments_hold {memory : σ} {sink : Sink} {depthLimit : Nat} {primitives : Bool}
    {deeds : List (Deed σ)} {c : Config σ}
    (hc : c ∈ (Bench.of (Engine.new memory sink depthLimit primitives)).moments deeds) :
    c.Holds fun _ => True := by
  have hany : Hereditary fun _ => True :=
    ⟨fun _ => trivial, ⟨fun _ _ _ => trivial, fun _ => trivial⟩, fun _ => trivial,
      ⟨fun _ _ _ => trivial, fun _ => trivial⟩⟩
  have hinherited : Inherited fun (_ : Array (HostFunction σ)) (_ : Value) => True :=
    ⟨fun _ => hany, fun _ _ _ => trivial, fun _ _ _ _ => trivial⟩
  refine hinherited.moments (abides_of_forall (fun _ _ _ => trivial) (fun e h => ?_) _ deeds) c hc
  cases h <;> trivial

end Logo
