import Logo.Proofs.Turns

/-!
# How a run comes to a call

A run calls a procedure where the inputs of a call have been read, without parentheses or in
them, and where a template is a procedure or the name of one: for `apply`, for `invoke`, and in
every pass of `foreach` and `map`. There is no other way, and the inputs are those that were given,
in order (`step_origin`).
-/

namespace Logo
set_option autoImplicit false

variable {σ : Type}

/-- The inputs so far, first first. -/
def Gathering.given (g : Gathering) : List Value := g.inputs.reverse

/-- A template that is a procedure, or the name of one with a mark or without. -/
inductive Machine.Denotes (m : Machine σ) : Value → Procedure → Prop where
  | procedure (p : Procedure) : Denotes m (.procedure p) p
  | bare {name : String} {p : Procedure} : name.toList.head? ≠ some '"' →
      m.procedure name = .ok p → Denotes m (.text name) p
  | quoted {s name : String} {p : Procedure} : s.toList = '"' :: name.toList →
      m.procedure name = .ok p → Denotes m (.text s) p

/-- How the next step can come to a call of `p`. -/
inductive Config.Origin (c : Config σ) (p : Procedure) (inputs : List Value) : Prop where
  /-- The run is not let through and comes to the same call again. -/
  | held : c.focus = .checkpoint (.call p inputs) → Origin c p inputs
  /-- All inputs have been read, in parentheses perhaps more than the procedure wants. -/
  | gathered (g : Gathering) : c.focus = .gather g → g.missing = 0 → p = g.procedure →
      inputs = g.given → Origin c p inputs
  | applied (template : Value) (args : List Value) :
      c.focus = .checkpoint (.call (.primitive .apply) args) → args.take 2 = [template, .list inputs] →
      c.machine.Denotes template p → Origin c p inputs
  | invoked (template : Value) :
      c.focus = .checkpoint (.call (.primitive .invoke) (template :: inputs)) →
      c.machine.Denotes template p → Origin c p inputs
  | foreach (template v : Value) (rest : List Value) :
      c.focus = .checkpoint (.pass (.each template (v :: rest))) → inputs = [v] →
      c.machine.Denotes template p → Origin c p inputs
  | mapped (template v : Value) (rest outputs : List Value) :
      c.focus = .checkpoint (.pass (.collect template (v :: rest) outputs)) → inputs = [v] →
      c.machine.Denotes template p → Origin c p inputs

/-- The call that the run is about to make. -/
def Focus.call? : Focus → Option (Procedure × List Value)
  | .checkpoint (.call p inputs) => some (p, inputs)
  | _ => none

/-! ### Constructs that make no call -/

section NoCall

variable {m : Machine σ} {tokens : List Value} {pending : List Pending}

theorem enter_call? (items : List Value) : (enter m items tokens pending).focus.call? = none := by
  cases items <;> rfl

theorem callNamed_call? (name : String) (parenthesised : Bool) :
    (callNamed m name parenthesised tokens pending).focus.call? = none := by
  unfold callNamed
  split <;> rfl

theorem readOperand_call? : (readOperand m tokens pending).focus.call? = none := by
  cases tokens with
  | nil => rfl
  | cons token rest =>
    simp only [readOperand]
    cases Role.of token
    case openParen =>
      cases rest with
      | nil => rfl
      | cons token rest =>
        simp only [openParen]
        cases Role.of token
        case word name => exact callNamed_call? name true
        all_goals rfl
    case word name => exact callNamed_call? name false
    case operator op =>
      cases op
      case subtract =>
        simp only
        split <;> rfl
      all_goals rfl
    all_goals rfl

theorem readChain_call? (c : Chain) : (readChain m c tokens pending).focus.call? = none := by
  unfold readChain
  split
  · split <;> rfl
  · simp only
    split
    · rfl
    · split
      · rfl
      · split <;> rfl

theorem applyList_call? (caller : String) (template inputs : List Value) :
    (applyList m caller template inputs tokens pending).focus.call? = none := by
  unfold applyList
  split
  · split
    · rfl
    · split
      · rfl
      · exact enter_call? _
  · rfl

theorem callDefined_call? (params : List String) (body inputs : List Value) :
    (callDefined m params body inputs tokens pending).focus.call? = none := by
  unfold callDefined
  split
  · rfl
  · exact enter_call? _

theorem callHost_call? (id : Nat) (name : String) (inputs : List Value) :
    (callHost m id name inputs tokens pending).focus.call? = none := by
  unfold callHost
  split
  · rfl
  · rfl
  · simp only
    split <;> rfl

theorem resume_call? (v : Option Value) (p : Pending) :
    (resume m v tokens p pending).focus.call? = none := by
  unfold resume afterPass
  repeat' split
  all_goals rfl

theorem askHost_call? {id asked : Nat} {inputs : List Value} {c : Config σ}
    (hc : (askHost m id inputs asked tokens pending).config? = some c) : c.focus.call? = none := by
  unfold askHost at hc
  split at hc
  · simp only at hc
    split at hc <;> cases hc <;> rfl
  · cases hc
    rfl

theorem awaitClock_call? {deadline : Nat} {c : Config σ}
    (hc : (awaitClock m deadline tokens pending).config? = some c) : c.focus.call? = none := by
  unfold awaitClock at hc
  split at hc <;> cases hc <;> rfl

end NoCall

/-! ### Constructs that come to a call -/

section Calls

variable {m : Machine σ} {tokens : List Value} {pending : List Pending} {p : Procedure}
variable {inputs : List Value}

theorem readInputs_call? {g : Gathering}
    (h : (readInputs m g tokens pending).focus.call? = some (p, inputs)) :
    g.missing = 0 ∧ p = g.procedure ∧ inputs = g.given := by
  have hcall : g.missing = 0 → g.call.call? = some (p, inputs) →
      g.missing = 0 ∧ p = g.procedure ∧ inputs = g.given := by
    intro hmissing hcall
    cases hcall
    exact ⟨hmissing, rfl, rfl⟩
  unfold readInputs at h
  split at h
  · split at h
    · cases h
    · split at h
      · split at h
        · exact hcall (by assumption) h
        · cases h
      · cases h
  · split at h
    · exact hcall (by assumption) h
    · split at h
      · cases h
      · split at h <;> cases h

theorem callWith_call? {q : Procedure} {given : List Value}
    (h : (callWith m q given tokens pending).focus.call? = some (p, inputs)) : p = q ∧ inputs = given := by
  unfold callWith at h
  split at h <;> cases h
  exact ⟨rfl, rfl⟩

theorem applyTemplate_call? {caller : String} {template : Value} {given : List Value}
    (h : (applyTemplate m caller template given tokens pending).focus.call? = some (p, inputs)) :
    inputs = given ∧ m.Denotes template p := by
  cases template
  case procedure q =>
    obtain ⟨rfl, rfl⟩ := callWith_call? h
    exact ⟨rfl, .procedure p⟩
  case text s =>
    simp only [applyTemplate] at h
    split at h
    · rename_i q hq
      obtain ⟨rfl, rfl⟩ := callWith_call? h
      refine ⟨rfl, ?_⟩
      split at hq
      · rename_i cs hs
        exact .quoted (by rw [hs, String.toList_ofList]) hq
      · rename_i hno
        refine .bare (fun hhead => ?_) hq
        obtain ⟨cs, hcs⟩ := List.head?_eq_some_iff.1 hhead
        exact hno cs hcs
    · cases h
  case list items =>
    have hno : (applyList m caller items given tokens pending).focus.call? = none :=
      applyList_call? caller items given
    cases hno.symm.trans h
  all_goals cases h

theorem carryOut_call? {e : Effect}
    (h : (carryOut m e tokens pending).focus.call? = some (p, inputs)) :
    ∃ caller template, e = .template caller template inputs ∧ m.Denotes template p := by
  cases e with
  | template caller template given =>
    obtain ⟨rfl, hdenotes⟩ := applyTemplate_call? h
    exact ⟨caller, template, rfl, hdenotes⟩
  | block items => cases (enter_call? items).symm.trans h
  | loop l => cases l <;> cases h
  | _ => cases h

end Calls

/-! ### Steps -/

section Steps

variable {m : Machine σ} {tokens : List Value} {pending : List Pending} {p : Procedure}
variable {inputs : List Value}

theorem callProcedure_origin {q : Procedure} {args : List Value}
    (h : (callProcedure m q args tokens pending).focus.call? = some (p, inputs)) :
    Config.Origin ⟨m, .checkpoint (.call q args), tokens, pending⟩ p inputs := by
  cases q with
  | host id name arity => cases (callHost_call? id name _).symm.trans h
  | defined id name params body => cases (callDefined_call? params body args).symm.trans h
  | primitive q =>
    have hcases := q.perform_cases (q.given args) m
    have heffect := q.perform_effect (q.given args) m
    rw [callProcedure_primitive, Primitive.entered] at h
    generalize q.perform (q.given args) m = done at h hcases heffect
    obtain ⟨f | e, m'⟩ := done
    · cases h
    · obtain ⟨caller, template, rfl, hdenotes⟩ := carryOut_call? h
      obtain ⟨v, hv⟩ | hm := hcases
      · cases hv
      · cases hm
        obtain ⟨rfl, hgiven⟩ | ⟨rfl, hgiven⟩ := heffect _ rfl
        · exact .applied template args rfl hgiven hdenotes
        · cases hgiven
          exact .invoked template rfl hdenotes

theorem beginPass_origin {l : Loop}
    (h : (beginPass m l tokens pending).focus.call? = some (p, inputs)) :
    Config.Origin ⟨m, .checkpoint (.pass l), tokens, pending⟩ p inputs := by
  cases l with
  | times block begun total => cases (enter_call? block).symm.trans h
  | endless block => cases (enter_call? block).symm.trans h
  | each template items =>
    cases items with
    | nil => cases h
    | cons v rest =>
      obtain ⟨rfl, hdenotes⟩ := applyTemplate_call? h
      exact .foreach template v rest rfl rfl hdenotes
  | collect template items outputs =>
    cases items with
    | nil => cases h
    | cons v rest =>
      obtain ⟨rfl, hdenotes⟩ := applyTemplate_call? h
      exact .mapped template v rest outputs rfl rfl hdenotes

theorem act_origin {a : Act} (h : (act m a tokens pending).focus.call? = some (p, inputs)) :
    Config.Origin ⟨m, .checkpoint a, tokens, pending⟩ p inputs := by
  cases a with
  | literal v => cases h
  | read name =>
    simp only [act] at h
    split at h <;> cases h
  | call q args => exact callProcedure_origin h
  | pass l => exact beginPass_origin h

theorem step_origin {c c' : Config σ} (hs : (step c).config? = some c')
    (hf : c'.focus = .checkpoint (.call p inputs)) : c.Origin p inputs := by
  have hcall : c'.focus.call? = some (p, inputs) := by
    rw [hf]
    rfl
  obtain ⟨m, focus, tokens, pending⟩ := c
  cases focus with
  | expression =>
    cases hs
    cases hcall
  | operand =>
    cases hs
    cases readOperand_call?.symm.trans hcall
  | chain c =>
    cases hs
    cases (readChain_call? c).symm.trans hcall
  | gather g =>
    cases hs
    obtain ⟨hmissing, hp, hinputs⟩ := readInputs_call? hcall
    exact .gathered g rfl hmissing hp hinputs
  | turn l =>
    simp only [step] at hs
    split at hs <;> cases hs <;> cases hcall
  | checkpoint a =>
    simp only [step] at hs
    split at hs <;> cases hs
    · cases hcall
    · exact .held hf
    · exact act_origin hcall
    · exact act_origin hcall
  | ask id inputs asked =>
    have hnone : c'.focus.call? = none :=
      race_leads (P := fun d => d.focus.call? = none) rfl (fun _ hd => ⟨askHost_call? hd, rfl⟩) hs
    cases hnone.symm.trans hcall
  | sleep deadline =>
    have hnone : c'.focus.call? = none :=
      race_leads (P := fun d => d.focus.call? = none) rfl (fun _ hd => ⟨awaitClock_call? hd, rfl⟩) hs
    cases hnone.symm.trans hcall
  | reply v =>
    cases pending with
    | nil => cases hs
    | cons p pending =>
      cases hs
      cases (resume_call? v p).symm.trans hcall
  | raise f =>
    cases pending with
    | nil => cases hs
    | cons p pending =>
      cases hs
      cases hcall

/-- What an input turns out to be is put behind those before it. -/
theorem step_gathers {c : Config σ} {g : Gathering} {producer v : Value} (hf : c.focus = .reply (some v))
    (hp : c.pending = .input g producer :: pending) :
    ∃ g' : Gathering, step c = .go { c with focus := .gather g', pending := pending } ∧
      g'.procedure = g.procedure ∧ g'.given = g.given ++ [v] := by
  obtain ⟨m, focus, tokens, waiting⟩ := c
  simp only at hf hp
  subst hf hp
  exact ⟨{ g with inputs := v :: g.inputs, missing := g.missing - 1 }, rfl, rfl, List.reverse_cons⟩

end Steps

end Logo
