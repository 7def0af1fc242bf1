import Logo.Proofs.Break
import Logo.Proofs.Precedence
import Logo.Proofs.Stacks

/-!
# Returning from a procedure

`output` and `stop` mark the innermost activation as ended and reply with no value.
Nothing looks at the mark but blocks and loops, so what holds an ended activation back
from doing more is that every other construct in it was waiting for a value: it hands on that
there is none, or complains (`resume_ended`). Hence an activation is left by the shortest way
once it has ended, and an expression that has a value has not ended its activation.
-/

namespace Logo
set_option autoImplicit false

variable {σ : Type}

/-- What a construct complains about when an activation ends inside of it: a value is missing,
or something is left over or missing inside of parentheses. -/
inductive Pending.Complains : Pending → Fault → Prop where
  | firstOperand (op : Operator) : Complains .firstOperand (.notEnoughInputs op.symbol)
  | rightOperand (c : Chain) (op : Operator) (producer : Value) :
      Complains (.rightOperand c op producer) (.noOutput producer.render op.symbol)
  | negation : Complains .negation (.notEnoughInputs Operator.subtract.symbol)
  | unclosed : Complains .group .missingCloseParen
  | leftOver : Complains .group .tooMuchInsideParens
  | input (g : Gathering) (producer : Value) :
      Complains (.input g producer) (.noOutput producer.render g.procedure.name)

theorem Pending.Complains.structural {p : Pending} {f : Fault} (h : p.Complains f) :
    f.kind = .structural := by
  cases h <;> rfl

/-- An activation is being left: no value is handed on, or a complaint about that. -/
def Focus.Leaving : Focus → Prop
  | .reply none => True
  | .raise f => ∃ p : Pending, p.Complains f
  | _ => False

/-- What waits inside of an ended activation hands on that there is no value, or
complains. -/
theorem resume_ended {m : Machine σ} (tokens : List Value) {p : Pending} (pending : List Pending)
    (hm : m.isStopped = true) (hp : p.isActivation = false) :
    (∃ m' tokens', resume m none tokens p pending = ⟨m', .reply none, tokens', pending⟩ ∧
      m'.engine = m.engine ∧ m'.live.activations = m.live.activations) ∨
    ∃ f tokens', p.Complains f ∧ resume m none tokens p pending = ⟨m, .raise f, tokens', pending⟩ := by
  cases p with
  | sequence saved =>
    simp only [resume, hm, if_true]
    exact .inl ⟨m, saved, rfl, rfl, rfl⟩
  | firstOperand =>
    simp only [resume]
    split
    · exact .inl ⟨m, tokens, rfl, rfl, rfl⟩
    · rename_i h
      cases h
    · rename_i op _ _
      exact .inr ⟨_, tokens, .firstOperand op, rfl⟩
  | rightOperand c op producer => exact .inr ⟨_, tokens, .rightOperand c op producer, rfl⟩
  | negation => exact .inr ⟨_, tokens, .negation, rfl⟩
  | group =>
    cases tokens with
    | nil => exact .inr ⟨_, [], .unclosed, rfl⟩
    | cons token rest =>
      simp only [resume]
      split
      · exact .inl ⟨m, rest, rfl, rfl, rfl⟩
      · exact .inr ⟨_, token :: rest, .leftOver, rfl⟩
  | input g producer => exact .inr ⟨_, tokens, .input g producer, rfl⟩
  | activation => cases hp
  | template => exact .inl ⟨m.closeFrame, tokens, rfl, rfl, rfl⟩
  | counter => exact .inl ⟨m.closeCounter, tokens, rfl, rfl, rfl⟩
  | loop l =>
    left
    refine ⟨m, tokens, ?_, rfl, rfl⟩
    cases l <;> simp only [resume, afterPass, hm, if_true]

/-! ### The way out -/

/-- The run goes on with `v` in front of `outer` when the innermost activation is left, and
does nothing to the engine before. -/
def Config.Returns (c : Config σ) (v : Option Value) (outer : List Pending) : Prop :=
  ∃ k d, advance k c = .go d ∧ d.focus = .reply v ∧ d.pending = outer ∧
    d.machine.engine = c.machine.engine ∧
    d.machine.live.activations = c.machine.live.activations.tail

/-- The run fails with what a construct in `inner` complains about, and does nothing to the
engine before. -/
def Config.FailsIn (c : Config σ) (inner : List Pending) : Prop :=
  ∃ k f m, advance k c = .resolved (.error f) m ∧ f.kind = .structural ∧
    (∃ p ∈ inner, p.Complains f) ∧ m.engine = c.machine.engine

theorem advance_succ_of_go {c c' : Config σ} (hs : step c = .go c') (k : Nat) :
    advance (k + 1) c = advance k c' := by
  rw [advance, hs]

theorem Config.Returns.of_go {c c' : Config σ} {v : Option Value} {outer : List Pending}
    (h : c'.Returns v outer) (hs : step c = .go c') (he : c'.machine.engine = c.machine.engine)
    (ha : c'.machine.live.activations = c.machine.live.activations) : c.Returns v outer := by
  obtain ⟨k, d, hk, hf, hp, hde, hda⟩ := h
  exact ⟨k + 1, d, (advance_succ_of_go hs k).trans hk, hf, hp, hde.trans he, by rw [hda, ha]⟩

theorem Config.FailsIn.of_go {c c' : Config σ} {p : Pending} {inner : List Pending}
    (h : c'.FailsIn inner) (hs : step c = .go c') (he : c'.machine.engine = c.machine.engine) :
    c.FailsIn (p :: inner) := by
  obtain ⟨k, f, m, hk, hf, ⟨q, hq, hqf⟩, hm⟩ := h
  exact ⟨k + 1, f, m, (advance_succ_of_go hs k).trans hk, hf, ⟨q, .tail _ hq, hqf⟩, hm.trans he⟩

/-- An ended activation is left through all that waits in it, with the value it has. -/
theorem ended_leaves (inner outer : List Pending) (hi : ∀ p ∈ inner, p.isActivation = false)
    {m : Machine σ} (tokens : List Value) (hm : m.isStopped = true) :
    Config.Returns ⟨m, .reply none, tokens, inner ++ .activation :: outer⟩ m.output? outer ∨
      Config.FailsIn ⟨m, .reply none, tokens, inner ++ .activation :: outer⟩ inner := by
  induction inner generalizing m tokens with
  | nil => exact .inl ⟨1, _, rfl, rfl, rfl, rfl, rfl⟩
  | cons p inner ih =>
    have hp : p.isActivation = false := hi p List.mem_cons_self
    obtain ⟨m', tokens', hr, he, ha⟩ | ⟨f, tokens', hf, hr⟩ :=
      resume_ended tokens (inner ++ .activation :: outer) hm hp
    · have hstep : step (σ := σ) ⟨m, .reply none, tokens, p :: (inner ++ .activation :: outer)⟩
          = .go ⟨m', .reply none, tokens', inner ++ .activation :: outer⟩ := congrArg Next.go hr
      have hm' : m'.isStopped = true := by
        unfold Machine.isStopped at hm ⊢
        rwa [ha]
      have ho : m'.output? = m.output? := by
        unfold Machine.output?
        rw [ha]
      obtain h | h := ih (fun q hq => hi q (.tail _ hq)) tokens' hm'
      · rw [ho] at h
        exact .inl (h.of_go hstep he ha)
      · exact .inr (h.of_go hstep he)
    · obtain ⟨m', he, hadv⟩ := advance_raise m f tokens' (inner ++ .activation :: outer)
        (Nat.lt_succ_self _)
      have hstep : step (σ := σ) ⟨m, .reply none, tokens, p :: (inner ++ .activation :: outer)⟩
          = .go ⟨m, .raise f, tokens', inner ++ .activation :: outer⟩ := congrArg Next.go hr
      exact .inr ⟨_, f, m', (advance_succ_of_go hstep _).trans hadv, hf.structural,
        ⟨p, List.mem_cons_self, hf⟩, he⟩

/-! ### Ended activations in a run -/

/-- How many activations the run inside of `pending` has of its own. -/
def depth (pending : List Pending) : Nat := pending.countP Pending.isActivation

theorem countP_owners (pending : List Pending) :
    (owners pending).countP Pending.isActivation = depth pending := by
  unfold owners depth
  rw [List.countP_filter]
  refine List.countP_congr fun p _ => ?_
  cases p <;> simp [Pending.isActivation, Pending.owns]

/-- The activations of a run itself and the one it started in. -/
def Live.current (l : Live) (depth : Nat) : List Activation := l.activations.take (depth + 1)

section Ended

-- what is known of activations that have not ended
variable {Q : Activation → Prop}

theorem Live.Turnover.current {l l' : Live} {os os' : List Pending} (hQ : Q {})
    (ht : Live.Turnover l os l' os')
    (h : ∀ a ∈ l.current (os.countP Pending.isActivation), Q a) :
    ∀ a ∈ l'.current (os'.countP Pending.isActivation), Q a := by
  cases ht with
  | kept => exact h
  | counted n =>
    intro a ha
    refine h a ?_
    unfold Live.counted at ha
    split at ha <;> exact ha
  | @opened _ f p ho =>
    cases p <;> cases ho
    · intro a ha
      simp only [Live.current, Live.opened, List.countP_cons, Pending.isActivation, if_true,
        List.take_succ_cons, List.mem_cons] at ha
      obtain rfl | ha := ha
      · exact hQ
      · exact h a ha
    all_goals
      intro a ha
      simp only [Live.current, Live.opened, List.countP_cons, Pending.isActivation] at ha
      exact h a ha
  | @closed _ p ho =>
    cases p <;> cases ho
    · intro a ha
      refine h a ?_
      simp only [Live.current, Live.closed, List.countP_cons, Pending.isActivation, if_true] at ha ⊢
      cases hl : l.activations with
      | nil => simp [hl] at ha
      | cons b rest =>
        rw [hl] at ha
        exact List.mem_cons_of_mem _ ha
    all_goals
      intro a ha
      exact h a (by simpa [Live.current, Live.closed, List.countP_cons, Pending.isActivation] using ha)

/-- Of the activations that a run can return to, none has ended; or only the innermost one
has, and it is being left. -/
def Config.Orderly (Q : Activation → Prop) (c : Config σ) : Prop :=
  (∀ a ∈ c.machine.live.current (depth c.pending), Q a) ∨
    (∀ a ∈ (c.machine.live.current (depth c.pending)).tail, Q a) ∧
      c.machine.isStopped = true ∧ c.focus.Leaving

theorem Config.Orderly.not_isStopped {c : Config σ} (hQ : ∀ a, Q a → a.stopped = false)
    (h : ∀ a ∈ c.machine.live.current (depth c.pending), Q a) : c.machine.isStopped = false := by
  unfold Machine.isStopped
  unfold Live.current at h
  split
  · rename_i a rest ha
    rw [ha] at h
    exact hQ a (h a (by simp))
  · rfl

/-- Leaving a pending frame of an ended activation. -/
theorem leave_orderly {m m' : Machine σ} (focus : Focus) {tokens : List Value} {p : Pending}
    {pending : List Pending} (hm : m.isStopped = true) (hf : focus.Leaving)
    (h : ∀ a ∈ (m.live.current (depth (p :: pending))).tail, Q a) (hp : p.isActivation = false)
    (ha : m'.live.activations = m.live.activations) :
    Config.Orderly Q ⟨m', focus, tokens, pending⟩ := by
  have hd : depth (p :: pending) = depth pending := by simp [depth, hp]
  rw [hd] at h
  refine .inr ⟨?_, ?_, hf⟩
  · unfold Live.current at h ⊢
    rwa [ha]
  · unfold Machine.isStopped at hm ⊢
    rwa [ha]

/-- Leaving an ended activation. -/
theorem return_orderly {m m' : Machine σ} {focus : Focus} {tokens : List Value}
    {pending : List Pending} (h : ∀ a ∈ (m.live.current (depth (.activation :: pending))).tail, Q a)
    (ha : m'.live.activations = m.live.activations.tail) :
    Config.Orderly Q ⟨m', focus, tokens, pending⟩ := by
  left
  intro a hm
  have hd : depth (.activation :: pending) = depth pending + 1 := List.countP_cons_of_pos rfl
  refine h a ?_
  unfold Live.current at hm ⊢
  rw [hd]
  rw [ha] at hm
  cases hl : m.live.activations with
  | nil => simp [hl] at hm
  | cons b rest =>
    rw [hl] at hm
    exact hm

theorem step_orderly (hQ : Q {}) {c c' : Config σ} (hc : c.Orderly Q)
    (hs : (step c).config? = some c') : c'.Orderly Q := by
  obtain hc | ⟨htail, hstop, hleave⟩ := hc
  · rw [← countP_owners] at hc
    obtain h | ⟨v, -, hm, hf, hp⟩ := step_turnover hs
    · left
      have h' := Live.Turnover.current hQ h hc
      rwa [countP_owners] at h'
    · obtain ⟨⟨e', l'⟩, focus', tokens', pending'⟩ := c'
      simp only at hm hf hp
      cases hm
      subst hf hp
      rw [countP_owners] at hc
      unfold Live.current at hc
      cases hl : c.machine.live.activations with
      | nil =>
        left
        intro a ha
        simp [Live.current, Live.ended, hl, Event.onActivations] at ha
      | cons b rest =>
        refine .inr ⟨fun a ha => hc a ?_, ?_, trivial⟩
        · rw [hl]
          simp only [Live.current, Live.ended, hl, Event.onActivations] at ha
          exact List.mem_cons_of_mem _ ha
        · cases v <;> simp [Machine.isStopped, Live.ended, hl, Event.onActivations, Activation.output,
            Activation.stop]
  · obtain ⟨m, focus, tokens, pending⟩ := c
    simp only at htail hstop hleave
    cases pending with
    | nil =>
      cases focus with
      | reply v => cases hs
      | raise f => cases hs
      | _ => exact hleave.elim
    | cons p pending =>
      cases focus with
      | reply v =>
        cases v with
        | some v => exact hleave.elim
        | none =>
          cases hs
          cases hp : p.isActivation with
          | true =>
            obtain rfl : p = .activation := by cases p <;> first | rfl | cases hp
            exact return_orderly htail rfl
          | false =>
            obtain ⟨m', tokens', hr, -, ha⟩ | ⟨f, tokens', hf, hr⟩ :=
              resume_ended tokens pending hstop hp
            · rw [hr]
              exact leave_orderly (.reply none) hstop trivial htail hp ha
            · rw [hr]
              exact leave_orderly (.raise f) hstop ⟨p, hf⟩ htail hp rfl
      | raise f =>
        cases hs
        cases hp : p.isActivation with
        | true =>
          obtain rfl : p = .activation := by cases p <;> first | rfl | cases hp
          exact return_orderly htail rfl
        | false =>
          refine leave_orderly (.raise f) hstop hleave htail hp ?_
          cases p <;> first | rfl | cases hp
      | _ => exact hleave.elim

theorem Path.orderly (hQ : Q {}) {between : Engine σ → Engine σ → Prop} {n : Nat} {a b : Config σ}
    (h : Path between n a b) (ha : a.Orderly Q) : b.Orderly Q :=
  h.invariant (P := Config.Orderly Q) (fun a b ha hs => step_orderly hQ ha (by rw [hs]; rfl))
    (fun a b why e ha hs _ => by
      have hb : b.Orderly Q := step_orderly hQ ha (by rw [hs]; rfl)
      exact hb) ha

end Ended

/-- The activations of a run from its start are all its own. -/
theorem current_eq {c : Config σ} (hc : c.Balanced) :
    c.machine.live.current (depth c.pending) = c.machine.live.activations := by
  unfold Live.current
  rw [← countP_owners, ← hc.activations]
  exact List.take_of_length_le (Nat.le_succ _)

theorem start_orderly (program : List Value) (e : Engine σ) :
    ((Thread.start program).config e).Orderly (· = {}) := by
  left
  intro a ha
  cases program <;> cases ha

/-- An activation that a step marks as ended was fresh before, and the step does nothing
else. -/
theorem marked_ended {c c' : Config σ} (hc : c.Orderly (· = {})) (hs : (step c).config? = some c')
    (hm : c.machine.isStopped = false) (hm' : c'.machine.isStopped = true) :
    ∃ v, c.EndsInto c' v ∧ c'.machine.output? = v := by
  obtain hc | ⟨-, hstop, -⟩ := hc
  · obtain h | ⟨v, h⟩ := step_turnover hs
    · have hcur := Live.Turnover.current (Q := (· = {})) rfl h (by rwa [countP_owners])
      rw [countP_owners] at hcur
      rw [Config.Orderly.not_isStopped (fun a ha => by rw [ha]) hcur] at hm'
      cases hm'
    · refine ⟨v, h, ?_⟩
      rw [h.machine] at hm' ⊢
      unfold Live.current at hc
      unfold Machine.output? Live.ended
      cases hl : c.machine.live.activations with
      | nil => simp [Machine.isStopped, Live.ended, hl, Event.onActivations] at hm'
      | cons a rest =>
        obtain rfl : a = {} := hc a (by simp [hl])
        cases v <;> rfl
  · rw [hm] at hstop
    cases hstop

/-- An activation that has something on the stack has a pending frame. -/
theorem exists_activation {pending : List Pending} (h : 0 < depth pending) :
    ∃ inner outer, pending = inner ++ .activation :: outer ∧
      ∀ p ∈ inner, p.isActivation = false := by
  induction pending with
  | nil => simp [depth] at h
  | cons p pending ih =>
    cases hp : p.isActivation with
    | true =>
      obtain rfl : p = .activation := by cases p <;> first | rfl | cases hp
      exact ⟨[], pending, rfl, fun q hq => by cases hq⟩
    | false =>
      obtain ⟨inner, outer, rfl, hi⟩ := ih (by simpa [depth, hp] using h)
      refine ⟨p :: inner, outer, rfl, fun q hq => ?_⟩
      obtain rfl | hq := List.mem_cons.1 hq
      · exact hp
      · exact hi q hq

section Run

variable {between : Engine σ → Engine σ → Prop} {e : Engine σ} {program : List Value} {n : Nat}
  {c c' : Config σ}

/-- An activation that has ended is the innermost one, and it is being left. -/
theorem ended_innermost (h : Path between n ((Thread.start program).config e) c) {i : Nat}
    {a : Activation} (ha : c.machine.live.activations[i]? = some a) (hstop : a.stopped = true) :
    i = 0 ∧ c.focus.Leaving := by
  have hord := h.orderly (Q := (· = {})) rfl (start_orderly program e)
  unfold Config.Orderly at hord
  rw [current_eq (h.balanced (start_balanced program e))] at hord
  obtain hall | ⟨htail, -, hleave⟩ := hord
  · obtain rfl := hall a (List.mem_of_getElem? ha)
    cases hstop
  · refine ⟨?_, hleave⟩
    cases i with
    | zero => rfl
    | succ i =>
      have hmem : a ∈ c.machine.live.activations.tail :=
        List.mem_of_getElem? (by rw [List.getElem?_tail]; exact ha)
      obtain rfl := htail a hmem
      cases hstop

theorem Config.EndsInto.step_go {v : Option Value} (h : c.EndsInto c' v)
    (hs : (step c).config? = some c') : step c = .go c' := by
  cases hstep : step c with
  | go d =>
    rw [hstep] at hs
    cases hs
    rfl
  | resolved outcome m =>
    rw [hstep] at hs
    cases hs
  | suspend why d =>
    rw [hstep] at hs
    cases hs
    have hfocus := step_suspend hstep
    rw [h.focus] at hfocus
    exact hfocus.elim

/-- Where a step ends an activation the run leaves it. -/
theorem marked_leaves (h : Path between n ((Thread.start program).config e) c)
    (hs : (step c).config? = some c') (hm : c.machine.isStopped = false)
    (hm' : c'.machine.isStopped = true) :
    ∃ v inner outer, c.events = [.ended v] ∧ step c = .go c' ∧
      c.pending = inner ++ .activation :: outer ∧ (∀ p ∈ inner, p.isActivation = false) ∧
      (c'.Returns v outer ∨ c'.FailsIn inner) := by
  have hbal := h.balanced (start_balanced program e)
  obtain ⟨v, h, ho⟩ := marked_ended (h.orderly (Q := (· = {})) rfl (start_orderly program e)) hs hm hm'
  have hne : 0 < depth c.pending := by
    rw [← countP_owners, ← hbal.activations, List.length_pos_iff]
    intro hnil
    rw [h.machine] at hm'
    simp [Machine.isStopped, Live.ended, hnil, Event.onActivations] at hm'
  obtain ⟨inner, outer, hp, hi⟩ := exists_activation hne
  refine ⟨v, inner, outer, h.event, h.step_go hs, hp, hi, ?_⟩
  have hc' : c' = ⟨c'.machine, .reply none, c'.tokens, inner ++ .activation :: outer⟩ := by
    rw [← hp, ← h.pending, ← h.focus]
  have hleaves := ended_leaves inner outer hi c'.tokens hm'
  rwa [ho, ← hc'] at hleaves

end Run

/-- An expression that has a value has not ended the activation it stands in. -/
theorem value_not_stopped {between : Engine σ → Engine σ → Prop} {m m' : Machine σ}
    {tokens rest : List Value} {v : Value} (hm : m.isStopped = false)
    (h : expressionReader between m tokens (.value (some v) rest m')) : m'.isStopped = false := by
  obtain ⟨k, j, d, -, hpath, hp, hr⟩ := h
  have hstart : Config.Orderly (fun a => a.stopped = false) ⟨m, .expression, tokens, []⟩ := by
    left
    intro a ha
    unfold Machine.isStopped at hm
    cases hl : m.live.activations with
    | nil => simp [Live.current, hl] at ha
    | cons b rest =>
      simp only [hl] at hm
      simp only [Live.current, hl, depth, List.countP_nil, List.take_succ_cons, List.take_zero,
        List.mem_singleton] at ha
      rwa [ha]
  obtain ⟨-, ⟨w, hd, hv⟩ | ⟨f, hd, hv⟩⟩ := (Config.settled_of_reading? hp hr).reading?
  · rw [hv] at hr
    cases hr
    obtain hall | ⟨-, -, hleave⟩ := hpath.orderly (Q := fun a => a.stopped = false) rfl hstart
    · exact Config.Orderly.not_isStopped (fun a ha => ha) hall
    · rw [hd] at hleave
      exact hleave.elim
  · rw [hv] at hr
    cases hr

/-- **`output` and `stop` end the activation at once.** In every run, whatever the host does to
the engine between polls, an activation that has ended is the innermost one and is being left:
no checkpoint is reached in it. When a step ends one, the run goes on behind the
activation with exactly the value given to `output`, or fails with what a construct inside of the
activation complains about. And an expression that has a value has not ended its activation. -/
theorem ending_leaves_at_once (between : Engine σ → Engine σ → Prop) :
    (∀ (e : Engine σ) (program : List Value) (n : Nat) (c : Config σ),
      Path between n ((Thread.start program).config e) c →
      (∀ (i : Nat) a, c.machine.live.activations[i]? = some a → a.stopped = true →
        i = 0 ∧ c.focus.Leaving) ∧
      ∀ c', (step c).config? = some c' → c.machine.isStopped = false →
        c'.machine.isStopped = true →
        ∃ v inner outer, c.events = [.ended v] ∧ step c = .go c' ∧
          c.pending = inner ++ .activation :: outer ∧ (∀ p ∈ inner, p.isActivation = false) ∧
          (c'.Returns v outer ∨ c'.FailsIn inner)) ∧
    ∀ (m : Machine σ) (tokens : List Value) (v : Value) (rest : List Value) (m' : Machine σ),
      m.isStopped = false → expressionReader between m tokens (.value (some v) rest m') →
      m'.isStopped = false := by
  refine ⟨fun e program n c h => ⟨fun i a => ended_innermost h, fun c' => marked_leaves h⟩, ?_⟩
  intro m tokens v rest m' hm h
  exact value_not_stopped hm h

/-- Every step of a poll is one of the run. -/
theorem Path.of_advance {between : Engine σ → Engine σ → Prop} {n : Nat} {c d : Config σ}
    (h : advance n c = .go d) : Path between n c d := by
  induction n generalizing c with
  | zero =>
    cases h
    exact .refl _
  | succ n ih =>
    unfold advance at h
    cases hs : step c with
    | go b =>
      rw [hs] at h
      exact .go hs (ih h)
    | suspend why b =>
      rw [hs] at h
      cases h
    | resolved outcome m =>
      rw [hs] at h
      cases h

/-- Where a run has come to that still goes on. -/
def Next.going? : Next σ → Option (Config σ)
  | .go c => some c
  | _ => none

/-- `output` inside of a list that a procedure runs. -/
theorem ending_leaves_at_once_trial :
    let body := [.text "run", .list [.text "output", .text "\"a", .text "stop"], .text "stop"]
    let e := (((Engine.new () .silent 10 false).setGlobal "run"
      (.procedure (.primitive .run))).setGlobal "output"
      (.procedure (.primitive .output))).setGlobal "f" (.procedure (.defined 0 "f" [] body))
    ∃ c c', Path Eq 23 ((Thread.start [.text "f"]).config e) c ∧ (step c).config? = some c' ∧
      c.machine.isStopped = false ∧ c'.machine.isStopped = true ∧
      c.events = [.ended (some (.text "a"))] ∧
      ∃ inner outer, c.pending = inner ++ .activation :: outer ∧
        (c'.Returns (some (.text "a")) outer ∨ c'.FailsIn inner) := by
  intro body e
  have hrun : (advance 23 ((Thread.start [.text "f"]).config e)).going?.map (fun c =>
      (c.machine.isStopped, c.events, (step c).config?.map (·.machine.isStopped)))
      = some (false, [.ended (some (.text "a"))], some true) := by cbv
  cases hadv : advance 23 ((Thread.start [.text "f"]).config e) with
  | suspend why c =>
    rw [hadv] at hrun
    cases hrun
  | resolved outcome m =>
    rw [hadv] at hrun
    cases hrun
  | go c =>
    simp only [hadv, Next.going?, Option.map_some, Option.some.injEq, Prod.mk.injEq,
      Option.map_eq_some_iff] at hrun
    obtain ⟨hm, he, c', hs, hm'⟩ := hrun
    have hpath : Path Eq 23 ((Thread.start [.text "f"]).config e) c := Path.of_advance hadv
    obtain ⟨v, inner, outer, hv, -, hp, -, h⟩ :=
      ((ending_leaves_at_once Eq).1 e [.text "f"] 23 c hpath).2 c' hs hm hm'
    rw [he] at hv
    cases hv
    exact ⟨c, c', hpath, hs, hm, hm', he, inner, outer, hp, h⟩

end Logo
