import Logo.Proofs.Returning

/-!
# Stack discipline

A call, however it ends, leaves the stacks of the run as it found them: the frames and the pass
numbers are the same, and of the activations at most the innermost one has been ended
(`stacks_restored`). The invariant behind this (`Live.Over`) reads what waits from the inside
out: every pending frame of an activation, a template or a `repeat` has its own entry on top of
what the frames behind it have. A `repeat` that is in a pass has left two pending frames, one
for the loop and one for its pass number, and the two agree, so `repcount` tells the pass of the
innermost `repeat` that waits.
-/

namespace Logo
set_option autoImplicit false

variable {σ : Type}

/-! ### What a call leaves -/

/-- An activation that has at most been ended, with a value or without. -/
inductive Activation.Touched (a : Activation) : Activation → Prop where
  | kept : Touched a a
  | stopped : Touched a a.stop
  | given (v : Value) : Touched a (a.output v)

/-- The same activations, but that the innermost one may have been ended. -/
inductive Activation.Resumed : List Activation → List Activation → Prop where
  | nil : Resumed [] []
  | cons {a b : Activation} (rest : List Activation) : a.Touched b → Resumed (a :: rest) (b :: rest)

/-- The stacks are as they were, but that the innermost activation may have been ended. -/
structure Live.Restored (base l : Live) : Prop where
  frames : l.frames = base.frames
  counters : l.counters = base.counters
  activations : Activation.Resumed base.activations l.activations

theorem Live.Restored.refl (l : Live) : l.Restored l := by
  refine ⟨rfl, rfl, ?_⟩
  cases l.activations with
  | nil => exact .nil
  | cons a rest => exact .cons rest .kept

theorem Activation.Resumed.ended {as bs : List Activation} (h : Resumed as bs) (v : Option Value) :
    Resumed as (Event.onActivations bs (.ended v)) := by
  cases h with
  | nil => exact .nil
  | cons rest ht =>
    refine .cons rest ?_
    cases v with
    | some v => exact .given v
    | none =>
      -- Stopping an activation again, or after an output, changes nothing.
      cases ht with
      | kept => exact .stopped
      | stopped => exact .stopped
      | given v => exact .given v

theorem Live.Restored.ended {base l : Live} (h : base.Restored l) (v : Option Value) :
    base.Restored (l.ended v) :=
  ⟨h.frames, h.counters, h.activations.ended v⟩

/-! ### The stacks and what waits -/

/-- The pass that a `repeat` is in. -/
def Pending.pass? : Pending → Option Nat
  | .loop (.times _ begun _) => some begun
  | _ => none

theorem Pending.pass?_of_isLight {p : Pending} (h : p.isLight = true) : p.pass? = none := by
  unfold pass?
  split
  · cases h
  · rfl

/-- What the stacks hold above `base` where `pending` waits. -/
inductive Live.Over (base : Live) : List Pending → Live → Prop where
  | base {l : Live} : base.Restored l → Over base [] l
  | light {p : Pending} {pending : List Pending} {l : Live} : p.isLight = true →
      Over base pending l → Over base (p :: pending) l
  | template {pending : List Pending} {l : Live} : l.frames ≠ [] →
      Over base pending (l.closed .template) → Over base (.template :: pending) l
  | activation {pending : List Pending} {l : Live} : l.frames ≠ [] →
      Over base pending (l.closed .activation) → Over base (.activation :: pending) l
  /-- A `repeat` is in pass `n`. -/
  | pass {pending : List Pending} {l : Live} {block : List Value} {n total : Nat} :
      0 < n → n ≤ total → l.counters.head? = some n → Over base pending (l.closed .counter) →
      Over base (.loop (.times block n total) :: .counter :: pending) l

namespace Live.Over

variable {base l : Live} {pending : List Pending}

theorem append (h : base.Over pending l) {ps : List Pending} (hp : Light ps) :
    base.Over (ps ++ pending) l := by
  induction ps with
  | nil => exact h
  | cons p ps ih =>
    exact .light (hp p List.mem_cons_self) (ih fun q hq => hp q (List.mem_cons_of_mem _ hq))

theorem of_light {p : Pending} (h : base.Over (p :: pending) l) (hp : p.isLight = true) :
    base.Over pending l := by
  cases h with
  | light _ h => exact h
  | template | activation | pass => cases hp

/-- Ending the innermost activation touches no other stack, and no activation of the base but
its innermost. -/
theorem ended (h : base.Over pending l) (v : Option Value) : base.Over pending (l.ended v) := by
  induction h with
  | base h => exact .base (h.ended v)
  | light hp _ ih => exact .light hp ih
  | template hf _ ih => exact .template hf ih
  | @activation pending l hf h _ =>
    refine .activation hf ?_
    have hclosed : (l.ended v).closed .activation = l.closed .activation := by
      unfold Live.ended Event.onActivations
      cases ha : l.activations with
      | nil => simp only [Live.closed, ha]
      | cons a rest => simp only [Live.closed, ha, List.tail_cons]
    rwa [hclosed]
  | pass hn ht hc _ ih => exact .pass hn ht hc ih

/-- The pass numbers are those of the `repeat`s that wait. -/
theorem counters (h : base.Over pending l) :
    l.counters = pending.filterMap Pending.pass? ++ base.counters := by
  induction h with
  | base h => exact h.counters
  | light hp _ ih => rwa [List.filterMap_cons_none (Pending.pass?_of_isLight hp)]
  | template _ _ ih => exact ih
  | activation _ _ ih => exact ih
  | @pass pending l block n total _ _ hc _ ih =>
    cases hl : l.counters with
    | nil =>
      rw [hl] at hc
      cases hc
    | cons k ks =>
      rw [hl] at hc
      cases hc
      simp only [Live.closed, hl, List.tail_cons] at ih
      rw [ih]
      rfl

theorem pass_bounds (h : base.Over pending l) {block : List Value} {n total : Nat}
    (hm : .loop (.times block n total) ∈ pending) : 0 < n ∧ n ≤ total := by
  induction h with
  | base => cases hm
  | light hp _ ih =>
    obtain rfl | hm := List.mem_cons.1 hm
    · cases hp
    · exact ih hm
  | template _ _ ih | activation _ _ ih =>
    obtain hm | hm := List.mem_cons.1 hm
    · cases hm
    · exact ih hm
  | pass hn ht _ _ ih =>
    obtain hm | hm := List.mem_cons.1 hm
    · cases hm
      exact ⟨hn, ht⟩
    · obtain hm | hm := List.mem_cons.1 hm
      · cases hm
      · exact ih hm

end Live.Over

/-! ### Steps -/

/-- A `repeat` has ended a pass, or has not begun its first. -/
def Focus.BetweenPasses : Focus → Prop
  | .turn (.times _ begun total) => begun ≤ total
  | .checkpoint (.pass (.times _ begun total)) => begun < total
  | .reply _ | .raise _ => True
  | _ => False

theorem Focus.BetweenPasses.cases {focus : Focus} (h : focus.BetweenPasses) :
    focus.counts = true ∨ focus.isOutcome = true := by
  unfold BetweenPasses at h
  split at h
  · exact .inl rfl
  · exact .inl rfl
  · exact .inr rfl
  · exact .inr rfl
  · exact h.elim

theorem Focus.betweenPasses_of_isOutcome {focus : Focus} (h : focus.isOutcome = true) :
    focus.BetweenPasses := by
  cases focus with
  | reply v => trivial
  | raise f => trivial
  | _ => cases h

theorem Focus.not_counts_of_isOutcome {focus : Focus} (h : focus.isOutcome = true) :
    focus.counts = false := by
  cases focus with
  | reply v => rfl
  | raise f => rfl
  | _ => cases h

/-- The stacks of a run that began on `base` agree with what waits. -/
inductive Config.Stacked (base : Live) : Config σ → Prop where
  | within {m : Machine σ} {focus : Focus} {tokens : List Value} {pending : List Pending} :
      focus.counts = false → base.Over pending m.live → Stacked base ⟨m, focus, tokens, pending⟩
  /-- A `repeat` is between its passes, or is being left. -/
  | between {m : Machine σ} {focus : Focus} {tokens : List Value} {pending : List Pending} :
      focus.BetweenPasses → m.live.counters ≠ [] → base.Over pending (m.live.closed .counter) →
      Stacked base ⟨m, focus, tokens, .counter :: pending⟩

theorem Config.After.stacked {base : Live} {m : Machine σ} {pending : List Pending} {c : Config σ}
    (h : Config.After m pending c) (hb : base.Over pending m.live) : c.Stacked base := by
  cases h with
  | goes work hf hp => exact .within hf (hb.append hp)
  | framed bindings hf hp hq =>
    refine .within hf (Live.Over.append ?_ hp)
    exact .template (List.cons_ne_nil _ _) (hb.append hq)
  | called bindings hf hp =>
    refine .within hf (Live.Over.append ?_ hp)
    exact .activation (List.cons_ne_nil _ _) hb
  | counted block total => exact .between (Nat.zero_le total) (List.cons_ne_nil _ _) hb

theorem setCounter_over {base : Live} {m : Machine σ} {pending : List Pending} {block : List Value}
    {begun total : Nat} (hc : m.live.counters ≠ []) (h : base.Over pending (m.live.closed .counter))
    (hlt : begun < total) :
    base.Over (.loop (.times block (begun + 1) total) :: .counter :: pending)
      (m.setCounter (begun + 1)).live := by
  obtain ⟨e, frames, activations, counters⟩ := m
  cases counters with
  | nil => exact absurd rfl hc
  | cons n counters => exact .pass (Nat.succ_pos begun) hlt rfl h

theorem Config.Turn.stacked {base : Live} {c c' : Config σ} (h : c.Turn c') (hc : c.Stacked base) :
    c'.Stacked base := by
  cases h with
  | works ho hf h =>
    cases hc with
    | within _ hb => exact h.stacked hb
    | between hbetween =>
      obtain hbetween | hbetween := hbetween.cases
      · rw [hf] at hbetween
        cases hbetween
      · rw [ho] at hbetween
        cases hbetween
  | @performs m p inputs tokens pending v hs hv =>
    cases hc with
    | within _ hb =>
      refine .within rfl ?_
      obtain hl | ⟨w, -, -, hl, -⟩ := p.perform_live (p.given inputs) m
      · rwa [hl]
      · rw [hl]
        exact hb.ended w
    | between hbetween => exact hbetween.elim
  | holds hf =>
    cases hc with
    | within hcounts => obtain ⟨rfl, -⟩ | rfl := hf <;> cases hcounts
    | between hbetween hne hb =>
      obtain ⟨rfl, hlt⟩ | rfl := hf
      · exact .between hlt hne hb
      · exact .between hbetween hne hb
  | passes hf hp =>
    cases hc with
    | within hcounts => cases hcounts
    | between hlt hne hb => exact .within hf ((setCounter_over hne hb hlt).append hp)
  | leaves hf ho =>
    cases hc with
    | within hcounts =>
      rw [hf] at hcounts
      cases hcounts
    | between _ hne hb => exact .between (Focus.betweenPasses_of_isOutcome ho) hne hb
  | resumes _ hp h =>
    cases hc with
    | within _ hb => exact h.stacked (hb.of_light hp)
    | between => cases hp
  | turns =>
    cases hc with
    | within _ hb =>
      cases hb with
      | light hp => cases hp
      | pass _ ht hn hb =>
        exact .between ht (List.ne_nil_of_mem (List.mem_of_head? hn)) hb
  | closes _ ho hp =>
    have hfocus := Focus.not_counts_of_isOutcome ho
    cases hc with
    | between _ _ hb => exact .within hfocus hb
    | within _ hb =>
      cases hb with
      | light hl =>
        rw [hp] at hl
        cases hl
      | template _ hb => exact .within hfocus hb
      | activation _ hb => exact .within hfocus hb
      | pass _ _ hn hb =>
        exact .between (Focus.betweenPasses_of_isOutcome ho)
          (List.ne_nil_of_mem (List.mem_of_head? hn)) hb

theorem Config.Stacked.on {base : Live} {c : Config σ} (h : c.Stacked base) (e : Engine σ) :
    (c.on e).Stacked base := by
  cases h with
  | within hf hb => exact .within hf hb
  | between hf hne hb => exact .between hf hne hb

theorem Path.stacked {between : Engine σ → Engine σ → Prop} {n : Nat} {a b : Config σ}
    (h : Path between n a b) {base : Live} (ha : a.Stacked base) : b.Stacked base := by
  refine h.invariant (P := Config.Stacked base) ?_ ?_ ha
  · intro a b ha hs
    exact (step_turn (by rw [hs]; rfl)).stacked ha
  · intro a b why e ha hs _
    have hb : b.Stacked base := (step_turn (by rw [hs]; rfl)).stacked ha
    exact hb.on e

/-! ### Calls -/

/-- A call that can be made on a machine. -/
inductive Call where
  /-- Run a list of instructions. -/
  | evaluate (items : List Value)
  /-- Evaluate the expression ahead. -/
  | expression
  | procedure (p : Procedure) (inputs : List Value)
  /-- Apply a template on behalf of a procedure. -/
  | template (caller : String) (value : Value) (inputs : List Value)

/-- The call alone, with these tokens ahead. -/
def Call.config (m : Machine σ) (tokens : List Value) : Call → Config σ
  | .evaluate items => enter m items tokens []
  | .expression => ⟨m, .expression, tokens, []⟩
  | .procedure p inputs => ⟨m, .checkpoint (.call p inputs), tokens, []⟩
  | .template caller value inputs => applyTemplate m caller value inputs tokens []

theorem Call.stacked (call : Call) (m : Machine σ) (tokens : List Value) :
    (call.config m tokens).Stacked m.live := by
  have hbase : m.live.Over [] m.live := .base (.refl m.live)
  cases call with
  | evaluate items => exact Config.After.stacked (.enter items .nil) hbase
  | expression => exact .within rfl hbase
  | procedure p inputs => exact .within rfl hbase
  | template caller value inputs =>
    exact Config.After.stacked (.applyTemplate caller value inputs .nil) hbase

theorem start_stacked (program : List Value) (e : Engine σ) :
    ((Thread.start program).config e).Stacked {} := by
  have hbase : Live.Over {} [] {} := .base (.refl {})
  cases program with
  | nil => exact .within rfl hbase
  | cons token program => exact .within rfl (.light rfl hbase)

theorem settled_iff_isOutcome {c : Config σ} :
    c.Settled ↔ c.pending = [] ∧ c.focus.isOutcome = true := by
  rw [settled_iff]
  cases c.focus <;> simp [Focus.isOutcome]

theorem Config.Settled.restored {base : Live} {c : Config σ} (hc : c.Settled)
    (h : c.Stacked base) : base.Restored c.machine.live := by
  obtain ⟨hp, -⟩ := settled_iff.1 hc
  cases h with
  | between => cases hp
  | within _ hb =>
    cases hp
    cases hb with
    | base h => exact h

/-- What `repcount` is to tell where `pending` waits. -/
def passNumber (pending : List Pending) : Float :=
  match pending.findSome? Pending.pass? with
  | some n => Float.ofNat n
  | none => -1.0

theorem Live.Over.passNumber {m : Machine σ} {pending : List Pending}
    (h : Live.Over {} pending m.live) (inputs : List Value) :
    Primitive.repcount.perform inputs m
      = (.ok (.reply (some (.number (Logo.passNumber pending)))), m) := by
  have hcount : m.passNumber? = pending.findSome? Pending.pass? := by
    rw [Machine.passNumber?, h.counters, List.append_nil, List.head?_filterMap]
  unfold Logo.passNumber
  rw [← hcount]
  rfl

/-- **Stack discipline.** Whatever a machine holds and whatever the host does between polls, a
call that has come to an outcome, of whatever kind, leaves the frames and the pass numbers as they
were, and the activations but that the innermost one may have been ended. This is so of a call
alone and of one inside of other work, where it is still under way or has come to its own
outcome. Hence in every run `repcount` replies with the pass that the innermost `repeat` waiting is
in, which is one of its passes, or with -1 if none waits. -/
theorem stacks_restored (between : Engine σ → Engine σ → Prop) :
    (∀ (m : Machine σ) (call : Call) (tokens : List Value) (n : Nat) (d : Config σ),
      Path between n (call.config m tokens) d → d.Settled → m.live.Restored d.machine.live) ∧
    (∀ (m : Machine σ) (call : Call) (tokens : List Value) (k : List Pending) (n : Nat) (c : Config σ),
      Path between n ((call.config m tokens).under k) c →
      (∃ d, ¬ d.Settled ∧ c = d.under k ∧ Path between n (call.config m tokens) d) ∨
      ∃ i j d, i + j = n ∧ d.Settled ∧ Path between i (call.config m tokens) d ∧
        Path between j (d.under k) c ∧ m.live.Restored d.machine.live) ∧
    ∀ (e : Engine σ) (program : List Value) (n : Nat) (m : Machine σ) (inputs tokens : List Value)
      (pending : List Pending),
      Path between n ((Thread.start program).config e)
        ⟨m, .checkpoint (.call (.primitive .repcount) inputs), tokens, pending⟩ →
      (m.engine.state = .running ∨ m.engine.state = .idle →
        step ⟨m, .checkpoint (.call (.primitive .repcount) inputs), tokens, pending⟩
          = .go ⟨m, .reply (some (.number (passNumber pending))), tokens, pending⟩) ∧
      ∀ block n total, .loop (.times block n total) ∈ pending → 0 < n ∧ n ≤ total := by
  refine ⟨?_, ?_, ?_⟩
  · intro m call tokens n d hpath hd
    exact hd.restored (hpath.stacked (call.stacked m tokens))
  · intro m call tokens k n c hpath
    obtain hinside | ⟨i, j, d, hn, hd, hcall, hrest⟩ := hpath.under_cases
    · exact .inl hinside
    · exact .inr ⟨i, j, d, hn, hd, hcall, hrest,
        hd.restored (hcall.stacked (call.stacked m tokens))⟩
  · intro e program n m inputs tokens pending hpath
    have hstacked := hpath.stacked (start_stacked program e)
    cases hstacked with
    | between hbetween => exact hbetween.elim
    | within _ hb =>
      refine ⟨fun hs => ?_, fun block n total hm => hb.pass_bounds hm⟩
      have hstep : step ⟨m, .checkpoint (.call (.primitive .repcount) inputs), tokens, pending⟩
          = .go (callProcedure m (.primitive .repcount) inputs tokens pending) := by
        obtain hs | hs := hs <;> simp only [step, hs, act]
      rw [hstep]
      simp only [callProcedure, hb.passNumber]
      rfl

/-- The primitive that is about to be called, with the inputs that were read. -/
def Focus.primitive? : Focus → Option (Primitive × List Value)
  | .checkpoint (.call (.primitive p) inputs) => some (p, inputs)
  | _ => none

theorem Focus.of_primitive? {focus : Focus} {p : Primitive} {inputs : List Value}
    (h : focus.primitive? = some (p, inputs)) : focus = .checkpoint (.call (.primitive p) inputs) := by
  unfold primitive? at h
  split at h
  · cases h
    rfl
  · cases h

/-- Where so many steps lead if the host does nothing between polls. -/
def Config.later? : Nat → Config σ → Option (Config σ)
  | 0, c => some c
  | n + 1, c => (step c).config?.bind (later? n)

theorem Path.of_later? {between : Engine σ → Engine σ → Prop} (hb : ∀ e, between e e) {n : Nat}
    {c d : Config σ} (h : c.later? n = some d) : Path between n c d := by
  induction n generalizing c with
  | zero =>
    cases h
    exact .refl _
  | succ n ih =>
    unfold Config.later? at h
    cases hs : step c with
    | go b =>
      rw [hs] at h
      exact .go hs (ih h)
    | suspend why b =>
      rw [hs] at h
      exact .wait hs (hb _) (ih h)
    | resolved outcome m =>
      rw [hs] at h
      cases h

namespace Trial

/-- An engine that knows `r` for `repeat`, `n` for `repcount`, `p` for `print`, `s` for `stop`. -/
def counting : Engine Unit :=
  [("r", Primitive.repeatTimes), ("n", .repcount), ("p", .print), ("s", .stop)].foldl
    (fun e b => e.setGlobal b.1 (.procedure (.primitive b.2))) (Engine.new () .silent 10 false)

end Trial

/-- `stop` inside of a `repeat` ends the activation that was there and leaves the pass number that
was there; and `repcount` in the second pass of a `repeat` replies with 2. -/
theorem stacks_restored_trial :
    let m : Machine Unit := ⟨Trial.counting, { activations := [{}], counters := [7] }⟩
    let call := Call.evaluate [.text "r", .number 2, .list [.text "s"]]
    let program := [.text "r", .number 2, .list [.text "p", .text "n"]]
    (∃ d, Path Eq 28 (call.config m []) d ∧ d.Settled ∧ d.machine.isStopped = true ∧
      m.live.Restored d.machine.live) ∧
    ∃ m inputs tokens pending,
      Path Eq 40 ((Thread.start program).config Trial.counting)
        ⟨m, .checkpoint (.call (.primitive .repcount) inputs), tokens, pending⟩ ∧
      step ⟨m, .checkpoint (.call (.primitive .repcount) inputs), tokens, pending⟩
        = .go ⟨m, .reply (some (.number (Float.ofNat 2))), tokens, pending⟩ := by
  intro m call program
  constructor
  · have hrun : ((call.config m []).later? 28).map (fun d =>
        (d.pending.isEmpty, d.focus.isOutcome, d.machine.isStopped)) = some (true, true, true) := by
      decide +kernel
    obtain ⟨d, hd, hend⟩ := Option.map_eq_some_iff.1 hrun
    simp only [Prod.mk.injEq, List.isEmpty_iff] at hend
    obtain ⟨hp, ho, hstop⟩ := hend
    have hsettled := settled_iff_isOutcome.2 ⟨hp, ho⟩
    have hpath : Path Eq 28 (call.config m []) d := .of_later? (fun _ => rfl) hd
    exact ⟨d, hpath, hsettled, hstop, (stacks_restored Eq).1 m call [] 28 d hpath hsettled⟩
  · have hrun : (((Thread.start program).config Trial.counting).later? 40).map (fun d =>
        (d.focus.primitive?.map Prod.fst, d.pending.findSome? Pending.pass?, d.machine.engine.state))
        = some (some .repcount, some 2, .idle) := by
      decide +kernel
    obtain ⟨⟨m, focus, tokens, pending⟩, hd, hat⟩ := Option.map_eq_some_iff.1 hrun
    simp only [Prod.mk.injEq] at hat
    obtain ⟨hf, hn, hs⟩ := hat
    obtain ⟨⟨p, inputs⟩, hf, rfl⟩ := Option.map_eq_some_iff.1 hf
    cases Focus.of_primitive? hf
    have hpath : Path Eq 40 _ _ := .of_later? (fun _ => rfl) hd
    have hstep := ((stacks_restored Eq).2.2 _ program 40 m inputs tokens pending hpath).1 (.inr hs)
    rw [passNumber, hn] at hstep
    exact ⟨m, inputs, tokens, pending, hpath, hstep⟩

end Logo
