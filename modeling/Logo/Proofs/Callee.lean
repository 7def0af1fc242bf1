import Logo.Proofs.Discipline
import Logo.Proofs.Scoping

/-!
# Names of a caller

A procedure runs in a frame of its own, which is current from its first step to its last, unless a
frame opened inside of it is. So what the body declares, ties, defines or assigns anew lands in a
frame that is left with the call, or is a new name of the global frame. The frames of the caller
keep their names and the cells of these; only what the cells hold may be different
(`callee_keeps_names`).
-/

namespace Logo
set_option autoImplicit false

variable {σ : Type}

/-! ### The frames of a caller -/

/-- The frames `fs` have the names and cells that they had, and the global frame has those that it
had and maybe more. -/
structure Scopes.Keeps (fs : List FrameId) (s s' : Scopes) : Prop where
  frames : ∀ f, f ∈ fs → s'.frames[f]? = s.frames[f]?
  global : ∀ key c, s.cellAt? globalFrame key = some c → s'.cellAt? globalFrame key = some c

namespace Scopes

variable {fs : List FrameId} {s s' s'' : Scopes}

theorem Keeps.refl (fs : List FrameId) (s : Scopes) : Keeps fs s s :=
  ⟨fun _ _ => rfl, fun _ _ h => h⟩

theorem Keeps.trans (h : Keeps fs s s') (h' : Keeps fs s' s'') : Keeps fs s s'' :=
  ⟨fun f hf => (h'.frames f hf).trans (h.frames f hf), fun key c hc => h'.global key c (h.global key c hc)⟩

/-- Names bound in a frame above `fs` leave these alone. -/
theorem Spares.keeps {f : FrameId} (h : Spares f s s') (hf : f ≠ globalFrame)
    (hfs : ∀ g, g ∈ fs → g < s.frames.size ∧ g ≠ f ∧ g ≠ globalFrame) : Keeps fs s s' :=
  ⟨fun g hg => h.other g (hfs g hg).1 (hfs g hg).2.1 (hfs g hg).2.2, h.global hf⟩

end Scopes

namespace Machine.Chained

variable {m : Machine σ}

/-- A frame of the chain is younger than all behind it. -/
theorem sorted (h : m.Chained) : m.chain.Pairwise fun f g => g < f := by
  have hlt : m.chain.IsChain fun f g => g < f := h.linked.imp fun _ _ hl => hl.older
  exact hlt.pairwise

/-- The live frames are there, and none of them is the global one. -/
theorem live_frames (h : m.Chained) {f : FrameId} (hf : f ∈ m.live.frames) :
    f < m.engine.scopes.frames.size ∧ f ≠ globalFrame := by
  have hsorted := h.sorted
  have hcurrent := h.currentFrame_lt
  unfold Machine.chain at hsorted
  have hglobal := (List.pairwise_append.1 hsorted).2.2 f hf globalFrame (List.mem_singleton_self _)
  refine ⟨?_, Nat.ne_of_gt hglobal⟩
  unfold Machine.currentFrame at hcurrent
  cases hfs : m.live.frames with
  | nil =>
    rw [hfs] at hf
    cases hf
  | cons g gs =>
    rw [hfs] at hf hsorted hcurrent
    obtain rfl | hf := List.mem_cons.1 hf
    · exact hcurrent
    · exact Nat.lt_trans ((List.pairwise_cons.1 hsorted).1 f (List.mem_append_left _ hf)) hcurrent

/-- The current frame is none of those below it, nor the global one. -/
theorem currentFrame_above (h : m.Chained) {g : FrameId} {gs fs : List FrameId}
    (hm : m.live.frames = (g :: gs) ++ fs) :
    m.currentFrame ≠ globalFrame ∧ ∀ f, f ∈ fs → f ≠ m.currentFrame := by
  have hsorted := h.sorted
  rw [Machine.chain, hm, List.append_assoc, List.cons_append, List.pairwise_cons] at hsorted
  have hcurrent : m.currentFrame = g := by rw [Machine.currentFrame, hm]; rfl
  rw [hcurrent]
  constructor
  · exact Nat.ne_of_gt (hsorted.1 globalFrame (by simp))
  · intro f hf
    exact Nat.ne_of_lt (hsorted.1 f (by simp [hf]))

end Machine.Chained

/-! ### What a step does to names -/

theorem Config.After.spares {m : Machine σ} {pending : List Pending} {c : Config σ}
    (h : Config.After m pending c) :
    Scopes.Spares m.engine.scopes.frames.size m.engine.scopes c.machine.engine.scopes := by
  cases h with
  | goes work _ _ => exact .of_frames rfl
  | framed bindings _ _ _ => exact m.openFrame_spares bindings
  | called bindings _ _ => exact m.openFrame_spares bindings
  | counted block total => exact .of_frames rfl

/-- A step that is not one of a primitive spares all frames. -/
theorem Config.Turn.spares {c c' : Config σ} (h : c.Turn c') (hc : c.machine.Chained) :
    Scopes.Spares c.machine.engine.scopes.frames.size c.machine.engine.scopes
      c'.machine.engine.scopes ∨
    c.focus.primitive? ≠ none ∧ Scopes.Spares c.machine.currentFrame c.machine.engine.scopes
      c'.machine.engine.scopes := by
  cases h with
  | works _ _ h => exact .inl h.spares
  | @performs m p inputs _ _ _ _ _ => exact .inr ⟨Option.some_ne_none _, p.perform_spares hc (p.given inputs)⟩
  | holds _ => exact .inl (.of_frames rfl)
  | @passes m _ begun _ _ _ _ _ _ _ _ =>
    refine .inl (.of_frames ?_)
    simp only [Machine.setCounter]
    split <;> rfl
  | leaves _ _ => exact .inl (.of_frames rfl)
  | resumes _ _ h => exact .inl h.spares
  | turns => exact .inl (.of_frames rfl)
  | @closes m _ _ _ p _ _ _ _ =>
    refine .inl (.of_frames ?_)
    cases p <;> rfl

/-! ### What waits inside of a call -/

theorem Config.After.suffix {m : Machine σ} {pending : List Pending} {c : Config σ}
    (h : Config.After m pending c) : pending <:+ c.pending := by
  cases h with
  | goes _ _ _ => exact List.suffix_append _ _
  | framed _ _ _ _ =>
    exact ((List.suffix_append _ _).trans (List.suffix_cons _ _)).trans (List.suffix_append _ _)
  | called _ _ _ => exact (List.suffix_cons _ _).trans (List.suffix_append _ _)
  | counted _ _ => exact List.suffix_cons _ _

/-- A call of a defined procedure alone: it is about to be made, its activation waits, or it has
come to an outcome. -/
inductive Config.Calling (call : Focus) (c : Config σ) : Prop where
  | before : c.focus = call → c.pending = [] → Calling call c
  | inside : [.activation] <:+ c.pending → Calling call c
  | after : c.Settled → Calling call c

theorem Calling.of_suffix_cons {p : Pending} {pending : List Pending} (hp : p ≠ .activation)
    (h : [.activation] <:+ p :: pending) : [.activation] <:+ pending := by
  obtain h | h := List.suffix_cons_iff.1 h
  · cases h
    exact absurd rfl hp
  · exact h

theorem Config.Turn.calling {call : Focus} {c c' : Config σ} (h : c.Turn c')
    (hc : [.activation] <:+ c.pending) : c'.Calling call := by
  cases h with
  | works _ _ h => exact .inside (hc.trans h.suffix)
  | performs _ _ => exact .inside hc
  | holds _ => exact .inside hc
  | passes _ _ => exact .inside ((hc.trans (List.suffix_cons _ _)).trans (List.suffix_append _ _))
  | leaves _ _ => exact .inside hc
  | resumes _ hp h =>
    refine .inside ((Calling.of_suffix_cons ?_ hc).trans h.suffix)
    rintro rfl
    cases hp
  | turns => exact .inside (Calling.of_suffix_cons (fun h => by cases h) hc)
  | closes _ ho _ =>
    obtain h | h := List.suffix_cons_iff.1 hc
    · cases h
      exact .after (settled_iff_isOutcome.2 ⟨rfl, ho⟩)
    · exact .inside h

theorem step_defined {m : Machine σ} {id : Nat} {name : String} {params : List String}
    {body inputs tokens : List Value} {c : Config σ}
    (hs : (step ⟨m, .checkpoint (.call (.defined id name params body) inputs), tokens, []⟩).config?
      = some c) : c.Calling (.checkpoint (.call (.defined id name params body) inputs)) := by
  have hcall : (callDefined m params body inputs tokens []).Calling
      (.checkpoint (.call (.defined id name params body) inputs)) := by
    unfold callDefined
    split
    · exact .after ⟨_, _, rfl⟩
    · obtain ⟨focus, tokens', ps, -, -, he⟩ := Config.After.enter_shape
        (m.openFrame (params.zip inputs)).openActivation body tokens [.activation]
      rw [he]
      exact .inside (List.suffix_append _ _)
  simp only [step] at hs
  split at hs <;> cases hs
  · exact .after ⟨_, _, rfl⟩
  · exact .before rfl rfl
  · exact hcall
  · exact hcall

/-! ### The frames on the stack -/

theorem Live.Over.frames {base l : Live} {pending : List Pending} (h : base.Over pending l) :
    ∃ gs, l.frames = gs ++ base.frames ∧ (.activation ∈ pending → gs ≠ []) := by
  have opened : ∀ {l : Live} {fs : List FrameId}, l.frames ≠ [] → l.frames.tail = fs →
      ∃ f, l.frames = f :: fs := by
    intro l fs hne hfs
    cases hl : l.frames with
    | nil => exact absurd hl hne
    | cons f rest =>
      rw [hl] at hfs
      exact ⟨f, by rw [← hfs]; rfl⟩
  induction h with
  | base h => exact ⟨[], h.frames, fun hm => by cases hm⟩
  | light hp _ ih =>
    obtain ⟨gs, hgs, hne⟩ := ih
    refine ⟨gs, hgs, fun hm => hne ?_⟩
    obtain rfl | hm := List.mem_cons.1 hm
    · cases hp
    · exact hm
  | template hf _ ih | activation hf _ ih =>
    obtain ⟨gs, hgs, -⟩ := ih
    obtain ⟨f, hl⟩ := opened hf hgs
    exact ⟨f :: gs, hl, fun _ => List.cons_ne_nil _ _⟩
  | pass _ _ _ _ ih =>
    obtain ⟨gs, hgs, hne⟩ := ih
    refine ⟨gs, hgs, fun hm => hne ?_⟩
    obtain hm | hm := List.mem_cons.1 hm
    · cases hm
    · obtain hm | hm := List.mem_cons.1 hm
      · cases hm
      · exact hm

theorem Config.Stacked.frames {base : Live} {c : Config σ} (h : c.Stacked base) :
    ∃ gs, c.machine.live.frames = gs ++ base.frames ∧ (.activation ∈ c.pending → gs ≠ []) := by
  cases h with
  | within _ hb => exact hb.frames
  | between _ _ hb =>
    obtain ⟨gs, hgs, hne⟩ := hb.frames
    refine ⟨gs, hgs, fun hm => hne ?_⟩
    obtain hm | hm := List.mem_cons.1 hm
    · cases hm
    · exact hm

/-! ### A whole call -/

/-- The moments of a call of a defined procedure that was made on `m`. -/
structure Config.Sparing (m : Machine σ) (call : Focus) (c : Config σ) : Prop where
  chained : c.machine.Chained
  stacked : c.Stacked m.live
  keeps : Scopes.Keeps m.live.frames m.engine.scopes c.machine.engine.scopes
  calling : c.Calling call

section Call

variable {m : Machine σ} {id : Nat} {name : String} {params : List String} {body inputs : List Value}

/-- A step of the call binds names above the frames of the caller. -/
theorem Config.Sparing.step_keeps {c c' : Config σ}
    (h : c.Sparing m (.checkpoint (.call (.defined id name params body) inputs)))
    (hs : (step c).config? = some c') :
    Scopes.Keeps m.live.frames c.machine.engine.scopes c'.machine.engine.scopes := by
  obtain ⟨gs, hgs, hne⟩ := h.stacked.frames
  have hlive : ∀ g, g ∈ m.live.frames →
      g < c.machine.engine.scopes.frames.size ∧ g ≠ globalFrame := by
    intro g hg
    exact h.chained.live_frames (hgs ▸ List.mem_append_right gs hg)
  have hglobal : globalFrame < c.machine.engine.scopes.frames.size := by
    obtain ⟨frame, hframe, -⟩ := h.chained.rooted
    exact (Array.getElem?_eq_some_iff.1 hframe).1
  obtain hspares | ⟨hp, hspares⟩ := (step_turn hs).spares h.chained
  · refine hspares.keeps (Nat.ne_of_gt hglobal) fun g hg => ?_
    exact ⟨(hlive g hg).1, Nat.ne_of_lt (hlive g hg).1, (hlive g hg).2⟩
  · cases h.calling with
    | before hf _ =>
      rw [hf] at hp
      exact absurd rfl hp
    | after hd =>
      obtain ⟨outcome, m', hr⟩ := hd
      rw [hr] at hs
      cases hs
    | inside hin =>
      -- A primitive works on the current frame, and that is not one of the caller.
      obtain ⟨g, gs, rfl⟩ := List.exists_cons_of_ne_nil (hne (hin.subset (List.mem_singleton_self _)))
      obtain ⟨hcurrent, hbelow⟩ := h.chained.currentFrame_above hgs
      refine hspares.keeps hcurrent fun f hf => ?_
      exact ⟨(hlive f hf).1, hbelow f hf, (hlive f hf).2⟩

theorem Config.Sparing.step {c c' : Config σ}
    (h : c.Sparing m (.checkpoint (.call (.defined id name params body) inputs)))
    (hs : (Logo.step c).config? = some c') :
    c'.Sparing m (.checkpoint (.call (.defined id name params body) inputs)) where
  chained := (step_turn hs).chained h.chained
  stacked := (step_turn hs).stacked h.stacked
  keeps := h.keeps.trans (h.step_keeps hs)
  calling := by
    cases h.calling with
    | before hf hp =>
      obtain ⟨m', focus, tokens, pending⟩ := c
      cases hf
      cases hp
      exact step_defined hs
    | inside hin => exact (step_turn hs).calling hin
    | after hd =>
      obtain ⟨outcome, m', hr⟩ := hd
      rw [hr] at hs
      cases hs

/-- The host leaves the names alone between polls. -/
def Engine.SameNames (e e' : Engine σ) : Prop := e'.scopes = e.scopes

theorem Engine.SameNames.refl (e : Engine σ) : e.SameNames e := rfl

theorem Config.Sparing.on {call : Focus} {c : Config σ} (h : c.Sparing m call) {e : Engine σ}
    (he : Engine.SameNames c.machine.engine e) : (c.on e).Sparing m call where
  chained := h.chained.of_same he rfl
  stacked := h.stacked.on e
  keeps := by
    have hkeeps := h.keeps
    rw [← he] at hkeeps
    exact hkeeps
  calling := by
    cases h.calling with
    | before hf hp => exact .before hf hp
    | inside hin => exact .inside hin
    | after hd =>
      have hend := settled_iff.1 hd
      exact .after (settled_iff.2 hend)

/-- The call is about to be made. -/
def Procedure.called (m : Machine σ) (inputs tokens : List Value) (p : Procedure) : Config σ :=
  ⟨m, .checkpoint (.call p inputs), tokens, []⟩

theorem Path.sparing (hm : m.Chained) {tokens : List Value} {n : Nat} {d : Config σ}
    (h : Path Engine.SameNames n
      ((Procedure.defined id name params body).called m inputs tokens) d) :
    d.Sparing m (.checkpoint (.call (.defined id name params body) inputs)) := by
  refine h.invariant (fun a b ha hs => ha.step (by rw [hs]; rfl)) ?_ ?_
  · intro a b why e ha hs he
    have hb : (step a).config? = some b := by rw [hs]; rfl
    exact (ha.step hb).on he
  · exact ⟨hm, .within rfl (.base (.refl _)), .refl _ _, .before rfl rfl⟩

end Call

/-- What a call leaves of the names: the same frames are live, they have the names and cells that
they had, the global frame has those that it had and maybe more, and every name means the cell that
it meant, or else what it means as a new global name. -/
structure Machine.KeepsNames (m m' : Machine σ) : Prop where
  live : m'.live.frames = m.live.frames
  frames : ∀ f, f ∈ m.live.frames → f ≠ globalFrame ∧
    m'.engine.scopes.frames[f]? = m.engine.scopes.frames[f]?
  global : ∀ name c, m.engine.scopes.localCell? globalFrame name = some c →
    m'.engine.scopes.localCell? globalFrame name = some c
  meanings : ∀ name, m'.cell? name
    = (m.cell? name).or (m'.engine.scopes.localCell? globalFrame name)

theorem Scopes.Keeps.keepsNames {m m' : Machine σ} (hm : m.Chained)
    (h : Scopes.Keeps m.live.frames m.engine.scopes m'.engine.scopes)
    (hl : m'.live.frames = m.live.frames) : m.KeepsNames m' where
  live := hl
  frames := fun f hf => ⟨(hm.live_frames hf).2, h.frames f hf⟩
  global := fun name c hc => h.global _ c hc
  meanings := by
    intro name
    have hsame : m.live.frames.findSome? (fun f => m'.engine.scopes.localCell? f name)
        = m.live.frames.findSome? fun f => m.engine.scopes.localCell? f name := by
      rw [← List.head?_filterMap, ← List.head?_filterMap]
      refine congrArg List.head? (List.filterMap_congr fun f hf => ?_)
      rw [Scopes.localCell?, h.frames f hf]
      rfl
    simp only [Machine.cell?, Machine.chain, hl, List.findSome?_append, hsame, List.findSome?_singleton]
    cases m.live.frames.findSome? fun f => m.engine.scopes.localCell? f name with
    | some c => rfl
    | none =>
      cases hg : m.engine.scopes.localCell? globalFrame name with
      | none => rfl
      | some c => exact h.global _ c hg

/-- **A callee cannot rewire the names of its caller.** Take any moment that can be reached, or any
machine whose live frames are a chain of parents. However a call of a defined procedure ends there,
as long as the host does not set or bind names meanwhile, the live frames have exactly the names
and cells that they had before, and the global frame has those that it had and maybe more. So no
name of the caller means anything else than before, and what the procedure declared, tied or
defined for itself is gone. -/
theorem callee_keeps_names :
    (∀ (memory : σ) (sink : Sink) (depthLimit : Nat) (primitives : Bool) (c : Config σ),
      (Bench.of (Engine.new memory sink depthLimit primitives)).Reaches c → c.machine.Chained) ∧
    ∀ (m : Machine σ) (id : Nat) (name : String) (params : List String)
      (body inputs tokens : List Value), m.Chained →
      (∀ n d, Path Engine.SameNames n
          ((Procedure.defined id name params body).called m inputs tokens) d → d.Settled →
        m.KeepsNames d.machine) ∧
      ∀ k n c, Path Engine.SameNames n
          (((Procedure.defined id name params body).called m inputs tokens).under k) c →
        (∃ d, ¬ d.Settled ∧ c = d.under k ∧ Path Engine.SameNames n
          ((Procedure.defined id name params body).called m inputs tokens) d) ∨
        ∃ i j d, i + j = n ∧ d.Settled ∧ Path Engine.SameNames i
          ((Procedure.defined id name params body).called m inputs tokens) d ∧
          Path Engine.SameNames j (d.under k) c ∧ m.KeepsNames d.machine := by
  refine ⟨fun _ _ _ _ c hc => hc.chained, fun m id name params body inputs tokens hm => ?_⟩
  have halone : ∀ n d, Path Engine.SameNames n
      ((Procedure.defined id name params body).called m inputs tokens) d → d.Settled →
      m.KeepsNames d.machine := by
    intro n d hpath hd
    have hsparing := hpath.sparing hm
    exact hsparing.keeps.keepsNames hm (hd.restored hsparing.stacked).frames
  refine ⟨halone, fun k n c hpath => ?_⟩
  obtain hinside | ⟨i, j, d, hn, hd, hcall, hrest⟩ := hpath.under_cases
  · exact .inl hinside
  · exact .inr ⟨i, j, d, hn, hd, hcall, hrest, halone i d hcall hd⟩

namespace Trial

/-- A machine in a frame that has `y`, on an engine that knows `m` for `make` and `l` for
`local`. -/
def caller : Machine Unit :=
  let e := ((Engine.new () .silent 10 false).setGlobal "m" (.procedure (.primitive .make))).setGlobal
    "l" (.procedure (.primitive .localName))
  (⟨e, {}⟩ : Machine Unit).openFrame [("y", .text "b")]

theorem chained_caller : caller.Chained := by
  refine Machine.Chained.openFrame ⟨?_, List.isChain_singleton _⟩ _
  exact bind_rooted (bind_rooted (Engine.new_rooted () .silent 10 false) _ _) _ _

/-- A procedure that has `y` for a parameter, declares `z`, and assigns to `y` and to `w`. -/
def callee : Procedure :=
  .defined 0 "f" ["y"] [.text "l", .text "\"z", .text "m", .text "\"y", .text "\"c",
    .text "m", .text "\"w", .text "\"d"]

end Trial

/-- The caller's `y` is what it was, there is no `z`, and `w` has become a global name. -/
theorem callee_keeps_names_trial :
    ∃ d, Path Engine.SameNames 50 (Trial.callee.called Trial.caller [.text "a"] []) d ∧ d.Settled ∧
      Trial.caller.KeepsNames d.machine ∧ d.machine.cell? "y" = Trial.caller.cell? "y" ∧
      d.machine.cell? "z" = none ∧ Trial.caller.cell? "w" = none ∧
      (d.machine.cell? "w").isSome = true := by
  have hrun : ((Trial.callee.called Trial.caller [.text "a"] []).later? 50).map (fun d =>
      (d.pending.isEmpty, d.focus.isOutcome, d.machine.cell? "y" == Trial.caller.cell? "y",
        d.machine.cell? "z", (d.machine.cell? "w").isSome)) = some (true, true, true, none, true) := by
    decide +kernel
  obtain ⟨d, hd, hend⟩ := Option.map_eq_some_iff.1 hrun
  simp only [Prod.mk.injEq, List.isEmpty_iff, beq_iff_eq] at hend
  obtain ⟨hp, ho, hy, hz, hw⟩ := hend
  have hsettled := settled_iff_isOutcome.2 ⟨hp, ho⟩
  have hpath : Path Engine.SameNames 50 (Trial.callee.called Trial.caller [.text "a"] []) d :=
    .of_later? .refl hd
  have hkeeps := (callee_keeps_names.2 Trial.caller _ _ _ _ _ _ Trial.chained_caller).1 50 d hpath
    hsettled
  exact ⟨d, hpath, hsettled, hkeeps, hy, hz, by decide +kernel, hw⟩

end Logo
