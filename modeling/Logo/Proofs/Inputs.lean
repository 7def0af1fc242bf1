import Logo.Proofs.Calls
import Logo.Proofs.Faults
import Logo.Proofs.HostAssignment
import Logo.Proofs.Inheritance
import Logo.Proofs.Refusals
import Logo.Proofs.Scoping

/-!
# Inputs that procedures get

Calls are made at three places, and each sees to it that there are enough inputs. Therefore a
primitive is entered with as many as it takes and never reports that there are too few, and the
frame of a defined procedure has all of its parameters. A procedure value that stands for a host
function says how many inputs there are to be. As long as the host makes up no such values, what
they say is true of the function (`Value.Known`), and no function lacks an input either.
-/

namespace Logo
set_option autoImplicit false

variable {σ : Type}

/-! ### Primitives -/

namespace Primitive

theorem fed_given {p : Primitive} {inputs : List Value} (h : p.arity ≤ inputs.length) :
    p.Fed (p.given inputs) := by
  unfold Fed given
  cases p.variadic with
  | true => exact h
  | false => exact List.length_take_of_le h

/-- A primitive that has as many inputs as it takes does not ask for more. -/
theorem perform_of_fed {p : Primitive} {inputs : List Value} (h : p.Fed inputs) (m : Machine σ)
    (name : String) : (p.perform inputs m).1 ≠ .error (.notEnoughInputs name) := by
  -- only `output` and `stop` can fail otherwise because of how the program is built
  have hlack : ∀ {r : Except Fault Effect}, FailsWith (· ≠ .structural) r →
      r ≠ .error (.notEnoughInputs name) := fun hr he => hr _ he rfl
  have hfinish : ∀ (q : Primitive) how, (q.finish m how).1 ≠ .error (.notEnoughInputs name) := by
    intro q how
    unfold finish
    split <;> simp
  have ht : FaultKind.type ≠ .structural := by decide
  have hu : FaultKind.unbound ≠ .structural := by decide
  cases p
  case output =>
    match inputs, h with
    | [v], _ => exact hfinish _ _
  case stop => exact hfinish _ _
  case define => exact hlack (taking_failsWith m (definition_failsWith ht _ inputs (absurd h)) _)
  case make =>
    exact hlack (taking_failsWith m (two_failsWith _ _ (absurd h) fun name _ =>
      (Taker.name_failsWith ht _ name).bind fun _ => .ok _) _)
  case localName | globalName =>
    exact hlack (taking_failsWith m (one_failsWith _ _ (absurd h) (Taker.names_failsWith ht _)) _)
  case print | display | type => exact hlack (.ok _)
  all_goals exact hlack (plan_failsWith ht _ inputs m hu (absurd ⟨rfl, h⟩))

end Primitive

/-! ### Defined procedures -/

/-- The frame has the name, with this value. -/
def Scopes.Binds (s : Scopes) (f : FrameId) (name : String) (v : Value) : Prop :=
  ∃ c, s.localCell? f name = some c ∧ s.read c = some v

section Binding

variable {s : Scopes} {f : FrameId} {name other : String} {v w : Value}

theorem Scopes.bind_binds (hf : f < s.frames.size) (v : Value) : (s.bind f name v).Binds f name v := by
  refine ⟨s.cells.size, ?_, Scopes.read_bind_new v⟩
  rw [Scopes.localCell?, Scopes.frames_bind, if_pos rfl, Array.getElem?_eq_getElem hf]
  exact Frame.find?_put _ _ _

namespace Scopes.Binds

theorem lookup? (h : s.Binds f name v) : s.lookup? f name = some v := by
  obtain ⟨c, hc, hv⟩ := h
  rw [Scopes.lookup?, resolve?_of_localCell? hc]
  exact hv

/-- A name is the same however it is written. -/
theorem of_fold (h : s.Binds f name v) (hname : Text.fold other = Text.fold name) :
    s.Binds f other v := by
  unfold Scopes.Binds localCell? at h ⊢
  rwa [hname]

theorem bind_of_ne (h : s.Binds f name v) (hne : Text.fold other ≠ Text.fold name) :
    (s.bind f other w).Binds f name v := by
  obtain ⟨c, hc, hv⟩ := h
  have hold : c < s.cells.size := by
    by_contra hsize
    rw [Scopes.read, Array.getElem?_eq_none (Nat.not_lt.1 hsize)] at hv
    cases hv
  refine ⟨c, ?_, (read_bind_old w hold).trans hv⟩
  rw [localCell?, frames_bind, if_pos rfl]
  obtain ⟨frame, hframe, hfind⟩ := Option.bind_eq_some_iff.1 hc
  rw [hframe]
  exact (Frame.find?_put_of_ne frame hne.symm _).trans hfind

theorem bindAll_of_ne (h : s.Binds f name v) {bindings : List (String × Value)}
    (hne : ∀ b ∈ bindings, Text.fold b.1 ≠ Text.fold name) :
    (bindings.foldl (fun s b => s.bind f b.1 b.2) s).Binds f name v := by
  induction bindings generalizing s with
  | nil => exact h
  | cons b bindings ih =>
    obtain ⟨hfirst, hrest⟩ := List.forall_mem_cons.1 hne
    exact ih (h.bind_of_ne hfirst) hrest

end Scopes.Binds

end Binding

section Parameters

variable {params : List String} {inputs : List Value} {s : Scopes} {f : FrameId}

@[simp] theorem Scopes.size_frames_bind (s : Scopes) (f g : FrameId) (name : String) (v : Value) :
    f < (s.bind g name v).frames.size ↔ f < s.frames.size := by
  simp [Scopes.bind, Scopes.declare, Scopes.cell, Scopes.share]

/-- The last parameter of a name has the input at its place. -/
theorem Scopes.parameter_binds (hf : f < s.frames.size) {i : Nat} {param : String} {v : Value}
    (hi : params[i]? = some param) (hv : inputs[i]? = some v)
    (hlast : ∀ j q, i < j → params[j]? = some q → Text.fold q ≠ Text.fold param) :
    ((params.zip inputs).foldl (fun s b => s.bind f b.1 b.2) s).Binds f param v := by
  induction params generalizing s inputs i with
  | nil => cases hi
  | cons p ps ih =>
    cases inputs with
    | nil => cases hv
    | cons w vs =>
      rw [List.zip_cons_cons, List.foldl_cons]
      cases i with
      | zero =>
        cases hi
        cases hv
        refine (Scopes.bind_binds hf _).bindAll_of_ne fun b hb => ?_
        obtain ⟨j, hj⟩ := List.mem_iff_getElem?.1 (List.of_mem_zip hb).1
        exact hlast (j + 1) b.1 (Nat.succ_pos j) hj
      | succ i =>
        refine ih ((s.size_frames_bind f f p w).2 hf) hi hv fun j q hij hj => ?_
        exact hlast (j + 1) q (Nat.succ_lt_succ hij) hj

/-- Every parameter is bound, also one whose name another parameter has too. -/
theorem Scopes.parameters_bind (hf : f < s.frames.size) (hlength : params.length ≤ inputs.length)
    {param : String} (hp : param ∈ params) :
    ∃ v ∈ inputs, ((params.zip inputs).foldl (fun s b => s.bind f b.1 b.2) s).Binds f param v := by
  induction params generalizing s inputs param with
  | nil => cases hp
  | cons p ps ih =>
    cases inputs with
    | nil => cases hlength
    | cons w vs =>
      rw [List.zip_cons_cons, List.foldl_cons]
      by_cases hlater : ∃ q ∈ ps, Text.fold q = Text.fold param
      · obtain ⟨q, hq, hsame⟩ := hlater
        obtain ⟨v, hv, hbinds⟩ :=
          ih ((s.size_frames_bind f f p w).2 hf) (Nat.le_of_succ_le_succ hlength) hq
        exact ⟨v, List.mem_cons_of_mem w hv, hbinds.of_fold hsame.symm⟩
      · obtain rfl | hp := List.mem_cons.1 hp
        · refine ⟨w, List.mem_cons_self, (Scopes.bind_binds hf w).bindAll_of_ne fun b hb hsame => ?_⟩
          exact hlater ⟨b.1, (List.of_mem_zip hb).1, hsame⟩
        · exact absurd ⟨param, hp, rfl⟩ hlater

end Parameters

/-- The machine on which the body of a defined procedure runs. -/
def Machine.callee (m : Machine σ) (params : List String) (inputs : List Value) : Machine σ :=
  (m.openFrame (params.zip inputs)).openActivation

theorem Machine.callee_lookup? {m : Machine σ} {params : List String} {inputs : List Value}
    {name : String} {v : Value}
    (h : ((params.zip inputs).foldl (fun s b => s.bind m.engine.scopes.frames.size b.1 b.2)
      (m.engine.scopes.child m.currentFrame).2).Binds m.engine.scopes.frames.size name v) :
    (m.callee params inputs).lookup? name = some v :=
  h.lookup?

/-! ### Host functions -/

/-- Wherever the value has a procedure that stands for a host function, the function is registered
and takes as many inputs as the procedure says. -/
inductive Value.Known (hosts : Array (HostFunction σ)) : Value → Prop where
  | word {v : Value} : v.isWord = true → Known hosts v
  | list {items : List Value} : (∀ v ∈ items, Known hosts v) → Known hosts (.list items)
  | primitive (p : Primitive) : Known hosts (.procedure (.primitive p))
  | host {id : Nat} {f : HostFunction σ} (name : String) : hosts[id]? = some f →
      Known hosts (.procedure (.host id name f.arity))
  | defined {id : Nat} {name : String} {params : List String} {body : List Value} :
      (∀ v ∈ body, Known hosts v) → Known hosts (.procedure (.defined id name params body))

namespace Value.Known

variable {hosts : Array (HostFunction σ)}

theorem hereditary (hosts : Array (HostFunction σ)) : Hereditary (Known hosts) where
  word := .word
  list := by
    refine ⟨fun h => ?_, .list⟩
    cases h with
    | word hword => cases hword
    | list hitems => exact hitems
  primitive := .primitive
  defined := by
    refine ⟨fun h => ?_, .defined⟩
    cases h with
    | word hword => cases hword
    | defined hbody => exact hbody

theorem grows {v : Value} (h : Known hosts v) (f : HostFunction σ) : Known (hosts.push f) v := by
  induction h with
  | word hword => exact .word hword
  | list _ ih => exact .list ih
  | primitive p => exact .primitive p
  | @host id g name hid =>
    refine .host name ?_
    have hlt : id < hosts.size := (Array.getElem?_eq_some_iff.1 hid).1
    rw [Array.getElem?_push, if_neg (Nat.ne_of_lt hlt), hid]
  | defined _ ih => exact .defined ih

theorem inherited : Inherited (Known (σ := σ)) where
  hereditary := hereditary
  registered := fun _ _ name => .host name Array.getElem?_push_size
  grows := fun _ f _ h => h.grows f

theorem host_arity {id : Nat} {name : String} {arity : Nat}
    (h : Known hosts (.procedure (.host id name arity))) :
    ∃ f, hosts[id]? = some f ∧ f.arity = arity := by
  cases h with
  | word hword => cases hword
  | host _ hid => exact ⟨_, hid, rfl⟩

end Value.Known

/-- Inputs that are enough may fail to convert, but none is missing. -/
theorem InputKind.convertAll_failsWith {ks : List InputKind} {inputs : List Value}
    (h : ks.length ≤ inputs.length) : FailsWith (· = .type) (InputKind.convertAll ks inputs) := by
  induction ks generalizing inputs with
  | nil => exact .ok ()
  | cons k ks ih =>
    cases inputs with
    | nil => cases h
    | cons v vs =>
      have hconvert : FailsWith (· = .type) (k.convert v) := by
        unfold InputKind.convert
        split
        · exact .ok _
        · exact .error rfl
      exact hconvert.bind fun x => (ih (Nat.le_of_succ_le_succ h)).bind fun xs => .ok _

/-- The inputs are as many as the function takes, so that none is missing where they are
converted. -/
structure HostFunction.Fed (f : HostFunction σ) (inputs : List Value) : Prop where
  length : inputs.length = f.arity
  lacksNone : ∀ kinds body, f = .sync kinds body →
    ∀ name, InputKind.convertAll kinds inputs ≠ .error (.notEnoughInputs name)

theorem HostFunction.fed_of_length {f : HostFunction σ} {inputs : List Value}
    (h : inputs.length = f.arity) : f.Fed inputs := by
  refine ⟨h, fun kinds body hf name hlack => ?_⟩
  subst hf
  have htype := InputKind.convertAll_failsWith (Nat.le_of_eq h.symm) _ hlack
  cases htype

/-! ### Calls -/

/-- A primitive that is called gets the first inputs, as many as it takes, or all of them if it
takes more; it is entered with these and does not miss any. -/
structure Config.FeedsPrimitive (c : Config σ) (p : Primitive) (inputs : List Value) : Prop where
  exactly : p.variadic = false →
    p.given inputs = inputs.take p.arity ∧ (p.given inputs).length = p.arity
  atLeast : p.variadic = true → p.given inputs = inputs ∧ p.arity ≤ inputs.length
  entered : c.machine.engine.state = .running →
    step c = .go (p.entered (p.given inputs) c.machine c.tokens c.pending)
  lacksNone : ∀ name, (p.perform (p.given inputs) c.machine).1 ≠ .error (.notEnoughInputs name)

/-- A host function that is called gets the first inputs, as many as its procedure says. -/
structure Config.FeedsHost (c : Config σ) (id : Nat) (name : String) (arity : Nat)
    (inputs : List Value) : Prop where
  exactly : (inputs.take arity).length = arity
  entered : c.machine.engine.state = .running →
    step c = .go (callHost c.machine id name (inputs.take arity) c.tokens c.pending)

/-- A defined procedure that is called has every parameter bound where its body runs, to the input at
the same place if no later parameter has the name too. -/
structure Config.FeedsDefined (c : Config σ) (params : List String) (body inputs : List Value) :
    Prop where
  enough : params.length ≤ inputs.length
  entered : c.machine.engine.state = .running →
    c.machine.live.activations.length < c.machine.engine.depthLimit →
    step c = .go (enter (c.machine.callee params inputs) body c.tokens (.activation :: c.pending))
  bound : ∀ param ∈ params, ∃ v ∈ inputs, (c.machine.callee params inputs).lookup? param = some v
  inOrder : ∀ i param, params[i]? = some param →
    (∀ (j : Nat) q, i < j → params[j]? = some q → Text.fold q ≠ Text.fold param) →
    (c.machine.callee params inputs).lookup? param = inputs[i]?

section Calls

variable {V : Value → Prop} {c : Config σ} (hc : c.Holds V) {inputs : List Value}
include hc

theorem Config.Holds.call {p : Procedure} (hf : c.focus = .checkpoint (.call p inputs)) :
    V (.procedure p) ∧ p.arity ≤ inputs.length := by
  have hfocus := hc.focus
  rw [hf] at hfocus
  exact ⟨hfocus.1, hfocus.2.2⟩

theorem Config.Holds.feedsPrimitive {p : Primitive}
    (hf : c.focus = .checkpoint (.call (.primitive p) inputs)) : c.FeedsPrimitive p inputs := by
  have hlength : p.arity ≤ inputs.length := (hc.call hf).2
  have hfed := Primitive.fed_given hlength
  refine ⟨fun hv => ?_, fun hv => ?_, fun hrunning => ?_, Primitive.perform_of_fed hfed c.machine⟩
  · have hgiven : p.given inputs = inputs.take p.arity := by
      simp only [Primitive.given, hv, Bool.false_eq_true, if_false]
    exact ⟨hgiven, hgiven ▸ List.length_take_of_le hlength⟩
  · exact ⟨by simp only [Primitive.given, hv, if_true], hlength⟩
  · obtain ⟨m, focus, tokens, pending⟩ := c
    simp only at hf hrunning
    subst hf
    simp only [step, hrunning]
    rfl

theorem Config.Holds.feedsHost {id arity : Nat} {name : String}
    (hf : c.focus = .checkpoint (.call (.host id name arity) inputs)) :
    c.FeedsHost id name arity inputs := by
  refine ⟨List.length_take_of_le (hc.call hf).2, fun hrunning => ?_⟩
  obtain ⟨m, focus, tokens, pending⟩ := c
  simp only at hf hrunning
  subst hf
  simp only [step, hrunning]
  rfl

theorem Config.Holds.feedsDefined {id : Nat} {name : String} {params : List String} {body : List Value}
    (hf : c.focus = .checkpoint (.call (.defined id name params body) inputs)) :
    c.FeedsDefined params body inputs := by
  have hlength : params.length ≤ inputs.length := (hc.call hf).2
  have hframe : c.machine.engine.scopes.frames.size
      < (c.machine.engine.scopes.child c.machine.currentFrame).2.frames.size := by
    simp [Scopes.child]
  refine ⟨hlength, fun hrunning hdepth => ?_, fun param hp => ?_, fun i param hi hlast => ?_⟩
  · obtain ⟨m, focus, tokens, pending⟩ := c
    simp only at hf hrunning hdepth
    subst hf
    simp only [step, hrunning, act, callProcedure, callDefined, Nat.not_le.2 hdepth, if_false]
    rfl
  · obtain ⟨v, hv, hbinds⟩ := Scopes.parameters_bind hframe hlength hp
    exact ⟨v, hv, Machine.callee_lookup? hbinds⟩
  · have hlt : i < inputs.length := Nat.lt_of_lt_of_le (List.getElem?_eq_some_iff.1 hi).1 hlength
    rw [List.getElem?_eq_getElem hlt]
    exact Machine.callee_lookup?
      (Scopes.parameter_binds hframe hi (List.getElem?_eq_getElem hlt) hlast)

end Calls

/-- **Inputs as declared.** At every moment of every run at which a procedure is called, a primitive
that takes a fixed number of inputs is entered with exactly the first ones, a primitive that takes
more with all of them and at least that many, and neither reports that inputs are missing; a
procedure of the host is entered with exactly the first ones, as many as it says; and a defined
procedure has every parameter bound. As long as the host makes up no procedures of its own, a
procedure of the host says how many inputs the function takes that it stands for, and none is
missing there, neither when the function is called nor whenever it is asked again. A run comes to
a call only with inputs that have been read one behind the other, or that a template is applied to. -/
theorem inputs_as_declared (memory : σ) (sink : Sink) (depthLimit : Nat) (primitives : Bool)
    (deeds : List (Deed σ)) :
    let b := Bench.of (Engine.new memory sink depthLimit primitives)
    (∀ c ∈ b.moments deeds, ∀ inputs,
      (∀ p, c.focus = .checkpoint (.call (.primitive p) inputs) → c.FeedsPrimitive p inputs) ∧
      (∀ id name arity, c.focus = .checkpoint (.call (.host id name arity) inputs) →
        c.FeedsHost id name arity inputs) ∧
      ∀ id name params body, c.focus = .checkpoint (.call (.defined id name params body) inputs) →
        c.FeedsDefined params body inputs) ∧
    (b.Abides (Config.Fair Value.Known) (Handling.Fair Value.Known) deeds →
      ∀ c ∈ b.moments deeds, ∀ inputs,
        (∀ id name arity, c.focus = .checkpoint (.call (.host id name arity) inputs) →
          ∃ f, c.machine.engine.hosts[id]? = some f ∧ f.Fed (inputs.take arity)) ∧
        ∀ id asked, c.focus = .ask id inputs asked →
          ∃ f, c.machine.engine.hosts[id]? = some f ∧ f.Fed inputs) ∧
    ∀ c : Config σ,
      (∀ c' p inputs, (step c).config? = some c' → c'.focus = .checkpoint (.call p inputs) →
        c.Origin p inputs) ∧
      ∀ g producer v pending, c.focus = .reply (some v) → c.pending = .input g producer :: pending →
        ∃ g' : Gathering, step c = .go { c with focus := .gather g', pending := pending } ∧
          g'.procedure = g.procedure ∧ g'.given = g.given ++ [v] := by
  intro b
  refine ⟨?_, ?_, fun c => ⟨fun c' p inputs => step_origin, fun g producer v pending => step_gathers⟩⟩
  · intro c hc inputs
    have hholds := Bench.moments_hold hc
    exact ⟨fun p => hholds.feedsPrimitive, fun id name arity => hholds.feedsHost,
      fun id name params body => hholds.feedsDefined⟩
  · intro habides c hc inputs
    have hholds := Value.Known.inherited.moments habides c hc
    refine ⟨fun id name arity hf => ?_, fun id asked hf => ?_⟩
    · obtain ⟨f, hid, harity⟩ := (hholds.call hf).1.host_arity
      refine ⟨f, hid, HostFunction.fed_of_length ?_⟩
      rw [harity]
      exact (hholds.feedsHost hf).exactly
    · have hfocus := hholds.focus
      rw [hf] at hfocus
      obtain ⟨name, hknown⟩ := hfocus
      obtain ⟨f, hid, harity⟩ := hknown.host_arity
      exact ⟨f, hid, HostFunction.fed_of_length harity.symm⟩

namespace Trial

/-- A host function that answers with its only input. -/
def echo : HostFunction Unit := .sync [.any] fun v view => ⟨view.memory, [], .ok (some v)⟩

def printing : List Value := [.text "p", .text ":n"]

/-- A run of `x` waits for the engine, where `x` calls `echo` with an input too many, and `y` with
the answer, which `y` prints. -/
def echoing : List (Deed Unit) :=
  let body := [.text "y", .text "(", .text "echo", .text "\"a", .text "\"b", .text ")"]
  [.handle (.bind "echo" echo), .handle (.set "x" (.procedure (.defined 0 "x" [] body))),
    .handle (.set "y" (.procedure (.defined 1 "y" ["n"] printing))),
    .handle (.set "p" (.procedure (.primitive .print))), .start 0 "x"]

inductive Callee where
  | echo | y | print
  deriving DecidableEq

/-- Which of the calls is about to be made? -/
def callee? : Focus → Option Callee
  | .checkpoint (.call (.host 0 "echo" 1) [.text "a", .text "b"]) => some .echo
  | .checkpoint (.call (.defined 1 "y" ["n"] [.text "p", .text ":n"]) [.text "a"]) => some .y
  | .checkpoint (.call (.primitive .print) [.text "a"]) => some .print
  | _ => none

theorem eq_of_callee? {focus : Focus} {callee : Callee} (h : callee? focus = some callee) :
    focus = match callee with
      | .echo => .checkpoint (.call (.host 0 "echo" 1) [.text "a", .text "b"])
      | .y => .checkpoint (.call (.defined 1 "y" ["n"] printing) [.text "a"])
      | .print => .checkpoint (.call (.primitive .print) [.text "a"]) := by
  unfold callee? at h
  split at h <;> cases h <;> rfl

end Trial

/-- `x` calls a function of the host with an input too many, a defined procedure with what the
function answers, and that one a primitive. -/
theorem inputs_as_declared_trial :
    let b := Bench.of (Engine.new () .silent 10 false)
    let deeds := Trial.echoing ++ [.poll 0 60]
    b.Abides (Config.Fair Value.Known) (Handling.Fair Value.Known) deeds ∧
    (∃ c ∈ b.moments deeds, c.Origin (.host 0 "echo" 1) [.text "a", .text "b"]) ∧
    (∃ c ∈ b.moments deeds, c.focus = .checkpoint (.call (.host 0 "echo" 1) [.text "a", .text "b"]) ∧
      ∃ f, c.machine.engine.hosts[0]? = some f ∧ f.Fed [.text "a"]) ∧
    (∃ c ∈ b.moments deeds,
      c.focus = .checkpoint (.call (.defined 1 "y" ["n"] Trial.printing) [.text "a"]) ∧
      (c.machine.callee ["n"] [.text "a"]).lookup? "n" = some (.text "a")) ∧
    ∃ c ∈ b.moments deeds, c.focus = .checkpoint (.call (.primitive .print) [.text "a"]) ∧
      c.FeedsPrimitive .print [.text "a"] := by
  intro b deeds
  let waiting := b.follow Trial.echoing
  obtain ⟨-, hmoments⟩ := Bench.begun_make_poll (b := waiting) 0 rfl rfl Trial.parse_x 60
  have hanswers : ((waiting.begun 0 [.text "x"]).momentsOf (.poll 0 60)).all
      (fun c => c.handed?.all Value.isWord) = true := by
    decide +kernel
  have hcalls : [Trial.Callee.echo, .y, .print].all (fun callee =>
      ((waiting.begun 0 [.text "x"]).momentsOf (.poll 0 60)).any fun c =>
        Trial.callee? c.focus == some callee) = true := by
    decide +kernel
  have hcoming : ((waiting.begun 0 [.text "x"]).momentsOf (.poll 0 60)).any
      (fun c => (step c).config?.any fun c' => Trial.callee? c'.focus == some .echo) = true := by
    decide +kernel
  rw [hmoments] at hanswers hcalls hcoming
  have habides : b.Abides (Config.Fair Value.Known) (Handling.Fair Value.Known) deeds := by
    have hwords : ∀ {items : List Value}, items.all Value.isWord = true →
        ∀ v ∈ items, v.Known #[Trial.echo] := fun h v hv => .word (List.all_eq_true.1 h v hv)
    have hfair : ∀ c ∈ waiting.momentsOf (.poll 0 60), c.Fair Value.Known := by
      intro c hc v hv
      have hword := List.all_eq_true.1 hanswers c hc
      rw [hv] at hword
      exact .word hword
    refine ⟨by rintro c ⟨⟩, by rintro h ⟨⟩; trivial, by rintro c ⟨⟩, ?_, by rintro c ⟨⟩, ?_,
      by rintro c ⟨⟩, ?_, by rintro c ⟨⟩, by rintro h ⟨⟩, hfair, by rintro h ⟨⟩, trivial⟩
    · rintro h ⟨⟩
      exact .defined (hwords rfl)
    · rintro h ⟨⟩
      exact .defined (hwords rfl)
    · rintro h ⟨⟩
      exact .primitive .print
  have hpolled : ∀ c ∈ waiting.momentsOf (.poll 0 60), c ∈ b.moments deeds := by
    intro c hc
    show c ∈ waiting.momentsOf (.poll 0 60) ++ []
    exact List.mem_append_left _ hc
  have hmoment : ∀ callee ∈ [Trial.Callee.echo, .y, .print], ∃ c ∈ b.moments deeds,
      Trial.callee? c.focus = some callee := by
    intro callee hcallee
    obtain ⟨c, hc, hfocus⟩ := List.any_eq_true.1 (List.all_eq_true.1 hcalls callee hcallee)
    exact ⟨c, hpolled c hc, beq_iff_eq.1 hfocus⟩
  obtain ⟨hfed, hhosts, horigin⟩ := inputs_as_declared () .silent 10 false deeds
  refine ⟨habides, ?_, ?_, ?_, ?_⟩
  · obtain ⟨c, hc, hnext⟩ := List.any_eq_true.1 hcoming
    obtain ⟨c', hs, hcallee⟩ := (Option.any_eq_true _ _).1 hnext
    exact ⟨c, hpolled c hc, (horigin c).1 c' _ _ hs (Trial.eq_of_callee? (beq_iff_eq.1 hcallee))⟩
  · obtain ⟨c, hc, hcallee⟩ := hmoment .echo (by simp)
    have hfocus := Trial.eq_of_callee? hcallee
    exact ⟨c, hc, hfocus, (hhosts habides c hc _).1 0 "echo" 1 hfocus⟩
  · obtain ⟨c, hc, hcallee⟩ := hmoment .y (by simp)
    have hfocus := Trial.eq_of_callee? hcallee
    have hbound := ((hfed c hc _).2.2 1 "y" ["n"] Trial.printing hfocus).inOrder 0 "n" rfl
    refine ⟨c, hc, hfocus, hbound fun j q hj hq => ?_⟩
    rw [List.getElem?_eq_none hj] at hq
    cases hq
  · obtain ⟨c, hc, hcallee⟩ := hmoment .print (by simp)
    have hfocus := Trial.eq_of_callee? hcallee
    exact ⟨c, hc, hfocus, (hfed c hc _).1 .print hfocus⟩

end Logo
