import Logo.Proofs.Turns
import Mathlib.Data.List.Forall2

/-!
# What a failure leaves

A primitive looks at all of its inputs before it does anything, so one that fails leaves the
machine as it was; a list of names is taken as a whole or not at all. A synchronous host function
is entered with all of its inputs converted (`HostBody.apply_eq`), and if one of them does not
convert, then nobody can tell which code was not entered.
-/

namespace Logo
set_option autoImplicit false

variable {σ : Type}

/-! ### Primitives -/

theorem Primitive.perform_of_error {p : Primitive} {inputs : List Value} {m : Machine σ} {f : Fault}
    (h : (p.perform inputs m).1 = .error f) : (p.perform inputs m).2 = m := by
  obtain ⟨v, hv⟩ | hm := p.perform_cases inputs m
  · rw [hv] at h
    cases h
  · exact hm

/-- Can a value name a variable or a procedure? -/
def Value.canName : Value → Bool
  | .text s => unmarked s != ""
  | _ => false

namespace Taker

theorem name_of_canName (t : Taker) {v : Value} (h : v.canName = true) : ∃ s, t.name v = .ok s := by
  cases v with
  | text s => exact ⟨unmarked s, if_neg (by simpa [Value.canName] using h)⟩
  | _ => cases h

theorem name_of_not_canName (t : Taker) {v : Value} (h : v.canName = false) :
    t.name v = .error (.unsuitable t.procedure v) := by
  cases v with
  | text s => exact if_pos (by simpa [Value.canName] using h)
  | _ => rfl

/-- A list of names is taken as a whole, or else for one of its members not at all. -/
theorem names_list (t : Taker) (items : List Value) :
    ((∀ v ∈ items, v.canName = true) ∧ ∃ names, t.names (.list items) = .ok names) ∨
    ∃ v ∈ items, v.canName = false ∧ t.names (.list items) = .error (.unsuitable t.procedure v) := by
  change (_ ∧ ∃ names, items.mapM t.name = .ok names) ∨ ∃ v ∈ items, _ ∧ items.mapM t.name = _
  induction items with
  | nil => exact .inl ⟨fun v hv => (by cases hv), [], rfl⟩
  | cons v vs ih =>
    rw [List.mapM_cons]
    cases hv : v.canName with
    | false =>
      refine .inr ⟨v, List.mem_cons_self, hv, ?_⟩
      rw [t.name_of_not_canName hv]
      rfl
    | true =>
      obtain ⟨s, hs⟩ := t.name_of_canName hv
      rw [hs]
      obtain ⟨hall, names, hvs⟩ | ⟨w, hw, hno, hvs⟩ := ih
      · refine .inl ⟨List.forall_mem_cons.2 ⟨hv, hall⟩, s :: names, ?_⟩
        rw [hvs]
        rfl
      · refine .inr ⟨w, List.mem_cons_of_mem v hw, hno, ?_⟩
        rw [hvs]
        rfl

end Taker

/-- `local` and `global` declare every name of a list or none. -/
theorem Primitive.perform_names {p : Primitive} (hp : p = .localName ∨ p = .globalName)
    (items : List Value) (m : Machine σ) :
    ((∀ v ∈ items, v.canName = true) ∧ (p.perform [.list items] m).1 = .ok (.reply none)) ∨
    ∃ v ∈ items, v.canName = false ∧ p.perform [.list items] m = (.error (.unsuitable p.name v), m) := by
  obtain ⟨hall, names, hnames⟩ | ⟨v, hv, hno, hnames⟩ := p.taker.names_list items
  · refine .inl ⟨hall, ?_⟩
    obtain rfl | rfl := hp
    all_goals simp only [perform, one, hnames, taking]
  · refine .inr ⟨v, hv, hno, ?_⟩
    obtain rfl | rfl := hp
    all_goals
      simp only [perform, one, hnames, taking]
      rfl

/-! ### Host functions -/

namespace InputKind

/-- Inputs of the given kinds. -/
def Carriers : List InputKind → Type
  | [] => Unit
  | k :: ks => k.Carrier × Carriers ks

/-- Convert inputs to the given kinds, in order. -/
def convertAll : (ks : List InputKind) → List Value → Except Fault (Carriers ks)
  | [], _ => .ok ()
  | k :: ks, v :: vs => do
    let x ← k.convert v
    let xs ← convertAll ks vs
    return (x, xs)
  | _ :: _, [] => .error (.notEnoughInputs "host function")

def Converts (k : InputKind) (v : Value) : Prop := (k.convert? v).isSome = true

end InputKind

/-- Enter host code with all the inputs that it takes. -/
def HostBody.enter : (ks : List InputKind) → HostBody σ ks → InputKind.Carriers ks →
    HostView σ → HostWork σ Outcome
  | [], body, _, view => body view
  | _ :: ks, body, (x, xs), view => HostBody.enter ks (body x) xs view

/-- Host code is entered with all of its inputs converted or not at all. -/
theorem HostBody.apply_eq (ks : List InputKind) (body : HostBody σ ks) (inputs : List Value)
    (view : HostView σ) :
    HostBody.apply ks body inputs view = match InputKind.convertAll ks inputs with
      | .ok xs => HostBody.enter ks body xs view
      | .error f => ⟨view.memory, [], .error f⟩ := by
  induction ks generalizing inputs with
  | nil => rfl
  | cons k ks ih =>
    cases inputs with
    | nil => rfl
    | cons v vs =>
      rw [HostBody.apply, InputKind.convertAll]
      cases k.convert v with
      | error f => rfl
      | ok x =>
        simp only [bind, Except.bind, ih]
        cases InputKind.convertAll ks vs <;> rfl

namespace InputKind

theorem convert_ok_iff {k : InputKind} {v : Value} : (∃ x, k.convert v = .ok x) ↔ k.Converts v := by
  unfold convert Converts
  cases k.convert? v <;> simp

/-- All inputs convert exactly if each place is given one that converts to the kind there. -/
theorem convertAll_ok_iff {ks : List InputKind} {inputs : List Value} :
    (∃ xs, convertAll ks inputs = .ok xs) ↔ List.Forall₂ Converts ks (inputs.take ks.length) := by
  induction ks generalizing inputs with
  | nil => exact ⟨fun _ => .nil, fun _ => ⟨(), rfl⟩⟩
  | cons k ks ih =>
    cases inputs with
    | nil => simp [convertAll]
    | cons v vs =>
      rw [List.length_cons, List.take_succ_cons, List.forall₂_cons, ← convert_ok_iff, ← ih, convertAll]
      cases k.convert v with
      | error f => simp [bind, Except.bind]
      | ok x =>
        cases convertAll ks vs with
        | error f => simp [bind, Except.bind]
        | ok xs => exact ⟨fun _ => ⟨⟨x, rfl⟩, xs, rfl⟩, fun _ => ⟨(x, xs), rfl⟩⟩

end InputKind

/-- Whether it was entered shows in what host code leaves. -/
theorem HostBody.apply_cases (ks : List InputKind) (body : HostBody σ ks) (inputs : List Value)
    (view : HostView σ) :
    (List.Forall₂ InputKind.Converts ks (inputs.take ks.length) ∧
      ∃ xs, InputKind.convertAll ks inputs = .ok xs ∧
        HostBody.apply ks body inputs view = HostBody.enter ks body xs view) ∨
    (¬ List.Forall₂ InputKind.Converts ks (inputs.take ks.length) ∧
      ∃ f, ∀ body' : HostBody σ ks, HostBody.apply ks body' inputs view = ⟨view.memory, [], .error f⟩) := by
  cases hc : InputKind.convertAll ks inputs with
  | ok xs =>
    refine .inl ⟨InputKind.convertAll_ok_iff.1 ⟨xs, hc⟩, xs, rfl, ?_⟩
    rw [HostBody.apply_eq, hc]
  | error f =>
    refine .inr ⟨fun hall => ?_, f, fun body' => ?_⟩
    · obtain ⟨xs, hxs⟩ := InputKind.convertAll_ok_iff.2 hall
      rw [hc] at hxs
      cases hxs
    · rw [HostBody.apply_eq, hc]

/-! ### Calls -/

section Calls

variable {m : Machine σ} (tokens : List Value) (pending : List Pending)

theorem callProcedure_of_error {p : Primitive} {inputs : List Value} {f : Fault}
    (h : (p.perform (p.given inputs) m).1 = .error f) :
    callProcedure m (.primitive p) inputs tokens pending = ⟨m, .raise f, tokens, pending⟩ := by
  have hm := Primitive.perform_of_error h
  rw [callProcedure_primitive, Primitive.entered]
  generalize p.perform (p.given inputs) m = done at h hm ⊢
  obtain ⟨r, m'⟩ := done
  simp only at h hm
  subst h hm
  rfl

theorem callHost_of_not_converts {id : Nat} (name : String) {inputs : List Value}
    {kinds : List InputKind} {body : HostBody σ kinds}
    (hf : m.engine.hosts[id]? = some (.sync kinds body))
    (h : ¬ List.Forall₂ InputKind.Converts kinds (inputs.take kinds.length)) :
    ∃ f, callHost m id name inputs tokens pending = ⟨m, .raise f, tokens, pending⟩ := by
  obtain ⟨hall, -⟩ | ⟨-, f, hwork⟩ := HostBody.apply_cases kinds body inputs m.engine.hostView
  · exact absurd hall h
  · refine ⟨f, ?_⟩
    simp only [callHost, hf, hwork body]
    rfl

end Calls

/-- **A failure leaves no trace.** A primitive that fails leaves the machine as it was, and the run
goes on from there with the fault. `local` and `global` declare all names of a list or, if one
of its members is no name, none, and report such a member. A synchronous host function is entered
with all of its inputs converted; if one does not convert, then whatever its code it leaves the
memory, sends no signal and fails, and the run goes on from where it was with a fault. -/
theorem failure_leaves_no_trace (σ : Type) :
    (∀ (p : Primitive) (inputs : List Value) (m : Machine σ) (f : Fault),
      (p.perform inputs m).1 = .error f → (p.perform inputs m).2 = m) ∧
    (∀ p : Primitive, p = .localName ∨ p = .globalName → ∀ (items : List Value) (m : Machine σ),
      ((∀ v ∈ items, v.canName = true) ∧ (p.perform [.list items] m).1 = .ok (.reply none)) ∨
      ∃ v ∈ items, v.canName = false ∧
        p.perform [.list items] m = (.error (.unsuitable p.name v), m)) ∧
    (∀ (kinds : List InputKind) (body : HostBody σ kinds) (inputs : List Value) (view : HostView σ),
      (List.Forall₂ InputKind.Converts kinds (inputs.take kinds.length) ∧
        ∃ xs, InputKind.convertAll kinds inputs = .ok xs ∧
          HostBody.apply kinds body inputs view = HostBody.enter kinds body xs view) ∨
      (¬ List.Forall₂ InputKind.Converts kinds (inputs.take kinds.length) ∧
        ∃ f, ∀ body' : HostBody σ kinds,
          HostBody.apply kinds body' inputs view = ⟨view.memory, [], .error f⟩)) ∧
    ∀ c : Config σ, c.machine.engine.state = .running →
      (∀ p inputs f, c.focus = .checkpoint (.call (.primitive p) inputs) →
        (p.perform (p.given inputs) c.machine).1 = .error f →
        step c = .go { c with focus := .raise f }) ∧
      ∀ id name arity inputs kinds body, c.focus = .checkpoint (.call (.host id name arity) inputs) →
        c.machine.engine.hosts[id]? = some (.sync kinds body) →
        ¬ List.Forall₂ InputKind.Converts kinds ((inputs.take arity).take kinds.length) →
        ∃ f, step c = .go { c with focus := .raise f } := by
  refine ⟨fun p inputs m f => Primitive.perform_of_error, fun p hp => Primitive.perform_names hp,
    HostBody.apply_cases, ?_⟩
  rintro ⟨m, focus, tokens, pending⟩ hrunning
  simp only at hrunning
  constructor
  · rintro p inputs f rfl hf
    simp only [step, hrunning, act, callProcedure_of_error tokens pending hf]
  · rintro id name arity inputs kinds body rfl hhost hno
    obtain ⟨f, hf⟩ := callHost_of_not_converts tokens pending name hhost hno
    refine ⟨f, ?_⟩
    simp only [step, hrunning, act, callProcedure, hf]

namespace Trial

/-- A machine on which nothing has been done. -/
def fresh : Machine Unit := ⟨Engine.new () .silent 1 false, {}⟩

end Trial

/-- `local [a [] b]` declares nothing, and a function that wants a number is not entered with a
list. -/
theorem failure_leaves_no_trace_trial :
    Primitive.localName.perform [.list [.text "a", .list [], .text "b"]] Trial.fresh
      = (.error (.unsuitable "local" (.list [])), Trial.fresh) ∧
    ∃ f, ∀ body : HostBody Unit [.number],
      HostBody.apply [.number] body [.list []] ⟨(), .running⟩ = ⟨(), [], .error f⟩ := by
  obtain ⟨-, hnames, hhosts, -⟩ := failure_leaves_no_trace Unit
  constructor
  · obtain ⟨hall, -⟩ | ⟨v, hv, hno, hfails⟩ :=
      hnames .localName (.inl rfl) [.text "a", .list [], .text "b"] Trial.fresh
    · exact absurd (hall (.list []) (by simp)) (by decide)
    · have hname : ∀ s, s = "a" ∨ s = "b" → (Value.text s).canName = true := by
        rintro s (rfl | rfl) <;> decide +kernel
      simp only [List.mem_cons, List.not_mem_nil, or_false] at hv
      obtain rfl | rfl | rfl := hv
      · exact absurd (hno.symm.trans (hname "a" (.inl rfl))) Bool.false_ne_true
      · exact hfails
      · exact absurd (hno.symm.trans (hname "b" (.inr rfl))) Bool.false_ne_true
  · let body : HostBody Unit [.number] := fun _ _ => ⟨(), [], .ok none⟩
    obtain ⟨hall, -⟩ | ⟨-, hsame⟩ := hhosts [.number] body [.list []] ⟨(), .running⟩
    · cases hall with
      | cons hfirst _ => cases hfirst
    · exact hsame

end Logo
