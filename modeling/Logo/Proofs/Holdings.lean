import Logo.Proofs.Turns

/-!
# What a run holds

A run comes by its values in few ways. It reads them in a source, takes lists apart and puts
lists together, computes words, defines procedures, and is handed values by the host. A property
of values that goes with all of these is `Hereditary`. Here it is followed to every place where a
run holds values, together with the count of the inputs that a call has gathered, and through
all that primitives and operators compute (`Primitive.perform_leaves`).
-/

namespace Logo
set_option autoImplicit false

variable {σ : Type}

/-- A property that words and primitives have, and that lists and defined procedures have
exactly if their members have it. -/
structure Hereditary (V : Value → Prop) : Prop where
  word : ∀ {v : Value}, v.isWord = true → V v
  list : ∀ {items : List Value}, V (.list items) ↔ ∀ v ∈ items, V v
  primitive : ∀ p, V (.procedure (.primitive p))
  defined : ∀ {id : Nat} {name : String} {params : List String} {body : List Value},
    V (.procedure (.defined id name params body)) ↔ ∀ v ∈ body, V v

/-! ### The parts of a run -/

section Parts

variable (V : Value → Prop)

def Scopes.Holds (s : Scopes) : Prop := ∀ v, some v ∈ s.cells → V v

/-- Every value in a cell and every result of an activation has the property. -/
structure Machine.Holds (m : Machine σ) : Prop where
  scopes : m.engine.scopes.Holds V
  results : ∀ a ∈ m.live.activations, a.result.elim True V

def Loop.Holds : Loop → Prop
  | .times block _ _ | .endless block => ∀ v ∈ block, V v
  | .each template items => V template ∧ ∀ v ∈ items, V v
  | .collect template items outputs => V template ∧ (∀ v ∈ items, V v) ∧ ∀ v ∈ outputs, V v

def Effect.Holds : Effect → Prop
  | .reply v => v.elim True V
  | .block items => ∀ v ∈ items, V v
  | .loop l => l.Holds V
  | .template _ what inputs => V what ∧ ∀ v ∈ inputs, V v
  | .sleep _ => True

/-- The inputs so far and those that are missing are together as many as the procedure wants, or
more have been given. -/
structure Gathering.Holds (g : Gathering) : Prop where
  procedure : V (.procedure g.procedure)
  inputs : ∀ v ∈ g.inputs, V v
  missing : g.missing = g.procedure.arity - g.inputs.length

/-- A call has at least the inputs that its procedure wants. -/
def Act.Holds : Act → Prop
  | .literal v => V v
  | .read _ => True
  | .call p inputs => V (.procedure p) ∧ (∀ v ∈ inputs, V v) ∧ p.arity ≤ inputs.length
  | .pass l => l.Holds V

/-- A host function is asked with as many inputs as its procedure wants. -/
def Focus.Holds : Focus → Prop
  | .chain c => ∀ v ∈ c.operands, V v
  | .gather g => g.Holds V
  | .turn l => l.Holds V
  | .checkpoint a => a.Holds V
  | .ask id inputs _ => ∃ name, V (.procedure (.host id name inputs.length))
  | .reply v => v.elim True V
  | .expression | .operand | .sleep _ | .raise _ => True

def Pending.Holds : Pending → Prop
  | .sequence saved => ∀ v ∈ saved, V v
  | .rightOperand c _ _ => ∀ v ∈ c.operands, V v
  | .input g _ => g.Holds V
  | .loop l => l.Holds V
  | .firstOperand | .negation | .group | .activation | .template | .counter => True

structure Config.Holds (c : Config σ) : Prop where
  machine : c.machine.Holds V
  focus : c.focus.Holds V
  tokens : ∀ v ∈ c.tokens, V v
  pending : ∀ p ∈ c.pending, p.Holds V

end Parts

/-! ### Scopes and machines -/

section Scopes

variable {V : Value → Prop} {s : Scopes}

namespace Scopes.Holds

theorem read (h : s.Holds V) {c : CellId} {v : Value} (hr : s.read c = some v) : V v := by
  refine h v ?_
  unfold Scopes.read at hr
  exact Array.mem_of_getElem? (Option.join_eq_some_iff.1 hr)

theorem lookup? (h : s.Holds V) {f : FrameId} {name : String} {v : Value}
    (hv : s.lookup? f name = some v) : V v := by
  obtain ⟨c, -, hr⟩ := Option.bind_eq_some_iff.1 hv
  exact h.read hr

theorem declare (h : s.Holds V) (f : FrameId) (name : String) {v : Option Value}
    (hv : v.elim True V) : (s.declare f name v).2.Holds V := by
  intro w hw
  obtain hw | hw := Array.mem_push.1 hw
  · exact h w hw
  · rw [← hw] at hv
    exact hv

theorem bind (h : s.Holds V) (f : FrameId) (name : String) {v : Value} (hv : V v) :
    (s.bind f name v).Holds V :=
  h.declare f name (v := some v) hv

theorem write (h : s.Holds V) (c : CellId) {v : Value} (hv : V v) : (s.write c v).Holds V := by
  intro w hw
  obtain hw | hw := Array.mem_or_eq_of_mem_setIfInBounds hw
  · exact h w hw
  · cases hw
    exact hv

theorem bindAll (h : s.Holds V) (f : FrameId) {bindings : List (String × Value)}
    (hb : ∀ b ∈ bindings, V b.2) : (bindings.foldl (fun s b => s.bind f b.1 b.2) s).Holds V := by
  induction bindings generalizing s with
  | nil => exact h
  | cons b bindings ih =>
    obtain ⟨hfirst, hrest⟩ := List.forall_mem_cons.1 hb
    exact ih (h.bind f b.1 hfirst) hrest

theorem foldl {α : Type} {k : Scopes → α → Scopes} (hk : ∀ s a, s.Holds V → (k s a).Holds V)
    (h : s.Holds V) (as : List α) : (as.foldl k s).Holds V := by
  induction as generalizing s with
  | nil => exact h
  | cons a as ih => exact ih (hk s a h)

theorem declareLocal (h : s.Holds V) (f : FrameId) (name : String) :
    (Primitive.declareLocal f s name).Holds V := by
  unfold Primitive.declareLocal
  split
  · exact h
  · exact h.declare f name trivial

theorem tieGlobal (h : s.Holds V) (f : FrameId) (name : String) :
    (Primitive.tieGlobal f s name).Holds V := by
  have hdeclare : (s.declare globalFrame name none).2.Holds V :=
    h.declare globalFrame name trivial
  unfold Primitive.tieGlobal
  split
  · split
    · exact h
    · exact h
  · simp only
    split
    · exact hdeclare
    · exact hdeclare

end Scopes.Holds

namespace Machine.Holds

variable {m : Machine σ}

theorem procedure (h : m.Holds V) {name : String} {p : Procedure} (hp : m.procedure name = .ok p) :
    V (.procedure p) := by
  unfold Machine.procedure at hp
  split at hp
  · rename_i hv
    cases hp
    exact h.scopes.lookup? hv
  · cases hp
  · cases hp

/-- The same cells and results. -/
theorem of_same {m' : Machine σ} (h : m.Holds V) (hs : m'.engine.scopes = m.engine.scopes)
    (ha : m'.live.activations = m.live.activations) : m'.Holds V :=
  ⟨hs ▸ h.scopes, ha ▸ h.results⟩

theorem mapScopes (h : m.Holds V) {f : Scopes → Scopes} (hf : (f m.engine.scopes).Holds V) :
    (m.mapScopes f).Holds V :=
  ⟨hf, h.results⟩

theorem openFrame (h : m.Holds V) {bindings : List (String × Value)} (hb : ∀ b ∈ bindings, V b.2) :
    (m.openFrame bindings).Holds V :=
  ⟨Scopes.Holds.bindAll (s := (m.engine.scopes.child m.currentFrame).2) h.scopes _ hb, h.results⟩

theorem openActivation (h : m.Holds V) : m.openActivation.Holds V :=
  ⟨h.scopes, List.forall_mem_cons.2 ⟨trivial, h.results⟩⟩

theorem closeActivation (h : m.Holds V) : m.closeActivation.Holds V :=
  ⟨h.scopes, fun a ha => h.results a (List.mem_of_mem_tail ha)⟩

theorem setCounter (h : m.Holds V) (n : Nat) : (m.setCounter n).Holds V := by
  unfold Machine.setCounter
  split
  · exact h.of_same rfl rfl
  · exact h

theorem assign (h : m.Holds V) (name : String) {v : Value} (hv : V v) :
    (Primitive.assign m name v).Holds V := by
  unfold Primitive.assign
  refine h.mapScopes ?_
  split
  · exact h.scopes.write _ hv
  · exact h.scopes.bind _ _ hv

theorem output? (h : m.Holds V) : m.output?.elim True V := by
  unfold Machine.output?
  split
  · rename_i a rest ha
    exact h.results a (ha ▸ List.mem_cons_self)
  · trivial

theorem abandon (h : m.Holds V) (p : Pending) : (abandon m p).Holds V := by
  unfold Logo.abandon
  split
  · exact closeActivation (h.of_same rfl rfl)
  · exact h.of_same rfl rfl
  · exact h.of_same rfl rfl
  · exact h

end Machine.Holds

end Scopes

/-! ### Values that are computed -/

section Computing

variable {V : Value → Prop} (hV : Hereditary V)
include hV

namespace Data

theorem of?_holds {v : Value} {d : Data} (hv : V v) (hd : of? v = some d) : ∀ w ∈ d.pieces, V w := by
  unfold of? at hd
  split at hd
  · cases hd
    exact hV.list.1 hv
  · split at hd <;> cases hd
    intro w hw
    obtain ⟨c, -, rfl⟩ := List.mem_map.1 hw
    exact hV.word rfl

theorem butFirst?_holds {d : Data} {v : Value} (hd : ∀ w ∈ d.pieces, V w)
    (hv : d.butFirst? = some v) : V v := by
  unfold butFirst? at hv
  split at hv <;> cases hv
  · exact hV.list.2 fun w hw => hd w (List.mem_cons_of_mem _ hw)
  · exact hV.word rfl

theorem butLast?_holds {d : Data} {v : Value} (hd : ∀ w ∈ d.pieces, V w)
    (hv : d.butLast? = some v) : V v := by
  unfold butLast? at hv
  split at hv <;> cases hv
  · exact hV.list.2 fun w hw => hd w ((List.dropLast_sublist _).subset hw)
  · exact hV.word rfl

end Data

theorem Operator.apply_holds (op : Operator) (a b : Value) : Gives V (op.apply a b) := by
  cases op
  case equal => exact .ok (hV.word rfl)
  case divide => exact .bind fun _ _ => .bind fun _ _ => .ok (hV.word rfl)
  all_goals exact .bind fun _ _ => .ok (hV.word rfl)

theorem Chain.settle_holds {strength : Nat} {operands : List Value} {operators : List Operator}
    (ho : ∀ v ∈ operands, V v) :
    Gives (fun c => ∀ v ∈ c.operands, V v) (Chain.settle strength operands operators) := by
  induction operators generalizing operands with
  | nil => exact .ok ho
  | cons op operators ih =>
    unfold Chain.settle
    split
    · split
      · rename_i b a rest
        have hrest : ∀ v ∈ rest, V v := fun v hv =>
          ho v (List.mem_cons_of_mem _ (List.mem_cons_of_mem _ hv))
        split
        · rename_i v hv
          exact ih (List.forall_mem_cons.2 ⟨Operator.apply_holds hV op a b v hv, hrest⟩)
        · exact .error
      · exact .error
    · exact .ok ho

namespace Primitive

variable (p : Primitive) {inputs : List Value}

/-- The parts of an input are values that the input holds. -/
theorem data_holds {v : Value} (hv : V v) : Gives (fun d => ∀ w ∈ d.pieces, V w) (p.data v) :=
  .accept fun _ hd => Data.of?_holds hV hv hd

theorem select_holds {part? : Data → Option Value}
    (hpart : ∀ d v, (∀ w ∈ d.pieces, V w) → part? d = some v → V v) (hi : ∀ v ∈ inputs, V v) :
    Gives V (p.select inputs part?) := by
  refine .one fun v hone => .bind fun d hd => .accept fun w hw => hpart d w ?_ hw
  exact p.data_holds hV (hi v (by simp [hone])) d hd

theorem insert_holds {add : Value → List Value → List Value}
    (hadd : ∀ v l, V v → (∀ w ∈ l, V w) → ∀ w ∈ add v l, V w) (hi : ∀ v ∈ inputs, V v) :
    Gives V (p.insert inputs add) := by
  refine .two fun v l htwo => .bind fun items hl => .ok (hV.list.2 (hadd v items ?_ ?_))
  · exact hi v (by simp [htwo])
  · have hlist := hi l (by simp [htwo])
    rw [Taker.list_ok hl] at hlist
    exact hV.list.1 hlist

theorem pick_holds {index v : Value} (hv : V v) : Gives V (p.pick index v) := by
  refine .bind fun n _ => ?_
  split
  · exact .error
  · exact .bind fun d hd => .accept fun w hw => p.data_holds hV hv d hd w (List.mem_of_getElem? hw)

theorem compute_holds (hi : ∀ v ∈ inputs, V v) : Gives V (p.compute inputs) := by
  have hword : ∀ {v : Value}, v.isWord = true → V v := hV.word
  cases p
  case first => exact select_holds hV _ (fun _ _ hd hv => hd _ (List.mem_of_mem_head? hv)) hi
  case last => exact select_holds hV _ (fun _ _ hd hv => hd _ (List.mem_of_getLast? hv)) hi
  case butFirst => exact select_holds hV _ (fun _ _ => Data.butFirst?_holds hV) hi
  case butLast => exact select_holds hV _ (fun _ _ => Data.butLast?_holds hV) hi
  case count =>
    refine select_holds hV _ (fun _ _ _ hv => ?_) hi
    cases hv
    exact hword rfl
  case fput => exact insert_holds hV _ (fun v l hv hl => List.forall_mem_cons.2 ⟨hv, hl⟩) hi
  case lput =>
    refine insert_holds hV _ (fun v l hv hl w hw => ?_) hi
    obtain hw | hw := List.mem_append.1 hw
    · exact hl w hw
    · rwa [List.mem_singleton.1 hw]
  case list => exact .ok (hV.list.2 hi)
  case sentence =>
    refine .ok (hV.list.2 fun w hw => ?_)
    obtain ⟨v, hv, hw⟩ := List.mem_flatMap.1 hw
    cases v with
    | list items => exact hV.list.1 (hi _ hv) w hw
    | _ =>
      rw [List.mem_singleton.1 hw]
      exact hi _ hv
  case word => exact .bind fun _ _ => .ok (hword rfl)
  case item => exact .two fun index v htwo => pick_holds hV _ (hi v (by simp [htwo]))
  case isEqual => exact .two fun _ _ _ => .ok (hword rfl)
  case isEmpty | isList | isWord | isNumber => exact .one fun _ _ => .ok (hword rfl)
  case sum | product | and | or => exact .bind fun _ _ => .ok (hword rfl)
  case difference => exact .two fun _ _ _ => .bind fun _ _ => .ok (hword rfl)
  case quotient | remainder =>
    exact .two fun _ _ _ => .bind fun _ _ => .bind fun _ _ => .ok (hword rfl)
  case minus | not => exact .one fun _ _ => .bind fun _ _ => .ok (hword rfl)
  all_goals exact .error

theorem instructions_holds {v : Value} (hv : V v) :
    Gives (fun items => ∀ w ∈ items, V w) (p.instructions v) := by
  unfold instructions
  split
  · exact .ok (hV.list.1 hv)
  · split
    · refine .ok fun w hw => ?_
      rwa [List.mem_singleton.1 hw]
    · exact .error

/-- What an input is taken as that has to be a list. -/
theorem list_holds {v : Value} {items : List Value} (hv : V v) (h : p.taker.list v = .ok items) :
    ∀ w ∈ items, V w := by
  rw [Taker.list_ok h] at hv
  exact hV.list.1 hv

theorem definition_holds (hi : ∀ v ∈ inputs, V v) :
    Gives (fun d => ∀ v ∈ d.2.2, V v) (p.definition inputs) := by
  unfold definition
  split
  · rename_i body name params hbody _
    refine .bind fun items hitems => .bind fun _ _ => .bind fun _ _ => .ok ?_
    exact p.list_holds hV (hi body (List.mem_of_getLast? hbody)) hitems
  · exact .bind fun _ _ => .error
  · exact .error

variable {m : Machine σ}

theorem plan_holds (hm : m.Holds V) (hi : ∀ v ∈ inputs, V v) :
    Gives (Effect.Holds V) (p.plan inputs m) := by
  cases p
  case ifTrue =>
    refine .two fun cond block htwo => .bind fun items hitems => .bind fun holds _ => ?_
    cases holds
    · exact .ok trivial
    · exact .ok (list_holds hV _ (hi block (by simp [htwo])) hitems)
  case ifElse =>
    refine .three fun cond yes no hthree => .bind fun holds _ => .bind fun items hitems => .ok ?_
    refine list_holds hV _ ?_ hitems
    split
    · exact hi yes (by simp [hthree])
    · exact hi no (by simp [hthree])
  case repeatTimes =>
    refine .two fun count block htwo => .bind fun _ _ => .bind fun items hitems => .ok ?_
    exact list_holds hV _ (hi block (by simp [htwo])) hitems
  case forever =>
    refine .one fun block hone => .bind fun items hitems => .ok ?_
    exact list_holds hV _ (hi block (by simp [hone])) hitems
  case run =>
    refine .one fun v hone => .bind fun items hitems => .ok ?_
    exact instructions_holds hV _ (hi v (by simp [hone])) items hitems
  case wait =>
    refine .one fun _ _ => .bind fun _ _ => ?_
    split
    · exact .ok trivial
    · exact .error
  case repcount => exact .ok (hV.word rfl)
  case thing =>
    refine .one fun _ _ => .bind fun name _ => ?_
    split
    · rename_i v hv
      exact .ok (hm.scopes.lookup? hv)
    · exact .error
  case apply =>
    refine .two fun template values htwo => .bind fun items hitems => .ok ⟨?_, ?_⟩
    · exact hi template (by simp [htwo])
    · exact list_holds hV _ (hi values (by simp [htwo])) hitems
  case invoke =>
    simp only [plan]
    split
    · exact .ok (List.forall_mem_cons.1 hi)
    · exact .error
  case foreach =>
    refine .two fun items template htwo => .bind fun members hmembers => .ok ⟨?_, ?_⟩
    · exact hi template (by simp [htwo])
    · exact list_holds hV _ (hi items (by simp [htwo])) hmembers
  case map =>
    refine .two fun template items htwo => .bind fun members hmembers => .ok ⟨?_, ?_, ?_⟩
    · exact hi template (by simp [htwo])
    · exact list_holds hV _ (hi items (by simp [htwo])) hmembers
    · exact fun v hv => by cases hv
  all_goals
    exact .bind fun v hv => .ok (compute_holds hV _ hi v hv)

/-- What a primitive leaves: the machine, and what is to be done. -/
def Leaves (V : Value → Prop) (done : Except Fault Effect × Machine σ) : Prop :=
  done.2.Holds V ∧ Gives (Effect.Holds V) done.1

omit hV in
theorem finish_leaves (hm : m.Holds V) {how : Activation → Activation}
    (hhow : ∀ a, a.result.elim True V → (how a).result.elim True V) : Leaves V (p.finish m how) := by
  unfold finish
  split
  · rename_i a rest ha
    have hresults := hm.results
    rw [ha] at hresults
    obtain ⟨hfirst, hrest⟩ := List.forall_mem_cons.1 hresults
    exact ⟨⟨hm.scopes, List.forall_mem_cons.2 ⟨hhow a hfirst, hrest⟩⟩, .ok trivial⟩
  · exact ⟨hm, .error⟩

omit hV in
theorem taking_leaves {α : Type} {P : α → Prop} {r : Except Fault α} {k : α → Machine σ → Machine σ}
    (hm : m.Holds V) (hr : Gives P r) (hk : ∀ a, P a → (k a m).Holds V) : Leaves V (taking r m k) := by
  cases r with
  | ok a => exact ⟨hk a (hr a rfl), .ok trivial⟩
  | error f => exact ⟨hm, .error⟩

theorem perform_leaves (hm : m.Holds V) (hi : ∀ v ∈ inputs, V v) : Leaves V (p.perform inputs m) := by
  have hplan : ∀ p : Primitive, Leaves V (p.plan inputs m, m) := fun p => ⟨hm, p.plan_holds hV hm hi⟩
  cases p
  case output =>
    simp only [perform]
    split
    · exact finish_leaves _ hm fun a _ => hi _ List.mem_cons_self
    · exact ⟨hm, .error⟩
  case stop => exact finish_leaves _ hm fun a ha => ha
  case define =>
    refine taking_leaves hm (definition_holds hV _ hi) fun d hd => ⟨?_, hm.results⟩
    exact hm.scopes.bind _ _ (hV.defined.2 hd)
  case make =>
    have htaken : Gives (fun b : String × Value => V b.2) (make.two inputs fun name v => do
        return (← make.taker.name name, v)) :=
      .two fun name v htwo => .bind fun _ _ => .ok (hi v (by simp [htwo]))
    exact taking_leaves hm htaken fun b hb => hm.assign b.1 hb
  case localName =>
    refine taking_leaves hm (P := fun _ => True) (fun _ _ => trivial) fun names _ => hm.mapScopes ?_
    exact .foldl (fun s name hs => hs.declareLocal _ name) hm.scopes names
  case globalName =>
    refine taking_leaves hm (P := fun _ => True) (fun _ _ => trivial) fun names _ => hm.mapScopes ?_
    exact .foldl (fun s name hs => hs.tieGlobal _ name) hm.scopes names
  case print | display | type => exact ⟨hm.of_same rfl rfl, .ok trivial⟩
  all_goals exact hplan _

end Primitive

end Computing

end Logo
