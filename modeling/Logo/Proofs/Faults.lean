import Logo.Primitive.Perform

/-!
# What primitives and operators fail with

An operator fails only because of the kind of its operands, and a primitive only
because of the program: its inputs, their number, or a name without a value.
No primitive reports that the run was stopped, so a fault that says so comes
from a checkpoint or from the host.
-/

namespace Logo
set_option autoImplicit false

/-- Every fault that `r` can be has a kind that `P` allows. -/
def FailsWith {α : Type} (P : FaultKind → Prop) (r : Except Fault α) : Prop :=
  ∀ f, r = .error f → P f.kind

/-- The kinds of fault that a program brings about by itself. -/
def FaultKind.OfProgram (k : FaultKind) : Prop := k = .structural ∨ k = .unbound ∨ k = .type

namespace FailsWith

variable {α β : Type} {P : FaultKind → Prop}

theorem ok (a : α) : FailsWith P (.ok a) := fun _ h => by cases h

theorem error {f : Fault} (h : P f.kind) : FailsWith P (.error f : Except Fault α) := by
  rintro f' he
  cases he
  exact h

theorem bind {r : Except Fault α} {k : α → Except Fault β} (h : FailsWith P r)
    (hk : ∀ a, FailsWith P (k a)) : FailsWith P (r >>= k) := by
  cases r with
  | ok a => exact hk a
  | error f => exact error (h f rfl)

theorem mapM {f : α → Except Fault β} (h : ∀ a, FailsWith P (f a)) (l : List α) :
    FailsWith P (l.mapM f) := by
  induction l with
  | nil => exact ok []
  | cons a l ih =>
    rw [List.mapM_cons]
    exact (h a).bind fun b => ih.bind fun bs => ok _

theorem foldlM {f : β → α → Except Fault β} (h : ∀ b a, FailsWith P (f b a)) (l : List α) (b : β) :
    FailsWith P (l.foldlM f b) := by
  induction l generalizing b with
  | nil => exact ok b
  | cons a l ih =>
    rw [List.foldlM_cons]
    exact (h b a).bind fun b' => ih b'

end FailsWith

/-! ### Inputs -/

section Inputs

variable {P : FaultKind → Prop} (ht : P .type)
include ht

namespace Taker

variable (t : Taker) (v : Value)

theorem refuse_failsWith {α : Type} : FailsWith P (t.refuse v : Except Fault α) := .error ht

theorem accept_failsWith {α : Type} (a : Option α) : FailsWith P (t.accept v a) := by
  cases a with
  | none => exact t.refuse_failsWith ht v
  | some a => exact .ok a

theorem word_failsWith : FailsWith P (t.word v) := by
  unfold word
  split
  · exact .ok _
  · exact t.refuse_failsWith ht v

theorem name_failsWith : FailsWith P (t.name v) := by
  unfold name
  split
  · split
    · exact t.refuse_failsWith ht _
    · exact .ok _
  · exact t.refuse_failsWith ht v

theorem names_failsWith : FailsWith P (t.names v) := by
  unfold names
  split
  · exact .mapM (t.name_failsWith ht) _
  · exact (t.name_failsWith ht v).bind fun _ => .ok _

end Taker

theorem numbers_failsWith (procedure : String) (a b : Value) :
    FailsWith P (numbers procedure a b) :=
  (Taker.accept_failsWith ht _ a _).bind fun _ => (Taker.accept_failsWith ht _ b _).bind fun _ => .ok _

theorem negate_failsWith (procedure : String) (v : Value) : FailsWith P (negate procedure v) :=
  (Taker.accept_failsWith ht _ v _).bind fun _ => .ok _

theorem quotientOf_failsWith (procedure : String) (x y : Float) :
    FailsWith P (quotientOf procedure x y) := by
  unfold quotientOf
  split
  · exact .error ht
  · exact .ok _

theorem remainderOf_failsWith (procedure : String) (x y : Float) :
    FailsWith P (remainderOf procedure x y) := by
  unfold remainderOf
  split
  · exact .error ht
  · exact .ok _

theorem Operator.apply_failsWith (op : Operator) (a b : Value) : FailsWith P (op.apply a b) := by
  cases op
  case equal => exact .ok _
  case divide =>
    exact (numbers_failsWith ht _ a b).bind fun x =>
      (quotientOf_failsWith ht _ x.1 x.2).bind fun _ => .ok _
  all_goals exact (numbers_failsWith ht _ a b).bind fun _ => .ok _

end Inputs

/-! ### Primitives -/

namespace Primitive

/-- Are these as many inputs as the primitive takes? -/
def Fed (p : Primitive) (inputs : List Value) : Prop :=
  match p.variadic with
  | true => p.arity ≤ inputs.length
  | false => inputs.length = p.arity

/-- Does the output depend on nothing but the inputs? -/
def computes : Primitive → Bool
  | first | butFirst | last | butLast | fput | lput | list | sentence | word
  | count | item | isEmpty | isEqual | isList | isWord | isNumber
  | sum | difference | product | quotient | remainder | minus | not | and | or => true
  | _ => false

/-- Is it carried out without a change by itself? -/
def plans : Primitive → Bool
  | ifTrue | ifElse | repeatTimes | forever | run | wait | repcount | thing
  | apply | invoke | foreach | map => true
  | p => p.computes

variable {P : FaultKind → Prop} (ht : P .type) (p : Primitive) (inputs : List Value)

/-! A primitive fails for want of inputs only where it has not as many as it takes. -/

section Counted

variable {α : Type}

theorem one_failsWith {k : Value → Except Fault α} (hs : inputs.length ≠ 1 → P .structural)
    (h : ∀ a, FailsWith P (k a)) : FailsWith P (p.one inputs k) := by
  unfold one
  split
  · exact h _
  · rename_i hno
    refine .error (hs fun hlength => ?_)
    match inputs, hlength with
    | [a], _ => exact hno a rfl

theorem two_failsWith {k : Value → Value → Except Fault α} (hs : inputs.length ≠ 2 → P .structural)
    (h : ∀ a b, FailsWith P (k a b)) : FailsWith P (p.two inputs k) := by
  unfold two
  split
  · exact h _ _
  · rename_i hno
    refine .error (hs fun hlength => ?_)
    match inputs, hlength with
    | [a, b], _ => exact hno a b rfl

theorem three_failsWith {k : Value → Value → Value → Except Fault α}
    (hs : inputs.length ≠ 3 → P .structural) (h : ∀ a b c, FailsWith P (k a b c)) :
    FailsWith P (p.three inputs k) := by
  unfold three
  split
  · exact h _ _ _
  · rename_i hno
    refine .error (hs fun hlength => ?_)
    match inputs, hlength with
    | [a, b, c], _ => exact hno a b c rfl

theorem ask_failsWith (hs : inputs.length ≠ 1 → P .structural) (answer : Value → Bool) :
    FailsWith P (p.ask inputs answer) :=
  one_failsWith p inputs hs fun _ => .ok _

end Counted

section Computing

include ht

theorem data_failsWith (v : Value) : FailsWith P (p.data v) :=
  Taker.accept_failsWith ht _ v _

theorem select_failsWith (hs : inputs.length ≠ 1 → P .structural) (part? : Data → Option Value) :
    FailsWith P (p.select inputs part?) := by
  apply one_failsWith p inputs hs
  intro v
  exact (p.data_failsWith ht v).bind fun _ => Taker.accept_failsWith ht _ v _

theorem insert_failsWith (hs : inputs.length ≠ 2 → P .structural)
    (add : Value → List Value → List Value) : FailsWith P (p.insert inputs add) := by
  apply two_failsWith p inputs hs
  intro v l
  exact (Taker.accept_failsWith ht _ l _).bind fun _ => .ok _

theorem pick_failsWith (index v : Value) : FailsWith P (p.pick index v) := by
  refine (Taker.accept_failsWith ht _ index _).bind fun n => ?_
  split
  · exact Taker.refuse_failsWith ht _ index
  · exact (p.data_failsWith ht v).bind fun _ => Taker.accept_failsWith ht _ index _

theorem foldNumbers_failsWith (start : Float) (f : Float → Float → Float) :
    FailsWith P (p.foldNumbers inputs start f) :=
  (FailsWith.foldlM (fun _ v => (Taker.accept_failsWith ht _ v _).bind fun _ => .ok _) _ _).bind
    fun _ => .ok _

theorem foldTruths_failsWith (start : Bool) (f : Bool → Bool → Bool) :
    FailsWith P (p.foldTruths inputs start f) :=
  (FailsWith.foldlM (fun _ v => (Taker.accept_failsWith ht _ v _).bind fun _ => .ok _) _ _).bind
    fun _ => .ok _

theorem compute_failsWith (hs : ¬ (p.computes = true ∧ p.Fed inputs) → P .structural) :
    FailsWith P (p.compute inputs) := by
  have hlack : p.computes = true → ¬ p.Fed inputs → P .structural := fun _ hno => hs fun h => hno h.2
  cases p
  case list | sentence => exact .ok _
  case first | butFirst | last | butLast | count => exact select_failsWith ht _ _ (hlack rfl) _
  case fput | lput => exact insert_failsWith ht _ _ (hlack rfl) _
  case isEmpty | isList | isWord | isNumber => exact ask_failsWith _ _ (hlack rfl) _
  case sum | product => exact foldNumbers_failsWith ht _ _ _ _
  case and | or => exact foldTruths_failsWith ht _ _ _ _
  case word => exact (FailsWith.mapM (Taker.word_failsWith ht _) _).bind fun _ => .ok _
  case item => exact two_failsWith _ _ (hlack rfl) (pick_failsWith ht _)
  case isEqual => exact two_failsWith _ _ (hlack rfl) fun _ _ => .ok _
  case difference =>
    exact two_failsWith _ _ (hlack rfl) fun a b => (numbers_failsWith ht _ a b).bind fun _ => .ok _
  case quotient =>
    exact two_failsWith _ _ (hlack rfl) fun a b => (numbers_failsWith ht _ a b).bind fun x =>
      (quotientOf_failsWith ht _ x.1 x.2).bind fun _ => .ok _
  case remainder =>
    exact two_failsWith _ _ (hlack rfl) fun a b => (numbers_failsWith ht _ a b).bind fun x =>
      (remainderOf_failsWith ht _ x.1 x.2).bind fun _ => .ok _
  case minus => exact one_failsWith _ _ (hlack rfl) fun v => negate_failsWith ht _ v
  case not =>
    exact one_failsWith _ _ (hlack rfl) fun v => (Taker.accept_failsWith ht _ v _).bind fun _ => .ok _
  all_goals exact .error (hs fun h => Bool.false_ne_true h.1)

theorem instructions_failsWith (v : Value) : FailsWith P (p.instructions v) := by
  unfold instructions
  split
  · exact .ok _
  · split
    · exact .ok _
    · exact Taker.refuse_failsWith ht _ _

theorem definition_failsWith (hs : ¬ 2 ≤ inputs.length → P .structural) :
    FailsWith P (p.definition inputs) := by
  have hlength := inputs.length_dropLast
  unfold definition
  split
  · exact (Taker.accept_failsWith ht _ _ _).bind fun _ => (Taker.name_failsWith ht _ _).bind fun _ =>
      (FailsWith.mapM (Taker.name_failsWith ht _) _).bind fun _ => .ok _
  · rename_i hdrop
    rw [hdrop, List.length_nil] at hlength
    exact (Taker.accept_failsWith ht _ _ _).bind fun _ => .error (hs (by omega))
  · rename_i hlast
    rw [List.getLast?_eq_none_iff] at hlast
    exact .error (hs (by simp [hlast]))

end Computing

variable {σ : Type} (m : Machine σ)

include ht in
theorem plan_failsWith (hu : P .unbound) (hs : ¬ (p.plans = true ∧ p.Fed inputs) → P .structural) :
    FailsWith P (p.plan inputs m) := by
  have hlack : p.plans = true → ¬ p.Fed inputs → P .structural := fun _ hno => hs fun h => hno h.2
  cases p
  case ifTrue =>
    refine two_failsWith _ _ (hlack rfl) fun cond block =>
      (Taker.accept_failsWith ht _ block _).bind fun _ =>
      (Taker.accept_failsWith ht _ cond _).bind fun b => ?_
    cases b <;> exact .ok _
  case ifElse =>
    exact three_failsWith _ _ (hlack rfl) fun cond yes no => (Taker.accept_failsWith ht _ cond _).bind
      fun _ => (Taker.accept_failsWith ht _ _ _).bind fun _ => .ok _
  case repeatTimes =>
    exact two_failsWith _ _ (hlack rfl) fun count block => (Taker.accept_failsWith ht _ count _).bind
      fun _ => (Taker.accept_failsWith ht _ block _).bind fun _ => .ok _
  case forever =>
    exact one_failsWith _ _ (hlack rfl) fun block =>
      (Taker.accept_failsWith ht _ block _).bind fun _ => .ok _
  case run =>
    exact one_failsWith _ _ (hlack rfl) fun v => (instructions_failsWith ht _ v).bind fun _ => .ok _
  case wait =>
    refine one_failsWith _ _ (hlack rfl) fun v => (Taker.accept_failsWith ht _ v _).bind fun _ => ?_
    split
    · exact .ok _
    · exact Taker.refuse_failsWith ht _ v
  case repcount => exact .ok _
  case thing =>
    refine one_failsWith _ _ (hlack rfl) fun v => (Taker.name_failsWith ht _ v).bind fun name => ?_
    split
    · exact .ok _
    · exact .error hu
  case apply =>
    exact two_failsWith _ _ (hlack rfl) fun _ values =>
      (Taker.accept_failsWith ht _ values _).bind fun _ => .ok _
  case invoke =>
    simp only [plan]
    split
    · exact .ok _
    · exact .error (hlack rfl (by simp [Fed, variadic, arity]))
  case foreach =>
    exact two_failsWith _ _ (hlack rfl) fun items _ =>
      (Taker.accept_failsWith ht _ items _).bind fun _ => .ok _
  case map =>
    exact two_failsWith _ _ (hlack rfl) fun _ items =>
      (Taker.accept_failsWith ht _ items _).bind fun _ => .ok _
  all_goals
    refine (compute_failsWith ht _ inputs ?_).bind fun _ => .ok _
    exact hs

theorem taking_failsWith {α : Type} {r : Except Fault α} (h : FailsWith P r)
    (k : α → Machine σ → Machine σ) : FailsWith P (taking r m k).1 := by
  cases r with
  | ok a => exact .ok _
  | error f => exact .error (h f rfl)

theorem finish_failsWith (how : Activation → Activation) :
    FailsWith FaultKind.OfProgram (p.finish m how).1 := by
  unfold finish
  split
  · exact .ok _
  · exact .error (.inl rfl)

theorem perform_failsWith : FailsWith FaultKind.OfProgram (p.perform inputs m).1 := by
  have hs : ∀ {Q : Prop}, Q → FaultKind.OfProgram .structural := fun _ => .inl rfl
  have ht : FaultKind.OfProgram .type := .inr (.inr rfl)
  cases p
  case output =>
    simp only [perform]
    split
    · exact finish_failsWith _ m _
    · exact .error (.inl rfl)
  case stop => exact finish_failsWith _ m _
  case define => exact taking_failsWith m (definition_failsWith ht _ inputs hs) _
  case make =>
    exact taking_failsWith m (two_failsWith _ _ hs fun name _ =>
      (Taker.name_failsWith ht _ name).bind fun _ => .ok _) _
  case localName | globalName =>
    exact taking_failsWith m (one_failsWith _ _ hs (Taker.names_failsWith ht _)) _
  case print | display | type => exact .ok _
  all_goals
    simp only [perform]
    exact plan_failsWith ht _ inputs m (.inr (.inl rfl)) hs

end Primitive

end Logo
