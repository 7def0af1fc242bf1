import Logo.Value.Equality
import Mathlib

/-!
# Equality of values is structural

Numbers are equal when they are the same number, where the two zeros count as one and "not a
number" equals nothing. Equality of values inherits what holds of numbers: it is symmetric and
transitive, and a value equals itself unless it holds "not a number" at some depth. Lists are
equal exactly when they are equally long and equal at every place.
-/

namespace Logo
set_option autoImplicit false

/-! ### Numbers -/

section Numbers

open Float.Model Float.Model.UnpackedFloat

/-- Two numbers are equal if they are the same and not "not a number", or both zero. -/
theorem unpacked_beq_iff {a b : UnpackedFloat} :
    a.beq b = true ↔ a ≠ .notANumber ∧ (a = b ∨ ∃ s t, a = .zero s ∧ b = .zero t) := by
  cases a with
  | notANumber => simp [UnpackedFloat.beq, UnpackedFloat.compare]
  | infinity s =>
    cases b with
    | infinity t => cases s <;> cases t <;> simp [UnpackedFloat.beq, UnpackedFloat.compare, compare]
    | _ => cases s <;> simp [UnpackedFloat.beq, UnpackedFloat.compare]
  | zero s =>
    cases b with
    | infinity t => cases t <;> simp [UnpackedFloat.beq, UnpackedFloat.compare]
    | finite t m e hm => cases t <;> simp [UnpackedFloat.beq, UnpackedFloat.compare]
    | _ => simp [UnpackedFloat.beq, UnpackedFloat.compare]
  | finite s m e hm =>
    cases b with
    | infinity t => cases t <;> simp [UnpackedFloat.beq, UnpackedFloat.compare]
    | finite t m' e' hm' =>
      cases s <;> cases t <;>
        simp [UnpackedFloat.beq, UnpackedFloat.compare, Ordering.then_eq_eq, and_comm]
    | _ => cases s <;> simp [UnpackedFloat.beq, UnpackedFloat.compare]

theorem number_beq_iff {x y : Float} : (x == y) = true ↔
    x.isNaN = false ∧ (x.toModel.unpack = y.toModel.unpack ∨
      ∃ s t, x.toModel.unpack = .zero s ∧ y.toModel.unpack = .zero t) := by
  have hnan : x.isNaN = false ↔ x.toModel.unpack ≠ .notANumber := by
    show x.toModel.unpack.isNaN = false ↔ _
    cases x.toModel.unpack <;> simp [UnpackedFloat.isNaN]
  rw [hnan]
  exact unpacked_beq_iff

theorem isNaN_of_unpack_zero {x : Float} {s : Sign} (h : x.toModel.unpack = .zero s) :
    x.isNaN = false := by
  show x.toModel.unpack.isNaN = false
  rw [h]
  rfl

theorem number_beq_symm {x y : Float} (h : (x == y) = true) : (y == x) = true := by
  obtain ⟨hx, hsame | ⟨s, t, hs, ht⟩⟩ := number_beq_iff.1 h
  · have hy : y.isNaN = x.isNaN := by
      show y.toModel.unpack.isNaN = x.toModel.unpack.isNaN
      rw [hsame]
    exact number_beq_iff.2 ⟨hy.trans hx, .inl hsame.symm⟩
  · exact number_beq_iff.2 ⟨isNaN_of_unpack_zero ht, .inr ⟨t, s, ht, hs⟩⟩

theorem number_beq_trans {x y z : Float} (hxy : (x == y) = true) (hyz : (y == z) = true) :
    (x == z) = true := by
  obtain ⟨hx, hxy⟩ := number_beq_iff.1 hxy
  obtain ⟨-, hyz⟩ := number_beq_iff.1 hyz
  refine number_beq_iff.2 ⟨hx, ?_⟩
  obtain hxy | ⟨s, t, hs, ht⟩ := hxy
  · rwa [hxy]
  · obtain hyz | ⟨s', t', -, ht'⟩ := hyz
    · exact .inr ⟨s, t, hs, hyz ▸ ht⟩
    · exact .inr ⟨s, t', hs, ht'⟩

theorem number_beq_self (x : Float) : (x == x) = !x.isNaN := by
  rw [Bool.eq_iff_iff, number_beq_iff, Bool.not_eq_true']
  exact ⟨fun h => h.1, fun h => ⟨h, .inl rfl⟩⟩

end Numbers

/-! ### Procedures -/

theorem Procedure.same_comm (p q : Procedure) : p.same q = q.same p := by
  cases p <;> cases q <;> simp [Procedure.same, BEq.comm]

theorem Procedure.same_trans {p q r : Procedure} (hpq : p.same q = true) (hqr : q.same r = true) :
    p.same r = true := by
  cases p <;> cases q <;> cases r <;> simp_all [Procedure.same]

theorem Procedure.same_self (p : Procedure) : p.same p = true := by
  cases p <;> simp [Procedure.same]

/-! ### Values -/

namespace Value

/-- What holds of a list if it holds of its members, and of all that is no list, holds of every
value. -/
theorem induction_members {P : Value → Prop} (plain : ∀ v : Value, v.asList? = none → P v)
    (list : ∀ items, (∀ v ∈ items, P v) → P (.list items)) (v : Value) : P v := by
  match v with
  | .number _ | .text _ | .boolean _ | .procedure _ => exact plain _ rfl
  | .list items =>
    refine list items fun w hw => ?_
    have hsize : sizeOf w < sizeOf items := List.sizeOf_lt_of_mem hw
    exact induction_members plain list w
termination_by sizeOf v
decreasing_by
  simp only [Value.list.sizeOf_spec]
  omega

/-- Two lists are equally long, and their members are equal at every place. -/
def EqualEverywhere (as bs : List Value) : Prop :=
  as.length = bs.length ∧
    ∀ (i : Nat) (ha : i < as.length) (hb : i < bs.length), (as[i]).equal bs[i] = true

theorem equalAll_iff {as bs : List Value} : equalAll as bs = true ↔ EqualEverywhere as bs := by
  have hforall : equalAll as bs = true ↔ List.Forall₂ (fun a b => a.equal b = true) as bs := by
    induction as generalizing bs with
    | nil => cases bs <;> simp [equalAll]
    | cons a as ih => cases bs <;> simp [equalAll, ih]
  exact hforall.trans List.forall₂_iff_get

/-- How two values can be equal. -/
inductive Alike : Value → Value → Prop where
  | number {x y : Float} : (x == y) = true → Alike (.number x) (.number y)
  | text (s : String) : Alike (.text s) (.text s)
  | boolean (b : Bool) : Alike (.boolean b) (.boolean b)
  | procedure {p q : Procedure} : p.same q = true → Alike (.procedure p) (.procedure q)
  | list {as bs : List Value} : EqualEverywhere as bs → Alike (.list as) (.list bs)

theorem equal_iff {a b : Value} : a.equal b = true ↔ Alike a b := by
  constructor
  · intro h
    cases a <;> cases b <;> simp only [equal, beq_iff_eq, Bool.false_eq_true] at h
    · exact .number h
    · exact h ▸ .text _
    · exact h ▸ .boolean _
    · exact .list (equalAll_iff.1 h)
    · exact .procedure h
  · intro h
    cases h with
    | number h => exact h
    | text s => exact beq_self_eq_true s
    | boolean b => exact beq_self_eq_true b
    | procedure h => exact h
    | list h => exact equalAll_iff.2 h

theorem equal_list_iff {as bs : List Value} :
    (Value.list as).equal (.list bs) = true ↔ EqualEverywhere as bs :=
  equalAll_iff

theorem Alike.kindName {a b : Value} (h : Alike a b) : a.kindName = b.kindName := by
  cases h <;> rfl

theorem equal_symm {a b : Value} (h : a.equal b = true) : b.equal a = true := by
  induction a using induction_members generalizing b with
  | plain a ha =>
    cases equal_iff.1 h with
    | number h => exact equal_iff.2 (.number (number_beq_symm h))
    | text | boolean => exact h
    | procedure h => exact equal_iff.2 (.procedure (Procedure.same_comm _ _ ▸ h))
    | list => cases ha
  | list as ih =>
    cases equal_iff.1 h with
    | list hlists =>
      obtain ⟨hlength, hplaces⟩ := hlists
      exact equal_list_iff.2 ⟨hlength.symm, fun i hb ha =>
        ih _ (List.getElem_mem ha) (hplaces i ha hb)⟩

theorem equal_comm (a b : Value) : a.equal b = b.equal a :=
  Bool.eq_iff_iff.2 ⟨equal_symm, equal_symm⟩

theorem equal_trans {a b c : Value} (hab : a.equal b = true) (hbc : b.equal c = true) :
    a.equal c = true := by
  induction a using induction_members generalizing b c with
  | plain a ha =>
    cases equal_iff.1 hab with
    | number hab =>
      cases equal_iff.1 hbc with
      | number hbc => exact equal_iff.2 (.number (number_beq_trans hab hbc))
    | text | boolean => exact hbc
    | procedure hab =>
      cases equal_iff.1 hbc with
      | procedure hbc => exact equal_iff.2 (.procedure (Procedure.same_trans hab hbc))
    | list => cases ha
  | list as ih =>
    cases equal_iff.1 hab with
    | list hfirst =>
      cases equal_iff.1 hbc with
      | list hsecond =>
        refine equal_list_iff.2 ⟨hfirst.1.trans hsecond.1, fun i ha hc => ?_⟩
        have hb := hfirst.1 ▸ ha
        exact ih _ (List.getElem_mem ha) (hfirst.2 i ha hb) (hsecond.2 i hb hc)

/-! ### What is not a number -/

mutual

/-- Does a value hold "not a number", at any depth? -/
def holdsNaN : Value → Bool
  | .number n => n.isNaN
  | .list items => anyHoldsNaN items
  | _ => false

def anyHoldsNaN : List Value → Bool
  | [] => false
  | v :: vs => v.holdsNaN || anyHoldsNaN vs

end

theorem anyHoldsNaN_iff {items : List Value} :
    anyHoldsNaN items = true ↔ ∃ v ∈ items, v.holdsNaN = true := by
  induction items with
  | nil => simp [anyHoldsNaN]
  | cons v vs ih => simp [anyHoldsNaN, ih]

theorem holdsNaN_list_iff {items : List Value} :
    (Value.list items).holdsNaN = true ↔ ∃ v ∈ items, v.holdsNaN = true :=
  anyHoldsNaN_iff

/-- A value equals itself unless it holds "not a number". -/
theorem equal_self {v : Value} (h : v.holdsNaN = false) : v.equal v = true := by
  induction v using induction_members with
  | plain v hv =>
    cases v with
    | number x =>
      have hx : x.isNaN = false := h
      rw [equal, number_beq_self, hx]
      rfl
    | text s => exact beq_self_eq_true s
    | boolean b => exact beq_self_eq_true b
    | procedure p => exact p.same_self
    | list => cases hv
  | list items ih =>
    refine equal_list_iff.2 ⟨rfl, fun i hi _ => ih _ (List.getElem_mem hi) ?_⟩
    rw [Bool.eq_false_iff] at h ⊢
    exact fun hnan => h (holdsNaN_list_iff.2 ⟨_, List.getElem_mem hi, hnan⟩)

/-- What holds "not a number" equals nothing. -/
theorem not_equal_of_holdsNaN {v : Value} (h : v.holdsNaN = true) (w : Value) : v.equal w = false := by
  rw [Bool.eq_false_iff]
  intro heq
  have hself : v.equal v = true := equal_trans heq (equal_symm heq)
  clear heq
  induction v using induction_members with
  | plain v hv =>
    cases v with
    | number x =>
      have hx : x.isNaN = true := h
      rw [equal, number_beq_self, hx] at hself
      cases hself
    | list => cases hv
    | _ => cases h
  | list items ih =>
    obtain ⟨u, hu, hnan⟩ := holdsNaN_list_iff.1 h
    obtain ⟨i, hi, rfl⟩ := List.mem_iff_getElem.1 hu
    exact ih _ hu hnan ((equal_list_iff.1 hself).2 i hi hi)

end Value

end Logo
